import LinuxProgramming.ClientServer.WorkItem
import LinuxProgramming.Lts
import Mathlib.Data.List.Nodup
import Mathlib.Logic.Function.Basic

/-! # The server loop of Chapter 15, its clients and the network between them

* **Connections.**  A `Conn` is one client's connection: what the client has written, the bytes
  on their way, and the server's receive buffer.  Connections are numbered in any order and
  there may be any number of them; descriptors are the server's names for the accepted ones.
* **Clients** write whole records built by the constructor, may die in the middle of one
  (`cutOff`), and close.
* **The network** delivers the bytes of a connection in order, in pieces of any size, and at
  last the end of the stream.
* **The server** is the loop of `Server::start`.  `epoll_wait` returns some of the descriptors
  that are ready, each at most once, and one iteration of the inner loop is one step, in which
  `accept` may return any descriptor that is not in use or fail.  `recv` on a socket that is
  `O_NONBLOCK` returns what is there, `MSG_WAITALL` or not.
* **History.**  `written`, `cut` and `validated` are read by no step. -/

namespace LinuxProgramming.ClientServer

/-! ### Connections -/

/-- What `cook_data` hands to the constructor. -/
structure Cooked where
  name : List Byte
  data : List Byte
  fits : data.length ≤ dataLen

def Cooked.item (k : Cooked) : WorkItem := .new k.name k.data k.fits

/-- How far the server has come with a connection. -/
inductive Stage where
  | absent
  | queued
  | accepted
  | closed
deriving DecidableEq

structure Conn where
  stage : Stage
  /-- the records that the client has written whole, in order -/
  written : List WorkItem
  /-- the first bytes of the record in which the client died -/
  cut : List Byte
  clientClosed : Bool
  inFlight : List Byte
  /-- the end of the stream has arrived at the server -/
  fin : Bool
  received : List Byte
  /-- the buffers handed to `validate` for this connection, with its answers -/
  validated : List (WorkItem × Bool)

namespace Conn

/-- A client that has not connected. -/
def fresh : Conn := ⟨.absent, [], [], false, [], false, [], []⟩

/-- All that the client has put on the stream. -/
def stream (k : Conn) : List Byte := k.written.flatMap WorkItem.toBytes ++ k.cut

/-- The bytes of the buffers handed to `validate`. -/
def consumed (k : Conn) : List Byte := (k.validated.map Prod.fst).flatMap WorkItem.toBytes

/-- What `recv` returns for `sizeof(WorkItem)` bytes, or -1 when there is nothing yet. -/
def recvResult (k : Conn) : ℤ :=
  if k.received = [] then if k.fin then 0 else -1 else (k.received.take itemSize).length

end Conn

/-- `recv` into the object: what it got overwrites the first bytes. -/
def WorkItem.overwrite (w : WorkItem) (got : List Byte) : WorkItem :=
  .ofBytes ((got ++ w.toBytes.drop got.length).take itemSize) (by
    rw [List.length_take, List.length_append, List.length_drop, w.length_toBytes]
    omega)

/-! ### The server -/

/-- An entry of `event_result`. -/
structure Event where
  fd : ℕ
  epollin : Bool

/-- `MAX_EVENTS_RECEIVED`. -/
def maxEventsReceived : ℕ := 512

structure State where
  conn : ℕ → Conn
  /-- the connection behind each open descriptor -/
  fds : ℕ → Option ℕ
  mSocket : ℕ
  /-- the connections that wait for `accept` -/
  backlog : List ℕ
  /-- the events of the last `epoll_wait` still to be looked at -/
  events : List Event
  witem : WorkItem

namespace State

/-- Change one connection. -/
def setConn (s : State) (c : ℕ) (k : Conn) : State := { s with conn := Function.update s.conn c k }

/-- `recv(fd, &witem, sizeof(witem), MSG_WAITALL)`, apart from its result. -/
def recv (s : State) (c : ℕ) : State :=
  { s with
    conn := Function.update s.conn c
      { s.conn c with received := (s.conn c).received.drop itemSize }
    witem := s.witem.overwrite ((s.conn c).received.take itemSize) }

/-- `close(fd)`. -/
def close (s : State) (fd c : ℕ) : State :=
  { s with
    conn := Function.update s.conn c { s.conn c with stage := .closed }
    fds := Function.update s.fds fd none }

/-- `witem.validate()`. -/
def validate (s : State) (c : ℕ) : State :=
  s.setConn c { s.conn c with
    validated := (s.conn c).validated ++ [(s.witem, s.witem.validate)] }

/-- The branch `events & EPOLLIN`. -/
def serve (s : State) (fd : ℕ) : State :=
  match s.fds fd with
  | none => s
  | some c =>
      let n := (s.conn c).recvResult
      let s' := s.recv c
      if n = 0 then s'.close fd c
      else if n ≠ itemSize then s'.close fd c
      else s'.validate c

/-- The branch of the listening socket. -/
def accept (s : State) : Option ℕ → Option State
  | none => some s
  | some newFd =>
      match s.backlog with
      | [] => none
      | c :: cs =>
          if s.fds newFd = none ∧ newFd ≠ s.mSocket then
            some { s with
              conn := Function.update s.conn c { s.conn c with stage := .accepted }
              fds := Function.update s.fds newFd (some c)
              backlog := cs }
          else none

/-- One iteration of the inner loop; `newFd` is what `accept` returns, if it is called. -/
def handle (s : State) (newFd : Option ℕ) : Option State :=
  match s.events with
  | [] => none
  | e :: es =>
      let s' := { s with events := es }
      if e.fd = s.mSocket then s'.accept newFd
      else if e.epollin then some (s'.serve e.fd)
      else some s'

/-- The kernel may report the event. -/
def ready (s : State) (e : Event) : Bool :=
  if e.fd = s.mSocket then !s.backlog.isEmpty
  else match s.fds e.fd with
    | none => false
    | some c => !e.epollin || !(s.conn c).received.isEmpty || (s.conn c).fin

end State

/-! ### Steps -/

inductive Act where
  | connect (c : ℕ)
  | write (c : ℕ) (k : Cooked)
  | cutOff (c : ℕ) (k : Cooked) (n : ℕ)
  | close (c : ℕ)
  | arrive (c n : ℕ)
  | finArrive (c : ℕ)
  | epollWait (es : List Event)
  | handle (newFd : Option ℕ)

/-- The client is connected and has not closed. -/
def Conn.writable (k : Conn) : Bool := k.stage ≠ .absent && !k.clientClosed

def step (s : State) : Act → Option State
  | .connect c =>
      if (s.conn c).stage = .absent then
        some { s with
          conn := Function.update s.conn c { s.conn c with stage := .queued }
          backlog := s.backlog ++ [c] }
      else none
  | .write c k =>
      if (s.conn c).writable then
        some (s.setConn c { s.conn c with
          written := (s.conn c).written ++ [k.item]
          inFlight := (s.conn c).inFlight ++ k.item.toBytes })
      else none
  | .cutOff c k n =>
      if (s.conn c).writable ∧ n < itemSize then
        some (s.setConn c { s.conn c with
          cut := k.item.toBytes.take n
          inFlight := (s.conn c).inFlight ++ k.item.toBytes.take n
          clientClosed := true })
      else none
  | .close c =>
      if (s.conn c).writable then some (s.setConn c { s.conn c with clientClosed := true })
      else none
  | .arrive c n =>
      if 0 < n ∧ n ≤ (s.conn c).inFlight.length ∧ (s.conn c).stage ≠ .closed then
        some (s.setConn c { s.conn c with
          inFlight := (s.conn c).inFlight.drop n
          received := (s.conn c).received ++ (s.conn c).inFlight.take n })
      else none
  | .finArrive c =>
      if (s.conn c).clientClosed ∧ (s.conn c).inFlight = [] then
        some (s.setConn c { s.conn c with fin := true })
      else none
  | .epollWait es =>
      if s.events = [] ∧ es.length ≤ maxEventsReceived ∧ (es.map Event.fd).Nodup ∧
          es.all s.ready then
        some { s with events := es }
      else none
  | .handle newFd => s.handle newFd

/-- The name of the object that `start` receives into. -/
def defaultName : List Byte := [100, 101, 102, 97, 117, 108, 116]

/-- The server has entered its loop, and nobody has connected. -/
def start (mSocket : ℕ) : State where
  conn _ := .fresh
  fds _ := none
  mSocket := mSocket
  backlog := []
  events := []
  witem := .new defaultName [] (Nat.zero_le _)

/-- The server with its clients, under every behaviour of the network. -/
def system : Lts State Act where
  init s := ∃ mSocket, s = start mSocket
  step := step

end LinuxProgramming.ClientServer
