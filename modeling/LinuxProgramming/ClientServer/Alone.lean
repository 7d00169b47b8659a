import Mathlib.Data.List.TakeWhile
import LinuxProgramming.ClientServer.Framing
import LinuxProgramming.TaggedLog

/-! # A client alone with the server

The server serves its clients through shared state: one object that every `recv` writes into, one
array of events, one table of descriptors whose numbers are used again.  None of it lets a client
notice another.  `alone` is the server with a single client, its state that client's connection;
`independent` says that any run of the server is, for each client, a run of `alone`, and that
`alone` has no other runs.  The lines of output about the client are the same too, if its names end
within `m_name`; the reader of a name that does not goes on in the memory behind the object. -/

namespace LinuxProgramming.ClientServer

/-! ### What the server prints -/

inductive Line where
  | established
  /-- "Received " `n` " bytes but we need " ... -/
  | nonIntegrated (n : ℤ)
  | corrupted (name : List Byte)
  | valid (name : List Byte)
deriving DecidableEq

/-- What `%s` prints of `getName()`: the characters before the first NUL, in `m_name` or, if it has
none, in the memory behind the object. -/
def WorkItem.nameFrom (w : WorkItem) (behind : List Byte) : List Byte :=
  (w.name ++ behind).takeWhile (· ≠ 0)

theorem nameFrom_eq {w : WorkItem} (h : 0#8 ∈ w.name) (behind : List Byte) :
    w.nameFrom behind = w.getName := by
  unfold WorkItem.nameFrom WorkItem.getName
  rw [List.takeWhile_append, if_neg]
  intro hlen
  have hall := List.takeWhile_eq_self_iff.mp ((List.takeWhile_prefix _).eq_of_length hlen)
  exact absurd (hall _ h) (by decide)

/-- The lines of the branch `events & EPOLLIN`, with the connection that they are about; `behind`
is the memory behind the object. -/
def State.serveLines (s : State) (behind : List Byte) (fd : ℕ) : List (Option ℕ × Line) :=
  match s.fds fd with
  | none => [(none, .nonIntegrated (-1))]
  | some c =>
      let n := (s.conn c).recvResult
      let s' := s.recv c
      if n = 0 then []
      else if n ≠ itemSize then [(some c, .nonIntegrated n)]
      else if s'.witem.validate = false then [(some c, .corrupted (s'.witem.nameFrom behind))]
      else [(some c, .valid (s'.witem.nameFrom behind))]

/-- What a step prints.  The line about a new client comes also when `accept` has failed. -/
def printed (behind : State → List Byte) (s : State) : Act → List (Option ℕ × Line)
  | .handle _ =>
      match s.events with
      | [] => []
      | e :: es =>
          let s' := { s with events := es }
          if e.fd = s.mSocket then [(none, .established)]
          else if e.epollin then s'.serveLines (behind s) e.fd
          else []
  | _ => []

/-! ### A single client -/

inductive ConnAct where
  | connect
  | write (k : Cooked)
  | cutOff (k : Cooked) (n : ℕ)
  | close
  | arrive (n : ℕ)
  | finArrive
  | accept
  | recv

namespace Conn

/-- The record that `recv` finds, if it finds a whole one. -/
def wholeRecord (k : Conn) : Option WorkItem :=
  if h : itemSize ≤ k.received.length then
    some (.ofBytes (k.received.take itemSize) (by rw [List.length_take, min_eq_left h]))
  else none

def recv (k : Conn) : Conn :=
  match k.wholeRecord with
  | some w => { k with
      received := k.received.drop itemSize
      validated := k.validated ++ [(w, w.validate)] }
  | none => { k with received := k.received.drop itemSize, stage := .closed }

def recvLines (k : Conn) : List Line :=
  match k.wholeRecord with
  | some w => if w.validate then [.valid w.getName] else [.corrupted w.getName]
  | none => if k.received = [] then [] else [.nonIntegrated k.received.length]

def step (k : Conn) : ConnAct → Option Conn
  | .connect => if k.stage = .absent then some { k with stage := .queued } else none
  | .write item =>
      if k.writable then
        some { k with
          written := k.written ++ [item.item]
          inFlight := k.inFlight ++ item.item.toBytes }
      else none
  | .cutOff item n =>
      if k.writable ∧ n < itemSize then
        some { k with
          cut := item.item.toBytes.take n
          inFlight := k.inFlight ++ item.item.toBytes.take n
          clientClosed := true }
      else none
  | .close => if k.writable then some { k with clientClosed := true } else none
  | .arrive n =>
      if 0 < n ∧ n ≤ k.inFlight.length ∧ k.stage ≠ .closed then
        some { k with
          inFlight := k.inFlight.drop n
          received := k.received ++ k.inFlight.take n }
      else none
  | .finArrive =>
      if k.clientClosed ∧ k.inFlight = [] then some { k with fin := true } else none
  | .accept => if k.stage = .queued then some { k with stage := .accepted } else none
  | .recv =>
      if k.stage = .accepted ∧ (k.received ≠ [] ∨ k.fin = true) then some k.recv else none

/-- What the server prints about the client. -/
def printed (k : Conn) : ConnAct → List Line
  | .recv => k.recvLines
  | _ => []

end Conn

/-- The server with a single client. -/
def alone : Lts Conn ConnAct where
  init k := k = .fresh
  step := Conn.step

/-- What a step of the server does to connection `c`. -/
def observe (c : ℕ) (s : State) : Act → List ConnAct
  | .connect c' => if c' = c then [.connect] else []
  | .write c' k => if c' = c then [.write k] else []
  | .cutOff c' k n => if c' = c then [.cutOff k n] else []
  | .close c' => if c' = c then [.close] else []
  | .arrive c' n => if c' = c then [.arrive n] else []
  | .finArrive c' => if c' = c then [.finArrive] else []
  | .epollWait _ => []
  | .handle newFd =>
      match s.events with
      | [] => []
      | e :: _ =>
          if e.fd = s.mSocket then
            if newFd.isSome ∧ s.backlog.head? = some c then [.accept] else []
          else if e.epollin ∧ s.fds e.fd = some c then [.recv]
          else []

/-! ### One step -/

theorem wholeRecord_of_le {k : Conn} (h : itemSize ≤ k.received.length) (w : WorkItem) :
    k.wholeRecord = some (w.overwrite (k.received.take itemSize)) := by
  have hlen : (k.received.take itemSize).length = itemSize := by
    rw [List.length_take, min_eq_left h]
  unfold Conn.wholeRecord
  rw [dif_pos h, Option.some.injEq]
  apply WorkItem.toBytes_injective
  rw [WorkItem.toBytes_ofBytes, length_overwrite _ hlen]

theorem wholeRecord_of_lt {k : Conn} (h : k.received.length < itemSize) : k.wholeRecord = none :=
  dif_neg (not_le_of_gt h)

section serve
variable (s : State) {fd c : ℕ}

/-- The object that all connections share does not matter. -/
theorem serve_conn (hfd : s.fds fd = some c) :
    (s.serve fd).conn = Function.update s.conn c (s.conn c).recv := by
  unfold Conn.recv
  rcases Nat.lt_or_ge (s.conn c).received.length itemSize with hlt | hle
  · rw [serve_of_lt s hfd hlt, recv_close, wholeRecord_of_lt hlt]
  · rw [serve_of_le s hfd hle, recv_validate, wholeRecord_of_le hle s.witem]

/-- All the lines are about the connection behind the descriptor. -/
theorem serveLines_tag (hfd : s.fds fd = some c) {behind : List Byte} {e : Option ℕ × Line}
    (he : e ∈ s.serveLines behind fd) : e.1 = some c := by
  unfold State.serveLines at he
  rw [hfd] at he
  simp only at he
  split at he
  · cases he
  · split at he
    · rw [List.mem_singleton.mp he]
    · split at he <;> rw [List.mem_singleton.mp he]

theorem serveLines_eq (hfd : s.fds fd = some c)
    (hready : (s.conn c).received ≠ [] ∨ (s.conn c).fin = true)
    (hname : ∀ w, (s.conn c).wholeRecord = some w → 0#8 ∈ w.name) (behind : List Byte) :
    s.serveLines behind fd = (s.conn c).recvLines.map (some c, ·) := by
  unfold State.serveLines Conn.recvLines
  rw [hfd]
  simp only
  rcases Nat.lt_or_ge (s.conn c).received.length itemSize with hlt | hle
  · rw [wholeRecord_of_lt hlt]
    unfold Conn.recvResult
    by_cases hnil : (s.conn c).received = []
    · have hfin : (s.conn c).fin = true := hready.resolve_left fun h => h hnil
      rw [if_pos hnil, if_pos hfin, if_pos rfl]
      simp only [hnil, if_true, List.map_nil]
    · have hpos := List.length_pos_iff.mpr hnil
      rw [if_neg hnil, List.take_of_length_le hlt.le, if_neg (by omega), if_pos (by omega)]
      simp only [hnil, if_false, List.map_cons, List.map_nil]
  · have hnil : (s.conn c).received ≠ [] := by
      intro hnil
      rw [hnil] at hle
      exact absurd hle (by decide)
    have hresult : (s.conn c).recvResult = itemSize := by
      unfold Conn.recvResult
      rw [if_neg hnil, List.length_take, min_eq_left hle]
    have hwitem : (s.recv c).witem = s.witem.overwrite ((s.conn c).received.take itemSize) := rfl
    have hwhole := wholeRecord_of_le hle s.witem
    rw [hwhole, hresult, hwitem, if_neg (by decide), if_neg (by simp),
      nameFrom_eq (hname _ hwhole)]
    simp only
    cases (s.witem.overwrite ((s.conn c).received.take itemSize)).validate <;> rfl

end serve

/-- If the record that a `recv` on connection `c` would find is whole, its name ends in `m_name`. -/
def State.Terminated (s : State) (c : ℕ) : Prop :=
  (s.conn c).stage = .accepted → ∀ w, (s.conn c).wholeRecord = some w → 0#8 ∈ w.name

/-- A step of connection `c'`, as connection `c` sees it. -/
theorem exec_update {f : ℕ → Conn} {c c' : ℕ} {k : Conn} {a : ConnAct}
    (h : (f c').step a = some k) :
    alone.exec (f c) (if c' = c then [a] else []) = some (Function.update f c' k c) := by
  by_cases hc : c' = c
  · subst hc
    rw [if_pos rfl, Function.update_self, alone.exec_cons_of_step [] h, Lts.exec_nil]
  · rw [if_neg hc, Function.update_of_ne (Ne.symm hc), Lts.exec_nil]

/-- A step that prints nothing. -/
theorem setConn_alone {f : ℕ → Conn} {c c' : ℕ} {k : Conn} {a : ConnAct}
    (hstep : (f c').step a = some k) (hsilent : ∀ k : Conn, k.printed a = []) :
    alone.exec (f c) (if c' = c then [a] else []) = some (Function.update f c' k c) ∧
    [] = alone.trace Conn.printed (f c) (if c' = c then [a] else []) := by
  refine ⟨exec_update hstep, ?_⟩
  split
  · simp only [Lts.trace, hsilent]
    split <;> rfl
  · rfl

theorem handle_alone {s s' : State} (hW : Wired s) {newFd : Option ℕ}
    (hs : s.handle newFd = some s') (c : ℕ) :
    alone.exec (s.conn c) (observe c s (.handle newFd)) = some (s'.conn c) ∧
    ∀ behind, s.Terminated c →
      part (printed behind s (.handle newFd)) (some c) =
        alone.trace Conn.printed (s.conn c) (observe c s (.handle newFd)) := by
  unfold State.handle at hs
  unfold observe printed
  cases he : s.events with
  | nil =>
      rw [he] at hs
      cases hs
  | cons e es =>
      rw [he] at hs
      simp only at hs ⊢
      by_cases hlisten : e.fd = s.mSocket
      · rw [if_pos hlisten] at hs
        simp only [if_pos hlisten]
        unfold State.accept at hs
        cases newFd with
        | none =>
            cases hs
            exact ⟨rfl, fun _ _ => rfl⟩
        | some fd =>
            cases hb : s.backlog with
            | nil =>
                simp only [hb, reduceCtorEq] at hs
            | cons c' cs =>
                simp only [hb] at hs
                split at hs
                · cases hs
                  have hq : (s.conn c').stage = .queued :=
                    hW.queued c' (by rw [hb]; exact List.mem_cons_self)
                  simp only [Option.isSome_some, List.head?_cons, Option.some.injEq, true_and]
                  obtain ⟨hexec, hlines⟩ := setConn_alone (f := s.conn) (c := c)
                    (a := .accept) (if_pos hq) fun _ => rfl
                  exact ⟨hexec, fun _ _ => hlines⟩
                · cases hs
      · rw [if_neg hlisten] at hs
        simp only [if_neg hlisten]
        obtain ⟨c', hfd, hready⟩ := hW.events_ready e (by rw [he]; exact List.mem_cons_self) hlisten
        by_cases hin : e.epollin = true
        · rw [if_pos hin] at hs
          cases hs
          have hstep : (s.conn c').step .recv = some (s.conn c').recv :=
            if_pos ⟨hW.accepted _ _ hfd, hready hin⟩
          have hconn := serve_conn { s with events := es } hfd
          rw [hconn]
          simp only [hin, hfd, Option.some.injEq, true_and, if_true]
          refine ⟨exec_update hstep, fun behind hname => ?_⟩
          split
          · next hc =>
              subst hc
              rw [serveLines_eq { s with events := es } hfd (hready hin)
                (hname (hW.accepted _ _ hfd)), part_map_self]
              simp [Lts.trace, alone, hstep, Conn.printed]
          · next hc =>
              refine part_eq_nil fun e' he' => ?_
              rw [serveLines_tag { s with events := es } hfd he']
              simpa using hc
        · rw [if_neg hin] at hs
          cases hs
          simp only [hin, false_and, if_false, Bool.false_eq_true]
          exact ⟨rfl, fun _ _ => rfl⟩

theorem step_alone {s s' : State} (hW : Wired s) {a : Act} (hs : step s a = some s') (c : ℕ) :
    alone.exec (s.conn c) (observe c s a) = some (s'.conn c) ∧
    ∀ behind, s.Terminated c →
      part (printed behind s a) (some c) =
        alone.trace Conn.printed (s.conn c) (observe c s a) := by
  have hsilent : ∀ {c' : ℕ} {k : Conn} {b : ConnAct}, (s.conn c').step b = some k →
      (∀ k : Conn, k.printed b = []) →
      alone.exec (s.conn c) (if c' = c then [b] else []) =
          some (Function.update s.conn c' k c) ∧
        ∀ _ : State → List Byte, s.Terminated c →
          [] = alone.trace Conn.printed (s.conn c) (if c' = c then [b] else []) := by
    intro c' k b hstep hnone
    obtain ⟨hexec, hlines⟩ := setConn_alone (f := s.conn) (c := c) hstep hnone
    exact ⟨hexec, fun _ _ => hlines⟩
  cases a with
  | connect c' =>
      obtain ⟨hc, hs⟩ := Option.ite_none_right_eq_some.mp hs
      cases hs
      exact hsilent (if_pos hc) fun _ => rfl
  | write c' k =>
      obtain ⟨hw, hs⟩ := Option.ite_none_right_eq_some.mp hs
      cases hs
      exact hsilent (if_pos hw) fun _ => rfl
  | cutOff c' k n =>
      obtain ⟨hw, hs⟩ := Option.ite_none_right_eq_some.mp hs
      cases hs
      exact hsilent (if_pos hw) fun _ => rfl
  | close c' =>
      obtain ⟨hw, hs⟩ := Option.ite_none_right_eq_some.mp hs
      cases hs
      exact hsilent (if_pos hw) fun _ => rfl
  | arrive c' n =>
      obtain ⟨hn, hs⟩ := Option.ite_none_right_eq_some.mp hs
      cases hs
      exact hsilent (if_pos hn) fun _ => rfl
  | finArrive c' =>
      obtain ⟨hf, hs⟩ := Option.ite_none_right_eq_some.mp hs
      cases hs
      exact hsilent (if_pos hf) fun _ => rfl
  | epollWait es =>
      rw [(epollWait_spec hW hs).2]
      exact ⟨rfl, fun _ _ => rfl⟩
  | handle newFd => exact handle_alone hW hs c

/-- The server is, for each client, the server with that client alone. -/
def toAlone (c : ℕ) : system.Simulation alone where
  rel s k := s.conn c = k
  obs := observe c
  init := by
    rintro s ⟨mSocket, rfl⟩
    exact ⟨.fresh, rfl, rfl⟩
  step := by
    rintro s a s' k hr rfl hs
    exact ⟨s'.conn c, (step_alone (reachable_wired hr) hs c).1, rfl⟩

/-! ### Nothing else happens to a client alone -/

section solo
variable (mSocket fd c : ℕ)

/-- The server with nobody but client `c`, whose descriptor is `fd`, between two rounds. -/
def solo (k : Conn) (witem : WorkItem) : State where
  conn := Function.update (fun _ => .fresh) c k
  fds := if k.stage = .accepted then Function.update (fun _ => none) fd (some c) else fun _ => none
  mSocket := mSocket
  backlog := if k.stage = .queued then [c] else []
  events := []
  witem := witem

/-- How the server comes to a step of the client. -/
def script : ConnAct → List Act
  | .connect => [.connect c]
  | .write k => [.write c k]
  | .cutOff k n => [.cutOff c k n]
  | .close => [.close c]
  | .arrive n => [.arrive c n]
  | .finArrive => [.finArrive c]
  | .accept => [.epollWait [⟨mSocket, true⟩], .handle (some fd)]
  | .recv => [.epollWait [⟨fd, true⟩], .handle none]

variable {mSocket fd c}

@[simp] theorem solo_conn (k : Conn) (witem : WorkItem) :
    (solo mSocket fd c k witem).conn c = k := by
  simp only [solo, Function.update_self]

theorem solo_fds {k : Conn} (h : k.stage = .accepted) (witem : WorkItem) :
    (solo mSocket fd c k witem).fds = Function.update (fun _ => none) fd (some c) := if_pos h

/-- A step of the client that leaves its stage as it is. -/
theorem solo_setConn {k k' : Conn} (hstage : k'.stage = k.stage) (witem : WorkItem) :
    (solo mSocket fd c k witem).setConn c k' = solo mSocket fd c k' witem := by
  unfold solo State.setConn
  simp only [Function.update_idem, hstage]

variable (mSocket fd c) in
/-- The server receives. -/
theorem solo_serve {k : Conn} (hst : k.stage = .accepted) (witem : WorkItem) :
    ∃ witem', (solo mSocket fd c k witem).serve fd = solo mSocket fd c k.recv witem' := by
  have hfd : (solo mSocket fd c k witem).fds fd = some c := by
    rw [solo_fds hst, Function.update_self]
  refine ⟨witem.overwrite (k.received.take itemSize), ?_⟩
  unfold Conn.recv
  rcases Nat.lt_or_ge k.received.length itemSize with hlt | hle
  · rw [serve_of_lt _ hfd (by rwa [solo_conn]), recv_close, wholeRecord_of_lt hlt, solo_fds hst,
      solo_conn]
    unfold solo
    simp only [Function.update_idem, hst, reduceCtorEq, if_false]
    congr 1
    funext fd'
    by_cases hfd' : fd' = fd
    · rw [hfd', Function.update_self]
    · rw [Function.update_of_ne hfd']
  · rw [serve_of_le _ hfd (by rwa [solo_conn]), recv_validate, wholeRecord_of_le hle witem,
      solo_conn]
    unfold solo
    simp only [Function.update_idem, hst]

/-- `epoll_wait` reports one descriptor, and the server handles it. -/
theorem exec_round (c : ℕ) {s s' : State} {e : Event} {newFd : Option ℕ} (hevents : s.events = [])
    (hready : s.ready e = true)
    (hs : State.handle { s with events := [e] } newFd = some s') :
    system.exec s [.epollWait [e], .handle newFd] = some s' ∧
    system.trace (observe c) s [.epollWait [e], .handle newFd] =
      observe c { s with events := [e] } (.handle newFd) := by
  have hwait : step s (.epollWait [e]) = some { s with events := [e] } := by
    simp [step, hevents, maxEventsReceived, hready]
  have hhandle : step { s with events := [e] } (.handle newFd) = some s' := hs
  constructor
  · simp only [Lts.exec, system, hwait, hhandle, Option.bind_some]
  · simp only [Lts.trace, system, hwait, hhandle, List.append_nil]
    rfl

/-- A step of the network or of the client itself. -/
theorem exec_single {s s' : State} {a : Act} {b : ConnAct} (hs : step s a = some s')
    (hobs : observe c s a = [b]) :
    system.exec s [a] = some s' ∧ system.trace (observe c) s [a] = [b] := by
  constructor
  · simp only [Lts.exec, system, hs, Option.bind_some]
  · simp only [Lts.trace, system, hs, hobs, List.append_nil]

theorem solo_step {k k' : Conn} (witem : WorkItem) {a : ConnAct} (hfd : fd ≠ mSocket)
    (h : k.step a = some k') :
    ∃ witem', system.exec (solo mSocket fd c k witem) (script mSocket fd c a) =
        some (solo mSocket fd c k' witem') ∧
      system.trace (observe c) (solo mSocket fd c k witem) (script mSocket fd c a) = [a] := by
  cases a with
  | connect =>
      obtain ⟨hst, h⟩ := Option.ite_none_right_eq_some.mp h
      cases h
      refine ⟨witem, exec_single ?_ (if_pos rfl)⟩
      simp only [step, solo_conn, if_pos hst]
      simp [solo, hst]
  | write item =>
      obtain ⟨hw, h⟩ := Option.ite_none_right_eq_some.mp h
      cases h
      refine ⟨witem, exec_single ?_ (if_pos rfl)⟩
      simp only [step, solo_conn, if_pos hw]
      exact congrArg some (solo_setConn (by rfl) witem)
  | cutOff item n =>
      obtain ⟨hw, h⟩ := Option.ite_none_right_eq_some.mp h
      cases h
      refine ⟨witem, exec_single ?_ (if_pos rfl)⟩
      simp only [step, solo_conn, if_pos hw]
      exact congrArg some (solo_setConn (by rfl) witem)
  | close =>
      obtain ⟨hw, h⟩ := Option.ite_none_right_eq_some.mp h
      cases h
      refine ⟨witem, exec_single ?_ (if_pos rfl)⟩
      simp only [step, solo_conn, if_pos hw]
      exact congrArg some (solo_setConn (by rfl) witem)
  | arrive n =>
      obtain ⟨hn, h⟩ := Option.ite_none_right_eq_some.mp h
      cases h
      refine ⟨witem, exec_single ?_ (if_pos rfl)⟩
      simp only [step, solo_conn, if_pos hn]
      exact congrArg some (solo_setConn (by rfl) witem)
  | finArrive =>
      obtain ⟨hf, h⟩ := Option.ite_none_right_eq_some.mp h
      cases h
      refine ⟨witem, exec_single ?_ (if_pos rfl)⟩
      simp only [step, solo_conn, if_pos hf]
      exact congrArg some (solo_setConn (by rfl) witem)
  | accept =>
      obtain ⟨hst, h⟩ := Option.ite_none_right_eq_some.mp h
      cases h
      have hready : (solo mSocket fd c k witem).ready ⟨mSocket, true⟩ = true := by
        simp [State.ready, solo, hst]
      obtain ⟨hexec, htrace⟩ := exec_round c rfl hready
        (show State.handle _ (some fd) = some (solo mSocket fd c { k with stage := .accepted } witem)
          by simp [State.handle, State.accept, solo, hst, hfd])
      refine ⟨witem, hexec, htrace.trans ?_⟩
      simp [observe, solo, hst]
  | recv =>
      obtain ⟨⟨hst, hdata⟩, h⟩ := Option.ite_none_right_eq_some.mp h
      cases h
      obtain ⟨witem', hserve⟩ := solo_serve mSocket fd c hst witem
      have hready : (solo mSocket fd c k witem).ready ⟨fd, true⟩ = true := by
        simpa [State.ready, solo, hst, hfd] using hdata
      obtain ⟨hexec, htrace⟩ := exec_round c rfl hready
        (show State.handle _ none = some (solo mSocket fd c k.recv witem') by
          rw [← hserve]
          exact if_neg hfd)
      refine ⟨witem', hexec, htrace.trans ?_⟩
      simp [observe, solo, hst, hfd]

theorem solo_exec {k k' : Conn} (witem : WorkItem) {as : List ConnAct} (hfd : fd ≠ mSocket)
    (h : alone.exec k as = some k') :
    ∃ witem', system.exec (solo mSocket fd c k witem) (as.flatMap (script mSocket fd c)) =
        some (solo mSocket fd c k' witem') ∧
      system.trace (observe c) (solo mSocket fd c k witem) (as.flatMap (script mSocket fd c)) =
        as := by
  induction as generalizing k witem with
  | nil =>
      rw [Lts.exec_nil] at h
      cases h
      exact ⟨witem, rfl, rfl⟩
  | cons a as ih =>
      rw [Lts.exec_cons] at h
      obtain ⟨k₁, hk, h⟩ := Option.bind_eq_some_iff.mp h
      obtain ⟨witem₁, hexec, htrace⟩ := solo_step (c := c) witem hfd hk
      obtain ⟨witem', hexec', htrace'⟩ := ih witem₁ h
      refine ⟨witem', ?_, ?_⟩
      · rw [List.flatMap_cons, Lts.exec_append, hexec]
        exact hexec'
      · rw [List.flatMap_cons, Lts.trace_append hexec, htrace, htrace']
        rfl

variable (mSocket fd c) in
theorem start_eq_solo : start mSocket = solo mSocket fd c .fresh (start mSocket).witem := by
  unfold solo
  rw [Function.update_eq_self]
  rfl

end solo

/-! ### A whole run -/

theorem exec_alone {mSocket : ℕ} {ls : List Act} {s : State}
    (h : system.exec (start mSocket) ls = some s) (c : ℕ) :
    alone.exec .fresh (system.trace (observe c) (start mSocket) ls) = some (s.conn c) := by
  obtain ⟨k, hexec, hk⟩ := (toAlone c).exec_trace (.of_init ⟨mSocket, rfl⟩) rfl h
  rw [show s.conn c = k from hk]
  exact hexec

/-- A whole record that has arrived is one that the client has written. -/
theorem mem_written {k : Conn} (hI : ConnInv k) (hst : k.stage = .accepted) {w : WorkItem}
    (hw : k.wholeRecord = some w) : w ∈ k.written := by
  have hle : itemSize ≤ k.received.length := by
    by_contra hlt
    rw [wholeRecord_of_lt (not_le.mp hlt)] at hw
    cases hw
  have hbytes : w.toBytes = k.received.take itemSize := by
    rw [wholeRecord_of_le hle w, Option.some.injEq] at hw
    rw [← hw, length_overwrite]
    rw [List.length_take, min_eq_left hle]
  have hstep : ConnStep True True k _ := .whole hst hle w hbytes
  exact (hI.step hstep).validated_le.subset (by simp)

/-- Nothing that a client has written is taken back. -/
theorem ConnStep.written_subset {cutOff short : Prop} {k k' : Conn}
    (h : ConnStep cutOff short k k') : k.written ⊆ k'.written := by
  cases h with
  | write item ho => exact List.subset_append_left _ _
  | _ => exact List.Subset.refl _

theorem written_subset_exec {s s' : State} (hr : system.Reachable s) {ls : List Act}
    (he : system.exec s ls = some s') (c : ℕ) : (s.conn c).written ⊆ (s'.conn c).written := by
  induction ls generalizing s with
  | nil =>
      rw [Lts.exec_nil] at he
      cases he
      exact List.Subset.refl _
  | cons a ls ih =>
      rw [Lts.exec_cons] at he
      obtain ⟨s₁, hs, he⟩ := Option.bind_eq_some_iff.mp he
      have hrest := ih (hr.next hs) he
      rcases (step_spec (reachable_wired hr) hs).2 c with heq | hc
      · rwa [heq] at hrest
      · exact List.Subset.trans hc.written_subset hrest

/-- The lines about a client whose names end within `m_name`. -/
theorem lines_alone {s s' : State} (hr : system.Reachable s) {ls : List Act}
    (he : system.exec s ls = some s') {c : ℕ} (hname : ∀ w ∈ (s'.conn c).written, 0#8 ∈ w.name)
    (behind : State → List Byte) :
    part (system.trace (printed behind) s ls) (some c) =
      alone.trace Conn.printed (s.conn c) (system.trace (observe c) s ls) := by
  induction ls generalizing s with
  | nil => rfl
  | cons a ls ih =>
      have hwritten := written_subset_exec hr he c
      rw [Lts.exec_cons] at he
      obtain ⟨s₁, hs, he⟩ := Option.bind_eq_some_iff.mp he
      obtain ⟨hexec, hlines⟩ := step_alone (reachable_wired hr) hs c
      have hhead := hlines behind fun hst w hw =>
        hname w (hwritten (mem_written (reachable_connInv hr c) hst hw))
      have hs' : system.step s a = some s₁ := hs
      simp only [Lts.trace, hs']
      rw [part_append, hhead, ih (hr.next hs) he, Lts.trace_append hexec]

/-- **Independence of the clients.**  In every run the connection of a client is that of a run of
the server with that client alone, through the steps that the run has for the client, and so are
the lines printed about it if its names end within `m_name`; and every run with that client alone
is a run of the server. -/
theorem independent (c mSocket : ℕ) (behind : State → List Byte) :
    (∀ ls s, system.exec (start mSocket) ls = some s →
      let as := system.trace (observe c) (start mSocket) ls
      alone.exec .fresh as = some (s.conn c) ∧
      ((∀ w ∈ (s.conn c).written, 0#8 ∈ w.name) →
        part (system.trace (printed behind) (start mSocket) ls) (some c) =
          alone.trace Conn.printed .fresh as)) ∧
    ∀ as k, alone.exec .fresh as = some k → ∃ ls s, system.exec (start mSocket) ls = some s ∧
      system.trace (observe c) (start mSocket) ls = as ∧ s.conn c = k ∧
      ∀ c' ≠ c, s.conn c' = .fresh := by
  refine ⟨fun ls s h => ⟨exec_alone h c, fun hname =>
    lines_alone (.of_init ⟨mSocket, rfl⟩) h hname behind⟩, fun as k h => ?_⟩
  have hfd : mSocket + 1 ≠ mSocket := Nat.succ_ne_self mSocket
  rw [start_eq_solo mSocket (mSocket + 1) c]
  obtain ⟨witem', hexec, htrace⟩ := solo_exec (c := c) _ hfd h
  refine ⟨_, _, hexec, htrace, solo_conn k witem', fun c' hc' => ?_⟩
  simp only [solo, Function.update_of_ne hc']

end LinuxProgramming.ClientServer
