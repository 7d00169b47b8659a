import LinuxProgramming.Lts
import LinuxProgramming.Tickets
import Mathlib.Logic.Function.Basic
import Mathlib.Data.BitVec

/-! # The semaphore ring queue

`class Queue` of Chapter 12, shared by threads, and of Chapter 14, shared by processes: the two
headers have the same `push` and `pop` and differ in where the array lives (`m_arr` against the
memory behind the object) and in the process-shared flag of `sem_init`.

* **Fields.** `m_front`, `m_cur_count` and `m_size` are `int`s, read as the integers they
  represent: `Inv.slot_sum` bounds the one sum formed of two of them by `2 * m_size`, so for up
  to `2 ^ 30` slots it is exact (`Inv.sum_fits`); a larger array of work items takes more than
  500 GiB.  The counters `m_pushed_count` and `m_popped_count` grow without bound and are kept
  modulo `2 ^ 32`.
* **Steps.** Every semaphore operation is one step, the body of a critical section under
  `m_lock` is one step, and the item copies `m_arr[slot] = t` and `target = m_arr[slot]`, made
  after `m_lock` is posted, are steps of their own.  `sem_timedwait` takes a unit or fails
  without effect at any time; `sem_wait` returns only with the lock.
* **History.** `History` is auxiliary: no step reads it.  Pushes reserve the ring positions
  `0, 1, 2, …` in the order in which they run their critical section, and pops claim the same
  positions in the order of theirs; position `k` lives in slot `k % m_size`. -/

namespace LinuxProgramming.RingQueue

/-- The data members of `class Queue`. -/
structure Queue (T : Type*) where
  arr : ℤ → T
  front : ℤ
  curCount : ℤ
  size : ℤ
  pushedCount : BitVec 32
  poppedCount : BitVec 32
  lock : ℕ
  popSem : ℕ
  pushSem : ℕ

namespace Queue
variable {T : Type*}

/-- The constructor, over whatever `new T[size]` leaves in the array. -/
def new (size : ℕ) (raw : ℤ → T) : Queue T where
  arr := raw
  front := 0
  curCount := 0
  size := size
  pushedCount := 0
  poppedCount := 0
  lock := 1
  popSem := 0
  pushSem := size

/-- The critical section of `push`: the slot it computes and the queue it leaves. -/
def reserve (q : Queue T) : ℤ × Queue T :=
  ((q.front + q.curCount).tmod q.size,
    { q with curCount := q.curCount + 1, pushedCount := q.pushedCount + 1 })

/-- The critical section of `pop`. -/
def claim (q : Queue T) : ℤ × Queue T :=
  (q.front,
    { q with
      front := (q.front + 1).tmod q.size
      curCount := q.curCount - 1
      poppedCount := q.poppedCount + 1 })

/-- `m_arr[slot] = t`. -/
def copyIn (q : Queue T) (slot : ℤ) (t : T) : Queue T :=
  { q with arr := Function.update q.arr slot t }

section fields
variable (q : Queue T)

@[simp] theorem reserve_size : q.reserve.2.size = q.size := rfl
@[simp] theorem reserve_arr : q.reserve.2.arr = q.arr := rfl
@[simp] theorem reserve_front : q.reserve.2.front = q.front := rfl
@[simp] theorem reserve_curCount : q.reserve.2.curCount = q.curCount + 1 := rfl
@[simp] theorem reserve_pushedCount : q.reserve.2.pushedCount = q.pushedCount + 1 := rfl
@[simp] theorem reserve_lock : q.reserve.2.lock = q.lock := rfl
@[simp] theorem reserve_popSem : q.reserve.2.popSem = q.popSem := rfl
@[simp] theorem reserve_pushSem : q.reserve.2.pushSem = q.pushSem := rfl

@[simp] theorem claim_slot : q.claim.1 = q.front := rfl
@[simp] theorem claim_size : q.claim.2.size = q.size := rfl
@[simp] theorem claim_arr : q.claim.2.arr = q.arr := rfl
@[simp] theorem claim_front : q.claim.2.front = (q.front + 1).tmod q.size := rfl
@[simp] theorem claim_curCount : q.claim.2.curCount = q.curCount - 1 := rfl
@[simp] theorem claim_poppedCount : q.claim.2.poppedCount = q.poppedCount + 1 := rfl
@[simp] theorem claim_lock : q.claim.2.lock = q.lock := rfl
@[simp] theorem claim_popSem : q.claim.2.popSem = q.popSem := rfl
@[simp] theorem claim_pushSem : q.claim.2.pushSem = q.pushSem := rfl

end fields

end Queue

/-! ### Program points -/

/-- Where a thread stands in `push(t)`; `slot` is the local variable of that name and `k` the
ring position it stands for. -/
inductive PushPc (T : Type*) where
  | idle
  | took (t : T)
  | locked (t : T)
  | reserved (t : T) (slot : ℤ) (k : ℕ)
  | unlocked (t : T) (slot : ℤ) (k : ℕ)
  | copied (t : T) (slot : ℤ) (k : ℕ)

/-- Where a thread stands in `pop(target)`. -/
inductive PopPc (T : Type*) where
  | idle
  | took
  | locked
  | claimed (slot : ℤ) (k : ℕ)
  | unlocked (slot : ℤ) (k : ℕ)
  | copied (target : T) (k : ℕ)

/-- What a thread does next in `push`. -/
inductive PushAct (T : Type*) where
  | timeout (t : T)
  | take (t : T)
  | lock
  | reserve
  | unlock
  | copy
  | post

/-- What a thread does next in `pop`. -/
inductive PopAct where
  | timeout
  | take
  | lock
  | claim
  | unlock
  | copy
  | post

namespace PushPc
variable {T : Type*}

/-- The call holds a unit of `m_push_sem` that no pop has seen yet. -/
def busy : PushPc T → ℕ
  | idle => 0
  | _ => 1

/-- The call holds `m_lock`. -/
def holdsLock : PushPc T → ℕ
  | locked _ => 1
  | reserved _ _ _ => 1
  | _ => 0

/-- The ring position of the call, from its critical section to its last semaphore post. -/
def pos : PushPc T → Option ℕ
  | reserved _ _ k => some k
  | unlocked _ _ k => some k
  | copied _ _ k => some k
  | _ => none

/-- The ring position of a call whose copy is still to be made. -/
def pending : PushPc T → Option ℕ
  | reserved _ _ k => some k
  | unlocked _ _ k => some k
  | _ => none

theorem pos_of_pending {pc : PushPc T} {k : ℕ} (h : pc.pending = some k) : pc.pos = some k := by
  cases pc <;> simp_all [pending, pos]

theorem holding_pos_le (pc : PushPc T) : holding pc.pos ≤ pc.busy := by
  cases pc <;> simp [pos, busy]

end PushPc

namespace PopPc
variable {T : Type*}

def busy : PopPc T → ℕ
  | idle => 0
  | _ => 1

def holdsLock : PopPc T → ℕ
  | locked => 1
  | claimed _ _ => 1
  | _ => 0

/-- The call holds a unit of `m_pop_sem` and has not claimed a position yet. -/
def waiting : PopPc T → ℕ
  | took => 1
  | locked => 1
  | _ => 0

def pos : PopPc T → Option ℕ
  | claimed _ k => some k
  | unlocked _ k => some k
  | copied _ k => some k
  | _ => none

def pending : PopPc T → Option ℕ
  | claimed _ k => some k
  | unlocked _ k => some k
  | _ => none

theorem pos_of_pending {pc : PopPc T} {k : ℕ} (h : pc.pending = some k) : pc.pos = some k := by
  cases pc <;> simp_all [pending, pos]

/-- A call in progress waits for a position or has one. -/
theorem busy_eq (pc : PopPc T) : pc.busy = pc.waiting + holding pc.pos := by
  cases pc <;> rfl

end PopPc

/-! ### States and steps -/

/-- What has happened so far, for the statements only. -/
structure History (T : Type*) where
  /-- the items of the reserved positions, in order -/
  items : List T
  /-- how many positions pops have claimed -/
  claims : ℕ
  /-- the positions whose push has posted `m_pop_sem` -/
  posted : Finset ℕ
  /-- the positions whose pop has posted `m_push_sem` -/
  freed : Finset ℕ
  /-- the position whose push copied into a slot last -/
  writer : ℤ → Option ℕ
  /-- the items returned by successful pops, in order -/
  returned : List T

/-- A queue with `P` threads that push and `C` threads that pop. -/
structure State (T : Type*) (P C : ℕ) where
  q : Queue T
  push : Fin P → PushPc T
  pop : Fin C → PopPc T
  hist : History T

/-- A label names the thread that moves and what it does. -/
inductive Act (T : Type*) (P C : ℕ) where
  | push (i : Fin P) (a : PushAct T)
  | pop (i : Fin C) (a : PopAct)

section steps
variable {T : Type*} {P C : ℕ}

/-- One step of thread `i` in `push`. -/
def pushStep (s : State T P C) (i : Fin P) : PushAct T → Option (State T P C)
  | .timeout _ =>
      match s.push i with
      | .idle => some s
      | _ => none
  | .take t =>
      match s.push i with
      | .idle =>
          if 0 < s.q.pushSem then
            some { s with
              q := { s.q with pushSem := s.q.pushSem - 1 }
              push := Function.update s.push i (.took t) }
          else none
      | _ => none
  | .lock =>
      match s.push i with
      | .took t =>
          if 0 < s.q.lock then
            some { s with
              q := { s.q with lock := s.q.lock - 1 }
              push := Function.update s.push i (.locked t) }
          else none
      | _ => none
  | .reserve =>
      match s.push i with
      | .locked t =>
          some { s with
            q := s.q.reserve.2
            push := Function.update s.push i (.reserved t s.q.reserve.1 s.hist.items.length)
            hist := { s.hist with items := s.hist.items ++ [t] } }
      | _ => none
  | .unlock =>
      match s.push i with
      | .reserved t slot k =>
          some { s with
            q := { s.q with lock := s.q.lock + 1 }
            push := Function.update s.push i (.unlocked t slot k) }
      | _ => none
  | .copy =>
      match s.push i with
      | .unlocked t slot k =>
          some { s with
            q := s.q.copyIn slot t
            push := Function.update s.push i (.copied t slot k)
            hist := { s.hist with writer := Function.update s.hist.writer slot (some k) } }
      | _ => none
  | .post =>
      match s.push i with
      | .copied _ _ k =>
          some { s with
            q := { s.q with popSem := s.q.popSem + 1 }
            push := Function.update s.push i .idle
            hist := { s.hist with posted := insert k s.hist.posted } }
      | _ => none

/-- One step of thread `i` in `pop`. -/
def popStep (s : State T P C) (i : Fin C) : PopAct → Option (State T P C)
  | .timeout =>
      match s.pop i with
      | .idle => some s
      | _ => none
  | .take =>
      match s.pop i with
      | .idle =>
          if 0 < s.q.popSem then
            some { s with
              q := { s.q with popSem := s.q.popSem - 1 }
              pop := Function.update s.pop i .took }
          else none
      | _ => none
  | .lock =>
      match s.pop i with
      | .took =>
          if 0 < s.q.lock then
            some { s with
              q := { s.q with lock := s.q.lock - 1 }
              pop := Function.update s.pop i .locked }
          else none
      | _ => none
  | .claim =>
      match s.pop i with
      | .locked =>
          some { s with
            q := s.q.claim.2
            pop := Function.update s.pop i (.claimed s.q.claim.1 s.hist.claims)
            hist := { s.hist with claims := s.hist.claims + 1 } }
      | _ => none
  | .unlock =>
      match s.pop i with
      | .claimed slot k =>
          some { s with
            q := { s.q with lock := s.q.lock + 1 }
            pop := Function.update s.pop i (.unlocked slot k) }
      | _ => none
  | .copy =>
      match s.pop i with
      | .unlocked slot k =>
          some { s with pop := Function.update s.pop i (.copied (s.q.arr slot) k) }
      | _ => none
  | .post =>
      match s.pop i with
      | .copied target k =>
          some { s with
            q := { s.q with pushSem := s.q.pushSem + 1 }
            pop := Function.update s.pop i .idle
            hist := { s.hist with
              freed := insert k s.hist.freed
              returned := s.hist.returned ++ [target] } }
      | _ => none

def step (s : State T P C) : Act T P C → Option (State T P C)
  | .push i a => pushStep s i a
  | .pop i a => popStep s i a

/-- The state after the constructor, with no call in progress. -/
def start (size : ℕ) (raw : ℤ → T) : State T P C where
  q := .new size raw
  push := fun _ => .idle
  pop := fun _ => .idle
  hist := ⟨[], 0, ∅, ∅, fun _ => none, []⟩

variable (T P C) in
/-- The queue of capacity `size` under every interleaving of its threads. -/
def system (size : ℕ) : Lts (State T P C) (Act T P C) where
  init s := ∃ raw, s = start size raw
  step := step

end steps

end LinuxProgramming.RingQueue
