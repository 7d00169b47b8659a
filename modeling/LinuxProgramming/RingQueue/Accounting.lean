import LinuxProgramming.RingQueue.Runs

/-! # What the counters of the ring queue say

`Accounting` collects what holds of the semaphores and the counters in every state, for any
number of threads on either side: it is the invariant `Inv` read in the fields of `class Queue`
alone.  The history is gone: `m_cur_count` stays between zero and the size because reservations
are bounded by frees and claims by postings (`Inv.items_le`, `Inv.claims_le`). -/

namespace LinuxProgramming.RingQueue

variable {T : Type*} {P C : ℕ}

/-- The local variable `slot` of a call that has computed it. -/
def PushPc.slot : PushPc T → Option ℤ
  | reserved _ slot _ => some slot
  | unlocked _ slot _ => some slot
  | copied _ slot _ => some slot
  | _ => none

def PopPc.slot : PopPc T → Option ℤ
  | claimed slot _ => some slot
  | unlocked slot _ => some slot
  | _ => none

/-- The accounting of a queue of capacity `size`, in any state. -/
structure Accounting (size : ℕ) (s : State T P C) : Prop where
  size_eq : s.q.size = size
  /-- the units of the semaphores and the calls in progress, each from its `sem_timedwait` to
  its last `sem_post` -/
  semaphores : s.q.pushSem + s.q.popSem + tally PushPc.busy s.push + tally PopPc.busy s.pop = size
  lock : s.q.lock + tally PushPc.holdsLock s.push + tally PopPc.holdsLock s.pop = 1
  curCount : 0 ≤ s.q.curCount ∧ s.q.curCount ≤ size
  front : 0 < size → 0 ≤ s.q.front ∧ s.q.front < size
  counters : BitVec.ofInt 32 s.q.curCount = s.q.pushedCount - s.q.poppedCount
  pushSlot : ∀ i slot, (s.push i).slot = some slot → 0 ≤ slot ∧ slot < size
  popSlot : ∀ i slot, (s.pop i).slot = some slot → 0 ≤ slot ∧ slot < size
  /-- a call of `push` that is about to divide -/
  pushModulo : ∀ i t, s.push i = .locked t →
    0 < size ∧ 0 ≤ s.q.front + s.q.curCount ∧ s.q.front + s.q.curCount < 2 * size
  popModulo : ∀ i, s.pop i = .locked → 0 < size
  /-- with no call in progress the semaphores say how full the ring is -/
  quiet : (∀ i, s.push i = .idle) → (∀ i, s.pop i = .idle) →
    (s.q.popSem : ℤ) = s.q.curCount ∧ (s.q.pushSem : ℤ) = size - s.q.curCount ∧
    (s.q.pushSem = 0 → s.q.curCount = size) ∧ (s.q.popSem = 0 → s.q.curCount = 0)

namespace Inv
variable {size : ℕ} {s : State T P C}

theorem curCount_bounds (h : Inv size s) : 0 ≤ s.q.curCount ∧ s.q.curCount ≤ size := by
  have hcount := h.count
  have hclaims := h.claims_le
  have hposted := h.pushTickets.card_le
  have hitems := h.items_le
  have hfreed := h.freed_le
  constructor <;> omega

theorem front_bounds (h : Inv size s) (hsize : 0 < size) : 0 ≤ s.q.front ∧ s.q.front < size := by
  have hmod := Nat.mod_lt s.hist.claims hsize
  rw [h.front]
  constructor <;> omega

theorem counters (h : Inv size s) :
    BitVec.ofInt 32 s.q.curCount = s.q.pushedCount - s.q.poppedCount := by
  have hsum : BitVec.ofInt 32 s.q.curCount + s.q.poppedCount = s.q.pushedCount := by
    rw [h.popped, h.pushed, ← BitVec.ofInt_natCast, ← BitVec.ofInt_add, h.count,
      BitVec.ofInt_natCast]
  rw [← hsum, BitVec.add_sub_cancel]

/-- A call in progress needs a slot. -/
theorem size_pos_of_push (h : Inv size s) {i : Fin P} (hi : 0 < (s.push i).busy) : 0 < size := by
  have htally := tally_pos PushPc.busy hi
  have hsem := h.sem
  omega

theorem size_pos_of_pop (h : Inv size s) {i : Fin C} (hi : 0 < (s.pop i).busy) : 0 < size := by
  have htally := tally_pos PopPc.busy hi
  have hsem := h.sem
  omega

/-- The slot of a ring position lies in the array. -/
theorem slot_bounds {k : ℕ} {slot : ℤ} (hsize : 0 < size) (h : slot = (k % size : ℕ)) :
    0 ≤ slot ∧ slot < size := by
  have hmod := Nat.mod_lt k hsize
  rw [h]
  constructor <;> omega

theorem pushSlot_bounds (h : Inv size s) {i : Fin P} {slot : ℤ}
    (hi : (s.push i).slot = some slot) : 0 ≤ slot ∧ slot < size := by
  have hsound := h.pushSound i
  have hsize : 0 < (s.push i).busy → 0 < size := h.size_pos_of_push
  cases hpc : s.push i with
  | reserved t slot' k | unlocked t slot' k | copied t slot' k =>
      rw [hpc] at hi hsound hsize
      cases hi
      exact slot_bounds (hsize Nat.one_pos) hsound.1
  | idle | took | locked =>
      rw [hpc] at hi
      cases hi

theorem popSlot_bounds (h : Inv size s) {i : Fin C} {slot : ℤ}
    (hi : (s.pop i).slot = some slot) : 0 ≤ slot ∧ slot < size := by
  have hsound := h.popSound i
  have hsize : 0 < (s.pop i).busy → 0 < size := h.size_pos_of_pop
  cases hpc : s.pop i with
  | claimed slot' k | unlocked slot' k =>
      rw [hpc] at hi hsound hsize
      cases hi
      exact slot_bounds (hsize Nat.one_pos) hsound
  | idle | took | locked | copied =>
      rw [hpc] at hi
      cases hi

theorem quiet (h : Inv size s) (hpush : ∀ i, s.push i = .idle) (hpop : ∀ i, s.pop i = .idle) :
    (s.q.popSem : ℤ) = s.q.curCount ∧ (s.q.pushSem : ℤ) = size - s.q.curCount := by
  have hbusyPush := tally_eq_zero PushPc.busy (f := s.push) fun i => by rw [hpush i]; rfl
  have hbusyPop := tally_eq_zero PopPc.busy (f := s.pop) fun i => by rw [hpop i]; rfl
  have hwaiting := tally_eq_zero PopPc.waiting (f := s.pop) fun i => by rw [hpop i]; rfl
  have hholding := tally_eq_zero holding (f := fun i => (s.push i).pos) fun i => by
    rw [hpush i]; rfl
  have hsem := h.sem
  have havail := h.avail
  have hcard := h.pushTickets.card
  have hcount := h.count
  constructor <;> omega

end Inv

/-- **Accounting.**  It holds in every state reached, for any size and any number of threads. -/
theorem accounting {size : ℕ} {s : State T P C} (h : (system T P C size).Reachable s) :
    Accounting size s := by
  have hI := reachable_inv h
  refine
    { size_eq := hI.size_eq
      semaphores := hI.sem
      lock := hI.lock
      curCount := hI.curCount_bounds
      front := hI.front_bounds
      counters := hI.counters
      pushSlot := fun i slot hi => hI.pushSlot_bounds hi
      popSlot := fun i slot hi => hI.popSlot_bounds hi
      pushModulo := fun i t hi => hI.slot_sum hi
      popModulo := fun i hi => hI.size_pos_of_pop (i := i) (by rw [hi]; exact Nat.one_pos)
      quiet := fun hpush hpop => ?_ }
  obtain ⟨hpopSem, hpushSem⟩ := hI.quiet hpush hpop
  refine ⟨hpopSem, hpushSem, fun hfull => ?_, fun hempty => ?_⟩
  · rw [hfull] at hpushSem
    omega
  · rw [hempty] at hpopSem
    exact hpopSem.symm

/-- Two producers on one slot: the first is in its critical section, so the second, which finds
no unit of `m_push_sem`, is refused while `m_cur_count` is still zero. -/
theorem accounting_oneSlot : ∃ s : State ℕ 2 1,
    (system ℕ 2 1 1).exec (start 1 fun _ => 0) [.push 0 (.take 7), .push 0 .lock] = some s ∧
    s.q.pushSem = 0 ∧ s.q.curCount = 0 ∧ Accounting 1 s := by
  have hrun : ∃ s : State ℕ 2 1,
      (system ℕ 2 1 1).exec (start 1 fun _ => 0) [.push 0 (.take 7), .push 0 .lock] = some s ∧
      s.q.pushSem = 0 ∧ s.q.curCount = 0 := ⟨_, rfl, rfl, rfl⟩
  obtain ⟨s, hs, hsem, hcount⟩ := hrun
  exact ⟨s, hs, hsem, hcount, accounting (Lts.Reachable.exec (.of_init ⟨_, rfl⟩) hs)⟩

end LinuxProgramming.RingQueue
