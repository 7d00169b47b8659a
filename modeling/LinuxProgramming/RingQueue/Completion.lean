import LinuxProgramming.Countdown
import LinuxProgramming.RingQueue.Accounting

/-! # Calls that have begun can be completed

A call that has taken its semaphore waits for nothing but `m_lock`, and whoever holds `m_lock`
can go on.  So the queue has no deadlock: as long as a call is in progress one of the calls can
move, and after as many steps as the calls have left (`left`) all of them have returned, whatever
the order.  How full the ring is then depends on the calls alone and not on the order either. -/

namespace LinuxProgramming.RingQueue

variable {T : Type*} {P C : ℕ}

/-- The steps that a call of `push` still has to make. -/
def PushPc.left : PushPc T → ℕ
  | idle => 0
  | took _ => 5
  | locked _ => 4
  | reserved _ _ _ => 3
  | unlocked _ _ _ => 2
  | copied _ _ _ => 1

def PopPc.left : PopPc T → ℕ
  | idle => 0
  | took => 5
  | locked => 4
  | claimed _ _ => 3
  | unlocked _ _ => 2
  | copied _ _ => 1

/-- The call of `push` has a unit of `m_push_sem` and no position yet. -/
def PushPc.waiting : PushPc T → ℕ
  | took _ => 1
  | locked _ => 1
  | _ => 0

/-- A step that neither begins a call nor gives one up. -/
def Act.Completing : Act T P C → Prop
  | .push _ (.timeout _) => False
  | .push _ (.take _) => False
  | .pop _ .timeout => False
  | .pop _ .take => False
  | _ => True

/-- No call is in progress. -/
def Idle (s : State T P C) : Prop := (∀ i, s.push i = .idle) ∧ ∀ i, s.pop i = .idle

/-- The steps that the calls in progress still have to make. -/
def left (s : State T P C) : ℕ := tally PushPc.left s.push + tally PopPc.left s.pop

/-- How full the ring will be when the calls in progress have returned. -/
def settledCount (s : State T P C) : ℤ :=
  s.q.curCount + tally PushPc.waiting s.push - tally PopPc.waiting s.pop

/-! ### One step -/

theorem PushPc.left_eq_zero {pc : PushPc T} : pc.left = 0 ↔ pc = .idle := by
  cases pc <;> simp [left]

theorem PopPc.left_eq_zero {pc : PopPc T} : pc.left = 0 ↔ pc = .idle := by
  cases pc <;> simp [left]

theorem left_eq_zero {s : State T P C} : left s = 0 ↔ Idle s := by
  simp [left, tally, Idle, Finset.sum_eq_zero_iff, PushPc.left_eq_zero, PopPc.left_eq_zero]

theorem push_counts {s s' : State T P C} {i : Fin P} {a : PushAct T} (hs : PushStep s i a s')
    (ha : (Act.push i a : Act T P C).Completing) :
    left s' + 1 = left s ∧ settledCount s' = settledCount s := by
  unfold left settledCount
  cases hs with
  | timeout | take => exact ha.elim
  | lock t hi =>
      have hl := tally_update PushPc.left s.push i (.locked t)
      have hw := tally_update PushPc.waiting s.push i (.locked t)
      simp only [hi, PushPc.left, PushPc.waiting] at hl hw
      constructor <;> simp only <;> omega
  | reserve t hi =>
      have hl := tally_update PushPc.left s.push i
        (.reserved t s.q.reserve.1 s.hist.items.length)
      have hw := tally_update PushPc.waiting s.push i
        (.reserved t s.q.reserve.1 s.hist.items.length)
      simp only [hi, PushPc.left, PushPc.waiting] at hl hw
      constructor <;> simp only [Queue.reserve_curCount] <;> omega
  | unlock t slot k hi =>
      have hl := tally_update PushPc.left s.push i (.unlocked t slot k)
      have hw := tally_update PushPc.waiting s.push i (.unlocked t slot k)
      simp only [hi, PushPc.left, PushPc.waiting] at hl hw
      constructor <;> simp only <;> omega
  | copy t slot k hi =>
      have hl := tally_update PushPc.left s.push i (.copied t slot k)
      have hw := tally_update PushPc.waiting s.push i (.copied t slot k)
      simp only [hi, PushPc.left, PushPc.waiting] at hl hw
      constructor <;> simp only [Queue.copyIn] <;> omega
  | post t slot k hi =>
      have hl := tally_update PushPc.left s.push i .idle
      have hw := tally_update PushPc.waiting s.push i .idle
      simp only [hi, PushPc.left, PushPc.waiting] at hl hw
      constructor <;> simp only <;> omega

theorem pop_counts {s s' : State T P C} {i : Fin C} {a : PopAct} (hs : PopStep s i a s')
    (ha : (Act.pop i a : Act T P C).Completing) :
    left s' + 1 = left s ∧ settledCount s' = settledCount s := by
  unfold left settledCount
  cases hs with
  | timeout | take => exact ha.elim
  | lock hi =>
      have hl := tally_update PopPc.left s.pop i .locked
      have hw := tally_update PopPc.waiting s.pop i .locked
      simp only [hi, PopPc.left, PopPc.waiting] at hl hw
      constructor <;> simp only <;> omega
  | claim hi =>
      have hl := tally_update PopPc.left s.pop i (.claimed s.q.claim.1 s.hist.claims)
      have hw := tally_update PopPc.waiting s.pop i (.claimed s.q.claim.1 s.hist.claims)
      simp only [hi, PopPc.left, PopPc.waiting] at hl hw
      constructor <;> simp only [Queue.claim_curCount] <;> omega
  | unlock slot k hi =>
      have hl := tally_update PopPc.left s.pop i (.unlocked slot k)
      have hw := tally_update PopPc.waiting s.pop i (.unlocked slot k)
      simp only [hi, PopPc.left, PopPc.waiting] at hl hw
      constructor <;> simp only <;> omega
  | copy slot k hi =>
      have hl := tally_update PopPc.left s.pop i (.copied (s.q.arr slot) k)
      have hw := tally_update PopPc.waiting s.pop i (.copied (s.q.arr slot) k)
      simp only [hi, PopPc.left, PopPc.waiting] at hl hw
      constructor <;> simp only <;> omega
  | post target k hi =>
      have hl := tally_update PopPc.left s.pop i .idle
      have hw := tally_update PopPc.waiting s.pop i .idle
      simp only [hi, PopPc.left, PopPc.waiting] at hl hw
      constructor <;> simp only <;> omega

theorem step_counts {s s' : State T P C} {l : Act T P C} (hs : step s l = some s')
    (hl : l.Completing) : left s' + 1 = left s ∧ settledCount s' = settledCount s := by
  cases l with
  | push i a => exact push_counts (pushStep_iff.mp hs) hl
  | pop i a => exact pop_counts (popStep_iff.mp hs) hl

/-- A step that completes a call finds one in progress. -/
theorem PushStep.busy {s s' : State T P C} {i : Fin P} {a : PushAct T} (hs : PushStep s i a s')
    (ha : (Act.push i a : Act T P C).Completing) : s.push i ≠ .idle := by
  cases hs with
  | timeout | take => exact ha.elim
  | lock t hi | reserve t hi => simp [hi]
  | unlock t slot k hi | copy t slot k hi | post t slot k hi => simp [hi]

theorem PopStep.busy {s s' : State T P C} {i : Fin C} {a : PopAct} (hs : PopStep s i a s')
    (ha : (Act.pop i a : Act T P C).Completing) : s.pop i ≠ .idle := by
  cases hs with
  | timeout | take => exact ha.elim
  | lock hi | claim hi => simp [hi]
  | unlock slot k hi | copy slot k hi | post target k hi => simp [hi]

/-! ### Somebody can move -/

/-- A call can move unless it waits for `m_lock`. -/
theorem push_moves {s : State T P C} {i : Fin P} (hbusy : s.push i ≠ .idle)
    (hfree : ∀ t, s.push i = .took t → 0 < s.q.lock) :
    ∃ l s', l.Completing ∧ step s l = some s' := by
  cases hi : s.push i with
  | idle => exact absurd hi hbusy
  | took t => exact ⟨.push i .lock, _, trivial, pushStep_iff.mpr (.lock t hi (hfree t hi))⟩
  | locked t => exact ⟨.push i .reserve, _, trivial, pushStep_iff.mpr (.reserve t hi)⟩
  | reserved t slot k => exact ⟨.push i .unlock, _, trivial, pushStep_iff.mpr (.unlock t slot k hi)⟩
  | unlocked t slot k => exact ⟨.push i .copy, _, trivial, pushStep_iff.mpr (.copy t slot k hi)⟩
  | copied t slot k => exact ⟨.push i .post, _, trivial, pushStep_iff.mpr (.post t slot k hi)⟩

theorem pop_moves {s : State T P C} {i : Fin C} (hbusy : s.pop i ≠ .idle)
    (hfree : s.pop i = .took → 0 < s.q.lock) :
    ∃ l s', l.Completing ∧ step s l = some s' := by
  cases hi : s.pop i with
  | idle => exact absurd hi hbusy
  | took => exact ⟨.pop i .lock, _, trivial, popStep_iff.mpr (.lock hi (hfree hi))⟩
  | locked => exact ⟨.pop i .claim, _, trivial, popStep_iff.mpr (.claim hi)⟩
  | claimed slot k => exact ⟨.pop i .unlock, _, trivial, popStep_iff.mpr (.unlock slot k hi)⟩
  | unlocked slot k => exact ⟨.pop i .copy, _, trivial, popStep_iff.mpr (.copy slot k hi)⟩
  | copied target k => exact ⟨.pop i .post, _, trivial, popStep_iff.mpr (.post target k hi)⟩

/-- Either `m_lock` is free, or the call that holds it can go on. -/
theorem Inv.moves {size : ℕ} {s : State T P C} (h : Inv size s) (hbusy : ¬ Idle s) :
    ∃ l s', l.Completing ∧ step s l = some s' := by
  by_cases hlock : 0 < s.q.lock
  · rcases not_and_or.mp hbusy with hpush | hpop
    · obtain ⟨i, hi⟩ := not_forall.mp hpush
      exact push_moves hi fun _ _ => hlock
    · obtain ⟨i, hi⟩ := not_forall.mp hpop
      exact pop_moves hi fun _ => hlock
  · have hmutex := h.lock
    rcases Nat.eq_zero_or_pos (tally PushPc.holdsLock s.push) with hpush | hpush
    · obtain ⟨i, -, hi⟩ := Finset.exists_ne_zero_of_sum_ne_zero
        (s := Finset.univ) (f := fun i => (s.pop i).holdsLock) (by unfold tally at *; omega)
      refine pop_moves (i := i) (fun hidle => hi ?_) fun htook => absurd ?_ hi
      · rw [hidle]; rfl
      · rw [htook]; rfl
    · obtain ⟨i, -, hi⟩ := Finset.exists_ne_zero_of_sum_ne_zero
        (s := Finset.univ) (f := fun i => (s.push i).holdsLock) (by unfold tally at *; omega)
      refine push_moves (i := i) (fun hidle => hi ?_) fun t htook => absurd ?_ hi
      · rw [hidle]; rfl
      · rw [htook]; rfl

theorem countsDown (T : Type*) (P C size : ℕ) :
    (system T P C size).CountsDown (system T P C size).Reachable Act.Completing left where
  keep := fun _ _ _ hs _ hstep => hs.next hstep
  lower := fun _ _ _ _ hl hstep => (step_counts hstep hl).1
  enabled := by
    intro s hs hpos
    apply (reachable_inv hs).moves
    intro hidle
    rw [left_eq_zero.mpr hidle] at hpos
    exact absurd hpos (lt_irrefl 0)

/-- A run that completes calls does not change how full the ring will be. -/
theorem settledCount_exec {size : ℕ} {s s' : State T P C} {ls : List (Act T P C)}
    (hls : ∀ l ∈ ls, l.Completing) (he : (system T P C size).exec s ls = some s') :
    settledCount s' = settledCount s := by
  induction ls generalizing s with
  | nil =>
      rw [Lts.exec_nil] at he
      cases he
      rfl
  | cons l ls ih =>
      rw [Lts.exec_cons] at he
      obtain ⟨s₁, hstep, he⟩ := Option.bind_eq_some_iff.mp he
      rw [ih (fun l' hl' => hls l' (List.mem_cons_of_mem l hl')) he]
      exact (step_counts hstep (hls l List.mem_cons_self)).2

theorem settledCount_of_idle {s : State T P C} (h : Idle s) : settledCount s = s.q.curCount := by
  have hpush := tally_eq_zero PushPc.waiting (f := s.push) fun i => by rw [h.1 i]; rfl
  have hpop := tally_eq_zero PopPc.waiting (f := s.pop) fun i => by rw [h.2 i]; rfl
  rw [settledCount, hpush, hpop]
  simp

/-- **Completion.**  In every state reached, for any size and any number of threads: unless all
calls have returned, one that has begun can move; however the calls are interleaved they return
after exactly the steps they have left, and they can always get there; and then the ring holds
what it held, the items of the pushes that had no slot yet and less by the pops that had none,
with the semaphores to match and `m_lock` free. -/
theorem calls_complete {size : ℕ} {s : State T P C} (h : (system T P C size).Reachable s) :
    (Idle s ∨ ∃ l s', l.Completing ∧ step s l = some s') ∧
    (∀ ls s', (∀ l ∈ ls, l.Completing) → (system T P C size).exec s ls = some s' →
      ls.length + left s' = left s) ∧
    (∃ ls s', (∀ l ∈ ls, l.Completing) ∧ (system T P C size).exec s ls = some s' ∧ Idle s') ∧
    (∀ ls s', (∀ l ∈ ls, l.Completing) → (system T P C size).exec s ls = some s' → Idle s' →
      ls.length = left s ∧ s'.q.curCount = settledCount s ∧ (s'.q.popSem : ℤ) = settledCount s ∧
      (s'.q.pushSem : ℤ) = size - settledCount s ∧ s'.q.lock = 1) := by
  have hdown := countsDown T P C size
  refine ⟨?_, fun ls s' hls he => hdown.length_add h hls he, ?_, fun ls s' hls he hidle => ?_⟩
  · by_cases hidle : Idle s
    · exact .inl hidle
    · exact .inr ((reachable_inv h).moves hidle)
  · obtain ⟨ls, s', hls, he, hzero⟩ := hdown.finish _ s h rfl
    exact ⟨ls, s', hls, he, left_eq_zero.mp hzero⟩
  · have hI := reachable_inv (h.exec he)
    have hlen := hdown.length_add h hls he
    have hcount := settledCount_exec hls he
    rw [settledCount_of_idle hidle] at hcount
    obtain ⟨hpopSem, hpushSem⟩ := hI.quiet hidle.1 hidle.2
    have hzero := left_eq_zero.mpr hidle
    have hpush := tally_eq_zero PushPc.holdsLock (f := s'.push) fun i => by rw [hidle.1 i]; rfl
    have hpop := tally_eq_zero PopPc.holdsLock (f := s'.pop) fun i => by rw [hidle.2 i]; rfl
    have hlock := hI.lock
    refine ⟨by omega, hcount, ?_, ?_, by omega⟩
    · rw [hpopSem, hcount]
    · rw [hpushSem, hcount]

/-- Producer 0 holds `m_lock` and producer 1 waits for it: nine steps are left, and then the two
slots are full. -/
theorem calls_complete_twoProducers : ∃ s : State ℕ 2 1,
    (system ℕ 2 1 2).exec (start 2 fun _ => 0)
      [.push 0 (.take 7), .push 1 (.take 8), .push 0 .lock] = some s ∧
    step s (.push 1 .lock) = none ∧ left s = 9 ∧
    ∃ ls s', (∀ l ∈ ls, l.Completing) ∧ (system ℕ 2 1 2).exec s ls = some s' ∧ Idle s' ∧
      ls.length = 9 ∧ s'.q.curCount = 2 ∧ (s'.q.pushSem : ℤ) = 0 := by
  have hrun : ∃ s : State ℕ 2 1, (system ℕ 2 1 2).exec (start 2 fun _ => 0)
      [.push 0 (.take 7), .push 1 (.take 8), .push 0 .lock] = some s ∧
      step s (.push 1 .lock) = none ∧ left s = 9 ∧ settledCount s = 2 := ⟨_, rfl, rfl, rfl, rfl⟩
  obtain ⟨s, hs, hblocked, hleft, hcount⟩ := hrun
  obtain ⟨_, _, ⟨ls, s', hls, he, hidle⟩, hend⟩ :=
    calls_complete (Lts.Reachable.exec (.of_init ⟨_, rfl⟩) hs)
  obtain ⟨hlen, hcur, -, hpushSem, -⟩ := hend ls s' hls he hidle
  rw [hleft] at hlen
  rw [hcount] at hcur hpushSem
  exact ⟨s, hs, hblocked, hleft, ls, s', hls, he, hidle, hlen, hcur, hpushSem⟩

end LinuxProgramming.RingQueue
