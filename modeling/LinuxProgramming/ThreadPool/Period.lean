import LinuxProgramming.ThreadPool.Setup

/-! # The period of the statistics

`setStatisticsUpdatingTimeInMs` turns milliseconds into a `timespec`, which the timer thread
reads once and passes to `nanosleep` in every turn of its loop.  The product with 1000000 is one
of an `unsigned int` and an `int`: it is reduced to `unsigned int` before it is stored in a
`long long`. -/

namespace LinuxProgramming.ThreadPool

/-- `struct timespec`. -/
structure Timespec where
  sec : ℤ
  nsec : ℤ
deriving DecidableEq

/-- `setStatisticsUpdatingTimeInMs`: what it stores in `mUpdatingStatisticsTime`. -/
def setStatisticsUpdatingTimeInMs (time : ℕ) : Timespec :=
  let updateTimeNs : ℤ := u32 (time * 1000000)
  ⟨updateTimeNs.tdiv 1000000000, updateTimeNs.tmod 1000000000⟩

/-- What `timer_thread_func` passes to `nanosleep` while it finds `mTimerRun` set that many
times; `mUpdatingStatisticsTime` is what the configuration holds. -/
def nanosleeps (mUpdatingStatisticsTime : Timespec) (turns : ℕ) : List Timespec :=
  let sleepTime := mUpdatingStatisticsTime
  (List.range turns).foldl (fun slept _ => slept ++ [sleepTime]) []

/-- The time in nanoseconds. -/
def Timespec.total (t : Timespec) : ℤ := t.sec * 1000000000 + t.nsec

/-- A valid `timespec` of that many milliseconds. -/
structure Exact (time : ℕ) (t : Timespec) : Prop where
  nsec_nonneg : 0 ≤ t.nsec
  nsec_lt : t.nsec < 1000000000
  total : t.total = time * 1000000

theorem nanosleeps_eq (t : Timespec) (turns : ℕ) : nanosleeps t turns = List.replicate turns t := by
  unfold nanosleeps
  induction turns with
  | zero => rfl
  | succ turns ih =>
      rw [List.range_succ, List.foldl_append, List.foldl_cons, List.foldl_nil, ih,
        List.replicate_succ']

/-- Seconds and nanoseconds are the parts of the product as it was reduced. -/
theorem total_set (time : ℕ) :
    0 ≤ (setStatisticsUpdatingTimeInMs time).nsec ∧
    (setStatisticsUpdatingTimeInMs time).nsec < 1000000000 ∧
    (setStatisticsUpdatingTimeInMs time).total = u32 (time * 1000000) := by
  have hnonneg : (0 : ℤ) ≤ u32 (time * 1000000) := Int.natCast_nonneg _
  unfold setStatisticsUpdatingTimeInMs Timespec.total
  simp only
  rw [Int.tdiv_eq_ediv_of_nonneg hnonneg, Int.tmod_eq_emod_of_nonneg hnonneg]
  omega

theorem exact_set_iff (time : ℕ) :
    Exact time (setStatisticsUpdatingTimeInMs time) ↔ time * 1000000 < 2 ^ 32 := by
  obtain ⟨hnonneg, hlt, htotal⟩ := total_set time
  constructor
  · intro h
    have heq := h.total
    rw [htotal] at heq
    unfold u32 at heq
    omega
  · intro h
    refine ⟨hnonneg, hlt, ?_⟩
    rw [htotal, u32_of_lt h]
    omega

/-- **The period.**  What is stored, and passed to every `nanosleep`, is the requested time
exactly up to 4294 milliseconds; up to there a longer request is a longer sleep. -/
theorem period_iff (time : ℕ) :
    ((Exact time (setStatisticsUpdatingTimeInMs time) ∧
      ∀ turns, ∀ t ∈ nanosleeps (setStatisticsUpdatingTimeInMs time) turns, Exact time t) ↔
        time ≤ 4294) ∧
    ∀ time', time ≤ time' → time' ≤ 4294 →
      (setStatisticsUpdatingTimeInMs time).total ≤ (setStatisticsUpdatingTimeInMs time').total := by
  have hlimit : time * 1000000 < 2 ^ 32 ↔ time ≤ 4294 := by omega
  refine ⟨⟨fun h => ?_, fun h => ?_⟩, fun time' hle hmax => ?_⟩
  · exact hlimit.mp ((exact_set_iff time).mp h.1)
  · have hexact := (exact_set_iff time).mpr (hlimit.mpr h)
    refine ⟨hexact, fun turns t ht => ?_⟩
    rw [nanosleeps_eq] at ht
    rw [List.eq_of_mem_replicate ht]
    exact hexact
  · rw [((exact_set_iff time).mpr (by omega)).total, ((exact_set_iff time').mpr (by omega)).total]
    omega

/-- A request for 4295 milliseconds is a sleep of 32704 nanoseconds, shorter than one for a
millisecond. -/
theorem period_wraps :
    setStatisticsUpdatingTimeInMs 4295 = ⟨0, 32704⟩ ∧
    ¬ Exact 4295 (setStatisticsUpdatingTimeInMs 4295) ∧
    (setStatisticsUpdatingTimeInMs 4295).total < (setStatisticsUpdatingTimeInMs 1).total := by
  refine ⟨by decide, fun h => ?_, by decide⟩
  have heq := h.total
  exact absurd heq (by decide)

end LinuxProgramming.ThreadPool
