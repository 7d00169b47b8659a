import LinuxProgramming.ThreadPool.QueueAssignment
import Mathlib.Algebra.Order.Floor.Div

/-! # The counts that `checkAndAjustConfig` computes

The number of workers is a product and the number of shared queues a rounded-up quotient, both in
`unsigned int`.  The limit is compared with the product as it comes out, and neither setting is
checked for zero.  `sized_iff` says for which settings the counts are what they are meant to
be. -/

namespace LinuxProgramming.ThreadPool

/-- The divisors of the divisions that `checkAndAjustConfig` executes. -/
def divisors (env : Env) (cfg : ThreadPoolConfig) : List ℕ :=
  if jobWorkerCount env cfg > maxWorkerCount then []
  else if cfg.threadPolicy ≠ .default ∧ env.uid ≠ 0 then []
  else
    match cfg.jobQueueType with
    | .shared => [cfg.queueShareFactor]
    | _ => []

/-- The counts of a check that runs to its end are the true ones and fit the arrays, and nothing
is divided by zero. -/
structure Sized (env : Env) (cfg : ThreadPoolConfig) : Prop where
  divisor : ∀ d ∈ divisors env cfg, d ≠ 0
  workers : ∀ count queueCount cfg',
    checkAndAjustConfig env cfg = .finished count queueCount cfg' →
      count = env.coreCount * cfg.workersPerCore ∧ 1 ≤ count ∧ count ≤ maxWorkerCount
  exclusive : ∀ count queueCount cfg',
    checkAndAjustConfig env cfg = .finished count queueCount cfg' →
      cfg.jobQueueType = .exclusive → queueCount = count
  shared : ∀ count queueCount cfg',
    checkAndAjustConfig env cfg = .finished count queueCount cfg' →
      cfg.jobQueueType = .shared → queueCount = count ⌈/⌉ cfg.queueShareFactor
  queues : ∀ count queueCount cfg',
    checkAndAjustConfig env cfg = .finished count queueCount cfg' →
      1 ≤ queueCount ∧ queueCount ≤ count

/-- There are workers, and the product and the sum stay in `unsigned int`. -/
structure NoWrap (env : Env) (cfg : ThreadPoolConfig) : Prop where
  workersPerCore_pos : 0 < cfg.workersPerCore
  product_lt : env.coreCount * cfg.workersPerCore < 2 ^ 32
  shareFactor_pos : cfg.jobQueueType = .shared → 0 < cfg.queueShareFactor
  sum_le : cfg.jobQueueType = .shared →
    env.coreCount * cfg.workersPerCore + cfg.queueShareFactor ≤ 2 ^ 32

section sizes
variable {env : Env} {cfg : ThreadPoolConfig}

theorem divisors_of_accepted (h : Accepted env cfg) : divisors env cfg =
    match cfg.jobQueueType with
    | .shared => [cfg.queueShareFactor]
    | _ => [] := by
  have hpolicy : ¬ (cfg.threadPolicy ≠ .default ∧ env.uid ≠ 0) := by
    rw [not_and_or, not_not, not_not]
    exact h.2
  unfold divisors
  rw [if_neg (show ¬ jobWorkerCount env cfg > maxWorkerCount from Nat.not_lt.mpr h.1),
    if_neg hpolicy]

/-- What is rejected has been divided by nothing. -/
theorem divisors_of_not_accepted (h : ¬ Accepted env cfg) : divisors env cfg = [] := by
  unfold divisors
  split
  · rfl
  · next hcount =>
      rw [if_pos]
      by_contra hpolicy
      refine h ⟨Nat.le_of_not_lt hcount, ?_⟩
      rwa [not_and_or, not_not, not_not] at hpolicy

theorem sized_of_not_accepted (h : ¬ Accepted env cfg) : Sized env cfg := by
  have hrejected := check_of_not_accepted h
  constructor
  · intro d hd
    rw [divisors_of_not_accepted h] at hd
    exact absurd hd List.not_mem_nil
  all_goals
    intro count queueCount cfg' hcheck
    rw [hrejected] at hcheck
    contradiction

/-- The assertion on the queue type fails. -/
theorem sized_of_max (h : Accepted env cfg) (htype : cfg.jobQueueType = .max) :
    Sized env cfg := by
  have haborted := check_of_aborts h (.inl htype)
  constructor
  · intro d hd
    rw [divisors_of_accepted h, htype] at hd
    exact absurd hd List.not_mem_nil
  all_goals
    intro count queueCount cfg' hcheck
    rw [haborted] at hcheck
    contradiction

theorem ceilDiv_le (count : ℕ) {f : ℕ} (hf : 0 < f) : count ⌈/⌉ f ≤ count := by
  rw [ceilDiv_le_iff_le_mul hf]
  exact Nat.le_mul_of_pos_left count hf

theorem one_le_ceilDiv {count f : ℕ} (hcount : 1 ≤ count) : 1 ≤ count ⌈/⌉ f ∨ f = 0 := by
  rcases Nat.eq_zero_or_pos f with rfl | hf
  · exact .inr rfl
  · left
    by_contra hzero
    have hle : count ⌈/⌉ f ≤ 0 := by omega
    rw [ceilDiv_le_iff_le_mul hf] at hle
    omega

/-- The rounded-up quotient, as long as the sum does not wrap. -/
theorem sharedCount_eq_ceilDiv {count f : ℕ} (h : count + f ≤ 2 ^ 32) :
    u32 (count + f - 1) / f = count ⌈/⌉ f := by
  rw [u32_of_lt (by omega), Nat.ceilDiv_eq_add_pred_div]

/-- When the sum wraps, no queue is left. -/
theorem sharedCount_eq_zero {count f : ℕ} (hcount : count ≤ maxWorkerCount)
    (h : 2 ^ 32 < count + f) : u32 (count + f - 1) / f = 0 := by
  apply Nat.div_eq_of_lt
  unfold u32 maxWorkerCount at *
  omega

theorem sized_of_noWrap (h : Accepted env cfg) (hn : NoWrap env cfg) : Sized env cfg := by
  have hcount : jobWorkerCount env cfg = env.coreCount * cfg.workersPerCore :=
    u32_of_lt hn.product_lt
  have hpos : 1 ≤ env.coreCount * cfg.workersPerCore :=
    Nat.mul_pos env.coreCount_pos hn.workersPerCore_pos
  have hshared : cfg.jobQueueType = .shared →
      u32 (env.coreCount * cfg.workersPerCore + cfg.queueShareFactor - 1) / cfg.queueShareFactor =
        (env.coreCount * cfg.workersPerCore) ⌈/⌉ cfg.queueShareFactor := fun htype =>
    sharedCount_eq_ceilDiv (hn.sum_le htype)
  constructor
  · intro d hd
    rw [divisors_of_accepted h] at hd
    split at hd
    · next htype =>
        rw [List.mem_singleton.mp hd]
        exact Nat.ne_of_gt (hn.shareFactor_pos htype)
    · exact absurd hd List.not_mem_nil
  · intro count queueCount cfg' hcheck
    obtain ⟨rfl, hmax, -, -⟩ := finished_cases hcheck
    rw [hcount] at hmax ⊢
    exact ⟨rfl, hpos, hmax⟩
  · intro count queueCount cfg' hcheck htype
    obtain ⟨-, -, -, ⟨-, rfl⟩ | ⟨htype', -, -⟩⟩ := finished_cases hcheck
    · rfl
    · rw [htype] at htype'
      contradiction
  · intro count queueCount cfg' hcheck htype
    obtain ⟨rfl, -, -, ⟨htype', -⟩ | ⟨-, -, rfl⟩⟩ := finished_cases hcheck
    · rw [htype] at htype'
      contradiction
    · rw [hcount, hshared htype]
  · intro count queueCount cfg' hcheck
    obtain ⟨rfl, -, -, ⟨-, rfl⟩ | ⟨htype, hf, rfl⟩⟩ := finished_cases hcheck
    · rw [hcount]
      exact ⟨hpos, Nat.le_refl _⟩
    · rw [hcount, hshared htype]
      exact ⟨(one_le_ceilDiv hpos).resolve_right hf, ceilDiv_le _ (Nat.pos_of_ne_zero hf)⟩

theorem noWrap_of_sized (h : Accepted env cfg) (htype : cfg.jobQueueType ≠ .max)
    (hs : Sized env cfg) : NoWrap env cfg := by
  have hf : cfg.jobQueueType = .shared → 0 < cfg.queueShareFactor := by
    intro hshared
    apply Nat.pos_of_ne_zero
    apply hs.divisor
    rw [divisors_of_accepted h, hshared]
    exact List.mem_singleton_self _
  have haborts : ¬ Aborts cfg := by
    rintro (hmax | ⟨hshared, hzero⟩)
    · exact htype hmax
    · have hpos := hf hshared
      omega
  obtain ⟨queueCount, hcheck⟩ := check_of_accepted h haborts
  obtain ⟨hproduct, hpos, hmax⟩ := hs.workers _ _ _ hcheck
  obtain ⟨hqueues, -⟩ := hs.queues _ _ _ hcheck
  have hlt : jobWorkerCount env cfg < 2 ^ 32 := Nat.mod_lt _ (by decide)
  refine ⟨?_, by omega, hf, fun hshared => ?_⟩
  · rw [hproduct] at hpos
    exact Nat.pos_of_mul_pos_left hpos
  · by_contra hsum
    obtain ⟨-, -, -, ⟨hexclusive, -⟩ | ⟨-, -, rfl⟩⟩ := finished_cases hcheck
    · rw [hshared] at hexclusive
      contradiction
    · have hzero := sharedCount_eq_zero (f := cfg.queueShareFactor) hmax (by omega)
      omega

end sizes

/-- **Sizes.**  The counts are as they should be exactly if the settings are rejected, the queue
type is none of the two, or nothing wraps and no setting is zero. -/
theorem sized_iff (env : Env) (cfg : ThreadPoolConfig) :
    Sized env cfg ↔
      (Accepted env cfg → cfg.jobQueueType ≠ .max → NoWrap env cfg) := by
  constructor
  · intro hs h htype
    exact noWrap_of_sized h htype hs
  · intro hn
    by_cases h : Accepted env cfg
    · by_cases htype : cfg.jobQueueType = .max
      · exact sized_of_max h htype
      · exact sized_of_noWrap h (hn h htype)
    · exact sized_of_not_accepted h

/-- Exclusive queues on three cores with 1431655766 workers each. -/
def manyWorkers : ThreadPoolConfig := ⟨⟨.independent, .default, 0, 0⟩, .exclusive, 1431655766, 1⟩

/-- The product of 4294967298 comes out as 2 and passes the limit. -/
theorem product_wraps :
    checkAndAjustConfig threeCores manyWorkers = .finished 2 2 manyWorkers ∧
    ¬ Sized threeCores manyWorkers := by
  have hcount : jobWorkerCount threeCores manyWorkers = 2 := by decide +kernel
  have hcheck : checkAndAjustConfig threeCores manyWorkers = .finished 2 2 manyWorkers := by
    unfold checkAndAjustConfig
    rw [hcount]
    rfl
  refine ⟨hcheck, fun hs => ?_⟩
  obtain ⟨hproduct, -, -⟩ := hs.workers _ _ _ hcheck
  exact absurd hproduct (by decide)

end LinuxProgramming.ThreadPool
