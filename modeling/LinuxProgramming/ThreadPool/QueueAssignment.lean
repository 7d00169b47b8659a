import LinuxProgramming.ThreadPool.Setup
import Mathlib.Data.Finset.Card
import Mathlib.Order.Interval.Finset.Nat

/-! # Which worker gets which queue

`checkAndAjustConfig` counts the queues by the type of the configuration, and
`assignQueuesToWorkers` hands every queue to `queueShareFactor` consecutive workers, whatever
the type.  The two agree exactly when the product of their counts is the number of workers:
for exclusive queues with a share factor of one, and for shared queues when the factor divides
the number of workers. -/

namespace LinuxProgramming.ThreadPool

/-- The workers that were given queue `q`. -/
def workersOf (calls : List (ℕ × ℕ)) (q : ℕ) : Finset ℕ :=
  ((calls.filter fun e => e.2 = q).map Prod.fst).toFinset

/-- What the calls of `assignQ` should be: one for every worker and none for an index beyond
the workers, with the queues shared as the configuration says. -/
structure Covers (workerCount queueCount : ℕ) (cfg : ThreadPoolConfig)
    (calls : List (ℕ × ℕ)) : Prop where
  once : ∀ k < workerCount, calls.countP (fun e => e.1 = k) = 1
  inBounds : ∀ e ∈ calls, e.1 < workerCount
  exclusive : cfg.jobQueueType = .exclusive → ∀ q, (workersOf calls q).card ≤ 1
  shared : cfg.jobQueueType = .shared → ∀ q < queueCount,
    1 ≤ (workersOf calls q).card ∧ (workersOf calls q).card ≤ cfg.queueShareFactor

variable {cfg : ThreadPoolConfig} {n count : ℕ}

theorem mem_workersOf (q k : ℕ) : k ∈ workersOf (assignQueuesToWorkers cfg n) q ↔
    ∃ j < n * cfg.queueShareFactor, j / cfg.queueShareFactor = q ∧ u32 j = k := by
  unfold workersOf
  rw [assignQueuesToWorkers_eq]
  simp [and_assoc]

/-- A queue goes to the workers of one block. -/
theorem card_workersOf_le (hf : 1 ≤ cfg.queueShareFactor) (q : ℕ) :
    (workersOf (assignQueuesToWorkers cfg n) q).card ≤ cfg.queueShareFactor := by
  have hsub : workersOf (assignQueuesToWorkers cfg n) q ⊆
      (Finset.Ico (q * cfg.queueShareFactor) ((q + 1) * cfg.queueShareFactor)).image u32 := by
    intro k hk
    obtain ⟨j, -, hq, rfl⟩ := (mem_workersOf q k).mp hk
    rw [Nat.div_eq_iff hf] at hq
    refine Finset.mem_image_of_mem u32 (Finset.mem_Ico.mpr ⟨hq.1, ?_⟩)
    rw [Nat.succ_mul]
    omega
  calc (workersOf (assignQueuesToWorkers cfg n) q).card
      ≤ _ := Finset.card_le_card hsub
    _ ≤ (Finset.Ico (q * cfg.queueShareFactor) ((q + 1) * cfg.queueShareFactor)).card :=
        Finset.card_image_le
    _ = cfg.queueShareFactor := by
        rw [Nat.card_Ico, Nat.succ_mul, Nat.add_sub_cancel_left]

/-- The calls cover the workers once, and stay within them, when there are as many calls as
workers. -/
theorem countP_assign (hcount : count ≤ maxWorkerCount) (h : n * cfg.queueShareFactor = count)
    {k : ℕ} (hk : k < count) :
    (assignQueuesToWorkers cfg n).countP (fun e => e.1 = k) = 1 := by
  have hmax : count < 2 ^ 32 := lt_of_le_of_lt hcount (by decide)
  rw [assignQueuesToWorkers_eq, h, List.countP_map]
  have hone : (List.range count).countP (fun j => decide (j = k)) = 1 := by
    have := List.count_eq_one_of_mem (List.nodup_range (n := count)) (List.mem_range.mpr hk)
    rw [← this]
    exact List.countP_congr fun j _ => by simp
  rw [← hone]
  apply List.countP_congr
  intro j hj
  have hj' := List.mem_range.mp hj
  simp only [Function.comp_apply]
  rw [u32_of_lt (by omega)]

/-- Covering the workers takes as many calls as there are workers. -/
theorem calls_eq_of_covers {queueCount : ℕ} (hcount : count ≤ maxWorkerCount)
    (h : Covers count queueCount cfg (assignQueuesToWorkers cfg n)) :
    n * cfg.queueShareFactor = count := by
  have hmax : count < 2 ^ 32 := lt_of_le_of_lt hcount (by decide)
  rcases Nat.lt_trichotomy (n * cfg.queueShareFactor) count with hlt | heq | hgt
  · -- worker `n * factor` would be left without a queue
    have hone := h.once _ hlt
    have hpos : 0 < (assignQueuesToWorkers cfg n).countP
        (fun e => e.1 = n * cfg.queueShareFactor) := by omega
    obtain ⟨e, he, hek⟩ := List.countP_pos_iff.mp hpos
    rw [assignQueuesToWorkers_eq] at he
    obtain ⟨j, hj, rfl⟩ := List.mem_map.mp he
    have hj' := List.mem_range.mp hj
    rw [u32_of_lt (by omega), decide_eq_true_eq] at hek
    omega
  · exact heq
  · -- call number `count` would be for the entry after the last worker
    have hmem : (u32 count, count / cfg.queueShareFactor) ∈ assignQueuesToWorkers cfg n := by
      rw [assignQueuesToWorkers_eq]
      exact List.mem_map.mpr ⟨count, List.mem_range.mpr hgt, rfl⟩
    have hbound := h.inBounds _ hmem
    rw [u32_of_lt hmax] at hbound
    omega

/-- As many calls as workers: the assignment is as it should be. -/
theorem covers_of_calls_eq (hcount : count ≤ maxWorkerCount) (hf : 1 ≤ cfg.queueShareFactor)
    (h : n * cfg.queueShareFactor = count)
    (hexclusive : cfg.jobQueueType = .exclusive → cfg.queueShareFactor = 1) :
    Covers count n cfg (assignQueuesToWorkers cfg n) where
  once := fun k hk => countP_assign hcount h hk
  inBounds := by
    intro e he
    rw [assignQueuesToWorkers_eq] at he
    obtain ⟨j, hj, rfl⟩ := List.mem_map.mp he
    have hj' := List.mem_range.mp hj
    have hmax : count < 2 ^ 32 := lt_of_le_of_lt hcount (by decide)
    simp only
    rw [u32_of_lt (by omega)]
    omega
  exclusive := by
    intro hty q
    rw [← hexclusive hty]
    exact card_workersOf_le hf q
  shared := by
    intro _ q hq
    refine ⟨Finset.card_pos.mpr ⟨u32 (q * cfg.queueShareFactor), ?_⟩, card_workersOf_le hf q⟩
    refine (mem_workersOf q _).mpr ⟨q * cfg.queueShareFactor, ?_, Nat.mul_div_cancel q hf, rfl⟩
    exact Nat.mul_lt_mul_of_pos_right hq hf

/-- The rounded-up quotient that `checkAndAjustConfig` computes for shared queues is exact when
the factor divides the number of workers. -/
theorem sharedCount_eq {f : ℕ} (hcount : 1 ≤ count) (hmax : count ≤ maxWorkerCount)
    (hdvd : f ∣ count) : u32 (count + f - 1) / f * f = count := by
  obtain ⟨m, rfl⟩ := hdvd
  have hpos : 0 < f := Nat.pos_of_mul_pos_right hcount
  have hle : f ≤ f * m := Nat.le_of_dvd hcount ⟨m, rfl⟩
  unfold maxWorkerCount at hmax
  have hquot : (f * m + f - 1) / f = m := by
    rw [Nat.add_sub_assoc hpos, Nat.mul_add_div hpos, Nat.div_eq_of_lt (by omega), Nat.add_zero]
  rw [u32_of_lt (by omega), hquot, Nat.mul_comm]

/-- **Queue assignment.**  With at least one worker and a positive share factor, the calls of
`assignQ` are as they should be exactly for exclusive queues with a share factor of one and for
shared queues whose factor divides the number of workers. -/
theorem assignment_covers_iff (env : Env) (cfg cfg' : ThreadPoolConfig) (count queueCount : ℕ)
    (h : checkAndAjustConfig env cfg = .finished count queueCount cfg') (hcount : 1 ≤ count)
    (hf : 1 ≤ cfg.queueShareFactor) :
    Covers count queueCount cfg' (assignQueuesToWorkers cfg' queueCount) ↔
      cfg.jobQueueType = .exclusive ∧ cfg.queueShareFactor = 1 ∨
      cfg.jobQueueType = .shared ∧ cfg.queueShareFactor ∣ count := by
  obtain ⟨-, hmax, rfl, hcases⟩ := finished_cases h
  constructor
  · intro hcov
    have hcalls := calls_eq_of_covers hmax hcov
    rcases hcases with ⟨htype, rfl⟩ | ⟨htype, -, -⟩
    · exact .inl ⟨htype, Nat.eq_of_mul_eq_mul_left hcount (by rw [hcalls, Nat.mul_one])⟩
    · exact .inr ⟨htype, Dvd.intro_left _ hcalls⟩
  · rintro (⟨htype, hone⟩ | ⟨htype, hdvd⟩)
    · rcases hcases with ⟨-, rfl⟩ | ⟨htype', -, -⟩
      · exact covers_of_calls_eq hmax hf (by simp only [hone, Nat.mul_one]) fun _ => hone
      · rw [htype] at htype'
        cases htype'
    · rcases hcases with ⟨htype', -⟩ | ⟨-, -, rfl⟩
      · rw [htype] at htype'
        cases htype'
      · refine covers_of_calls_eq hmax hf (sharedCount_eq hcount hmax hdvd) fun htype' => ?_
        rw [htype] at htype'
        cases htype'

/-- A machine of three cores on which the priorities of every policy are 0 to 99. -/
def threeCores : Env := ⟨3, by decide, 0, fun _ => 0, fun _ => 99⟩

/-- Three workers on three cores, with queues of the given type. -/
def threeWorkers (queueType : JobQueueType) (shareFactor : ℕ) : ThreadPoolConfig :=
  ⟨⟨.independent, .default, 0, 0⟩, queueType, 1, shareFactor⟩

theorem assignment_covers_threeWorkers :
    Covers 3 1 (threeWorkers .shared 3) (assignQueuesToWorkers (threeWorkers .shared 3) 1) :=
  (assignment_covers_iff threeCores (threeWorkers .shared 3) _ 3 1 rfl (by decide) (by decide)).mpr
    (.inr ⟨rfl, by decide⟩)

/-- Three workers that share queues in twos: there are two queues, four calls of `assignQ`, and
the fourth is for the entry after the last worker. -/
theorem assignment_overrun :
    checkAndAjustConfig threeCores (threeWorkers .shared 2) =
      .finished 3 2 (threeWorkers .shared 2) ∧
    assignQueuesToWorkers (threeWorkers .shared 2) 2 = [(0, 0), (1, 0), (2, 1), (3, 1)] ∧
    ¬ Covers 3 2 (threeWorkers .shared 2) (assignQueuesToWorkers (threeWorkers .shared 2) 2) := by
  refine ⟨rfl, rfl, fun h => ?_⟩
  have hbound := h.inBounds (3, 1) (by decide)
  exact absurd hbound (by decide)

end LinuxProgramming.ThreadPool
