import Mathlib.Algebra.Group.Nat.Defs
import Mathlib.Data.List.Range
import Mathlib.Data.Nat.Notation
import Mathlib.Logic.Function.Basic

/-! # Configuring an `AdaptiveThreadPool`

The configuration and what the constructor does with it, up to the creation of the queues and
the workers.

* **Machine.**  `Env` is what the process asks the system for: the number of cores, the user and
  the priorities of the scheduling policies.
* **Arithmetic.**  All counts are `unsigned int`: sums and products are reduced by `u32`.
* **Arrays.**  `mJobWorkerArr` and `mJobQueueArr` are maps from indices to what was stored there;
  `none` is an entry that nobody has filled.
* **Sources of failure.**  `checkAndAjustConfig` may reject the configuration, abort the process
  (an assertion, a division by zero), or run to its end, where it returns no value; what its
  caller then sees is a parameter. -/

namespace LinuxProgramming.ThreadPool

/-- Reduction to `unsigned int`. -/
def u32 (x : ℕ) : ℕ := x % 2 ^ 32

theorem u32_of_lt {x : ℕ} (h : x < 2 ^ 32) : u32 x = x := Nat.mod_eq_of_lt h

/-- `MAX_WORKER_COUNT`. -/
def maxWorkerCount : ℕ := 128

/-! ### Configurations -/

inductive JobWorkerType where
  | independent
  | helpAdjacent
  | max
deriving DecidableEq

inductive JobQueueType where
  | exclusive
  | shared
  | max
deriving DecidableEq

inductive ThreadSchedulePolicy where
  | default
  | realtimeWithSlice
  | realtimeNoSlice
deriving DecidableEq

/-- `class JobWorkerConfig`. -/
structure JobWorkerConfig where
  jobWorkerType : JobWorkerType
  threadPolicy : ThreadSchedulePolicy
  threadPriority : ℤ
  whichCore : ℕ
deriving DecidableEq

/-- `class ThreadPoolConfig`, as far as the pool reads it. -/
structure ThreadPoolConfig extends JobWorkerConfig where
  jobQueueType : JobQueueType
  workersPerCore : ℕ
  queueShareFactor : ℕ
deriving DecidableEq

/-- The system that the process runs on. -/
structure Env where
  /-- `getCoreCount()` -/
  coreCount : ℕ
  coreCount_pos : 0 < coreCount
  /-- `getuid()` -/
  uid : ℕ
  /-- `sched_get_priority_min` -/
  priorityMin : ThreadSchedulePolicy → ℤ
  /-- `sched_get_priority_max` -/
  priorityMax : ThreadSchedulePolicy → ℤ

/-- `thread_priority`, brought into the range of the policy; the highest priority of
`THREADSCHED_REALTIME_NO_SLICE` is kept for the timer thread. -/
def adjustPriority (env : Env) (cfg : ThreadPoolConfig) : ℤ :=
  let minPriority := env.priorityMin cfg.threadPolicy
  let maxPriority := env.priorityMax cfg.threadPolicy
  let priority :=
    if cfg.threadPriority < minPriority then minPriority
    else if cfg.threadPriority > maxPriority then maxPriority
    else cfg.threadPriority
  if cfg.threadPolicy = .realtimeNoSlice ∧ priority = maxPriority then
    if maxPriority - 2 < minPriority then minPriority else maxPriority - 2
  else priority

/-- How `checkAndAjustConfig` ends, with the fields it has set. -/
inductive Checked where
  | rejected (jobWorkerCount : ℕ)
  | aborted
  | finished (jobWorkerCount jobQueueCount : ℕ) (cfg : ThreadPoolConfig)

/-- `mJobWorkerCount`. -/
def jobWorkerCount (env : Env) (cfg : ThreadPoolConfig) : ℕ :=
  u32 (env.coreCount * cfg.workersPerCore)

/-- `checkAndAjustConfig`. -/
def checkAndAjustConfig (env : Env) (cfg : ThreadPoolConfig) : Checked :=
  let count := jobWorkerCount env cfg
  if count > maxWorkerCount then .rejected count
  else if cfg.threadPolicy ≠ .default ∧ env.uid ≠ 0 then .rejected count
  else
    let cfg := { cfg with threadPriority := adjustPriority env cfg }
    match cfg.jobQueueType with
    | .exclusive => .finished count count cfg
    | .shared =>
        if cfg.queueShareFactor = 0 then .aborted
        else .finished count (u32 (count + cfg.queueShareFactor - 1) / cfg.queueShareFactor) cfg
    | .max => .aborted

/-- The configuration gets past the checks that reject it. -/
def Accepted (env : Env) (cfg : ThreadPoolConfig) : Prop :=
  u32 (env.coreCount * cfg.workersPerCore) ≤ maxWorkerCount ∧
  (cfg.threadPolicy = .default ∨ env.uid = 0)

/-- The process is aborted when the queues are counted. -/
def Aborts (cfg : ThreadPoolConfig) : Prop :=
  cfg.jobQueueType = .max ∨ cfg.jobQueueType = .shared ∧ cfg.queueShareFactor = 0

theorem check_of_not_accepted {env : Env} {cfg : ThreadPoolConfig} (h : ¬ Accepted env cfg) :
    checkAndAjustConfig env cfg = .rejected (jobWorkerCount env cfg) := by
  unfold checkAndAjustConfig
  simp only
  split
  · rfl
  · next hcount =>
      rw [if_pos]
      by_contra hpolicy
      refine h ⟨Nat.le_of_not_lt hcount, ?_⟩
      rwa [not_and_or, not_not, not_not] at hpolicy

section accepted
variable {env : Env} {cfg : ThreadPoolConfig} (h : Accepted env cfg)
include h

/-- Past the rejections the queues are counted. -/
theorem check_eq : checkAndAjustConfig env cfg =
    match cfg.jobQueueType with
    | .exclusive => .finished (jobWorkerCount env cfg) (jobWorkerCount env cfg)
        { cfg with threadPriority := adjustPriority env cfg }
    | .shared =>
        if cfg.queueShareFactor = 0 then .aborted
        else .finished (jobWorkerCount env cfg)
          (u32 (jobWorkerCount env cfg + cfg.queueShareFactor - 1) / cfg.queueShareFactor)
          { cfg with threadPriority := adjustPriority env cfg }
    | .max => .aborted := by
  have hcount : ¬ jobWorkerCount env cfg > maxWorkerCount := Nat.not_lt.mpr h.1
  have hpolicy : ¬ (cfg.threadPolicy ≠ .default ∧ env.uid ≠ 0) := by
    rw [not_and_or, not_not, not_not]
    exact h.2
  unfold checkAndAjustConfig
  simp only
  rw [if_neg hcount, if_neg hpolicy]

theorem check_of_aborts (ha : Aborts cfg) : checkAndAjustConfig env cfg = .aborted := by
  rw [check_eq h]
  rcases ha with htype | ⟨htype, hf⟩
  · rw [htype]
  · rw [htype]
    exact if_pos hf

theorem check_of_accepted (ha : ¬ Aborts cfg) : ∃ q, checkAndAjustConfig env cfg =
    .finished (jobWorkerCount env cfg) q
      { cfg with threadPriority := adjustPriority env cfg } := by
  unfold Aborts at ha
  rw [check_eq h]
  cases htype : cfg.jobQueueType with
  | exclusive => exact ⟨_, rfl⟩
  | shared =>
      have hf : cfg.queueShareFactor ≠ 0 := fun hf => ha (.inr ⟨htype, hf⟩)
      exact ⟨_, if_neg hf⟩
  | max => exact absurd (.inl htype) ha

end accepted

/-- What `checkAndAjustConfig` has established when it runs to its end. -/
theorem finished_cases {env : Env} {cfg cfg' : ThreadPoolConfig}
    {count queueCount : ℕ}
    (h : checkAndAjustConfig env cfg = .finished count queueCount cfg') :
    count = jobWorkerCount env cfg ∧ count ≤ maxWorkerCount ∧
    cfg' = { cfg with threadPriority := adjustPriority env cfg } ∧
    (cfg.jobQueueType = .exclusive ∧ queueCount = count ∨
      cfg.jobQueueType = .shared ∧ cfg.queueShareFactor ≠ 0 ∧
        queueCount = u32 (count + cfg.queueShareFactor - 1) / cfg.queueShareFactor) := by
  unfold checkAndAjustConfig at h
  simp only at h
  split at h
  · cases h
  · next hcount =>
      split at h
      · cases h
      · split at h
        · next htype =>
            cases h
            exact ⟨rfl, Nat.le_of_not_lt hcount, rfl, .inl ⟨htype, rfl⟩⟩
        · next htype =>
            split at h
            · cases h
            · next hf =>
                cases h
                exact ⟨rfl, Nat.le_of_not_lt hcount, rfl, .inr ⟨htype, hf, rfl⟩⟩
        · cases h

/-- There are at most as many shared queues as workers. -/
theorem sharedCount_le {count f : ℕ} (hcount : 1 ≤ count) (hf : f ≠ 0) :
    u32 (count + f - 1) / f ≤ count := by
  obtain ⟨c, rfl⟩ : ∃ c, count = c + 1 := ⟨count - 1, by omega⟩
  obtain ⟨g, rfl⟩ : ∃ g, f = g + 1 := ⟨f - 1, by omega⟩
  apply Nat.div_le_of_le_mul
  calc u32 (c + 1 + (g + 1) - 1)
      ≤ c + 1 + (g + 1) - 1 := Nat.mod_le _ _
    _ ≤ g * c + c + (g + 1) := by omega
    _ = (g + 1) * (c + 1) := by rw [Nat.mul_succ, Nat.succ_mul]

/-! ### Queues and workers -/

/-- What `JobQueue::createJobQueue` is given. -/
structure JobQueue where
  queueType : JobQueueType
deriving DecidableEq

/-- What `JobWorker::createJobWorker` is given. -/
structure JobWorker where
  id : ℕ
  config : JobWorkerConfig
deriving DecidableEq

/-- `createJobQueues`. -/
def createJobQueues (cfg : ThreadPoolConfig) (jobQueueCount : ℕ)
    (arr : ℕ → Option JobQueue) : ℕ → Option JobQueue :=
  (List.range jobQueueCount).foldl
    (fun arr i => Function.update arr i (some ⟨cfg.jobQueueType⟩)) arr

/-- The inner loop of `createJobWorkers`, over `mJobWorkerArr` and `worker_id`. -/
def createOnCore (cfg : ThreadPoolConfig) (core : ℕ) (st : (ℕ → Option JobWorker) × ℕ) :
    (ℕ → Option JobWorker) × ℕ :=
  (List.range cfg.workersPerCore).foldl
    (fun st _ =>
      (Function.update st.1 st.2
        (some ⟨st.2, { cfg.toJobWorkerConfig with whichCore := core }⟩), u32 (st.2 + 1))) st

/-- `createJobWorkers`. -/
def createJobWorkers (env : Env) (cfg : ThreadPoolConfig) (arr : ℕ → Option JobWorker) :
    ℕ → Option JobWorker :=
  ((List.range env.coreCount).foldl (fun st core => createOnCore cfg core st) (arr, 0)).1

/-- `assignQueuesToWorkers`: the calls of `assignQ`, each by the index of its worker in
`mJobWorkerArr` and the index of its queue in `mJobQueueArr`. -/
def assignQueuesToWorkers (cfg : ThreadPoolConfig) (jobQueueCount : ℕ) : List (ℕ × ℕ) :=
  ((List.range jobQueueCount).foldl
    (fun st q => (List.range cfg.queueShareFactor).foldl
      (fun st _ => (st.1 ++ [(st.2, q)], u32 (st.2 + 1))) st) (([] : List (ℕ × ℕ)), 0)).1

/-! ### The pool -/

/-- The fields of the pool that the constructor sets once and for all. -/
structure Pool where
  jobWorkerArr : ℕ → Option JobWorker
  jobWorkerCount : ℕ
  jobQueueArr : ℕ → Option JobQueue
  /-- `none` until the field is set -/
  jobQueueCount : Option ℕ
  /-- `createTimer` has started the timer thread -/
  timerStarted : Bool
  config : ThreadPoolConfig

/-- The constructor, apart from `initializeStatistics`; `returned` is what the caller of
`checkAndAjustConfig` sees where that function returns no value.  The result is `none` when the
process was aborted. -/
def construct (env : Env) (cfg : ThreadPoolConfig) (returned : Bool) : Option Pool :=
  match checkAndAjustConfig env cfg with
  | .aborted => none
  | .rejected count => some ⟨fun _ => none, count, fun _ => none, none, false, cfg⟩
  | .finished count queueCount cfg =>
      if returned then
        some ⟨createJobWorkers env cfg fun _ => none, count,
          createJobQueues cfg queueCount fun _ => none, some queueCount, true, cfg⟩
      else some ⟨fun _ => none, count, fun _ => none, some queueCount, false, cfg⟩

/-! ### What the loops leave -/

theorem createJobQueues_apply (cfg : ThreadPoolConfig) (n : ℕ) (arr : ℕ → Option JobQueue)
    (i : ℕ) : createJobQueues cfg n arr i =
      if i < n then some ⟨cfg.jobQueueType⟩ else arr i := by
  unfold createJobQueues
  induction n with
  | zero => rfl
  | succ n ih =>
      rw [List.range_succ, List.foldl_append, List.foldl_cons, List.foldl_nil,
        Function.update_apply, ih]
      grind

/-- The inner loop fills one core's block of entries. -/
theorem createOnCore_eq (cfg : ThreadPoolConfig) (core : ℕ) (arr : ℕ → Option JobWorker)
    {first : ℕ} (h : first + cfg.workersPerCore < 2 ^ 32) :
    createOnCore cfg core (arr, first) =
      (fun k => if first ≤ k ∧ k < first + cfg.workersPerCore then
        some ⟨k, { cfg.toJobWorkerConfig with whichCore := core }⟩ else arr k,
        first + cfg.workersPerCore) := by
  unfold createOnCore
  generalize cfg.workersPerCore = n at h ⊢
  induction n with
  | zero =>
      have hnone : ∀ k, ¬ (first ≤ k ∧ k < first) := fun k hk => by omega
      simp [hnone]
  | succ n ih =>
      rw [List.range_succ, List.foldl_append, List.foldl_cons, List.foldl_nil, ih (by omega),
        u32_of_lt (by omega)]
      refine Prod.ext (funext fun k => ?_) (Nat.add_assoc first n 1)
      simp only [Function.update_apply]
      rcases Nat.lt_trichotomy k (first + n) with hk | rfl | hk
      · rw [if_neg (by omega)]
        exact if_congr (by omega) rfl rfl
      · rw [if_pos rfl, if_pos (by omega)]
      · rw [if_neg (by omega), if_neg (by omega), if_neg (by omega)]

/-- **Layout.**  Worker `k` is entry `k` and is bound to core `k / workersPerCore`. -/
theorem createJobWorkers_apply (env : Env) (cfg : ThreadPoolConfig)
    (arr : ℕ → Option JobWorker) (h : env.coreCount * cfg.workersPerCore < 2 ^ 32) (k : ℕ) :
    createJobWorkers env cfg arr k =
      if k < env.coreCount * cfg.workersPerCore then
        some ⟨k, { cfg.toJobWorkerConfig with whichCore := k / cfg.workersPerCore }⟩
      else arr k := by
  have hloop : ∀ n, n * cfg.workersPerCore < 2 ^ 32 →
      (List.range n).foldl (fun st core => createOnCore cfg core st) (arr, 0) =
        (fun k => if k < n * cfg.workersPerCore then
          some ⟨k, { cfg.toJobWorkerConfig with whichCore := k / cfg.workersPerCore }⟩
          else arr k, n * cfg.workersPerCore) := by
    intro n hn
    induction n with
    | zero => simp
    | succ n ih =>
        rw [Nat.succ_mul] at hn
        rw [List.range_succ, List.foldl_append, List.foldl_cons, List.foldl_nil, ih (by omega),
          createOnCore_eq _ _ _ hn, Nat.succ_mul]
        refine Prod.ext (funext fun k => ?_) rfl
        simp only
        rcases Nat.lt_or_ge k (n * cfg.workersPerCore) with hk | hk
        · rw [if_neg (by omega), if_pos hk, if_pos (by omega)]
        · by_cases hk' : k < n * cfg.workersPerCore + cfg.workersPerCore
          · have hcore : k / cfg.workersPerCore = n :=
              Nat.div_eq_of_lt_le hk (by rw [Nat.succ_mul]; exact hk')
            rw [if_pos ⟨hk, hk'⟩, if_pos hk', hcore]
          · rw [if_neg (by omega), if_neg (by omega), if_neg hk']
  unfold createJobWorkers
  rw [hloop env.coreCount h]

/-- The calls of `assignQ` in order: call `j` is for worker `j` and queue `j / shareFactor`. -/
theorem assignQueuesToWorkers_eq (cfg : ThreadPoolConfig) (n : ℕ) :
    assignQueuesToWorkers cfg n = (List.range (n * cfg.queueShareFactor)).map fun j =>
      (u32 j, j / cfg.queueShareFactor) := by
  have hinner : ∀ m q log first, (List.range m).foldl
      (fun st _ => (st.1 ++ [(st.2, q)], u32 (st.2 + 1))) ((log, u32 first) : List (ℕ × ℕ) × ℕ) =
        (log ++ (List.range m).map fun i => (u32 (first + i), q), u32 (first + m)) := by
    intro m q log first
    induction m with
    | zero => simp
    | succ m ih =>
        rw [List.range_succ, List.foldl_append, List.foldl_cons, List.foldl_nil, ih,
          List.map_append, List.append_assoc]
        refine Prod.ext rfl ?_
        unfold u32
        rw [Nat.mod_add_mod, Nat.add_assoc]
  have houter : ∀ n, (List.range n).foldl
      (fun st q => (List.range cfg.queueShareFactor).foldl
        (fun st _ => (st.1 ++ [(st.2, q)], u32 (st.2 + 1))) st) (([] : List (ℕ × ℕ)), u32 0) =
        ((List.range (n * cfg.queueShareFactor)).map fun j =>
          (u32 j, j / cfg.queueShareFactor), u32 (n * cfg.queueShareFactor)) := by
    intro n
    induction n with
    | zero => simp
    | succ n ih =>
        rw [List.range_succ, List.foldl_append, List.foldl_cons, List.foldl_nil, ih, hinner,
          Nat.succ_mul, List.range_add, List.map_append, List.map_map]
        refine Prod.ext ?_ rfl
        simp only [List.append_cancel_left_eq]
        apply List.map_congr_left
        intro i hi
        have hlt := List.mem_range.mp hi
        simp only [Function.comp_apply]
        rw [Nat.mul_comm n, Nat.mul_add_div (by omega), Nat.div_eq_of_lt hlt, Nat.add_zero]
  unfold assignQueuesToWorkers
  exact congrArg Prod.fst (houter n)

end LinuxProgramming.ThreadPool
