import LinuxProgramming.LeastIndex
import LinuxProgramming.ThreadPool.Placement
import Mathlib.Data.List.Count

/-! # What a pass of the timer finds

The timer thread asks the workers for their numbers of jobs, one at a time and all of them twice:
once in one loop over the workers, and once core by core.  While the numbers stay as they are, the
two searches find the first of the workers with the least number, of all and of each core, and
agree.  The other threads may take any steps meanwhile; `least_found` is about every run. -/

namespace LinuxProgramming.ThreadPool

/-! ### Numbers that stay -/

/-- The worker that is asked at the next step. -/
def TimerPc.asked : TimerPc → ℕ
  | .asleep => 0
  | .scanAll i _ _ => i
  | .nextCore _ first => first
  | .scanCore _ first i _ _ => u32 (first + i)

variable {n : ℕ}

/-- The answer of worker `k` is `jobs k`. -/
def Act.answered (jobs : ℕ → ℕ) (s : State n) : Act n → Act n
  | .timer _ => .timer (jobs s.timer.asked)
  | a => a

/-- The pool while the numbers of jobs stay fixed. -/
def fixed (env : Env) (p : Pool) (jobs : ℕ → ℕ) (n : ℕ) : Lts (State n) (Act n) where
  init s := s = start p n
  step s a := step env p s (a.answered jobs s)

def Act.isTimer : Act n → Bool
  | .timer _ => true
  | _ => false

/-- The number of steps of a pass, from sleep to sleep. -/
def passLength (env : Env) (p : Pool) : ℕ :=
  p.jobWorkerCount + env.coreCount * (p.config.workersPerCore + 1) + 2

/-- What a pass that has begun in `s₀` has found. -/
structure Found (env : Env) (p : Pool) (jobs : ℕ → ℕ) (s₀ s : State n) : Prop where
  all : LeastIndex jobs 0 p.jobWorkerCount s.stat.jobWorkerWithLeastJob
  core : ∀ c < env.coreCount,
    LeastIndex jobs (c * p.config.workersPerCore) ((c + 1) * p.config.workersPerCore)
      (s.stat.jobWorkerWithLeastJobOnEachCore c)
  untouched : ∀ c, env.coreCount ≤ c →
    s.stat.jobWorkerWithLeastJobOnEachCore c = s₀.stat.jobWorkerWithLeastJobOnEachCore c
  agree : ∃ c < env.coreCount,
    c * p.config.workersPerCore ≤ s.stat.jobWorkerWithLeastJob ∧
    s.stat.jobWorkerWithLeastJob < (c + 1) * p.config.workersPerCore ∧
    s.stat.jobWorkerWithLeastJobOnEachCore c = s.stat.jobWorkerWithLeastJob

/-! ### One step -/

/-- The entries of the cores below `done` are found, the others are as before. -/
structure CoresFound (p : Pool) (jobs : ℕ → ℕ) (done : ℕ) (before now : ℕ → ℕ) : Prop where
  found : ∀ c < done,
    LeastIndex jobs (c * p.config.workersPerCore) ((c + 1) * p.config.workersPerCore) (now c)
  rest : ∀ c, done ≤ c → now c = before c

/-- The timer after it has woken up, and at the end of the pass. -/
def Scanning (env : Env) (p : Pool) (jobs : ℕ → ℕ) (before : ℕ → ℕ) (stat : StatisticCtrl) :
    TimerPc → Prop
  | .asleep => LeastIndex jobs 0 p.jobWorkerCount stat.jobWorkerWithLeastJob ∧
      CoresFound p jobs env.coreCount before stat.jobWorkerWithLeastJobOnEachCore
  | .scanAll i k m => i ≤ p.jobWorkerCount ∧ m = jobs k ∧ LeastIndex jobs 0 i k ∧
      CoresFound p jobs 0 before stat.jobWorkerWithLeastJobOnEachCore
  | .nextCore core first => core ≤ env.coreCount ∧ first = core * p.config.workersPerCore ∧
      LeastIndex jobs 0 p.jobWorkerCount stat.jobWorkerWithLeastJob ∧
      CoresFound p jobs core before stat.jobWorkerWithLeastJobOnEachCore
  | .scanCore core first i k m => core < env.coreCount ∧
      first = core * p.config.workersPerCore ∧ i ≤ p.config.workersPerCore ∧ m = jobs k ∧
      LeastIndex jobs first (first + i) k ∧
      LeastIndex jobs 0 p.jobWorkerCount stat.jobWorkerWithLeastJob ∧
      CoresFound p jobs core before stat.jobWorkerWithLeastJobOnEachCore

/-- The steps that are left before the timer sleeps. -/
def TimerPc.remaining (env : Env) (p : Pool) : TimerPc → ℕ
  | .asleep => 0
  | .scanAll i _ _ =>
      (p.jobWorkerCount - i) + 1 + env.coreCount * (p.config.workersPerCore + 1) + 1
  | .nextCore core _ => (env.coreCount - core) * (p.config.workersPerCore + 1) + 1
  | .scanCore core _ i _ _ => (p.config.workersPerCore - i) + 1 +
      (env.coreCount - (core + 1)) * (p.config.workersPerCore + 1) + 1

/-- A state within the pass that has one step less before it than `steps`. -/
structure Scanned (env : Env) (p : Pool) (jobs : ℕ → ℕ) (before : ℕ → ℕ) (steps : ℕ)
    (s : State n) : Prop where
  scanning : Scanning env p jobs before s.stat s.timer
  remaining : s.timer.remaining env p + 1 = steps

section step
variable {env : Env} {p : Pool} {jobs : ℕ → ℕ} {before : ℕ → ℕ} {s s' : State n}

theorem CoresFound.next {core k : ℕ} {now : ℕ → ℕ} (h : CoresFound p jobs core before now)
    (hk : LeastIndex jobs (core * p.config.workersPerCore) ((core + 1) * p.config.workersPerCore) k) :
    CoresFound p jobs (core + 1) before (Function.update now core k) where
  found c hc := by
    by_cases hcc : c = core
    · subst hcc
      rwa [Function.update_self]
    · rw [Function.update_of_ne hcc]
      exact h.found c (by omega)
  rest c hc := by
    rw [Function.update_of_ne (by omega)]
    exact h.rest c (by omega)

theorem scanned_scanAll (hf : Fits env p) {i k m : ℕ} (ht : s.timer = .scanAll i k m)
    (h : Scanning env p jobs before s.stat (.scanAll i k m)) :
    Scanned env p jobs before ((TimerPc.scanAll i k m).remaining env p)
      (timerStep env p s (jobs i)) := by
  have hpos := hf.workers_pos
  obtain ⟨hi, rfl, hleast, hcores⟩ := h
  unfold timerStep
  rw [ht]
  simp only
  split
  · next hlt =>
      have hstep : p.jobWorkerCount - i = p.jobWorkerCount - (i + 1) + 1 := by omega
      split
      · next hjobs =>
          refine ⟨⟨hlt, rfl, hleast.next_of_lt hjobs, hcores⟩, ?_⟩
          simp only [TimerPc.remaining]
          omega
      · next hjobs =>
          refine ⟨⟨hlt, rfl, hleast.next_of_not_lt hjobs, hcores⟩, ?_⟩
          simp only [TimerPc.remaining]
          omega
  · next hge =>
      obtain rfl : i = p.jobWorkerCount := by omega
      refine ⟨⟨Nat.zero_le _, (Nat.zero_mul _).symm, hleast, hcores⟩, ?_⟩
      simp only [TimerPc.remaining, Nat.sub_zero, Nat.sub_self, Nat.zero_add]
      omega

theorem scanned_nextCore (hf : Fits env p) {core first : ℕ} (ht : s.timer = .nextCore core first)
    (h : Scanning env p jobs before s.stat (.nextCore core first)) :
    Scanned env p jobs before ((TimerPc.nextCore core first).remaining env p)
      (timerStep env p s (jobs first)) := by
  have hpos := hf.workers_pos
  obtain ⟨hle, hfirst, hleast, hcores⟩ := h
  unfold timerStep
  rw [ht]
  simp only
  split
  · next hlt =>
      refine ⟨⟨hlt, hfirst, hpos, rfl, .single jobs first, hleast, hcores⟩, ?_⟩
      have hsub : env.coreCount - core = env.coreCount - (core + 1) + 1 := by omega
      simp only [TimerPc.remaining]
      rw [hsub, Nat.succ_mul]
      omega
  · next hge =>
      obtain rfl : core = env.coreCount := by omega
      refine ⟨⟨hleast, hcores⟩, ?_⟩
      simp only [TimerPc.remaining, Nat.sub_self, Nat.zero_mul]

/-- Neither the worker that is asked nor the first one of the next core wraps. -/
theorem scanned_scanCore (hf : Fits env p) {core first i k m : ℕ}
    (ht : s.timer = .scanCore core first i k m)
    (h : Scanning env p jobs before s.stat (.scanCore core first i k m)) :
    Scanned env p jobs before ((TimerPc.scanCore core first i k m).remaining env p)
      (timerStep env p s (jobs (u32 (first + i)))) := by
  obtain ⟨hcore, hfirst, hi, rfl, hk, hleast, hcores⟩ := h
  have hblock := hf.block_le hcore
  have hcount := hf.count_le
  unfold timerStep
  rw [ht]
  simp only
  split
  · next hlt =>
      rw [u32_of_lt (by omega)]
      split
      · next hjobs =>
          refine ⟨⟨hcore, hfirst, hlt, rfl, hk.next_of_lt hjobs, hleast, hcores⟩, ?_⟩
          simp only [TimerPc.remaining]
          omega
      · next hjobs =>
          refine ⟨⟨hcore, hfirst, hlt, rfl, hk.next_of_not_lt hjobs, hleast, hcores⟩, ?_⟩
          simp only [TimerPc.remaining]
          omega
  · next hge =>
      obtain rfl : i = p.config.workersPerCore := by omega
      have hnext : first + p.config.workersPerCore = (core + 1) * p.config.workersPerCore := by
        rw [hfirst, Nat.succ_mul]
      rw [hnext, hfirst] at hk
      refine ⟨⟨hcore, ?_, hleast, hcores.next hk⟩, ?_⟩
      · rw [u32_of_lt (by omega), hnext]
      · simp only [TimerPc.remaining]
        omega

/-- A step of the timer within the pass, with the answer of the worker that it asks. -/
theorem scanned_timerStep (hf : Fits env p) (h : Scanning env p jobs before s.stat s.timer)
    (hawake : s.timer.remaining env p ≠ 0) :
    Scanned env p jobs before (s.timer.remaining env p)
      (timerStep env p s (jobs s.timer.asked)) := by
  cases ht : s.timer with
  | asleep =>
      rw [ht] at hawake
      exact absurd rfl hawake
  | scanAll i k m =>
      rw [ht] at h
      exact scanned_scanAll hf ht h
  | nextCore core first =>
      rw [ht] at h
      exact scanned_nextCore hf ht h
  | scanCore core first i k m =>
      rw [ht] at h
      exact scanned_scanCore hf ht h

end step

/-! ### Steps of the other threads -/

/-- A step of another thread leaves the timer and what it has found. -/
structure Beside (s s' : State n) : Prop where
  timer : s'.timer = s.timer
  least : s'.stat.jobWorkerWithLeastJob = s.stat.jobWorkerWithLeastJob
  onCore : s'.stat.jobWorkerWithLeastJobOnEachCore = s.stat.jobWorkerWithLeastJobOnEachCore

section beside
variable {env : Env} {p : Pool} {jobs : ℕ → ℕ} {before : ℕ → ℕ} {s s' : State n}

theorem beside_addJob {i : Fin n} {policy : JobAssignPolicy} {cpu rand : ℕ}
    (hs : addJob p s i policy cpu rand = some s') : Beside s s' := by
  unfold addJob at hs
  cases policy with
  | sameCoreRoundRobin | sameCoreLeastJobs | roundRobin | leastJobs =>
      rw [← Option.some.inj hs]
      exact ⟨rfl, rfl, rfl⟩
  | sameCoreRandom | random =>
      simp only at hs
      split at hs
      · contradiction
      · rw [← Option.some.inj hs]
        exact ⟨rfl, rfl, rfl⟩
  | max => contradiction

theorem beside_rotate {i : Fin n} {policy : JobAssignPolicy} {core : ℕ} {r : Option ℕ}
    {pc : RotationPc} (hs : rotate p s i policy core r pc = some s') : Beside s s' := by
  unfold rotate at hs
  cases pc with
  | wait =>
      simp only at hs
      split at hs
      · rw [← Option.some.inj hs]
        exact ⟨rfl, rfl, rfl⟩
      · contradiction
  | hold | wrap k | post k =>
      rw [← Option.some.inj hs]
      exact ⟨rfl, rfl, rfl⟩

theorem beside_step {a : Act n} (ha : a.isTimer = false) (hs : step env p s a = some s') :
    Beside s s' := by
  cases a with
  | addJob i policy cpu rand =>
      simp only [step] at hs
      split at hs
      · split at hs
        · exact beside_addJob hs
        · contradiction
      · contradiction
  | rotate i =>
      simp only [step] at hs
      split at hs
      · exact beside_rotate hs
      · contradiction
  | call i | getJobCount i =>
      simp only [step] at hs
      split at hs
      · rw [← Option.some.inj hs]
        exact ⟨rfl, rfl, rfl⟩
      · contradiction
  | count i jobs =>
      simp only [step] at hs
      split at hs
      · split at hs <;>
        · rw [← Option.some.inj hs]
          exact ⟨rfl, rfl, rfl⟩
      · contradiction
  | timer jobs => contradiction

theorem Beside.scanning (hb : Beside s s') (h : Scanning env p jobs before s.stat s.timer) :
    Scanning env p jobs before s'.stat s'.timer := by
  rw [hb.timer]
  cases ht : s.timer with
  | asleep | scanAll i k m | nextCore core first | scanCore core first i k m =>
      rw [ht] at h
      unfold Scanning at h ⊢
      rwa [hb.least, hb.onCore] at *

end beside

/-! ### Runs -/

section runs
variable {env : Env} {p : Pool} {jobs : ℕ → ℕ} {s s' : State n}

theorem answered_of_not_timer {a : Act n} (ha : a.isTimer = false) : a.answered jobs s = a := by
  cases a with
  | timer j => contradiction
  | addJob i policy cpu rand | rotate i | call i | getJobCount i | count i jobs => rfl

/-- A step while the numbers stay is one of the timer, with the answer of the worker that it asks,
or one beside it. -/
theorem fixed_cases {a : Act n} (hs : (fixed env p jobs n).step s a = some s') :
    (a.isTimer = true ∧ s' = timerStep env p s (jobs s.timer.asked)) ∨
    (a.isTimer = false ∧ Beside s s') := by
  unfold fixed at hs
  by_cases ha : a.isTimer = true
  · cases a with
    | timer j => exact .inl ⟨rfl, (Option.some.inj hs).symm⟩
    | addJob i policy cpu rand | rotate i | call i | getJobCount i | count i jobs => contradiction
  · have hfalse := Bool.eq_false_of_not_eq_true ha
    simp only [answered_of_not_timer hfalse] at hs
    exact .inr ⟨hfalse, beside_step hfalse hs⟩

/-- The rest of a pass. -/
theorem scanning_exec (hf : Fits env p) {before : ℕ → ℕ} {acts : List (Act n)}
    (h : Scanning env p jobs before s.stat s.timer)
    (hle : acts.countP Act.isTimer ≤ s.timer.remaining env p)
    (hrun : (fixed env p jobs n).exec s acts = some s') :
    Scanning env p jobs before s'.stat s'.timer ∧
    s'.timer.remaining env p + acts.countP Act.isTimer = s.timer.remaining env p := by
  induction acts generalizing s with
  | nil =>
      rw [← Option.some.inj hrun]
      exact ⟨h, rfl⟩
  | cons a acts ih =>
      rw [Lts.exec_cons] at hrun
      obtain ⟨s₁, hs, hrun⟩ := Option.bind_eq_some_iff.mp hrun
      rcases fixed_cases hs with ⟨ha, rfl⟩ | ⟨ha, hb⟩
      · rw [List.countP_cons_of_pos ha] at hle ⊢
        have hstep := scanned_timerStep hf h (by omega)
        have hremaining := hstep.remaining
        obtain ⟨hscanning, hrest⟩ := ih hstep.scanning (by omega) hrun
        exact ⟨hscanning, by omega⟩
      · rw [List.countP_cons_of_neg (by rw [ha]; decide)] at hle ⊢
        rw [← hb.timer] at hle ⊢
        exact ih (hb.scanning h) hle hrun

/-- The pass from its first step. -/
theorem pass_exec (hf : Fits env p) {acts : List (Act n)} (hasleep : s.timer = .asleep)
    (hpos : 0 < acts.countP Act.isTimer) (hle : acts.countP Act.isTimer ≤ passLength env p)
    (hrun : (fixed env p jobs n).exec s acts = some s') :
    Scanning env p jobs s.stat.jobWorkerWithLeastJobOnEachCore s'.stat s'.timer ∧
    s'.timer.remaining env p + acts.countP Act.isTimer = passLength env p := by
  induction acts generalizing s with
  | nil => exact absurd hpos (Nat.lt_irrefl _)
  | cons a acts ih =>
      rw [Lts.exec_cons] at hrun
      obtain ⟨s₁, hs, hrun⟩ := Option.bind_eq_some_iff.mp hrun
      rcases fixed_cases hs with ⟨ha, rfl⟩ | ⟨ha, hb⟩
      · rw [List.countP_cons_of_pos ha] at hle ⊢
        have hcount := hf.count_pos
        have hwoken : timerStep env p s (jobs s.timer.asked) =
            { s with timer := .scanAll 1 0 (jobs 0) } := by
          unfold timerStep
          rw [hasleep]
          rfl
        rw [hwoken] at hrun
        have hlength : passLength env p =
            (TimerPc.scanAll 1 0 (jobs 0)).remaining env p + 1 := by
          simp only [passLength, TimerPc.remaining]
          omega
        have hfirst : Scanning env p jobs s.stat.jobWorkerWithLeastJobOnEachCore s.stat
            (.scanAll 1 0 (jobs 0)) :=
          ⟨hcount, rfl, .single jobs 0, fun c hc => absurd hc (Nat.not_lt_zero c), fun _ _ => rfl⟩
        rw [hlength] at hle
        obtain ⟨hscanning, hrest⟩ := scanning_exec (s := { s with timer := .scanAll 1 0 (jobs 0) })
          hf hfirst (Nat.le_of_succ_le_succ hle) hrun
        refine ⟨hscanning, ?_⟩
        rw [hlength, ← hrest, Nat.add_assoc]
      · rw [List.countP_cons_of_neg (by rw [ha]; decide)] at hpos hle ⊢
        rw [← hb.onCore]
        exact ih (hb.timer.trans hasleep) hpos hle hrun

theorem remaining_eq_zero_iff {pc : TimerPc} : pc.remaining env p = 0 ↔ pc = .asleep := by
  cases pc with
  | asleep => exact ⟨fun _ => rfl, fun _ => rfl⟩
  | scanAll i k m | nextCore core first | scanCore core first i k m =>
      constructor
      · intro h
        exact absurd h (Nat.succ_ne_zero _)
      · intro h
        contradiction

/-- At the end of the pass the two searches agree. -/
theorem found_of_scanning (hf : Fits env p) {s₀ : State n} (hasleep : s.timer = .asleep)
    (h : Scanning env p jobs s₀.stat.jobWorkerWithLeastJobOnEachCore s.stat s.timer) :
    Found env p jobs s₀ s := by
  rw [hasleep] at h
  obtain ⟨hall, hcores⟩ := h
  have hpos := hf.workers_pos
  have hlt := hall.lt
  rw [hf.count] at hlt
  refine ⟨hall, hcores.found, hcores.rest, ?_⟩
  have hcore : s.stat.jobWorkerWithLeastJob / p.config.workersPerCore < env.coreCount :=
    Nat.div_lt_of_lt_mul (by rwa [Nat.mul_comm])
  have hlow := Nat.div_mul_le_self s.stat.jobWorkerWithLeastJob p.config.workersPerCore
  have hhigh : s.stat.jobWorkerWithLeastJob <
      (s.stat.jobWorkerWithLeastJob / p.config.workersPerCore + 1) * p.config.workersPerCore := by
    rw [Nat.mul_comm]
    exact Nat.lt_mul_div_succ _ hpos
  refine ⟨_, hcore, hlow, hhigh, (hcores.found _ hcore).unique ?_⟩
  refine hall.part (Nat.zero_le _) ?_ hlow hhigh
  rw [hf.count]
  exact Nat.mul_le_mul_right _ hcore

/-- **A pass.**  In any run from a state in which the timer sleeps, the timer sleeps again after
`passLength` steps of its own and no sooner, and it has found the first of the workers with the
least number of jobs, of all and of each core. -/
theorem least_found (hf : Fits env p) (hasleep : s.timer = .asleep) (jobs : ℕ → ℕ)
    (acts : List (Act n)) (hrun : (fixed env p jobs n).exec s acts = some s') :
    (0 < acts.countP Act.isTimer → acts.countP Act.isTimer < passLength env p →
      s'.timer ≠ .asleep) ∧
    (acts.countP Act.isTimer = passLength env p →
      s'.timer = .asleep ∧ Found env p jobs s s') := by
  refine ⟨fun hpos hlt hend => ?_, fun hcount => ?_⟩
  · have hpass := (pass_exec hf hasleep hpos hlt.le hrun).2
    rw [hend, remaining_eq_zero_iff.mpr rfl] at hpass
    omega
  · have hpos : 0 < passLength env p := Nat.succ_pos _
    obtain ⟨hscanning, hpass⟩ := pass_exec hf hasleep (by omega) (by omega) hrun
    have hrest : s'.timer.remaining env p = 0 := by omega
    have hend : s'.timer = .asleep := remaining_eq_zero_iff.mp hrest
    exact ⟨hend, found_of_scanning hf hend hscanning⟩

end runs

/-- Four workers on two cores with 5, 3, 2 and 2 jobs. -/
theorem least_found_fourWorkers : ∃ s,
    (fixed twoCores fourWorkers (fun k => [5, 3, 2, 2].getD k 0) 0).exec (start fourWorkers 0)
      (List.replicate 12 (.timer 0)) = some s ∧
    s.stat.jobWorkerWithLeastJob = 2 ∧
    s.timer = .asleep ∧
    Found twoCores fourWorkers (fun k => [5, 3, 2, 2].getD k 0) (start fourWorkers 0) s := by
  have hf : Fits twoCores fourWorkers := ⟨by decide, by decide, rfl⟩
  have hrun : ∃ s, (fixed twoCores fourWorkers (fun k => [5, 3, 2, 2].getD k 0) 0).exec
      (start fourWorkers 0) (List.replicate 12 (.timer 0)) = some s ∧
      s.stat.jobWorkerWithLeastJob = 2 := ⟨_, rfl, rfl⟩
  obtain ⟨s, hs, hleast⟩ := hrun
  exact ⟨s, hs, hleast, (least_found hf rfl _ _ hs).2 rfl⟩

end LinuxProgramming.ThreadPool
