import LinuxProgramming.Tally
import LinuxProgramming.ThreadPool.Model

/-! # Where jobs are placed

The cursors, the timer's results and the workers agree on one layout: core `c` has the workers
`c * workersPerCore` up to the next multiple.  `Inv` says so of every number that the threads
and the timer hold, for any number of calls and of timer passes; `placement` is what follows for
the worker that `addJob` hands its job to. -/

namespace LinuxProgramming.ThreadPool

/-- A pool whose workers fit into `mJobWorkerArr`. -/
structure Fits (env : Env) (p : Pool) : Prop where
  pos : 1 ≤ env.coreCount * p.config.workersPerCore
  le : env.coreCount * p.config.workersPerCore ≤ maxWorkerCount
  count : p.jobWorkerCount = env.coreCount * p.config.workersPerCore

/-- The worker `k` is one that the policy may choose for a caller on `core`. -/
structure Eligible (p : Pool) (policy : JobAssignPolicy) (core k : ℕ) : Prop where
  lt : k < p.jobWorkerCount
  onCore : policy.sameCore = true →
    core * p.config.workersPerCore ≤ k ∧ k < core * p.config.workersPerCore + p.config.workersPerCore

/-- How many workers a cursor goes round. -/
def sizeOf (p : Pool) : Option ℕ → ℕ
  | none => p.jobWorkerCount
  | some _ => p.config.workersPerCore

/-- A cursor that some caller may use. -/
def Used (env : Env) (r : Option ℕ) : Prop := ∀ core, r = some core → core < env.coreCount

section layout
variable {env : Env} {p : Pool}

theorem Fits.workers_pos (h : Fits env p) : 0 < p.config.workersPerCore := by
  rcases Nat.eq_zero_or_pos p.config.workersPerCore with hz | hpos
  · have := h.pos
    rw [hz, Nat.mul_zero] at this
    omega
  · exact hpos

theorem Fits.count_pos (h : Fits env p) : 0 < p.jobWorkerCount := by
  have := h.pos
  have := h.count
  omega

theorem Fits.count_le (h : Fits env p) : p.jobWorkerCount ≤ 128 := by
  have := h.le
  have := h.count
  unfold maxWorkerCount at *
  omega

/-- The block of a core lies within the workers. -/
theorem Fits.block_le (h : Fits env p) {core : ℕ} (hc : core < env.coreCount) :
    core * p.config.workersPerCore + p.config.workersPerCore ≤ p.jobWorkerCount := by
  rw [h.count, ← Nat.succ_mul]
  exact Nat.mul_le_mul_right _ hc

theorem Fits.first_eq (h : Fits env p) {core : ℕ} (hc : core < env.coreCount) :
    u32 (core * p.config.workersPerCore) = core * p.config.workersPerCore := by
  have := h.block_le hc
  have := h.count_le
  exact u32_of_lt (by omega)

theorem Fits.size_pos (h : Fits env p) (r : Option ℕ) : 0 < sizeOf p r := by
  cases r with
  | none => exact h.count_pos
  | some core => exact h.workers_pos

theorem Fits.bound (h : Fits env p) {r : Option ℕ} (hr : Used env r) :
    firstOf p r + sizeOf p r ≤ 128 := by
  have hle := h.count_le
  cases r with
  | none => simpa only [firstOf, sizeOf, Nat.zero_add] using hle
  | some core =>
      have hblock := h.block_le (hr core rfl)
      simp only [firstOf, sizeOf, h.first_eq (hr core rfl)]
      omega

theorem Fits.limit_eq (h : Fits env p) {r : Option ℕ} (hr : Used env r) :
    limitOf p r = firstOf p r + sizeOf p r := by
  cases r with
  | none => simp only [limitOf, firstOf, sizeOf, Nat.zero_add]
  | some core =>
      have hbound := h.bound hr
      simp only [limitOf, firstOf, sizeOf, h.first_eq (hr core rfl), Nat.succ_mul] at hbound ⊢
      exact u32_of_lt (by omega)

end layout

/-! ### The invariant -/

/-- The threads that stand before each step under the lock of `r`, as weights. -/
def Pc.holding (r : Option ℕ) : Pc → ℕ
  | .rotate policy core .hold => if rotationOf policy core = r then 1 else 0
  | _ => 0

def Pc.wrapping (r : Option ℕ) : Pc → ℕ
  | .rotate policy core (.wrap _) => if rotationOf policy core = r then 1 else 0
  | _ => 0

def Pc.leaving (r : Option ℕ) : Pc → ℕ
  | .rotate policy core (.post _) => if rotationOf policy core = r then 1 else 0
  | _ => 0

/-- The worker that a thread has in hand is one that its policy may choose. -/
def RotationPc.Sound (p : Pool) (policy : JobAssignPolicy) (core : ℕ) : RotationPc → Prop
  | .wrap k => Eligible p policy core k
  | .post k => Eligible p policy core k
  | _ => True

def Pc.Sound (env : Env) (p : Pool) : Pc → Prop
  | .rotate policy core pc => core < env.coreCount ∧
      (policy = .sameCoreRoundRobin ∨ policy = .roundRobin) ∧ pc.Sound p policy core
  | .chosen policy core k => Eligible p policy core k
  | _ => True

def TimerPc.Sound (env : Env) (p : Pool) : TimerPc → Prop
  | .asleep => True
  | .scanAll _ k _ => k < p.jobWorkerCount
  | .nextCore core first => core ≤ env.coreCount ∧ first = core * p.config.workersPerCore
  | .scanCore core first _ k _ => core < env.coreCount ∧
      first = core * p.config.workersPerCore ∧ first ≤ k ∧ k < first + p.config.workersPerCore

variable {n : ℕ}

/-- A cursor with its lock, and the threads under it. -/
def CursorOk (p : Pool) (s : State n) (r : Option ℕ) : Prop :=
  Rotation.Ok (s.stat.rotation r) (firstOf p r) (sizeOf p r) (tally (Pc.holding r) s.thread)
    (tally (Pc.wrapping r) s.thread) (tally (Pc.leaving r) s.thread)

structure Inv (env : Env) (p : Pool) (s : State n) : Prop where
  sound : ∀ i, (s.thread i).Sound env p
  cursor : ∀ r, Used env r → CursorOk p s r
  least : s.stat.jobWorkerWithLeastJob < p.jobWorkerCount
  leastOnCore : ∀ core < env.coreCount,
    core * p.config.workersPerCore ≤ s.stat.jobWorkerWithLeastJobOnEachCore core ∧
    s.stat.jobWorkerWithLeastJobOnEachCore core <
      core * p.config.workersPerCore + p.config.workersPerCore
  timer : s.timer.Sound env p

/-- Two program points of a thread that look the same to a cursor. -/
structure SameAt (r : Option ℕ) (pc pc' : Pc) : Prop where
  holding : pc'.holding r = pc.holding r
  wrapping : pc'.wrapping r = pc.wrapping r
  leaving : pc'.leaving r = pc.leaving r

theorem sameAt_of_ne {r : Option ℕ} {policy : JobAssignPolicy} {core : ℕ}
    (h : rotationOf policy core ≠ r) (pc pc' : RotationPc) :
    SameAt r (.rotate policy core pc) (.rotate policy core pc') := by
  constructor <;> cases pc <;> cases pc' <;> simp [Pc.holding, Pc.wrapping, Pc.leaving, h]

theorem sameAt_chosen {r : Option ℕ} {policy : JobAssignPolicy} {core : ℕ}
    (h : rotationOf policy core ≠ r) (pc : RotationPc) (k : ℕ) :
    SameAt r (.rotate policy core pc) (.chosen policy core k) := by
  constructor <;> cases pc <;> simp [Pc.holding, Pc.wrapping, Pc.leaving, h]

theorem CursorOk.goto {p : Pool} {s : State n} {r : Option ℕ} (h : CursorOk p s r) {i : Fin n}
    {pc : Pc} (hsame : SameAt r (s.thread i) pc) : CursorOk p (s.goto i pc) r := by
  unfold CursorOk State.goto at *
  rw [tally_update_of_eq _ hsame.holding, tally_update_of_eq _ hsame.wrapping,
    tally_update_of_eq _ hsame.leaving]
  exact h

/-- The cursor that a thread has changed under its lock, when the thread has moved on. -/
theorem cursorOk_setRotation {p : Pool} {s : State n} {r : Option ℕ} {c : Rotation} {i : Fin n}
    {pc : Pc} : CursorOk p ((s.setRotation r c).goto i pc) r ↔
      Rotation.Ok c (firstOf p r) (sizeOf p r)
        (tally (Pc.holding r) (Function.update s.thread i pc))
        (tally (Pc.wrapping r) (Function.update s.thread i pc))
        (tally (Pc.leaving r) (Function.update s.thread i pc)) := by
  unfold CursorOk State.goto State.setRotation
  simp only [Function.update_self]

namespace Inv
variable {env : Env} {p : Pool} {s : State n}

theorem start (h : Fits env p) : Inv env p (ThreadPool.start p n) where
  sound := fun _ => trivial
  cursor := by
    intro r _
    have hzero : ∀ w : Pc → ℕ, w .idle = 0 → tally w (fun _ : Fin n => Pc.idle) = 0 :=
      fun w hw => tally_const_zero w hw
    unfold CursorOk ThreadPool.start
    rw [hzero _ rfl, hzero _ rfl, hzero _ rfl]
    cases r <;> exact Rotation.Ok.start _ _
  least := h.count_pos
  leastOnCore := by
    intro core hc
    have hpos := h.workers_pos
    have hfirst := h.first_eq hc
    unfold ThreadPool.start initializeStatistics
    simp only
    omega
  timer := trivial

/-- A thread moves where no cursor sees it. -/
theorem goto (h : Inv env p s) {i : Fin n} {pc : Pc} (hsound : pc.Sound env p)
    (hsame : ∀ r, SameAt r (s.thread i) pc) : Inv env p (s.goto i pc) where
  sound := (Function.forall_update_iff s.thread _).mpr ⟨hsound, fun j _ => h.sound j⟩
  cursor := fun r hr => (h.cursor r hr).goto (hsame r)
  least := h.least
  leastOnCore := h.leastOnCore
  timer := h.timer

/-- A thread moves under the lock of `r`. -/
theorem move (h : Inv env p s) {i : Fin n} {pc : Pc} {r : Option ℕ} {c : Rotation}
    (hsound : pc.Sound env p) (hother : ∀ r', r' ≠ r → SameAt r' (s.thread i) pc)
    (hr : Used env r → CursorOk p ((s.setRotation r c).goto i pc) r) :
    Inv env p ((s.setRotation r c).goto i pc) where
  sound := (Function.forall_update_iff s.thread _).mpr ⟨hsound, fun j _ => h.sound j⟩
  cursor := by
    intro r' hr'
    by_cases hrr : r' = r
    · subst hrr
      exact hr hr'
    · have hgoto := (h.cursor r' hr').goto (hother r' hrr)
      unfold CursorOk State.goto State.setRotation at *
      simp only [Function.update_of_ne hrr]
      exact hgoto
  least := h.least
  leastOnCore := h.leastOnCore
  timer := h.timer

/-- The choice of a worker at the start of `addJob`. -/
theorem addJob (h : Inv env p s) (hf : Fits env p) {i : Fin n} (hi : s.thread i = .idle)
    {policy : JobAssignPolicy} {cpu rand : ℕ} (hcpu : cpu < env.coreCount) {s' : State n}
    (hs : ThreadPool.addJob p s i policy cpu rand = some s') : Inv env p s' := by
  have hblock := hf.block_le hcpu
  unfold ThreadPool.addJob at hs
  cases policy with
  | sameCoreRoundRobin =>
      cases hs
      exact h.goto ⟨hcpu, .inl rfl, trivial⟩ fun r => by rw [hi]; exact ⟨rfl, rfl, rfl⟩
  | sameCoreLeastJobs =>
      cases hs
      have hleast := h.leastOnCore cpu hcpu
      refine h.goto ⟨by omega, fun _ => hleast⟩ fun r => ?_
      rw [hi]
      exact ⟨rfl, rfl, rfl⟩
  | roundRobin =>
      cases hs
      exact h.goto ⟨hcpu, .inr rfl, trivial⟩ fun r => by rw [hi]; exact ⟨rfl, rfl, rfl⟩
  | leastJobs =>
      cases hs
      refine h.goto ⟨h.least, fun hcore => by cases hcore⟩ fun r => ?_
      rw [hi]
      exact ⟨rfl, rfl, rfl⟩
  | sameCoreRandom =>
      simp only at hs
      split at hs
      · cases hs
      · cases hs
        have hmod := Nat.mod_lt rand hf.workers_pos
        have hle := hf.count_le
        rw [u32_of_lt (by omega)]
        refine h.goto ⟨by omega, fun _ => by omega⟩ fun r => ?_
        rw [hi]
        exact ⟨rfl, rfl, rfl⟩
  | random =>
      simp only at hs
      split at hs
      · cases hs
      · cases hs
        have hmod := Nat.mod_lt rand hf.count_pos
        refine h.goto ⟨hmod, fun hcore => by cases hcore⟩ fun r => ?_
        rw [hi]
        exact ⟨rfl, rfl, rfl⟩
  | max => cases hs

/-- A number of the block that a policy's cursor goes round is eligible for the policy. -/
theorem eligible (hf : Fits env p) {policy : JobAssignPolicy} {core k : ℕ}
    (hcore : core < env.coreCount)
    (hpolicy : policy = .sameCoreRoundRobin ∨ policy = .roundRobin)
    (hge : firstOf p (rotationOf policy core) ≤ k)
    (hlt : k < firstOf p (rotationOf policy core) + sizeOf p (rotationOf policy core)) :
    Eligible p policy core k := by
  rcases hpolicy with rfl | rfl
  · have hblock := hf.block_le hcore
    simp only [rotationOf, firstOf, sizeOf, hf.first_eq hcore] at hge hlt
    exact ⟨by omega, fun _ => ⟨hge, hlt⟩⟩
  · simp only [rotationOf, firstOf, sizeOf, Nat.zero_add] at hlt
    exact ⟨hlt, fun hc => by cases hc⟩

/-- How the three counts of threads change when one thread moves on. -/
theorem tallies_update (r : Option ℕ) {f : Fin n → Pc} {i : Fin n} {pc : Pc} (hi : f i = pc)
    (pc' : Pc) :
    tally (Pc.holding r) (Function.update f i pc') + pc.holding r =
      tally (Pc.holding r) f + pc'.holding r ∧
    tally (Pc.wrapping r) (Function.update f i pc') + pc.wrapping r =
      tally (Pc.wrapping r) f + pc'.wrapping r ∧
    tally (Pc.leaving r) (Function.update f i pc') + pc.leaving r =
      tally (Pc.leaving r) f + pc'.leaving r := by
  rw [← hi]
  exact ⟨tally_update _ f i pc', tally_update _ f i pc', tally_update _ f i pc'⟩

/-- The section under the lock of a cursor, step by step. -/
theorem rotate (h : Inv env p s) (hf : Fits env p) {i : Fin n} {policy : JobAssignPolicy}
    {core : ℕ} {pc : RotationPc} (hi : s.thread i = .rotate policy core pc) {s' : State n}
    (hs : ThreadPool.rotate p s i policy core (rotationOf policy core) pc = some s') :
    Inv env p s' := by
  obtain ⟨hcore, hpolicy, hpc⟩ : (Pc.rotate policy core pc).Sound env p := hi ▸ h.sound i
  have hused : Used env (rotationOf policy core) := by
    rcases hpolicy with rfl | rfl
    · rintro c ⟨⟩
      exact hcore
    · rintro c ⟨⟩
  have hcursor := h.cursor _ hused
  have hsize := hf.size_pos (rotationOf policy core)
  have hbound := hf.bound hused
  have hother : ∀ pc' r', r' ≠ rotationOf policy core →
      SameAt r' (s.thread i) (.rotate policy core pc') := by
    intro pc' r' hr'
    rw [hi]
    exact sameAt_of_ne hr'.symm _ _
  unfold CursorOk at hcursor
  have htallies := fun pc' : Pc => tallies_update (rotationOf policy core) hi pc'
  unfold ThreadPool.rotate at hs
  cases pc with
  | wait =>
      simp only at hs
      split at hs
      · next hlock =>
          cases hs
          obtain ⟨h1, h2, h3⟩ := htallies (.rotate policy core .hold)
          simp only [Pc.holding, Pc.wrapping, Pc.leaving, if_true, Nat.add_zero] at h1 h2 h3
          refine h.move ⟨hcore, hpolicy, trivial⟩ (hother .hold) fun _ => ?_
          rw [cursorOk_setRotation, h1, h2, h3]
          exact hcursor.acquire hlock
      · cases hs
  | hold =>
      cases hs
      obtain ⟨h1, h2, h3⟩ :=
        htallies (.rotate policy core (.wrap (s.stat.rotation (rotationOf policy core)).take.1))
      simp only [Pc.holding, Pc.wrapping, Pc.leaving, if_true, Nat.add_zero] at h1 h2 h3
      rw [← h1] at hcursor
      have hmem := hcursor.next_mem hsize
      refine h.move ⟨hcore, hpolicy, eligible hf hcore hpolicy hmem.1 hmem.2⟩
        (hother (.wrap _)) fun _ => ?_
      rw [cursorOk_setRotation, h2, h3]
      exact hcursor.take hsize (by omega)
  | wrap k =>
      cases hs
      obtain ⟨h1, h2, h3⟩ := htallies (.rotate policy core (.post k))
      simp only [Pc.holding, Pc.wrapping, Pc.leaving, if_true, Nat.add_zero] at h1 h2 h3
      rw [← h2] at hcursor
      refine h.move ⟨hcore, hpolicy, hpc⟩ (hother (.post k)) fun _ => ?_
      rw [cursorOk_setRotation, h1, h3, hf.limit_eq hused]
      exact hcursor.wrap hsize
  | post k =>
      cases hs
      obtain ⟨h1, h2, h3⟩ := htallies (.chosen policy core k)
      simp only [Pc.holding, Pc.wrapping, Pc.leaving, if_true, Nat.add_zero] at h1 h2 h3
      rw [← h3] at hcursor
      refine h.move hpc (fun r' hr' => ?_) fun _ => ?_
      · rw [hi]
        exact sameAt_chosen hr'.symm _ _
      · rw [cursorOk_setRotation, h1, h2]
        exact hcursor.release

/-- One step of the timer thread. -/
theorem timerStep (h : Inv env p s) (hf : Fits env p) (jobs : ℕ) :
    Inv env p (ThreadPool.timerStep env p s jobs) := by
  have htimer := h.timer
  unfold ThreadPool.timerStep
  cases ht : s.timer with
  | asleep => exact { h with timer := hf.count_pos }
  | scanAll i k m =>
      rw [ht] at htimer
      simp only
      split
      · next hlt =>
          split
          · exact { h with timer := hlt }
          · exact { h with timer := htimer }
      · exact { h with least := htimer, timer := ⟨Nat.zero_le _, (Nat.zero_mul _).symm⟩ }
  | nextCore core first =>
      rw [ht] at htimer
      simp only
      split
      · next hcore =>
          have hpos := hf.workers_pos
          exact { h with timer := ⟨hcore, htimer.2, le_rfl, by omega⟩ }
      · exact { h with timer := trivial }
  | scanCore core first i k m =>
      rw [ht] at htimer
      obtain ⟨hcore, hfirst, hge, hlt⟩ := htimer
      have hblock := hf.block_le hcore
      have hle := hf.count_le
      simp only
      split
      · next hi =>
          split
          · rw [u32_of_lt (by omega)]
            exact { h with timer := ⟨hcore, hfirst, by omega, by omega⟩ }
          · exact { h with timer := ⟨hcore, hfirst, hge, hlt⟩ }
      · refine { h with leastOnCore := fun c hc => ?_, timer := ⟨hcore, ?_⟩ }
        · by_cases hcc : c = core
          · subst hcc
            simp only [Function.update_self]
            omega
          · simp only [Function.update_of_ne hcc]
            exact h.leastOnCore c hc
        · rw [u32_of_lt (by omega), hfirst, Nat.succ_mul]

theorem step (h : Inv env p s) (hf : Fits env p) {a : Act n} {s' : State n}
    (hs : ThreadPool.step env p s a = some s') : Inv env p s' := by
  cases a with
  | addJob i policy cpu rand =>
      simp only [ThreadPool.step] at hs
      split at hs
      · next hi =>
          split at hs
          · next hcpu => exact h.addJob hf hi hcpu hs
          · cases hs
      · cases hs
  | rotate i =>
      simp only [ThreadPool.step] at hs
      split at hs
      · next hi => exact h.rotate hf hi hs
      · cases hs
  | call i | getJobCount i =>
      simp only [ThreadPool.step] at hs
      split at hs
      · next hi =>
          cases hs
          exact h.goto trivial fun r => by rw [hi]; exact ⟨rfl, rfl, rfl⟩
      · cases hs
  | count i jobs =>
      simp only [ThreadPool.step] at hs
      split at hs
      · next hi =>
          split at hs <;>
          · cases hs
            exact h.goto trivial fun r => by rw [hi]; exact ⟨rfl, rfl, rfl⟩
      · cases hs
  | timer jobs =>
      cases hs
      exact h.timerStep hf jobs

end Inv

theorem reachable_inv {env : Env} {p : Pool} (hf : Fits env p) {s : State n}
    (h : (system env p n).Reachable s) : Inv env p s := by
  apply h.invariant
  · rintro s rfl
    exact Inv.start hf
  · intro s a s' hI hs
    exact hI.step hf hs

/-! ### The worker that gets the job -/

/-- What a pool that has started its workers looks like. -/
theorem started_of_construct {env : Env} {cfg : ThreadPoolConfig} {returned : Bool} {p : Pool}
    (h : construct env cfg returned = some p) (hstarted : p.timerStarted = true) :
    p.config.workersPerCore = cfg.workersPerCore ∧
    p.jobWorkerCount = jobWorkerCount env cfg ∧
    p.jobWorkerArr = createJobWorkers env p.config fun _ => none := by
  unfold construct at h
  split at h
  · cases h
  · cases h
    cases hstarted
  · next hfin =>
      obtain ⟨hcount, -, rfl, -⟩ := finished_cases hfin
      split at h
      · cases h
        exact ⟨rfl, hcount, rfl⟩
      · cases h
        cases hstarted

theorem fits_of_construct {env : Env} {cfg : ThreadPoolConfig} {returned : Bool} {p : Pool}
    (h : construct env cfg returned = some p) (hstarted : p.timerStarted = true)
    (hpos : 1 ≤ env.coreCount * cfg.workersPerCore)
    (hle : env.coreCount * cfg.workersPerCore ≤ maxWorkerCount) : Fits env p := by
  obtain ⟨hworkers, hcount, -⟩ := started_of_construct h hstarted
  refine ⟨by rwa [hworkers], by rwa [hworkers], ?_⟩
  rw [hcount, hworkers]
  exact u32_of_lt (lt_of_le_of_lt hle (by decide))

/-- **Placement.**  In every state reached by any calls and timer passes, the worker chosen by
`addJob` is one of the workers, and under the policies that promise the caller's core it is one
that `createJobWorkers` has bound to that core. -/
theorem placement {env : Env} {cfg : ThreadPoolConfig} {returned : Bool} {p : Pool}
    (hp : construct env cfg returned = some p) (hstarted : p.timerStarted = true)
    (hpos : 1 ≤ env.coreCount * cfg.workersPerCore)
    (hle : env.coreCount * cfg.workersPerCore ≤ maxWorkerCount) {s : State n}
    (h : (system env p n).Reachable s) {i : Fin n} {policy : JobAssignPolicy}
    {core whichWorker : ℕ} (hi : s.thread i = .chosen policy core whichWorker) :
    whichWorker < p.jobWorkerCount ∧
    (policy.sameCore = true → ∃ worker, p.jobWorkerArr whichWorker = some worker ∧
      worker.config.whichCore = core) := by
  have hf := fits_of_construct hp hstarted hpos hle
  have hsound : (Pc.chosen policy core whichWorker).Sound env p := hi ▸ (reachable_inv hf h).sound i
  refine ⟨hsound.lt, fun hcore => ?_⟩
  obtain ⟨hge, hlt⟩ := hsound.onCore hcore
  obtain ⟨-, -, harr⟩ := started_of_construct hp hstarted
  have hlt' := hsound.lt
  have hcount := hf.count
  have hmax := hf.le
  rw [harr, createJobWorkers_apply _ _ _ (lt_of_le_of_lt hmax (by decide)), if_pos (by omega)]
  refine ⟨_, rfl, ?_⟩
  simp only
  exact Nat.div_eq_of_lt_le hge (by rw [Nat.succ_mul]; exact hlt)

/-- Two cores with two workers each. -/
def twoCores : Env := ⟨2, by decide, 1000, fun _ => 0, fun _ => 99⟩

def twoPerCore : ThreadPoolConfig := ⟨⟨.independent, .default, 0, 0⟩, .exclusive, 2, 1⟩

/-- The pool that they make. -/
def fourWorkers : Pool where
  jobWorkerArr := createJobWorkers twoCores twoPerCore fun _ => none
  jobWorkerCount := 4
  jobQueueArr := createJobQueues twoPerCore 4 fun _ => none
  jobQueueCount := some 4
  timerStarted := true
  config := twoPerCore

theorem placement_fourWorkers : ∃ s, (system twoCores fourWorkers 1).exec (start fourWorkers 1)
    [.addJob 0 .sameCoreRoundRobin 1 0, .rotate 0, .rotate 0, .rotate 0, .rotate 0] = some s ∧
    s.thread 0 = .chosen .sameCoreRoundRobin 1 2 ∧ 2 < fourWorkers.jobWorkerCount ∧
    ∃ worker, fourWorkers.jobWorkerArr 2 = some worker ∧ worker.config.whichCore = 1 := by
  have hrun : ∃ s, (system twoCores fourWorkers 1).exec (start fourWorkers 1)
      [.addJob 0 .sameCoreRoundRobin 1 0, .rotate 0, .rotate 0, .rotate 0, .rotate 0] = some s ∧
      s.thread 0 = .chosen .sameCoreRoundRobin 1 2 := ⟨_, rfl, rfl⟩
  obtain ⟨s, hs, hi⟩ := hrun
  have hp : construct twoCores twoPerCore true = some fourWorkers := rfl
  have hplace := placement hp rfl (by decide) (by decide)
    (Lts.Reachable.exec (.of_init rfl) hs) hi
  exact ⟨s, hs, hi, hplace.1, hplace.2 rfl⟩

end LinuxProgramming.ThreadPool
