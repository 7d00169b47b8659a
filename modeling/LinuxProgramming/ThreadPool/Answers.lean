import LinuxProgramming.ThreadPool.LeastJobs

/-! # What the least-jobs policies go by

The workers' numbers of jobs change while the timer thread asks for them, and the two policies that
assign by them read what the searches have kept.  In any run the worker that is chosen is the first
one with the fewest jobs among the answers of the last search that is over (`informed_exec`,
`leastJobs_informed`): that of all workers, or that of the caller's core. -/

namespace LinuxProgramming.ThreadPool

variable {env : Env} {p : Pool} {n : ℕ} {a : ℕ → ℕ} {s s' : State n}

/-- The answer that the timer thread gets in a step; where it asks nobody, it looks at none. -/
def Act.answer : Act n → Option ℕ
  | .timer jobs => some jobs
  | _ => none

/-- The answers that the timer thread has got. -/
def answers (acts : List (Act n)) : List ℕ := acts.filterMap Act.answer

/-- Answer number `t`, from 0 on. -/
def told (acts : List (Act n)) (t : ℕ) : ℕ := (answers acts).getD t 0

/-- The search over all workers, or over those of a core, in every pass. -/
def searchOf (env : Env) (p : Pool) : Option ℕ → Search
  | none => ⟨passLength env p, 0, 0, p.jobWorkerCount⟩
  | some core => ⟨passLength env p, p.jobWorkerCount + 1 + core * (p.config.workersPerCore + 1),
      core * p.config.workersPerCore, p.config.workersPerCore⟩

/-- What is kept of a search. -/
def StatisticCtrl.leastOf (stat : StatisticCtrl) : Option ℕ → ℕ
  | none => stat.jobWorkerWithLeastJob
  | some core => stat.jobWorkerWithLeastJobOnEachCore core

/-- The search that a policy goes by. -/
def searchedBy (policy : JobAssignPolicy) (core : ℕ) : Option ℕ :=
  match policy with
  | .sameCoreLeastJobs => some core
  | _ => none

/-- The search is over in the pass that the timer is in. -/
def TimerPc.over : TimerPc → Option ℕ → Bool
  | .nextCore _ _, none => true
  | .nextCore core _, some c => c < core
  | .scanCore _ _ _ _ _, none => true
  | .scanCore core _ _ _ _, some c => c < core
  | _, _ => false

/-- The timer is in pass `j`, in which it has got `r` answers. -/
def Within (env : Env) (p : Pool) (a : ℕ → ℕ) (j r : ℕ) : TimerPc → Prop
  | .asleep => r = 0
  | .scanAll i k m => r = i ∧ 0 < i ∧ i ≤ p.jobWorkerCount ∧
      m = (searchOf env p none).value a j k ∧ LeastIndex ((searchOf env p none).value a j) 0 i k
  | .nextCore core first => r = (searchOf env p (some core)).before ∧ core ≤ env.coreCount ∧
      first = core * p.config.workersPerCore
  | .scanCore core first i k m => r = (searchOf env p (some core)).before + i ∧
      core < env.coreCount ∧ first = core * p.config.workersPerCore ∧ 0 < i ∧
      i ≤ p.config.workersPerCore ∧ m = (searchOf env p (some core)).value a j k ∧
      LeastIndex ((searchOf env p (some core)).value a j) first (first + i) k

/-- Where the timer is in pass `j`, and what is kept of the searches. -/
structure Informed (env : Env) (p : Pool) (a : ℕ → ℕ) (j r : ℕ) (s : State n) : Prop where
  within : Within env p a j r s.timer
  kept : ∀ q, Used env q →
    (searchOf env p q).Finds a (if s.timer.over q then j + 1 else j) (s.stat.leastOf q)

/-! ### The places of the searches in a pass -/

theorem searchOf_period (q : Option ℕ) : (searchOf env p q).period = passLength env p := by
  cases q <;> rfl

variable (env p) in
theorem before_add_le {c core : ℕ} (h : c < core) :
    (searchOf env p (some c)).before + p.config.workersPerCore + 1 ≤
      (searchOf env p (some core)).before := by
  have hle := Nat.mul_le_mul_right (p.config.workersPerCore + 1) h
  rw [Nat.succ_mul] at hle
  simp only [searchOf]
  omega

variable (env p) in
theorem before_le {c core : ℕ} (h : c ≤ core) :
    (searchOf env p (some c)).before ≤ (searchOf env p (some core)).before :=
  Nat.add_le_add_left (Nat.mul_le_mul_right _ h) _

variable (env p) in
theorem before_coreCount :
    (searchOf env p (some env.coreCount)).before + 1 = passLength env p := by
  simp only [searchOf, passLength]
  omega

theorem search_fits {q : Option ℕ} (hq : Used env q) :
    (searchOf env p q).before + (searchOf env p q).count < (searchOf env p q).period := by
  rw [searchOf_period]
  have hlast := before_coreCount env p
  cases q with
  | none =>
      have hfirst : p.jobWorkerCount + 1 ≤ (searchOf env p (some env.coreCount)).before :=
        Nat.le_add_right _ _
      simp only [searchOf] at hlast hfirst ⊢
      omega
  | some c =>
      have hle := before_add_le env p (hq c rfl)
      simp only [searchOf] at hlast hle ⊢
      omega

variable (env p) in
/-- How far the searches of two cores are apart. -/
theorem before_lt_iff {c core i : ℕ} (hi : i ≤ p.config.workersPerCore) :
    (searchOf env p (some c)).before + p.config.workersPerCore <
      (searchOf env p (some core)).before + i ↔ c < core := by
  constructor
  · intro hlt
    by_contra hge
    have hle := before_le env p (Nat.le_of_not_lt hge)
    omega
  · intro hlt
    have hle := before_add_le env p hlt
    omega

theorem Within.lt {j r : ℕ} {pc : TimerPc} (h : Within env p a j r pc) : r < passLength env p := by
  have hlast := before_coreCount env p
  cases pc with
  | asleep =>
      obtain rfl := h
      omega
  | scanAll i k m =>
      obtain ⟨rfl, -, hi, -⟩ := h
      simp only [searchOf] at hlast
      omega
  | nextCore core first =>
      obtain ⟨rfl, hcore, -⟩ := h
      have hle := before_le env p hcore
      omega
  | scanCore core first i k m =>
      obtain ⟨rfl, hcore, -, -, hi, -⟩ := h
      have hle := before_add_le env p hcore
      omega

/-- The searches that are over in the pass are those whose last answer is behind the timer. -/
theorem Within.over_iff {j r : ℕ} {pc : TimerPc} (h : Within env p a j r pc) (q : Option ℕ) :
    (searchOf env p q).before + (searchOf env p q).count < r ↔ pc.over q = true := by
  cases pc with
  | asleep =>
      obtain rfl := h
      simp [TimerPc.over]
  | scanAll i k m =>
      obtain ⟨rfl, -, hi, -⟩ := h
      cases q <;> simp [TimerPc.over, searchOf] <;> omega
  | nextCore core first =>
      obtain ⟨rfl, -⟩ := h
      cases q with
      | none =>
          simp only [TimerPc.over, searchOf, iff_true]
          omega
      | some c =>
          rw [TimerPc.over, decide_eq_true_iff]
          exact before_lt_iff env p (Nat.zero_le _)
  | scanCore core first i k m =>
      obtain ⟨rfl, -, -, -, hi, -⟩ := h
      cases q with
      | none =>
          simp only [TimerPc.over, searchOf, iff_true]
          omega
      | some c =>
          rw [TimerPc.over, decide_eq_true_iff]
          exact before_lt_iff env p hi

theorem finished_of_within {j r : ℕ} {pc : TimerPc} (h : Within env p a j r pc) {q : Option ℕ}
    (hq : Used env q) :
    (searchOf env p q).finished (j * passLength env p + r) = if pc.over q then j + 1 else j := by
  have hlt := h.lt
  rw [← searchOf_period q] at hlt ⊢
  by_cases hover : (searchOf env p q).before + (searchOf env p q).count < r
  · rw [Search.finished_of_lt hover hlt, if_pos ((h.over_iff q).mp hover)]
  · rw [Search.finished_of_le (search_fits hq) (Nat.le_of_not_lt hover),
      if_neg fun hpc => hover ((h.over_iff q).mpr hpc)]

/-! ### One step -/

section step
variable {j r : ℕ}

theorem informed_asleep (hf : Fits env p) (h : Informed env p a j r s) (ht : s.timer = .asleep) :
    Informed env p a j (r + 1) (timerStep env p s (a (j * passLength env p + r))) := by
  obtain ⟨hwithin, hkept⟩ := h
  rw [ht] at hwithin hkept
  obtain rfl := hwithin
  unfold timerStep
  rw [ht]
  exact ⟨⟨rfl, Nat.one_pos, hf.count_pos, rfl, .single _ 0⟩, hkept⟩

theorem informed_scanAll {i k m : ℕ} (h : Informed env p a j r s)
    (ht : s.timer = .scanAll i k m) :
    Informed env p a j (r + 1) (timerStep env p s (a (j * passLength env p + r))) := by
  obtain ⟨hwithin, hkept⟩ := h
  rw [ht] at hwithin hkept
  obtain ⟨rfl, hpos, hle, rfl, hleast⟩ := hwithin
  have hanswer : a (j * passLength env p + r) = (searchOf env p none).value a j r := rfl
  unfold timerStep
  rw [ht, hanswer]
  simp only
  split
  · next hlt =>
      split
      · next hjobs => exact ⟨⟨rfl, Nat.succ_pos _, hlt, rfl, hleast.next_of_lt hjobs⟩, hkept⟩
      · next hjobs => exact ⟨⟨rfl, Nat.succ_pos _, hlt, rfl, hleast.next_of_not_lt hjobs⟩, hkept⟩
  · next hge =>
      obtain rfl : r = p.jobWorkerCount := by omega
      refine ⟨⟨?_, Nat.zero_le _, (Nat.zero_mul _).symm⟩, fun q hq => ?_⟩
      · simp only [searchOf, Nat.zero_mul, Nat.add_zero]
      cases q with
      | none =>
          rw [← Nat.zero_add p.jobWorkerCount] at hleast
          exact hleast
      | some c => exact hkept (some c) hq

theorem informed_nextCore (hf : Fits env p) {core first : ℕ} (h : Informed env p a j r s)
    (ht : s.timer = .nextCore core first) :
    ∃ j' r', j' * passLength env p + r' = j * passLength env p + r + 1 ∧
      Informed env p a j' r' (timerStep env p s (a (j * passLength env p + r))) := by
  obtain ⟨hwithin, hkept⟩ := h
  rw [ht] at hwithin hkept
  obtain ⟨rfl, hle, rfl⟩ := hwithin
  unfold timerStep
  rw [ht]
  simp only
  split
  · next hlt =>
      refine ⟨j, _, rfl, ⟨rfl, hlt, rfl, Nat.one_pos, hf.workers_pos, ?_, .single _ _⟩,
        fun q hq => ?_⟩
      · simp only [Search.value, searchOf, Nat.sub_self, Nat.add_zero, Nat.add_assoc]
      · cases q <;> exact hkept _ hq
  · next hge =>
      obtain rfl : core = env.coreCount := by omega
      refine ⟨j + 1, 0, ?_, rfl, fun q hq => ?_⟩
      · rw [Nat.add_assoc, before_coreCount, Nat.succ_mul, Nat.add_zero]
      · cases q with
        | none => exact hkept none hq
        | some c =>
            have hfound := hkept (some c) hq
            simpa only [TimerPc.over, hq c rfl, decide_true, if_true, Bool.false_eq_true, if_false]
              using hfound

theorem informed_scanCore (hf : Fits env p) {core first i k m : ℕ} (h : Informed env p a j r s)
    (ht : s.timer = .scanCore core first i k m) :
    Informed env p a j (r + 1) (timerStep env p s (a (j * passLength env p + r))) := by
  obtain ⟨hwithin, hkept⟩ := h
  rw [ht] at hwithin hkept
  obtain ⟨rfl, hcore, rfl, hpos, hle, rfl, hleast⟩ := hwithin
  have hblock := hf.block_le hcore
  have hcount := hf.count_le
  have hanswer : a (j * passLength env p + ((searchOf env p (some core)).before + i)) =
      (searchOf env p (some core)).value a j (core * p.config.workersPerCore + i) := by
    simp only [Search.value, searchOf_period]
    simp only [searchOf, Nat.add_sub_cancel_left, Nat.add_assoc]
  unfold timerStep
  rw [ht, hanswer]
  simp only
  split
  · next hlt =>
      rw [u32_of_lt (by omega)]
      split
      · next hjobs =>
          exact ⟨⟨rfl, hcore, rfl, Nat.succ_pos _, hlt, rfl, hleast.next_of_lt hjobs⟩,
            fun q hq => by cases q <;> exact hkept _ hq⟩
      · next hjobs =>
          exact ⟨⟨rfl, hcore, rfl, Nat.succ_pos _, hlt, rfl, hleast.next_of_not_lt hjobs⟩,
            fun q hq => by cases q <;> exact hkept _ hq⟩
  · next hge =>
      obtain rfl : i = p.config.workersPerCore := by omega
      refine ⟨⟨?_, hcore, ?_⟩, fun q hq => ?_⟩
      · simp only [searchOf, Nat.succ_mul]
        omega
      · rw [u32_of_lt (by omega), Nat.succ_mul]
      · cases q with
        | none => exact hkept none hq
        | some c =>
            by_cases hc : c = core
            · subst hc
              simp only [StatisticCtrl.leastOf, Function.update_self, TimerPc.over,
                Nat.lt_succ_self, decide_true, if_true]
              exact hleast
            · have hfound := hkept (some c) hq
              have hover : decide (c < core + 1) = decide (c < core) :=
                decide_eq_decide.mpr (by omega)
              simp only [StatisticCtrl.leastOf, TimerPc.over, Function.update_of_ne hc, hover]
              exact hfound

/-- The next answer, wherever the timer is. -/
theorem informed_timerStep (hf : Fits env p) (h : Informed env p a j r s) :
    ∃ j' r', j' * passLength env p + r' = j * passLength env p + r + 1 ∧
      Informed env p a j' r' (timerStep env p s (a (j * passLength env p + r))) := by
  cases ht : s.timer with
  | asleep => exact ⟨j, r + 1, rfl, informed_asleep hf h ht⟩
  | scanAll i k m => exact ⟨j, r + 1, rfl, informed_scanAll h ht⟩
  | nextCore core first => exact informed_nextCore hf h ht
  | scanCore core first i k m => exact ⟨j, r + 1, rfl, informed_scanCore hf h ht⟩

theorem Beside.informed (hb : Beside s s') (h : Informed env p a j r s) :
    Informed env p a j r s' where
  within := by
    rw [hb.timer]
    exact h.within
  kept q hq := by
    have hleast : s'.stat.leastOf q = s.stat.leastOf q := by
      cases q with
      | none => exact hb.least
      | some c => exact congrFun hb.onCore c
    rw [hb.timer, hleast]
    exact h.kept q hq

end step

/-! ### Runs -/

theorem informed_start (hf : Fits env p) : Informed env p a 0 0 (start p n) where
  within := rfl
  kept q hq := by
    cases q with
    | none => rfl
    | some c => exact hf.first_eq (hq c rfl)

/-- However its steps are interleaved with those of the callers, the timer thread goes through its
passes with the answers that it gets. -/
theorem informed_exec (hf : Fits env p) {acts : List (Act n)} {j r : ℕ}
    (h : Informed env p a j r s)
    (ha : ∀ i x, (answers acts)[i]? = some x → a (j * passLength env p + r + i) = x)
    (hrun : (system env p n).exec s acts = some s') :
    ∃ j' r', j' * passLength env p + r' = j * passLength env p + r + (answers acts).length ∧
      Informed env p a j' r' s' := by
  induction acts generalizing s j r with
  | nil =>
      cases hrun
      exact ⟨j, r, rfl, h⟩
  | cons act acts ih =>
      rw [Lts.exec_cons] at hrun
      obtain ⟨s₁, hs, hrun⟩ := Option.bind_eq_some_iff.mp hrun
      by_cases hact : act.isTimer = true
      · cases act with
        | timer jobs =>
            have hfirst := ha 0 jobs rfl
            cases hs
            obtain ⟨j', r', hnext, h'⟩ := informed_timerStep hf h
            rw [Nat.add_zero] at hfirst
            rw [hfirst] at h'
            obtain ⟨j'', r'', hlast, h''⟩ := ih h' (fun i x hx => by
              rw [hnext, Nat.add_assoc, Nat.add_comm 1 i]
              exact ha (i + 1) x hx) hrun
            refine ⟨j'', r'', ?_, h''⟩
            rw [hlast, hnext, Nat.add_assoc, Nat.add_comm 1]
            rfl
        | addJob i policy cpu rand | rotate i | call i | getJobCount i | count i jobs =>
            contradiction
      · have hfalse := Bool.eq_false_of_not_eq_true hact
        have hnone : answers (act :: acts) = answers acts := by
          cases act with
          | timer jobs => contradiction
          | addJob i policy cpu rand | rotate i | call i | getJobCount i | count i jobs => rfl
        rw [hnone] at ha ⊢
        exact ih ((beside_step hfalse hs).informed h) ha hrun

/-- What a call by one of the two policies gets. -/
theorem chosen_leastOf {i : Fin n} {policy : JobAssignPolicy} {cpu rand : ℕ}
    (hpolicy : policy = .leastJobs ∨ policy = .sameCoreLeastJobs)
    (hs : step env p s (.addJob i policy cpu rand) = some s') :
    Used env (searchedBy policy cpu) ∧
    s'.thread i = .chosen policy cpu (s.stat.leastOf (searchedBy policy cpu)) := by
  simp only [step] at hs
  split at hs
  · obtain ⟨hcpu, hs⟩ := Option.ite_none_right_eq_some.mp hs
    rcases hpolicy with rfl | rfl
    · cases hs
      exact ⟨fun c hc => by simp [searchedBy] at hc, Function.update_self ..⟩
    · cases hs
      refine ⟨fun c hc => ?_, Function.update_self ..⟩
      cases hc
      exact hcpu
  · cases hs

/-- **What the least-jobs policies go by.**  In any run of the pool, while the numbers of jobs
change: a call of `addJob` by one of these policies is given the first of the workers that had the
fewest jobs in the answers of the last of the policy's searches that is over, and the first worker
before any is; and if those answers are off by at most `d` from some numbers, no worker that the
policy may choose has less than the one chosen by more than twice `d`. -/
theorem leastJobs_informed (hf : Fits env p) {acts : List (Act n)}
    (hrun : (system env p n).exec (start p n) acts = some s) {i : Fin n}
    {policy : JobAssignPolicy} {cpu rand : ℕ}
    (hpolicy : policy = .leastJobs ∨ policy = .sameCoreLeastJobs)
    (hs : step env p s (.addJob i policy cpu rand) = some s') (σ : Search)
    (hσ : σ = searchOf env p (searchedBy policy cpu)) :
    ∃ k, s'.thread i = .chosen policy cpu k ∧
      σ.Finds (told acts) (σ.finished (answers acts).length) k ∧
      ∀ j, σ.finished (answers acts).length = j + 1 → ∀ (jobs : ℕ → ℕ) (d : ℕ),
        (∀ w, σ.first ≤ w → w < σ.first + σ.count →
          jobs w ≤ σ.value (told acts) j w + d ∧ σ.value (told acts) j w ≤ jobs w + d) →
        ∀ w, σ.first ≤ w → w < σ.first + σ.count → jobs k ≤ jobs w + 2 * d := by
  subst hσ
  obtain ⟨hused, hchosen⟩ := chosen_leastOf hpolicy hs
  obtain ⟨j, r, hanswers, hinformed⟩ :=
    informed_exec (a := told acts) hf (informed_start hf)
      (fun i x hx => by simp [told, List.getD_eq_getElem?_getD, hx]) hrun
  simp only [Nat.zero_mul, Nat.zero_add] at hanswers
  have hfinds := hinformed.kept _ hused
  rw [← finished_of_within hinformed.within hused, hanswers] at hfinds
  refine ⟨_, hchosen, hfinds, fun j hj jobs d hnear w hlow hhigh => ?_⟩
  rw [hj] at hfinds
  exact LeastIndex.le_add_of_near hfinds hnear hlow hhigh

/-- Four workers have answered 5, 3, 2 and 4, and have 4, 3, 3 and 3 jobs when a job is added. -/
theorem leastJobs_informed_fourWorkers : ∃ s s',
    (system twoCores fourWorkers 1).exec (start fourWorkers 1)
      [.timer 5, .timer 3, .timer 2, .timer 4, .timer 0] = some s ∧
    step twoCores fourWorkers s (.addJob 0 .leastJobs 1 0) = some s' ∧
    s'.thread 0 = .chosen .leastJobs 1 2 ∧
    ∀ w < 4, [4, 3, 3, 3].getD 2 0 ≤ [4, 3, 3, 3].getD w 0 + 2 := by
  have hf : Fits twoCores fourWorkers := ⟨by decide, by decide, rfl⟩
  have hrun : ∃ s s', (system twoCores fourWorkers 1).exec (start fourWorkers 1)
        [.timer 5, .timer 3, .timer 2, .timer 4, .timer 0] = some s ∧
      step twoCores fourWorkers s (.addJob 0 .leastJobs 1 0) = some s' ∧
      s'.thread 0 = .chosen .leastJobs 1 2 := ⟨_, _, rfl, rfl, rfl⟩
  obtain ⟨s, s', hs, hs', hthread⟩ := hrun
  obtain ⟨k, hk, -, hnear⟩ := leastJobs_informed hf hs (.inl rfl) hs' _ rfl
  obtain rfl : 2 = k := by
    rw [hthread] at hk
    exact (Pc.chosen.inj hk).2.2
  have hanswers : ∀ w < 4, [4, 3, 3, 3].getD w 0 ≤ [5, 3, 2, 4, 0].getD w 0 + 1 ∧
      [5, 3, 2, 4, 0].getD w 0 ≤ [4, 3, 3, 3].getD w 0 + 1 := by decide
  refine ⟨s, s', hs, hs', hthread, fun w hw => ?_⟩
  refine hnear 0 rfl (fun w => [4, 3, 3, 3].getD w 0) 1 (fun w _ hw => ?_) w (Nat.zero_le w) ?_
  · have hlt : w < 4 := hw
    simpa [Search.value, searchOf, searchedBy, told, answers, Act.answer] using hanswers w hlt
  · exact hw

end LinuxProgramming.ThreadPool
