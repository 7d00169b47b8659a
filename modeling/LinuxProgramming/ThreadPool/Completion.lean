import LinuxProgramming.Countdown
import LinuxProgramming.ThreadPool.Lifetime
import LinuxProgramming.ThreadPool.Workers

/-! # Calls of the pool return

A call of `addJob` takes at most one lock, that of its cursor, and a call of `getJobCount` none.
So if the methods of the workers return, in any interleaving the calls that have begun can be
brought to their end, each within a number of steps that it has from the start, whatever the timer
thread does; and when no call is in progress every lock is free again. -/

namespace LinuxProgramming.ThreadPool

variable {env : Env} {p : Pool} {n : ℕ} {s s' : State n} {ε ω : Type*}
  {E : Lts ε (WorkerCall ⊕ ω)} {e : ε}

/-- The steps of a call that are left. -/
def Pc.left (p : Pool) : Pc → ℕ
  | .idle => 0
  | .rotate _ _ .wait => 5
  | .rotate _ _ .hold => 4
  | .rotate _ _ (.wrap _) => 3
  | .rotate _ _ (.post _) => 2
  | .chosen _ _ _ => 1
  | .counting i _ => p.jobWorkerCount - i + 1

/-- The steps of all calls in progress that are left. -/
def State.left (p : Pool) (s : State n) : ℕ := tally (Pc.left p) s.thread

/-- The step belongs to a call that has begun. -/
def Act.Completing : Act n → Prop
  | .rotate _ => True
  | .call _ => True
  | .count _ _ => True
  | _ => False

theorem Pc.left_eq_zero {pc : Pc} : pc.left p = 0 ↔ pc = .idle := by
  cases pc with
  | idle => exact ⟨fun _ => rfl, fun _ => rfl⟩
  | rotate policy core pc => cases pc <;> simp [Pc.left]
  | chosen policy core k => simp [Pc.left]
  | counting i jobCount => simp [Pc.left]

theorem State.left_eq_zero : s.left p = 0 ↔ ∀ i, s.thread i = .idle := by
  simp [State.left, tally, Finset.sum_eq_zero_iff, Pc.left_eq_zero]

/-! ### A step of a call -/

theorem left_goto {i : Fin n} {pc : Pc} (h : pc.left p + 1 = (s.thread i).left p) :
    (s.goto i pc).left p + 1 = s.left p := by
  have hu := tally_update (Pc.left p) s.thread i pc
  unfold State.left State.goto
  simp only
  omega

theorem left_of_completing {a : Act n} (ha : a.Completing) (hs : step env p s a = some s') :
    s'.left p + 1 = s.left p := by
  cases a with
  | addJob i policy cpu rand | getJobCount i | timer jobs => exact ha.elim
  | call i =>
      simp only [step] at hs
      split at hs
      · next hi =>
          cases hs
          exact left_goto (by rw [hi]; rfl)
      · cases hs
  | count i jobs =>
      simp only [step] at hs
      split at hs
      · next k jobCount hi =>
          split at hs
          · next hlt =>
              cases hs
              refine left_goto ?_
              rw [hi]
              simp only [Pc.left]
              omega
          · next hge =>
              cases hs
              refine left_goto ?_
              rw [hi]
              simp only [Pc.left]
              omega
      · cases hs
  | rotate i =>
      simp only [step] at hs
      split at hs
      · next policy core pc hi =>
          cases pc with
          | wait =>
              obtain ⟨-, hs⟩ := Option.ite_none_right_eq_some.mp hs
              cases hs
              exact left_goto (by show _ = (s.thread i).left p; rw [hi]; rfl)
          | hold | wrap k | post k =>
              cases hs
              exact left_goto (by show _ = (s.thread i).left p; rw [hi]; rfl)
      · cases hs

/-! ### Somebody can move -/

theorem used_rotationOf {policy : JobAssignPolicy} {core : ℕ} (hcore : core < env.coreCount) :
    Used env (rotationOf policy core) := by
  intro c hc
  rw [rotationOf_eq_some hc]
  exact hcore

/-- A thread under the lock of a cursor can go on. -/
theorem rotate_moves {i : Fin n} {policy : JobAssignPolicy} {core : ℕ} {pc : RotationPc}
    (hi : s.thread i = .rotate policy core pc)
    (hfree : pc = .wait → 0 < (s.stat.rotation (rotationOf policy core)).lock) :
    ∃ i s', step env p s (.rotate i) = some s' := by
  have hstep : step env p s (.rotate i) =
      rotate p s i policy core (rotationOf policy core) pc := by
    simp only [step, hi]
  cases pc with
  | wait => exact ⟨i, _, hstep.trans (if_pos (hfree rfl))⟩
  | hold | wrap k | post k => exact ⟨i, _, hstep⟩

/-- A weight that only threads under a lock have. -/
theorem exists_of_tally {w : Pc → ℕ} (hpos : 0 < tally w s.thread)
    (hw : ∀ pc : Pc, w pc ≠ 0 → ∃ policy core rpc, pc = .rotate policy core rpc ∧ rpc ≠ .wait) :
    ∃ i s', step env p s (.rotate i) = some s' := by
  obtain ⟨i, -, hi⟩ := Finset.exists_ne_zero_of_sum_ne_zero (Nat.pos_iff_ne_zero.mp hpos)
  obtain ⟨policy, core, pc, hpc, hne⟩ := hw _ hi
  exact rotate_moves hpc fun hwait => absurd hwait hne

theorem exists_of_holding {r : Option ℕ} (h : 0 < tally (Pc.holding r) s.thread) :
    ∃ i s', step env p s (.rotate i) = some s' := by
  refine exists_of_tally h fun pc hpc => ?_
  unfold Pc.holding at hpc
  split at hpc
  · exact ⟨_, _, _, rfl, by rintro ⟨⟩⟩
  · exact absurd rfl hpc

theorem exists_of_wrapping {r : Option ℕ} (h : 0 < tally (Pc.wrapping r) s.thread) :
    ∃ i s', step env p s (.rotate i) = some s' := by
  refine exists_of_tally h fun pc hpc => ?_
  unfold Pc.wrapping at hpc
  split at hpc
  · exact ⟨_, _, _, rfl, by rintro ⟨⟩⟩
  · exact absurd rfl hpc

theorem exists_of_leaving {r : Option ℕ} (h : 0 < tally (Pc.leaving r) s.thread) :
    ∃ i s', step env p s (.rotate i) = some s' := by
  refine exists_of_tally h fun pc hpc => ?_
  unfold Pc.leaving at hpc
  split at hpc
  · exact ⟨_, _, _, rfl, by rintro ⟨⟩⟩
  · exact absurd rfl hpc

/-- Either the lock of a cursor is free, or the thread that holds it can go on. -/
theorem rotate_or_holder_moves (h : Inv env p s) {i : Fin n} {policy : JobAssignPolicy}
    {core : ℕ} {pc : RotationPc} (hi : s.thread i = .rotate policy core pc) :
    ∃ i s', step env p s (.rotate i) = some s' := by
  have hsound := h.sound i
  rw [hi] at hsound
  have hmutex := (h.cursor (rotationOf policy core) (used_rotationOf hsound.1)).mutex
  by_cases hlock : 0 < (s.stat.rotation (rotationOf policy core)).lock
  · exact rotate_moves hi fun _ => hlock
  by_cases hhold : 0 < tally (Pc.holding (rotationOf policy core)) s.thread
  · exact exists_of_holding hhold
  by_cases hwrap : 0 < tally (Pc.wrapping (rotationOf policy core)) s.thread
  · exact exists_of_wrapping hwrap
  · exact exists_of_leaving (r := rotationOf policy core) (by omega)

theorem busy_moves (h : Inv env p s) (hbusy : ¬ ∀ i, s.thread i = .idle) :
    ∃ a s', a.Completing ∧ step env p s a = some s' := by
  obtain ⟨i, hi⟩ := not_forall.mp hbusy
  cases hpc : s.thread i with
  | idle => exact absurd hpc hi
  | rotate policy core pc =>
      obtain ⟨j, s', hs⟩ := rotate_or_holder_moves h hpc
      exact ⟨.rotate j, s', trivial, hs⟩
  | chosen policy core k =>
      refine ⟨.call i, s.goto i .idle, trivial, ?_⟩
      simp only [step, hpc]
  | counting k jobCount =>
      by_cases hlt : k < p.jobWorkerCount
      · refine ⟨.count i 0, s.goto i (.counting (k + 1) ((jobCount + 0) % 2 ^ 64)), trivial, ?_⟩
        simp only [step, hpc, if_pos hlt]
      · refine ⟨.count i 0, s.goto i .idle, trivial, ?_⟩
        simp only [step, hpc, if_neg hlt]

/-- Whoever can move takes a lock or a step under it, or makes a call that returns. -/
theorem busy_proceeds (h : Inv env p s) (hE : WorkersReturn p E)
    (he : E.After (fun c => ∀ k, c.Spares k) e) (hbusy : ¬ ∀ i, s.thread i = .idle) :
    (system env p n).Proceeds (workerCall env p) E Act.Completing s e := by
  have hspared : ∀ k, E.After (WorkerCall.Spares k) e :=
    fun k => he.mono fun _ _ hall c hc => hall c hc k
  obtain ⟨i, hi⟩ := not_forall.mp hbusy
  have hsound := h.sound i
  cases hpc : s.thread i with
  | idle => exact absurd hpc hi
  | rotate policy core pc =>
      obtain ⟨j, s', hs⟩ := rotate_or_holder_moves h hpc
      exact .of_none (l := .rotate j) trivial hs rfl
  | chosen policy core k =>
      rw [hpc] at hsound
      refine .of_returns (hE.addJob k hsound.lt e (hspared k)) ?_
      rintro c rfl
      refine ⟨.call i, s.goto i .idle, trivial, ?_, ?_⟩
      · simp only [system, step, hpc]
      · simp only [workerCall, hpc]
  | counting k jobCount =>
      by_cases hlt : k < p.jobWorkerCount
      · refine .of_returns (hE.getJobCount k hlt e (hspared k)) ?_
        rintro c ⟨jobs, rfl⟩
        refine ⟨.count i jobs, s.goto i (.counting (k + 1) ((jobCount + jobs) % 2 ^ 64)), trivial,
          ?_, ?_⟩
        · simp only [system, step, hpc, if_pos hlt]
        · simp only [workerCall, hpc, if_pos hlt]
      · have hover : (system env p n).step s (.count i 0) = some (s.goto i .idle) := by
          simp only [system, step, hpc, if_neg hlt]
        refine .of_none (l := .count i 0) trivial hover ?_
        simp only [workerCall, hpc, if_neg hlt]

/-! ### All calls return -/

theorem countsDown (hf : Fits env p) :
    (system env p n).CountsDown (Inv env p) Act.Completing (State.left p) where
  keep := fun _ _ _ hI _ hs => hI.step hf hs
  lower := fun _ _ _ _ ha hs => left_of_completing ha hs
  enabled := by
    intro s hI hpos
    apply busy_moves hI
    intro hidle
    rw [State.left_eq_zero.mpr hidle] at hpos
    exact absurd hpos (lt_irrefl 0)

/-- Nobody is under the lock of a cursor when no call is in progress. -/
theorem lock_of_idle (h : Inv env p s) (hidle : ∀ i, s.thread i = .idle) {r : Option ℕ}
    (hr : Used env r) : (s.stat.rotation r).lock = 1 := by
  have hmutex := (h.cursor r hr).mutex
  have hhold := tally_eq_zero (Pc.holding r) (f := s.thread) fun i => by rw [hidle i]; rfl
  have hwrap := tally_eq_zero (Pc.wrapping r) (f := s.thread) fun i => by rw [hidle i]; rfl
  have hleave := tally_eq_zero (Pc.leaving r) (f := s.thread) fun i => by rw [hidle i]; rfl
  omega

/-- **The calls return.**  In a pool that has started its workers, in every state reached by any
calls and timer passes, if the methods of the workers return: unless no call is in progress, one
that has begun can move, where need be after steps of the workers; in any order the calls that have
begun return after exactly the steps they have left, and they can always get there; and then the
lock of every cursor is free. -/
theorem calls_return {cfg : ThreadPoolConfig} {returned : Bool}
    (hp : construct env cfg returned = some p) (hstarted : p.timerStarted = true)
    (hpos : 1 ≤ env.coreCount * cfg.workersPerCore)
    (hle : env.coreCount * cfg.workersPerCore ≤ maxWorkerCount) (hE : WorkersReturn p E)
    (h : (withWorkers env p n E).Reachable (s, e)) :
    ((∀ i, s.thread i = .idle) ∨
      (system env p n).Proceeds (workerCall env p) E Act.Completing s e) ∧
    (∃ acts x, (∀ a, .inl a ∈ acts → a.Completing) ∧
      (withWorkers env p n E).exec (s, e) acts = some x ∧ ∀ i, x.1.thread i = .idle) ∧
    ∀ acts x, (∀ a, .inl a ∈ acts → a.Completing) →
      (withWorkers env p n E).exec (s, e) acts = some x →
      (acts.filterMap Sum.getLeft?).length ≤ s.left p ∧
      ((acts.filterMap Sum.getLeft?).length = s.left p ↔ ∀ i, x.1.thread i = .idle) ∧
      ((∀ i, x.1.thread i = .idle) → ∀ r, Used env r → (x.1.stat.rotation r).lock = 1) := by
  have hf := fits_of_construct hp hstarted hpos hle
  have hdown := countsDown (n := n) hf
  have hI : ∀ x : State n × ε, (withWorkers env p n E).Reachable x → Inv env p x.1 :=
    fun x hx => reachable_inv hf (Lts.reachable_fst hx)
  have hproceeds : ∀ x : State n × ε, (withWorkers env p n E).Reachable x →
      ¬ (∀ i, x.1.thread i = .idle) →
      (system env p n).Proceeds (workerCall env p) E Act.Completing x.1 x.2 :=
    fun x hx hbusy => busy_proceeds (hI x hx) hE (after_spares env p hx) hbusy
  refine ⟨?_, ?_, fun acts x hacts he => ?_⟩
  · by_cases hidle : ∀ i, s.thread i = .idle
    · exact .inl hidle
    · exact .inr (hproceeds _ h hidle)
  · have hkeep : ∀ x l x', (withWorkers env p n E).Reachable x →
        ((system env p n).calling (workerCall env p) E).step x l = some x' →
        (withWorkers env p n E).Reachable x' := fun _ _ _ hx hs => hx.next hs
    obtain ⟨acts, x, hacts, he, hzero⟩ := hdown.finish_calling hI hkeep
      (fun x hx hpos => hproceeds x hx fun hidle => by
        rw [State.left_eq_zero.mpr hidle] at hpos
        exact absurd hpos (lt_irrefl 0)) _ _ h rfl
    exact ⟨acts, x, hacts, he, State.left_eq_zero.mp hzero⟩
  · have hlen : (acts.filterMap Sum.getLeft?).length + x.1.left p = s.left p :=
      hdown.length_add (hI _ h) (Lts.forall_getLeft hacts) (Lts.exec_fst he)
    refine ⟨by omega, ?_, fun hidle r hr => lock_of_idle (hI x (h.exec he)) hidle hr⟩
    rw [← State.left_eq_zero (p := p)]
    omega

/-- A run of three threads with workers whose queues hold one job each. -/
def lockAndFullQueue (i j k : Fin 3) : List (Act 3 ⊕ ℕ) :=
  [.inl (.addJob k .leastJobs 0 0), .inl (.call k), .inl (.addJob k .leastJobs 0 0),
   .inl (.addJob i .sameCoreRoundRobin 1 0), .inl (.rotate i),
   .inl (.addJob j .sameCoreRoundRobin 1 0)]

/-- Thread 0 is under the lock of core 1, thread 1 waits for it, and thread 2 waits in `addJob` of
a worker whose queue is full. -/
theorem calls_return_fourWorkers : ∃ x,
    (withWorkers twoCores fourWorkers 3 (boundedQueues 1)).exec
      (start fourWorkers 3, fun _ => 0) (lockAndFullQueue 0 1 2) = some x ∧
    (withWorkers twoCores fourWorkers 3 (boundedQueues 1)).step x (.inl (.rotate 1)) = none ∧
    (withWorkers twoCores fourWorkers 3 (boundedQueues 1)).step x (.inl (.call 2)) = none ∧
    ∃ acts x', (∀ a, .inl a ∈ acts → a.Completing) ∧
      (withWorkers twoCores fourWorkers 3 (boundedQueues 1)).exec x acts = some x' ∧
      (∀ i, x'.1.thread i = .idle) ∧ (acts.filterMap Sum.getLeft?).length = 10 ∧
      (x'.1.stat.rotation (some 1)).lock = 1 := by
  have hrun : ∃ s jobs, (withWorkers twoCores fourWorkers 3 (boundedQueues 1)).exec
        (start fourWorkers 3, fun _ => 0) (lockAndFullQueue 0 1 2) = some (s, jobs) ∧
      (withWorkers twoCores fourWorkers 3 (boundedQueues 1)).step (s, jobs)
        (.inl (.rotate 1)) = none ∧
      (withWorkers twoCores fourWorkers 3 (boundedQueues 1)).step (s, jobs)
        (.inl (.call 2)) = none ∧ s.left fourWorkers = 10 :=
    ⟨_, _, rfl, rfl, rfl, rfl⟩
  obtain ⟨s, jobs, hs, hlocked, hfull, hleft⟩ := hrun
  have hstart : (withWorkers twoCores fourWorkers 3 (boundedQueues 1)).Reachable
      (start fourWorkers 3, fun _ => 0) := .of_init ⟨rfl, rfl⟩
  have hp : construct twoCores twoPerCore true = some fourWorkers := rfl
  obtain ⟨-, ⟨acts, x', hacts, he, hidle⟩, hend⟩ := calls_return hp rfl (by decide) (by decide)
    (boundedQueues_return fourWorkers Nat.one_pos) (Lts.Reachable.exec hstart hs)
  obtain ⟨-, hlen, hlock⟩ := hend acts x' hacts he
  rw [hleft] at hlen
  refine ⟨(s, jobs), hs, hlocked, hfull, acts, x', hacts, he, hidle, hlen.mpr hidle,
    hlock hidle _ ?_⟩
  intro core hcore
  cases hcore
  decide

end LinuxProgramming.ThreadPool
