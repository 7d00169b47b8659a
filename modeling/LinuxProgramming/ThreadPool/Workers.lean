import LinuxProgramming.Callee
import LinuxProgramming.ThreadPool.Model

/-! # The workers behind a pool

The classes `JobWorker` and `JobQueue` are not in the repository, so they are a component that the
pool calls: any system whose labels are the calls below and what the threads of the workers do by
themselves.  `workerCall` says which step of `ThreadPool.Model` makes which call.

What the pool relies on is `WorkersReturn`: a call of a method or a destructor returns once the
threads of the workers have done their part, as long as neither the worker that is called nor any
queue has been deleted.  A full queue may make `addJob` wait, as in `boundedQueues`. -/

namespace LinuxProgramming.ThreadPool

/-- A call of a method or of a destructor, with the number that `getJobCount` returns. -/
inductive WorkerCall where
  | addJob (worker : ℕ)
  | getJobCount (worker jobs : ℕ)
  | deleteWorker (worker : ℕ)
  | deleteQueue (queue : ℕ)
deriving DecidableEq

/-- The call leaves worker `k` and all queues there. -/
def WorkerCall.Spares (k : ℕ) (c : WorkerCall) : Prop :=
  c ≠ .deleteWorker k ∧ ∀ i, c ≠ .deleteQueue i

theorem WorkerCall.Spares.addJob (worker k : ℕ) : (WorkerCall.addJob worker).Spares k := by
  simp [WorkerCall.Spares]

theorem WorkerCall.Spares.getJobCount (worker jobs k : ℕ) :
    (WorkerCall.getJobCount worker jobs).Spares k := by
  simp [WorkerCall.Spares]

section pool
variable (env : Env) (p : Pool) {n : ℕ}

/-- The call that a step of the timer thread makes. -/
def timerCall (s : State n) (jobs : ℕ) : Option WorkerCall :=
  match s.timer with
  | .asleep => some (.getJobCount 0 jobs)
  | .scanAll i _ _ => if i < p.jobWorkerCount then some (.getJobCount i jobs) else none
  | .nextCore core first => if core < env.coreCount then some (.getJobCount first jobs) else none
  | .scanCore _ first i _ _ =>
      if i < p.config.workersPerCore then some (.getJobCount (u32 (first + i)) jobs) else none

def workerCall (s : State n) : Act n → Option WorkerCall
  | .call i =>
      match s.thread i with
      | .chosen _ _ whichWorker => some (.addJob whichWorker)
      | _ => none
  | .count i jobs =>
      match s.thread i with
      | .counting k _ => if k < p.jobWorkerCount then some (.getJobCount k jobs) else none
      | _ => none
  | .timer jobs => timerCall env p s jobs
  | _ => none

variable {ε ω : Type*}

/-- The pool with its workers. -/
def withWorkers (n : ℕ) (E : Lts ε (WorkerCall ⊕ ω)) : Lts (State n × ε) (Act n ⊕ ω) :=
  (system env p n).calling (workerCall env p) E

/-- As long as the pool is not destroyed, no worker and no queue is. -/
theorem workerCall_spares {s : State n} {a : Act n} {c : WorkerCall}
    (h : workerCall env p s a = some c) (k : ℕ) : c.Spares k := by
  cases a with
  | call i =>
      simp only [workerCall] at h
      split at h
      · cases h
        exact .addJob _ k
      · cases h
  | count i jobs =>
      simp only [workerCall] at h
      split at h
      · obtain ⟨-, h⟩ := Option.ite_none_right_eq_some.mp h
        cases h
        exact .getJobCount _ _ k
      · cases h
  | timer jobs =>
      simp only [workerCall, timerCall] at h
      split at h
      · cases h
        exact .getJobCount _ _ k
      all_goals
        obtain ⟨-, h⟩ := Option.ite_none_right_eq_some.mp h
        cases h
        exact .getJobCount _ _ k
  | addJob i policy cpu rand | rotate i | getJobCount i => cases h

theorem after_spares {E : Lts ε (WorkerCall ⊕ ω)} {x : State n × ε}
    (h : (withWorkers env p n E).Reachable x) : E.After (fun c => ∀ k, c.Spares k) x.2 := by
  apply Lts.Reachable.invariant (M := withWorkers env p n E)
    (I := fun x => E.After (fun c => ∀ k, c.Spares k) x.2) _ _ h
  · intro x hx
    exact .init hx.2
  · intro x l x' hI hs
    exact hI.step (φ := fun _ c => ∀ k, c.Spares k) (fun _ _ _ _ hc => hc)
      (fun _ _ _ _ hc => workerCall_spares env p hc) hs

/-- The methods and the destructors of the workers and queues of a pool return. -/
structure WorkersReturn (E : Lts ε (WorkerCall ⊕ ω)) : Prop where
  addJob : ∀ k < p.jobWorkerCount, ∀ e, E.After (WorkerCall.Spares k) e →
    E.Returns e (· = .addJob k)
  getJobCount : ∀ k < p.jobWorkerCount, ∀ e, E.After (WorkerCall.Spares k) e →
    E.Returns e fun c => ∃ jobs, c = .getJobCount k jobs
  deleteWorker : ∀ k < p.jobWorkerCount, ∀ e, E.After (WorkerCall.Spares k) e →
    E.Returns e (· = .deleteWorker k)
  deleteQueue : ∀ q, p.jobQueueCount = some q → ∀ i < q, ∀ e, E.After (· ≠ .deleteQueue i) e →
    E.Returns e (· = .deleteQueue i)

end pool

/-- Workers with a queue of bounded length each, where `addJob` waits while the queue is full and
the thread of a worker takes jobs out: the state is the numbers of jobs that wait. -/
def boundedQueues (queueLength : ℕ) : Lts (ℕ → ℕ) (WorkerCall ⊕ ℕ) where
  init jobs := jobs = fun _ => 0
  step jobs
    | .inl (.addJob k) =>
        if jobs k < queueLength then some (Function.update jobs k (jobs k + 1)) else none
    | .inl (.getJobCount k count) => if count = jobs k then some jobs else none
    | .inl (.deleteWorker _) => some jobs
    | .inl (.deleteQueue _) => some jobs
    | .inr k => if 0 < jobs k then some (Function.update jobs k (jobs k - 1)) else none

theorem boundedQueues_le {queueLength : ℕ} {φ : WorkerCall → Prop} {jobs : ℕ → ℕ}
    (h : (boundedQueues queueLength).After φ jobs) (k : ℕ) : jobs k ≤ queueLength := by
  have hall : ∀ k, jobs k ≤ queueLength := by
    refine h.invariant (I := fun jobs => ∀ k, jobs k ≤ queueLength) ?_ ?_
    · rintro jobs rfl k
      exact Nat.zero_le _
    · intro jobs l jobs' _ hI _ hs k
      cases l with
      | inl c =>
          cases c with
          | addJob i =>
              obtain ⟨hlt, hs⟩ := Option.ite_none_right_eq_some.mp hs
              cases hs
              by_cases hk : k = i
              · rw [hk, Function.update_self]
                exact hlt
              · rw [Function.update_of_ne hk]
                exact hI k
          | getJobCount i count =>
              obtain ⟨-, hs⟩ := Option.ite_none_right_eq_some.mp hs
              cases hs
              exact hI k
          | deleteWorker i | deleteQueue i =>
              cases hs
              exact hI k
      | inr i =>
          obtain ⟨-, hs⟩ := Option.ite_none_right_eq_some.mp hs
          cases hs
          by_cases hk : k = i
          · rw [hk, Function.update_self]
            exact (Nat.sub_le _ _).trans (hI i)
          · rw [Function.update_of_ne hk]
            exact hI k
  exact hall k

theorem boundedQueues_return (p : Pool) {queueLength : ℕ} (h : 0 < queueLength) :
    WorkersReturn p (boundedQueues queueLength) where
  addJob k _ jobs hjobs := by
    rcases Nat.lt_or_ge (jobs k) queueLength with hlt | hge
    · exact ⟨[], jobs, .addJob k, _, rfl, rfl, if_pos hlt⟩
    · -- the worker takes out a job
      have hle := boundedQueues_le hjobs k
      refine ⟨[k], Function.update jobs k (jobs k - 1), .addJob k, _, ?_, rfl, if_pos ?_⟩
      · simp [Lts.exec, boundedQueues, h.trans_le hge]
      · rw [Function.update_self]
        omega
  getJobCount k _ jobs _ := ⟨[], jobs, .getJobCount k (jobs k), jobs, rfl, ⟨_, rfl⟩, if_pos rfl⟩
  deleteWorker k _ jobs _ := ⟨[], jobs, .deleteWorker k, jobs, rfl, rfl, rfl⟩
  deleteQueue _ _ i _ jobs _ := ⟨[], jobs, .deleteQueue i, jobs, rfl, rfl, rfl⟩

end LinuxProgramming.ThreadPool
