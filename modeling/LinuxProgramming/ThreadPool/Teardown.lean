import LinuxProgramming.Countdown
import LinuxProgramming.ThreadPool.LeastJobs
import LinuxProgramming.ThreadPool.Lifetime
import LinuxProgramming.ThreadPool.Workers

/-! # The end of an `AdaptiveThreadPool`

The destructor runs `stopWorkers` while the timer thread may be anywhere in its loop.

* The timer thread goes from the test of `mTimerRun` into the body of its loop, which is a pass of
  `ThreadPool.Model`, and back; it exits from the test once the flag is clear.
* The destructor is run when no call is in progress, and none is begun after it.  It clears the
  flag, waits in `pthread_join` for the timer thread, and destroys the locks, the workers and the
  queues one by one.
* The destructors of the workers and of the queues are calls of the component that
  `ThreadPool.Workers` describes, as the methods that the pool calls are.
* `teardown` says that nothing is touched that has been destroyed, that everything the constructor
  has made is destroyed once, and that the destructor returns if what it calls returns, whatever the
  order of the steps. -/

namespace LinuxProgramming.ThreadPool

/-! ### Steps -/

inductive TimerLoop where
  | test
  | body
  | exited
deriving DecidableEq

/-- A pool with its timer thread and its destructor. -/
structure Life (n : ℕ) where
  pool : State n
  loop : TimerLoop
  timerRun : Bool
  /-- what is left of `stopWorkers`, once the destructor has begun -/
  todo : Option (List Access)
  /-- what the destructor is done with -/
  destroyed : List Access

inductive LifeAct (n : ℕ) where
  | call (a : Act n)
  | test
  | timer (jobs : ℕ)
  | destroy
  | stop

def TimerPc.isAsleep : TimerPc → Bool
  | .asleep => true
  | _ => false

def Pc.isIdle : Pc → Bool
  | .idle => true
  | _ => false

section life
variable (env : Env) (p : Pool) {n : ℕ}

/-- The destructor goes on; `pthread_join` waits. -/
def stop (s : Life n) : Option (Life n) :=
  match s.todo with
  | none => none
  | some [] => none
  | some (.timerThread :: todo) =>
      if s.loop = .exited then
        some { s with todo := some todo, destroyed := s.destroyed ++ [.timerThread] }
      else none
  | some (x :: todo) => some { s with todo := some todo, destroyed := s.destroyed ++ [x] }

def lifeStep (s : Life n) : LifeAct n → Option (Life n)
  | .call a =>
      if s.todo.isNone ∧ a.isTimer = false then
        (step env p s.pool a).map fun pool => { s with pool := pool }
      else none
  | .test =>
      if s.loop = .test then some { s with loop := if s.timerRun then .body else .exited }
      else none
  | .timer jobs =>
      if s.loop = .body then
        some { s with
          pool := timerStep env p s.pool jobs
          loop := if (timerStep env p s.pool jobs).timer.isAsleep then .test else .body }
      else none
  | .destroy =>
      if s.todo.isNone ∧ ∀ i, (s.pool.thread i).isIdle then
        some { s with timerRun := false, todo := some (stopWorkers p) }
      else none
  | .stop => stop s

/-- The pool after its constructor; the timer thread is at the test of its loop. -/
def lifeStart (n : ℕ) : Life n := ⟨start p n, .test, true, none, []⟩

def life (n : ℕ) : Lts (Life n) (LifeAct n) where
  init s := s = lifeStart p n
  step := lifeStep env p

/-- The call that a step makes. -/
def lifeCall (s : Life n) : LifeAct n → Option WorkerCall
  | .call a => workerCall env p s.pool a
  | .timer jobs => timerCall env p s.pool jobs
  | .stop =>
      match s.todo with
      | some (.worker k :: _) => some (.deleteWorker k)
      | some (.queue i :: _) => some (.deleteQueue i)
      | _ => none
  | _ => none

/-- A pool with its timer thread, its destructor and its workers. -/
def lifeWithWorkers {ε ω : Type*} (n : ℕ) (E : Lts ε (WorkerCall ⊕ ω)) :
    Lts (Life n × ε) (LifeAct n ⊕ ω) :=
  (life env p n).calling (lifeCall env p) E

/-- What a step of the timer thread touches. -/
def timerAccesses (s : State n) : List Access :=
  match s.timer with
  | .asleep => [.worker 0]
  | .scanAll i _ _ => if i < p.jobWorkerCount then [.worker i] else []
  | .nextCore core first => if core < env.coreCount then [.worker first] else []
  | .scanCore core first i _ _ =>
      if i < p.config.workersPerCore then [.worker (u32 (first + i))] else [.coreEntry core]

/-- What a step touches. -/
def touched (s : Life n) : LifeAct n → List Access
  | .call a => accesses p s.pool a
  | .timer _ => timerAccesses env p s.pool
  | .stop => (s.todo.getD []).take 1
  | _ => []

end life

/-! ### The invariant -/

/-- The destructor has gone as far as `destroyed`, and past its first step the timer thread has
exited. -/
structure LifeInv (env : Env) (p : Pool) {n : ℕ} (s : Life n) : Prop where
  pool : (system env p n).Reachable s.pool
  before : s.todo = none → s.destroyed = []
  during : ∀ todo, s.todo = some todo → s.destroyed ++ todo = stopWorkers p ∧ s.timerRun = false
  joined : s.destroyed ≠ [] → s.loop = .exited

section inv
variable {env : Env} {p : Pool} {n : ℕ} {s s' : Life n}

theorem stop_eq_some (hs : stop s = some s') : ∃ x todo, s.todo = some (x :: todo) ∧
    (x = .timerThread → s.loop = .exited) ∧
    s' = { s with todo := some todo, destroyed := s.destroyed ++ [x] } := by
  unfold stop at hs
  split at hs
  · cases hs
  · cases hs
  · next todo htodo =>
      obtain ⟨hexited, hs⟩ := Option.ite_none_right_eq_some.mp hs
      cases hs
      exact ⟨_, todo, htodo, fun _ => hexited, rfl⟩
  · next x todo hne htodo =>
      cases hs
      exact ⟨x, todo, htodo, fun hx => absurd hx hne, rfl⟩

theorem LifeInv.start : LifeInv env p (lifeStart p n) where
  pool := .of_init rfl
  before := fun _ => rfl
  during := by
    intro todo h
    cases h
  joined := fun h => absurd rfl h

theorem stopWorkers_head (p : Pool) : ∃ rest, stopWorkers p = .timerThread :: rest :=
  ⟨_, by unfold stopWorkers; rfl⟩

theorem LifeInv.step (h : LifeInv env p s) {a : LifeAct n}
    (hs : lifeStep env p s a = some s') : LifeInv env p s' := by
  cases a with
  | call a =>
      obtain ⟨-, hs⟩ := Option.ite_none_right_eq_some.mp hs
      obtain ⟨pool, hpool, rfl⟩ := Option.map_eq_some_iff.mp hs
      exact { h with pool := h.pool.next hpool }
  | test =>
      obtain ⟨htest, hs⟩ := Option.ite_none_right_eq_some.mp hs
      cases hs
      refine { h with joined := fun hne => ?_ }
      rw [h.joined hne] at htest
      cases htest
  | timer jobs =>
      obtain ⟨hbody, hs⟩ := Option.ite_none_right_eq_some.mp hs
      cases hs
      refine { h with
        pool := h.pool.next (l := .timer jobs) rfl
        joined := fun hne => ?_ }
      rw [h.joined hne] at hbody
      cases hbody
  | destroy =>
      obtain ⟨⟨hnone, -⟩, hs⟩ := Option.ite_none_right_eq_some.mp hs
      cases hs
      have hdestroyed := h.before (Option.isNone_iff_eq_none.mp hnone)
      refine { h with
        before := fun hcontra => by cases hcontra
        during := fun todo htodo => ?_ }
      cases htodo
      rw [hdestroyed]
      exact ⟨rfl, rfl⟩
  | stop =>
      obtain ⟨x, todo, htodo, hwait, rfl⟩ := stop_eq_some hs
      obtain ⟨hsplit, hrun⟩ := h.during _ htodo
      refine { h with
        before := fun hcontra => by cases hcontra
        during := fun todo' htodo' => ?_
        joined := fun _ => ?_ }
      · cases htodo'
        exact ⟨by rw [← hsplit]; simp, hrun⟩
      · -- the first step is the join
        by_cases hnil : s.destroyed = []
        · obtain ⟨rest, hhead⟩ := stopWorkers_head p
          rw [hnil, List.nil_append, hhead, List.cons.injEq] at hsplit
          exact hwait hsplit.1
        · exact h.joined hnil

theorem reachable_lifeInv (h : (life env p n).Reachable s) : LifeInv env p s := by
  apply h.invariant
  · rintro s rfl
    exact LifeInv.start
  · intro s a s' hI hs
    exact hI.step hs

/-! ### What is touched -/

theorem nodup_stopWorkers (p : Pool) : (stopWorkers p).Nodup := by
  have hcore : ((List.range maxWorkerCount).map Access.coreEntry).Nodup :=
    List.nodup_range.map fun i j h => Access.coreEntry.inj h
  have hworker : ((List.range p.jobWorkerCount).map Access.worker).Nodup :=
    List.nodup_range.map fun i j h => Access.worker.inj h
  unfold stopWorkers
  cases p.jobQueueCount with
  | none =>
      simp only [List.append_nil, List.cons_append, List.nodup_cons, List.nodup_append, hcore,
        hworker]
      grind
  | some q =>
      have hqueue : ((List.range q).map Access.queue).Nodup :=
        List.nodup_range.map fun i j h => Access.queue.inj h
      simp only [List.cons_append, List.nodup_cons, List.nodup_append, hcore, hworker, hqueue]
      grind

/-- The timer thread asks workers that are there. -/
theorem timerAccesses_ok (hf : Fits env p) (hfill : Filled p) {t : State n} (h : Inv env p t) :
    ∀ x ∈ timerAccesses env p t, x.Ok p := by
  have htimer := h.timer
  have hle := hf.count_le
  intro x hx
  unfold timerAccesses at hx
  cases ht : t.timer with
  | asleep =>
      simp only [ht, List.mem_singleton] at hx
      rw [hx]
      exact hfill.worker_ok hf hf.count_pos
  | scanAll i k m =>
      simp only [ht] at hx
      split at hx
      · next hi =>
          rw [List.mem_singleton.mp hx]
          exact hfill.worker_ok hf hi
      · cases hx
  | nextCore core first =>
      rw [ht] at htimer
      simp only [ht] at hx
      split at hx
      · next hcore =>
          have hblock := hf.block_le hcore
          have hpos := hf.workers_pos
          rw [List.mem_singleton.mp hx, htimer.2]
          exact hfill.worker_ok hf (by omega)
      · cases hx
  | scanCore core first i k m =>
      rw [ht] at htimer
      obtain ⟨hcore, hfirst, -, -⟩ := htimer
      have hblock := hf.block_le hcore
      simp only [ht] at hx
      split at hx
      · rw [List.mem_singleton.mp hx, u32_of_lt (by omega)]
        exact hfill.worker_ok hf (by omega)
      · rw [List.mem_singleton.mp hx]
        exact coreEntry_ok hf hcore

/-- What a step touches has been made and not been destroyed. -/
theorem LifeInv.touched_ok (h : LifeInv env p s) (hf : Fits env p) (hfill : Filled p)
    {a : LifeAct n} (hs : lifeStep env p s a = some s') :
    ∀ x ∈ touched env p s a, x.Ok p ∧ x ∉ s.destroyed := by
  intro x hx
  cases a with
  | call a =>
      obtain ⟨⟨hnone, -⟩, hs⟩ := Option.ite_none_right_eq_some.mp hs
      obtain ⟨pool, hpool, rfl⟩ := Option.map_eq_some_iff.mp hs
      refine ⟨accesses_ok hf hfill h.pool hpool x hx, ?_⟩
      rw [h.before (Option.isNone_iff_eq_none.mp hnone)]
      exact List.not_mem_nil
  | timer jobs =>
      obtain ⟨hbody, -⟩ := Option.ite_none_right_eq_some.mp hs
      refine ⟨timerAccesses_ok hf hfill (reachable_inv hf h.pool) x hx, fun hmem => ?_⟩
      rw [h.joined (List.ne_nil_of_mem hmem)] at hbody
      cases hbody
  | stop =>
      obtain ⟨y, todo, htodo, -, rfl⟩ := stop_eq_some hs
      obtain ⟨hsplit, -⟩ := h.during _ htodo
      have hxy : x = y := by
        unfold touched at hx
        rw [htodo] at hx
        exact List.mem_singleton.mp hx
      subst hxy
      refine ⟨stopWorkers_ok hf hfill x (hsplit ▸ List.mem_append_right _ List.mem_cons_self), ?_⟩
      have hnodup := nodup_stopWorkers p
      rw [← hsplit] at hnodup
      exact fun hmem => (List.nodup_append.mp hnodup).2.2 x hmem x List.mem_cons_self rfl
  | test | destroy => cases hx

/-! ### The destructor returns -/

/-- The steps that are left of a turn of the loop, the test at its end not counted. -/
def TimerPc.bodyLeft (env : Env) (p : Pool) (pc : TimerPc) : ℕ :=
  if pc.isAsleep then passLength env p else pc.remaining env p

/-- The steps of the timer thread and the destructor that are left. -/
def Life.left (env : Env) (p : Pool) (s : Life n) : ℕ :=
  (s.todo.getD []).length +
    match s.loop with
    | .exited => 0
    | .test => 1
    | .body => s.pool.timer.bodyLeft env p + 1

def LifeAct.Ending : LifeAct n → Prop
  | .test => True
  | .timer _ => True
  | .stop => True
  | _ => False

/-- One step of a turn. -/
theorem bodyLeft_timerStep (hf : Fits env p) (t : State n) (jobs : ℕ) :
    t.timer.bodyLeft env p =
      (if (timerStep env p t jobs).timer.isAsleep then 0
        else (timerStep env p t jobs).timer.bodyLeft env p) + 1 := by
  have hpos := hf.workers_pos
  have hcount := hf.count_pos
  unfold timerStep
  cases ht : t.timer with
  | asleep =>
      simp only [TimerPc.bodyLeft, TimerPc.isAsleep, TimerPc.remaining, passLength, if_true,
        Bool.false_eq_true, if_false]
      omega
  | scanAll i k m =>
      simp only
      split
      · split <;>
        · simp only [TimerPc.bodyLeft, TimerPc.isAsleep, TimerPc.remaining,
            Bool.false_eq_true, if_false]
          omega
      · simp only [TimerPc.bodyLeft, TimerPc.isAsleep, TimerPc.remaining,
          Bool.false_eq_true, if_false, Nat.sub_zero]
        omega
  | nextCore core first =>
      simp only
      split
      · next hcore =>
          have hsub : env.coreCount - core = env.coreCount - (core + 1) + 1 := by omega
          simp only [TimerPc.bodyLeft, TimerPc.isAsleep, TimerPc.remaining,
            Bool.false_eq_true, if_false]
          rw [hsub, Nat.succ_mul]
          omega
      · next hcore =>
          have hsub : env.coreCount - core = 0 := by omega
          simp only [TimerPc.bodyLeft, TimerPc.isAsleep, TimerPc.remaining,
            Bool.false_eq_true, if_false, if_true]
          rw [hsub, Nat.zero_mul]
  | scanCore core first i k m =>
      simp only
      split
      · split <;>
        · simp only [TimerPc.bodyLeft, TimerPc.isAsleep, TimerPc.remaining,
            Bool.false_eq_true, if_false]
          omega
      · simp only [TimerPc.bodyLeft, TimerPc.isAsleep, TimerPc.remaining,
          Bool.false_eq_true, if_false]
        omega

/-- The destructor has begun. -/
structure Stopping (env : Env) (p : Pool) (s : Life n) : Prop where
  inv : LifeInv env p s
  begun : s.todo.isSome

theorem stopping_step (h : Stopping env p s) {a : LifeAct n}
    (hs : lifeStep env p s a = some s') : Stopping env p s' := by
  refine ⟨h.inv.step hs, ?_⟩
  cases a with
  | call a =>
      obtain ⟨-, hs⟩ := Option.ite_none_right_eq_some.mp hs
      obtain ⟨pool, -, rfl⟩ := Option.map_eq_some_iff.mp hs
      exact h.begun
  | test | timer jobs =>
      obtain ⟨-, hs⟩ := Option.ite_none_right_eq_some.mp hs
      cases hs
      exact h.begun
  | destroy =>
      obtain ⟨-, hs⟩ := Option.ite_none_right_eq_some.mp hs
      cases hs
      rfl
  | stop =>
      obtain ⟨x, todo, -, -, rfl⟩ := stop_eq_some hs
      rfl

theorem left_step (hf : Fits env p) (h : Stopping env p s) {a : LifeAct n} (ha : a.Ending)
    (hs : lifeStep env p s a = some s') : s'.left env p + 1 = s.left env p := by
  cases a with
  | call a | destroy => exact ha.elim
  | test =>
      obtain ⟨htest, hs⟩ := Option.ite_none_right_eq_some.mp hs
      cases hs
      obtain ⟨todo, htodo⟩ := Option.isSome_iff_exists.mp h.begun
      unfold Life.left
      simp only [(h.inv.during todo htodo).2, htest, Bool.false_eq_true, if_false]
  | timer jobs =>
      obtain ⟨hbody, hs⟩ := Option.ite_none_right_eq_some.mp hs
      cases hs
      have hturn := bodyLeft_timerStep hf s.pool jobs
      unfold Life.left
      simp only [hbody]
      rw [hturn]
      by_cases hasleep : (timerStep env p s.pool jobs).timer.isAsleep = true
      · simp only [hasleep, if_true]
      · simp only [hasleep, Bool.false_eq_true, if_false]
        omega
  | stop =>
      obtain ⟨x, todo, htodo, -, rfl⟩ := stop_eq_some hs
      unfold Life.left
      simp only [htodo, Option.getD_some, List.length_cons]
      omega

theorem stop_of_todo {x : Access} {todo : List Access} (htodo : s.todo = some (x :: todo))
    (hexited : s.loop = .exited) :
    stop s = some { s with todo := some todo, destroyed := s.destroyed ++ [x] } := by
  unfold stop
  cases x <;> simp [htodo, hexited]

/-- Once the timer thread has exited there is something to destroy. -/
theorem exists_todo (h : Stopping env p s) (hleft : 0 < s.left env p)
    (hexited : s.loop = .exited) : ∃ x todo, s.todo = some (x :: todo) := by
  obtain ⟨todo, htodo⟩ := Option.isSome_iff_exists.mp h.begun
  unfold Life.left at hleft
  simp only [hexited, htodo, Option.getD_some, Nat.add_zero] at hleft
  obtain ⟨x, rest, rfl⟩ := List.exists_cons_of_length_pos hleft
  exact ⟨x, rest, htodo⟩

theorem ending_enabled (h : Stopping env p s) (hleft : 0 < s.left env p) :
    ∃ a s', a.Ending ∧ lifeStep env p s a = some s' := by
  cases hloop : s.loop with
  | test => exact ⟨.test, _, trivial, if_pos hloop⟩
  | body => exact ⟨.timer 0, _, trivial, if_pos hloop⟩
  | exited =>
      obtain ⟨x, todo, htodo⟩ := exists_todo h hleft hloop
      exact ⟨.stop, _, trivial, stop_of_todo htodo hloop⟩

theorem stopping_countsDown (hf : Fits env p) : Lts.CountsDown (life env p n)
    (Stopping env p) LifeAct.Ending (Life.left env p) where
  keep _ _ _ h _ hs := stopping_step h hs
  lower _ _ _ h ha hs := left_step hf h ha hs
  enabled _ h hleft := ending_enabled h hleft

/-! ### What is called returns -/

section workers
variable {ε ω : Type*} {E : Lts ε (WorkerCall ⊕ ω)} {e : ε}

/-- What a call deletes is among the destroyed. -/
def Deleted (destroyed : List Access) : WorkerCall → Prop
  | .deleteWorker k => .worker k ∈ destroyed
  | .deleteQueue i => .queue i ∈ destroyed
  | _ => True

theorem Deleted.mono {destroyed destroyed' : List Access} (h : destroyed ⊆ destroyed')
    {c : WorkerCall} (hc : Deleted destroyed c) : Deleted destroyed' c := by
  cases c with
  | deleteWorker k | deleteQueue i => exact h hc
  | addJob k | getJobCount k jobs => trivial

theorem Deleted.of_spares {destroyed : List Access} {c : WorkerCall} (h : ∀ k, c.Spares k) :
    Deleted destroyed c := by
  cases c with
  | deleteWorker k => exact absurd rfl (h k).1
  | deleteQueue i => exact absurd rfl ((h 0).2 i)
  | addJob k | getJobCount k jobs => trivial

theorem destroyed_subset {a : LifeAct n} (hs : lifeStep env p s a = some s') :
    s.destroyed ⊆ s'.destroyed := by
  cases a with
  | call a =>
      obtain ⟨-, hs⟩ := Option.ite_none_right_eq_some.mp hs
      obtain ⟨pool, -, rfl⟩ := Option.map_eq_some_iff.mp hs
      exact List.Subset.refl _
  | test | timer jobs | destroy =>
      obtain ⟨-, hs⟩ := Option.ite_none_right_eq_some.mp hs
      cases hs
      exact List.Subset.refl _
  | stop =>
      obtain ⟨x, todo, -, -, rfl⟩ := stop_eq_some hs
      exact List.subset_append_left _ _

theorem deleted_of_call {a : LifeAct n} {c : WorkerCall} (hs : lifeStep env p s a = some s')
    (hc : lifeCall env p s a = some c) : Deleted s'.destroyed c := by
  cases a with
  | call a => exact .of_spares (workerCall_spares env p hc)
  | timer jobs => exact .of_spares (workerCall_spares env p (a := .timer jobs) hc)
  | stop =>
      obtain ⟨x, todo, htodo, -, rfl⟩ := stop_eq_some hs
      simp only [lifeCall, htodo] at hc
      split at hc
      · next heq =>
          cases heq
          cases hc
          exact List.mem_append_right _ List.mem_cons_self
      · next heq =>
          cases heq
          cases hc
          exact List.mem_append_right _ List.mem_cons_self
      · cases hc
  | test | destroy => cases hc

theorem after_deleted {x : Life n × ε} (h : (lifeWithWorkers env p n E).Reachable x) :
    E.After (Deleted x.1.destroyed) x.2 := by
  apply Lts.Reachable.invariant (M := lifeWithWorkers env p n E)
    (I := fun x => E.After (Deleted x.1.destroyed) x.2) _ _ h
  · intro x hx
    exact .init hx.2
  · intro x l x' hI hs
    exact hI.step (φ := fun s => Deleted s.destroyed)
      (fun _ _ hs _ hc => hc.mono (destroyed_subset hs)) (fun _ _ _ hs hc => deleted_of_call hs hc)
      hs

/-- The destructor deletes the workers before the queues. -/
theorem workers_first (p : Pool) : (stopWorkers p).Pairwise fun x y =>
    ∀ i k, x = .queue i → y ≠ .worker k := by
  unfold stopWorkers
  refine List.pairwise_append.mpr ⟨?_, ?_, ?_⟩
  · refine List.pairwise_of_forall_mem_list fun x hx y _ i k hxi => ?_
    subst hxi
    simp at hx
  · refine List.pairwise_of_forall_mem_list fun x _ y hy i k _ hyk => ?_
    subst hyk
    split at hy <;> simp at hy
  · intro x hx y _ i k hxi
    subst hxi
    simp at hx

/-- A worker is asked by the timer thread, or nobody. -/
theorem timerCall_cases (hf : Fits env p) {t : State n} (h : Inv env p t) :
    (∀ jobs, timerCall env p t jobs = none) ∨
    ∃ k < p.jobWorkerCount, ∀ jobs, timerCall env p t jobs = some (.getJobCount k jobs) := by
  have htimer := h.timer
  have hle := hf.count_le
  have hpos := hf.workers_pos
  unfold timerCall
  cases ht : t.timer with
  | asleep => exact .inr ⟨0, hf.count_pos, fun _ => rfl⟩
  | scanAll i k m =>
      by_cases hi : i < p.jobWorkerCount
      · exact .inr ⟨i, hi, fun _ => if_pos hi⟩
      · exact .inl fun _ => if_neg hi
  | nextCore core first =>
      rw [ht] at htimer
      by_cases hcore : core < env.coreCount
      · have hblock := hf.block_le hcore
        have hfirst := htimer.2
        exact .inr ⟨first, by omega, fun _ => if_pos hcore⟩
      · exact .inl fun _ => if_neg hcore
  | scanCore core first i k m =>
      rw [ht] at htimer
      obtain ⟨hcore, hfirst, -, -⟩ := htimer
      have hblock := hf.block_le hcore
      by_cases hi : i < p.config.workersPerCore
      · refine .inr ⟨u32 (first + i), ?_, fun _ => if_pos hi⟩
        rw [u32_of_lt (by omega)]
        omega
      · exact .inl fun _ => if_neg hi

/-- The timer thread and the destructor go on, where need be after steps of the workers. -/
theorem stopping_proceeds (hf : Fits env p) (h : Stopping env p s) (hE : WorkersReturn p E)
    (he : E.After (Deleted s.destroyed) e) (hleft : 0 < s.left env p) :
    (life env p n).Proceeds (lifeCall env p) E LifeAct.Ending s e := by
  cases hloop : s.loop with
  | test => exact .of_none (l := .test) trivial (if_pos hloop) rfl
  | body =>
      have hnil : s.destroyed = [] := by
        by_contra hne
        rw [h.inv.joined hne] at hloop
        cases hloop
      rcases timerCall_cases hf (reachable_inv hf h.inv.pool) with hnone | ⟨k, hk, hcall⟩
      · exact .of_none (l := .timer 0) trivial (if_pos hloop) (hnone 0)
      · refine .of_returns (hE.getJobCount k hk e (he.mono fun _ _ hd c hc => ?_)) ?_
        · -- nothing has been deleted yet
          have hdeleted := hd c hc
          rw [hnil] at hdeleted
          cases c with
          | addJob w => exact .addJob w k
          | getJobCount w jobs => exact .getJobCount w jobs k
          | deleteWorker w | deleteQueue i => cases hdeleted
        · rintro c ⟨jobs, rfl⟩
          exact ⟨.timer jobs, _, trivial, if_pos hloop, hcall jobs⟩
  | exited =>
      obtain ⟨x, todo, htodo⟩ := exists_todo h hleft hloop
      have hstop : (life env p n).step s .stop = _ := stop_of_todo htodo hloop
      have hsplit := (h.inv.during _ htodo).1
      have hmem : x ∈ stopWorkers p := hsplit ▸ List.mem_append_right _ List.mem_cons_self
      have hnodup := nodup_stopWorkers p
      have hfirst := workers_first p
      rw [← hsplit] at hnodup hfirst
      have hnot : x ∉ s.destroyed := fun hx =>
        (List.nodup_append.mp hnodup).2.2 x hx x List.mem_cons_self rfl
      cases x with
      | worker k =>
          have hk : k < p.jobWorkerCount := by
            unfold stopWorkers at hmem
            split at hmem <;> simpa using hmem
          refine .of_returns (hE.deleteWorker k hk e (he.mono fun _ _ hd c hc => ?_)) ?_
          · have hdeleted := hd c hc
            cases c with
            | addJob w => exact .addJob w k
            | getJobCount w jobs => exact .getJobCount w jobs k
            | deleteWorker w =>
                refine ⟨?_, by simp⟩
                rintro ⟨⟩
                exact hnot hdeleted
            | deleteQueue i =>
                exact absurd rfl ((List.pairwise_append.mp hfirst).2.2 _ hdeleted _
                  List.mem_cons_self i k rfl)
          · rintro c rfl
            exact ⟨.stop, _, trivial, hstop, by simp only [lifeCall, htodo]⟩
      | queue i =>
          have hq : ∃ q, p.jobQueueCount = some q ∧ i < q := by
            unfold stopWorkers at hmem
            split at hmem
            · simp at hmem
            · next q hq => exact ⟨q, hq, by simpa using hmem⟩
          obtain ⟨q, hq, hi⟩ := hq
          refine .of_returns (hE.deleteQueue q hq i hi e (he.mono fun _ _ hd c hc => ?_)) ?_
          · rintro rfl
            exact hnot (hd _ hc)
          · rintro c rfl
            exact ⟨.stop, _, trivial, hstop, by simp only [lifeCall, htodo]⟩
      | coreEntry core | queueCount | timerThread =>
          exact .of_none (l := .stop) trivial hstop (by simp only [lifeCall, htodo])

theorem stopping_calling {x x' : Life n × ε} {l : LifeAct n ⊕ ω} (h : Stopping env p x.1)
    (hs : (lifeWithWorkers env p n E).step x l = some x') : Stopping env p x'.1 := by
  cases l with
  | inl a => exact stopping_step h (Lts.calling_inl hs).1
  | inr w => rwa [(Lts.calling_inr hs).1]

end workers

/-- With no step left, the destructor is done and the timer thread has exited. -/
theorem ended_of_left (h : Stopping env p s) (hleft : s.left env p = 0) :
    s.todo = some [] ∧ s.destroyed = stopWorkers p := by
  obtain ⟨todo, htodo⟩ := Option.isSome_iff_exists.mp h.begun
  unfold Life.left at hleft
  rw [htodo, Option.getD_some] at hleft
  have hnil : todo = [] := List.length_eq_zero_iff.mp (by omega)
  subst hnil
  have hsplit := (h.inv.during [] htodo).1
  rw [List.append_nil] at hsplit
  exact ⟨htodo, hsplit⟩

end inv

/-- Everything that the constructor has made is in the list of the destructor. -/
theorem made_mem_stopWorkers {env : Env} {cfg : ThreadPoolConfig} {p : Pool}
    (hp : construct env cfg true = some p) (hstarted : p.timerStarted = true)
    (hf : Fits env p) :
    (∀ i, (p.jobWorkerArr i).isSome → .worker i ∈ stopWorkers p) ∧
    ∀ i, (p.jobQueueArr i).isSome → .queue i ∈ stopWorkers p := by
  constructor
  · intro i hi
    obtain ⟨-, -, harr⟩ := started_of_construct hp hstarted
    have hmax := hf.le
    rw [harr, createJobWorkers_apply _ _ _ (lt_of_le_of_lt hmax (by decide))] at hi
    split at hi
    · next hlt =>
        rw [← hf.count] at hlt
        unfold stopWorkers
        simp [hlt]
    · cases hi
  · intro i hi
    unfold construct at hp
    split at hp
    · cases hp
    · cases hp
      cases hstarted
    · cases hp
      simp only [createJobQueues_apply] at hi
      split at hi
      · next hlt =>
          unfold stopWorkers
          simp [hlt]
      · cases hi

/-- **The end of a pool.**  However the timer thread, the callers before the destructor, the
destructor and the workers are interleaved, no step touches what has been destroyed or was never
made, and nothing is destroyed twice.  If the methods and the destructors of the workers and queues
return, then once the destructor of the pool has begun, it and the timer thread are done after
exactly the number of steps that are left, and they can always get there; then every worker and
every queue that the constructor has made has been destroyed. -/
theorem teardown {env : Env} {cfg : ThreadPoolConfig} {p : Pool} {ε ω : Type*}
    {E : Lts ε (WorkerCall ⊕ ω)} (hp : construct env cfg true = some p)
    (hstarted : p.timerStarted = true) (hpos : 1 ≤ env.coreCount * cfg.workersPerCore)
    (hle : env.coreCount * cfg.workersPerCore ≤ maxWorkerCount) {n : ℕ} {s : Life n} {e : ε}
    (h : (lifeWithWorkers env p n E).Reachable (s, e)) :
    (∀ a s', lifeStep env p s a = some s' →
      ∀ x ∈ touched env p s a, x.Ok p ∧ x ∉ s.destroyed) ∧
    s.destroyed.Nodup ∧
    (s.todo.isSome →
      (∀ acts x, (∀ a, .inl a ∈ acts → a.Ending) →
        (lifeWithWorkers env p n E).exec (s, e) acts = some x →
        (acts.filterMap Sum.getLeft?).length + x.1.left env p = s.left env p) ∧
      (WorkersReturn p E → ∃ acts x, (∀ a, .inl a ∈ acts → a.Ending) ∧
        (lifeWithWorkers env p n E).exec (s, e) acts = some x ∧ x.1.left env p = 0)) ∧
    (s.todo.isSome → s.left env p = 0 →
      (∀ i, (p.jobWorkerArr i).isSome → .worker i ∈ s.destroyed) ∧
      ∀ i, (p.jobQueueArr i).isSome → .queue i ∈ s.destroyed) := by
  have hf := fits_of_construct hp hstarted hpos hle
  have hfill := filled_of_construct hp hstarted hf
  have hI : LifeInv env p s := reachable_lifeInv (Lts.reachable_fst h)
  refine ⟨fun a s' hs => hI.touched_ok hf hfill hs, ?_, fun hbegun => ⟨?_, fun hE => ?_⟩,
    fun hbegun hleft => ?_⟩
  · cases htodo : s.todo with
    | none =>
        rw [hI.before htodo]
        exact List.nodup_nil
    | some todo =>
        have hnodup := nodup_stopWorkers p
        rw [← (hI.during todo htodo).1] at hnodup
        exact hnodup.of_append_left
  · intro acts x hacts he
    exact (stopping_countsDown hf).length_add ⟨hI, hbegun⟩ (Lts.forall_getLeft hacts)
      (Lts.exec_fst he)
  · have hkeep : ∀ x l x', (lifeWithWorkers env p n E).Reachable x ∧ Stopping env p x.1 →
        ((life env p n).calling (lifeCall env p) E).step x l = some x' →
        (lifeWithWorkers env p n E).Reachable x' ∧ Stopping env p x'.1 :=
      fun x l x' hx hs => ⟨hx.1.next hs, stopping_calling hx.2 hs⟩
    exact (stopping_countsDown hf).finish_calling (fun x hx => hx.2) hkeep
      (fun x hx hleft => stopping_proceeds hf hx.2 hE (after_deleted hx.1) hleft)
      _ (s, e) ⟨h, hI, hbegun⟩ rfl
  · rw [(ended_of_left ⟨hI, hbegun⟩ hleft).2]
    exact made_mem_stopWorkers hp hstarted hf

/-- Four workers are destroyed in the middle of a turn of the timer thread, one of them with a
job in its queue. -/
theorem teardown_fourWorkers : ∃ x,
    (lifeWithWorkers twoCores fourWorkers 1 (boundedQueues 1)).exec
      (lifeStart fourWorkers 1, fun _ => 0)
      [.inl (.call (.addJob 0 .leastJobs 0 0)), .inl (.call (.call 0)), .inl .test,
        .inl (.timer 1), .inl (.timer 0), .inl .destroy] = some x ∧ x.1.loop = .body ∧
    ∃ acts x', (∀ a, .inl a ∈ acts → a.Ending) ∧
      (lifeWithWorkers twoCores fourWorkers 1 (boundedQueues 1)).exec x acts = some x' ∧
      x'.1.left twoCores fourWorkers = 0 := by
  have hrun : ∃ s jobs, (lifeWithWorkers twoCores fourWorkers 1 (boundedQueues 1)).exec
      (lifeStart fourWorkers 1, fun _ => 0)
      [.inl (.call (.addJob 0 .leastJobs 0 0)), .inl (.call (.call 0)), .inl .test,
        .inl (.timer 1), .inl (.timer 0), .inl .destroy] = some (s, jobs) ∧ s.loop = .body ∧
      s.todo.isSome :=
    ⟨_, _, rfl, rfl, rfl⟩
  obtain ⟨s, jobs, hs, hloop, hbegun⟩ := hrun
  have hp : construct twoCores twoPerCore true = some fourWorkers := rfl
  have hstart : (lifeWithWorkers twoCores fourWorkers 1 (boundedQueues 1)).Reachable
      (lifeStart fourWorkers 1, fun _ => 0) := .of_init ⟨rfl, rfl⟩
  have hend := teardown hp rfl (by decide) (by decide) (Lts.Reachable.exec hstart hs)
  exact ⟨(s, jobs), hs, hloop,
    (hend.2.2.1 hbegun).2 (boundedQueues_return fourWorkers Nat.one_pos)⟩

end LinuxProgramming.ThreadPool
