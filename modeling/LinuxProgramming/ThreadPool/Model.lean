import LinuxProgramming.Lts
import LinuxProgramming.Rotation
import LinuxProgramming.ThreadPool.Setup

/-! # Running an `AdaptiveThreadPool`

The pool after its constructor: any number of threads that call `addJob` and `getJobCount`, and
the timer thread.

* **Cursors.**  The two round-robin policies do the same with different data, a `Rotation`
  each: `none` names `mGlobalLock_Next` with `mNextGlobalJobWorker`, and `some core` the entries
  of `mCoreLock_Next_Arr` and `mNextJobWorkerOnEachCoreArr` for a core.
* **Steps.**  Taking a lock, each access to a shared field and each call of a worker's method is
  a step.  The label of a call says what `sched_getcpu()` and `rand()` return; `getJobCount()`
  of a worker returns any number.  Whether the call of a worker's method returns at all is the
  subject of `ThreadPool.Workers`.
* **Names.**  In `timer_thread_func`, `workersPerCore` is its local `workers_per_core` and
  `mJobWorkerCount` is the pool's; in `addJob`, `mJobWorkerWithLeastJob` is the field of
  `mStatCtrl`. -/

namespace LinuxProgramming.ThreadPool

inductive JobAssignPolicy where
  | sameCoreRoundRobin
  | sameCoreLeastJobs
  | roundRobin
  | leastJobs
  | sameCoreRandom
  | random
  | max
deriving DecidableEq

/-- The policy promises a worker on the core of the caller. -/
def JobAssignPolicy.sameCore : JobAssignPolicy → Bool
  | sameCoreRoundRobin => true
  | sameCoreLeastJobs => true
  | sameCoreRandom => true
  | _ => false

/-- `struct StatisticCtrl`, as far as jobs are assigned by it. -/
structure StatisticCtrl where
  rotation : Option ℕ → Rotation
  jobWorkerWithLeastJob : ℕ
  jobWorkerWithLeastJobOnEachCore : ℕ → ℕ

/-- `initializeStatistics`. -/
def initializeStatistics (cfg : ThreadPoolConfig) : StatisticCtrl where
  rotation
    | none => ⟨1, 0, []⟩
    | some i => ⟨1, u32 (i * cfg.workersPerCore), []⟩
  jobWorkerWithLeastJob := 0
  jobWorkerWithLeastJobOnEachCore i := u32 (i * cfg.workersPerCore)

/-! ### Program points -/

/-- Where a thread stands in the section under a lock; `k` is `whichWorker`. -/
inductive RotationPc where
  | wait
  | hold
  | wrap (k : ℕ)
  | post (k : ℕ)

/-- Where a thread stands in its call. -/
inductive Pc where
  | idle
  | rotate (policy : JobAssignPolicy) (core : ℕ) (pc : RotationPc)
  | chosen (policy : JobAssignPolicy) (core whichWorker : ℕ)
  | counting (i jobCount : ℕ)

/-- Where the timer thread stands: asleep, or at the head of one of its loops. -/
inductive TimerPc where
  | asleep
  | scanAll (i leastJobWorker leastJobs : ℕ)
  | nextCore (core startingWorkerIndex : ℕ)
  | scanCore (core startingWorkerIndex i leastJobWorker leastJobs : ℕ)

structure State (n : ℕ) where
  stat : StatisticCtrl
  thread : Fin n → Pc
  timer : TimerPc

inductive Act (n : ℕ) where
  | addJob (i : Fin n) (policy : JobAssignPolicy) (cpu rand : ℕ)
  | rotate (i : Fin n)
  | call (i : Fin n)
  | getJobCount (i : Fin n)
  | count (i : Fin n) (jobs : ℕ)
  | timer (jobs : ℕ)

/-- The cursor of a round-robin policy. -/
def rotationOf (policy : JobAssignPolicy) (core : ℕ) : Option ℕ :=
  match policy with
  | .sameCoreRoundRobin => some core
  | _ => none

/-! ### Steps -/

section steps
variable (env : Env) (p : Pool) {n : ℕ}

/-- Where a cursor starts a round. -/
def firstOf : Option ℕ → ℕ
  | none => 0
  | some core => u32 (core * p.config.workersPerCore)

/-- Where a cursor is wrapped round. -/
def limitOf : Option ℕ → ℕ
  | none => p.jobWorkerCount
  | some core => u32 ((core + 1) * p.config.workersPerCore)

/-- Thread `i` moves to another program point. -/
def State.goto (s : State n) (i : Fin n) (pc : Pc) : State n :=
  { s with thread := Function.update s.thread i pc }

/-- A step under the lock of a cursor. -/
def State.setRotation (s : State n) (r : Option ℕ) (c : Rotation) : State n :=
  { s with stat := { s.stat with rotation := Function.update s.stat.rotation r c } }

/-- `addJob` up to the first lock or the choice of the worker; the assertion of the default case
and a remainder by zero abort the process. -/
def addJob (s : State n) (i : Fin n) (policy : JobAssignPolicy) (cpu rand : ℕ) :
    Option (State n) :=
  match policy with
  | .sameCoreRoundRobin => some (s.goto i (.rotate policy cpu .wait))
  | .sameCoreLeastJobs =>
      some (s.goto i (.chosen policy cpu (s.stat.jobWorkerWithLeastJobOnEachCore cpu)))
  | .roundRobin => some (s.goto i (.rotate policy cpu .wait))
  | .leastJobs => some (s.goto i (.chosen policy cpu s.stat.jobWorkerWithLeastJob))
  | .sameCoreRandom =>
      if p.config.workersPerCore = 0 then none
      else some (s.goto i (.chosen policy cpu
        (u32 (cpu * p.config.workersPerCore + rand % p.config.workersPerCore))))
  | .random =>
      if p.jobWorkerCount = 0 then none
      else some (s.goto i (.chosen policy cpu (rand % p.jobWorkerCount)))
  | .max => none

/-- The next step of the section under the lock of `r`. -/
def rotate (s : State n) (i : Fin n) (policy : JobAssignPolicy) (core : ℕ) (r : Option ℕ) :
    RotationPc → Option (State n)
  | .wait =>
      if 0 < (s.stat.rotation r).lock then
        some ((s.setRotation r (s.stat.rotation r).acquire).goto i (.rotate policy core .hold))
      else none
  | .hold =>
      some ((s.setRotation r (s.stat.rotation r).take.2).goto i
        (.rotate policy core (.wrap (s.stat.rotation r).take.1)))
  | .wrap k =>
      some ((s.setRotation r ((s.stat.rotation r).wrap (firstOf p r) (limitOf p r))).goto i
        (.rotate policy core (.post k)))
  | .post k =>
      some ((s.setRotation r (s.stat.rotation r).release).goto i (.chosen policy core k))

/-- One step of the timer thread; `jobs` is what the worker that it asks returns. -/
def timerStep (s : State n) (jobs : ℕ) : State n :=
  match s.timer with
  | .asleep => { s with timer := .scanAll 1 0 jobs }
  | .scanAll i leastJobWorker leastJobs =>
      if i < p.jobWorkerCount then
        if jobs < leastJobs then { s with timer := .scanAll (i + 1) i jobs }
        else { s with timer := .scanAll (i + 1) leastJobWorker leastJobs }
      else
        { s with
          stat := { s.stat with jobWorkerWithLeastJob := leastJobWorker }
          timer := .nextCore 0 0 }
  | .nextCore core first =>
      if core < env.coreCount then { s with timer := .scanCore core first 1 first jobs }
      else { s with timer := .asleep }
  | .scanCore core first i leastJobWorker leastJobs =>
      if i < p.config.workersPerCore then
        if jobs < leastJobs then
          { s with timer := .scanCore core first (i + 1) (u32 (first + i)) jobs }
        else { s with timer := .scanCore core first (i + 1) leastJobWorker leastJobs }
      else
        { s with
          stat := { s.stat with
            jobWorkerWithLeastJobOnEachCore :=
              Function.update s.stat.jobWorkerWithLeastJobOnEachCore core leastJobWorker }
          timer := .nextCore (core + 1) (u32 (first + p.config.workersPerCore)) }

def step (s : State n) : Act n → Option (State n)
  | .addJob i policy cpu rand =>
      match s.thread i with
      | .idle => if cpu < env.coreCount then addJob p s i policy cpu rand else none
      | _ => none
  | .rotate i =>
      match s.thread i with
      | .rotate policy core pc => rotate p s i policy core (rotationOf policy core) pc
      | _ => none
  | .call i =>
      match s.thread i with
      | .chosen _ _ _ => some (s.goto i .idle)
      | _ => none
  | .getJobCount i =>
      match s.thread i with
      | .idle => some (s.goto i (.counting 0 0))
      | _ => none
  | .count i jobs =>
      match s.thread i with
      | .counting k jobCount =>
          if k < p.jobWorkerCount then
            some (s.goto i (.counting (k + 1) ((jobCount + jobs) % 2 ^ 64)))
          else some (s.goto i .idle)
      | _ => none
  | .timer jobs => some (timerStep env p s jobs)

/-- The pool after its constructor, with no call in progress. -/
def start (n : ℕ) : State n where
  stat := initializeStatistics p.config
  thread _ := .idle
  timer := .asleep

/-- The pool with `n` threads under every interleaving. -/
def system (n : ℕ) : Lts (State n) (Act n) where
  init s := s = start p n
  step := step env p

end steps

end LinuxProgramming.ThreadPool
