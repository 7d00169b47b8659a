import Mathlib.Algebra.Group.Int.Defs
import Mathlib.Algebra.Group.Nat.Defs
import Mathlib.Data.List.Range
import Mathlib.Logic.Function.Basic
import Mathlib.Data.Int.Notation

/-! # A simulation with a queue on every core

`main` of Chapter 12 makes a queue for each core, `producers_per_core` producers and
`consumers_per_core` consumers on each core, lets them run and deletes everything.  The queues and
the scheduling policies are in arrays of `MAX_SYSTEM_CORES` entries, the threads in arrays that are
allocated to size; two counters that run across all cores are the ids of the threads and the
indices of their entries.

* The model runs the loops on the contents of the arrays and logs each access to an entry, each
  object that is made, each join and each deletion.
* `makeQueues_eq`, `makeThreads_eq` and `startCores_eq` say what the loops leave. -/

namespace LinuxProgramming.CoreSimulation

/-- `MAX_SYSTEM_CORES`. -/
def maxSystemCores : ℕ := 32

inductive Policy where
  | other | rr
  deriving DecidableEq

inductive Kind where
  | producer | consumer
  deriving DecidableEq

/-- The arguments of a constructor: the entries that it is given are `none` when nothing has been
stored in them. -/
structure Thread where
  queue : Option ℕ
  id : ℕ
  priority : ℕ
  policy : Option Policy
  core : ℕ
  deriving DecidableEq

/-- The arrays of `main`. -/
inductive Arr where
  | policy | queue | thread (kind : Kind)
  deriving DecidableEq

/-- A queue has the id of its core. -/
inductive Object where
  | queue (id : ℕ)
  | thread (kind : Kind) (t : Thread)
  deriving DecidableEq

inductive Event where
  | access (arr : Arr) (index : ℕ)
  | new (o : Object)
  /-- `new` has thrown: the number of entries is negative -/
  | badLength (kind : Kind)
  | join (kind : Kind) (t : Thread)
  | delete (o : Object)
  /-- `delete` of an entry in which nothing has been stored -/
  | wild
  /-- the array itself, by `delete []` or by `delete` -/
  | release (kind : Kind) (brackets : Bool)
  deriving DecidableEq

structure Sim where
  policyArr : ℕ → Option Policy
  queueArr : ℕ → Option ℕ
  threadArr : Kind → ℕ → Option Thread
  /-- `cur_producer_id` and `cur_consumer_id` -/
  cur : Kind → ℕ
  log : List Event

/-- The arrays before anything is stored. -/
def initial : Sim := ⟨fun _ => none, fun _ => none, fun _ _ => none, fun _ => 0, []⟩

/-! ### Setting up -/

def makeQueue (s : Sim) (i : ℕ) : Sim :=
  { s with
    policyArr := Function.update s.policyArr i (some .other)
    queueArr := Function.update s.queueArr i (some i)
    log := s.log ++ [.access .policy i, .new (.queue i), .access .queue i] }

/-- The threads of core 0 have real time priority. -/
def favourFirst (s : Sim) : Sim :=
  { s with
    policyArr := Function.update s.policyArr 0 (some .rr)
    log := s.log ++ [.access .policy 0] }

def makeQueues (numCores : ℕ) (s : Sim) : Sim := favourFirst ((List.range numCores).foldl makeQueue s)

/-- `new Consumer` and `new Producer`. -/
def makeThread (kind : Kind) (core : ℕ) (s : Sim) : Sim :=
  let t : Thread := ⟨s.queueArr core, s.cur kind, 1000, s.policyArr core, core⟩
  { s with
    threadArr := Function.update s.threadArr kind
      (Function.update (s.threadArr kind) (s.cur kind) (some t))
    cur := Function.update s.cur kind (s.cur kind + 1)
    log := s.log ++ [.access .queue core, .access .policy core, .new (.thread kind t),
      .access (.thread kind) (s.cur kind)] }

def makeThreads (kind : Kind) (perCore core : ℕ) (s : Sim) : Sim :=
  (List.range perCore).foldl (fun s _ => makeThread kind core s) s

/-- One core: the consumers come first. -/
def startCore (perCore : Kind → ℕ) (s : Sim) (core : ℕ) : Sim :=
  makeThreads .producer (perCore .producer) core
    (makeThreads .consumer (perCore .consumer) core s)

def startCores (perCore : Kind → ℕ) (numCores : ℕ) (s : Sim) : Sim :=
  (List.range numCores).foldl (startCore perCore) s

/-! ### Shutting down -/

/-- The destructor of `ScheduledObject` joins the thread. -/
def destroy (kind : Kind) : Option Thread → List Event
  | none => [.wild]
  | some t => [.join kind t, .delete (.thread kind t)]

def deleteThreads (kind : Kind) (s : Sim) : List Event :=
  (List.range (s.cur kind)).flatMap fun i =>
    .access (.thread kind) i :: destroy kind (s.threadArr kind i)

def destroyQueue : Option ℕ → Event
  | none => .wild
  | some id => .delete (.queue id)

def deleteQueues (numCores : ℕ) (s : Sim) : List Event :=
  (List.range numCores).flatMap fun i => [.access .queue i, destroyQueue (s.queueArr i)]

def shutDown (numCores : ℕ) (s : Sim) : List Event :=
  deleteThreads .producer s ++ [.release .producer true] ++ deleteThreads .consumer s ++
    [.release .consumer false] ++ deleteQueues numCores s

/-! ### The program -/

/-- The number of entries of an array of threads, a product of `int`s. -/
def entries (perCore : Kind → ℕ) (numCores : ℕ) (kind : Kind) : ℤ :=
  (BitVec.ofNat 32 (numCores * perCore kind)).toInt

/-- What `main` does on a machine with `numCores` cores. -/
def main (numCores : ℕ) (perCore : Kind → ℕ) : List Event :=
  let s := makeQueues numCores initial
  if entries perCore numCores .producer < 0 then s.log ++ [.badLength .producer]
  else if entries perCore numCores .consumer < 0 then s.log ++ [.badLength .consumer]
  else
    let s := startCores perCore numCores s
    s.log ++ shutDown numCores s

/-! ### What the loops leave -/

def policyOf (core : ℕ) : Policy := if core = 0 then .rr else .other

def queueEvents (i : ℕ) : List Event := [.access .policy i, .new (.queue i), .access .queue i]

theorem makeQueues_eq (numCores : ℕ) :
    (makeQueues numCores initial).log =
      (List.range numCores).flatMap queueEvents ++ [.access .policy 0] ∧
    (∀ core < numCores, (makeQueues numCores initial).policyArr core = some (policyOf core)) ∧
    (∀ core < numCores, (makeQueues numCores initial).queueArr core = some core) ∧
    (makeQueues numCores initial).threadArr = initial.threadArr ∧
    (makeQueues numCores initial).cur = initial.cur := by
  have hloop : ∀ m, (List.range m).foldl makeQueue initial =
      { initial with
        policyArr := fun i => if i < m then some .other else none
        queueArr := fun i => if i < m then some i else none
        log := (List.range m).flatMap queueEvents } := by
    intro m
    induction m with
    | zero => rfl
    | succ m ih =>
        rw [List.range_succ, List.foldl_append, ih, List.flatMap_append]
        unfold makeQueue
        simp only [List.foldl_cons, List.foldl_nil, Sim.mk.injEq]
        refine ⟨?_, ?_, trivial, trivial, rfl⟩ <;> funext i <;> rw [Function.update_apply] <;> grind
  unfold makeQueues
  rw [hloop]
  refine ⟨rfl, fun core hcore => ?_, fun core hcore => if_pos hcore, rfl, rfl⟩
  show Function.update (fun i => if i < numCores then some Policy.other else none) 0 (some .rr)
    core = _
  rw [Function.update_apply, if_pos hcore]
  unfold policyOf
  split <;> rfl

/-- The thread that is made on a core as number `i` of its kind. -/
def Sim.threadAt (s : Sim) (core i : ℕ) : Thread :=
  ⟨s.queueArr core, i, 1000, s.policyArr core, core⟩

def threadEvents (kind : Kind) (core : ℕ) (t : Thread) : List Event :=
  [.access .queue core, .access .policy core, .new (.thread kind t), .access (.thread kind) t.id]

theorem makeThreads_eq (kind : Kind) (perCore core : ℕ) (s : Sim) :
    makeThreads kind perCore core s =
      { s with
        threadArr := Function.update s.threadArr kind fun i =>
          if s.cur kind ≤ i ∧ i < s.cur kind + perCore then some (s.threadAt core i)
          else s.threadArr kind i
        cur := Function.update s.cur kind (s.cur kind + perCore)
        log := s.log ++ (List.range perCore).flatMap fun j =>
          threadEvents kind core (s.threadAt core (s.cur kind + j)) } := by
  unfold makeThreads
  induction perCore with
  | zero =>
      have hempty : (fun i => if s.cur kind ≤ i ∧ i < s.cur kind then some (s.threadAt core i)
          else s.threadArr kind i) = s.threadArr kind := by
        funext i
        exact if_neg (by omega)
      simp only [List.range_zero, List.foldl_nil, List.flatMap_nil, List.append_nil,
        Nat.add_zero, hempty, Function.update_eq_self]
  | succ m ih =>
      rw [List.range_succ, List.foldl_append, ih, List.flatMap_append]
      unfold makeThread Sim.threadAt threadEvents
      simp only [List.foldl_cons, List.foldl_nil, Function.update_self, Function.update_idem,
        List.flatMap_cons, List.flatMap_nil, List.append_nil, List.append_assoc, Sim.mk.injEq,
        true_and, Nat.add_assoc, and_true]
      congr 1
      funext i
      rw [Function.update_apply]
      grind

/-- The thread with number `i` of its kind when there are `perCore` on a core. -/
def threadOf (perCore i : ℕ) : Thread :=
  ⟨some (i / perCore), i, 1000, some (policyOf (i / perCore)), i / perCore⟩

/-- Those of one core, by their places on it. -/
def kindEvents (kind : Kind) (perCore core : ℕ) : List Event :=
  (List.range perCore).flatMap fun j => threadEvents kind core (threadOf perCore (core * perCore + j))

def coreEvents (perCore : Kind → ℕ) (core : ℕ) : List Event :=
  kindEvents .consumer (perCore .consumer) core ++ kindEvents .producer (perCore .producer) core

theorem div_eq_core {perCore core i : ℕ} (h1 : core * perCore ≤ i)
    (h2 : i < core * perCore + perCore) : i / perCore = core :=
  Nat.div_eq_of_lt_le h1 (by rwa [Nat.succ_mul])

/-- The threads of each kind are there for the cores below a bound of its own. -/
structure Started (perCore done : Kind → ℕ) (s₀ s : Sim) : Prop where
  policyArr : s.policyArr = s₀.policyArr
  queueArr : s.queueArr = s₀.queueArr
  cur : ∀ kind, s.cur kind = done kind * perCore kind
  threadArr : ∀ kind, ∀ i < done kind * perCore kind,
    s.threadArr kind i = some (threadOf (perCore kind) i)

section started
variable {perCore done : Kind → ℕ} {s₀ s : Sim}

theorem Started.threadAt (h : Started perCore done s₀ s) {core : ℕ}
    (hpolicy : s₀.policyArr core = some (policyOf core)) (hqueue : s₀.queueArr core = some core)
    (kind : Kind) {i : ℕ} (h1 : core * perCore kind ≤ i)
    (h2 : i < core * perCore kind + perCore kind) :
    s.threadAt core i = threadOf (perCore kind) i := by
  unfold Sim.threadAt threadOf
  rw [h.policyArr, h.queueArr, hpolicy, hqueue, div_eq_core h1 h2]

/-- The threads of one kind on the next core. -/
theorem Started.makeThreads (h : Started perCore done s₀ s) (kind : Kind)
    (hpolicy : s₀.policyArr (done kind) = some (policyOf (done kind)))
    (hqueue : s₀.queueArr (done kind) = some (done kind)) :
    Started perCore (Function.update done kind (done kind + 1)) s₀
      (makeThreads kind (perCore kind) (done kind) s) ∧
    (CoreSimulation.makeThreads kind (perCore kind) (done kind) s).log =
      s.log ++ kindEvents kind (perCore kind) (done kind) := by
  have hthread := fun i => h.threadAt hpolicy hqueue kind (i := i)
  rw [makeThreads_eq, h.cur kind]
  refine ⟨⟨h.policyArr, h.queueArr, fun kind' => ?_, fun kind' i hi => ?_⟩, ?_⟩
  · by_cases hk : kind' = kind
    · subst hk
      simp only [Function.update_self, Nat.succ_mul]
    · simp only [Function.update_of_ne hk, h.cur kind']
  · by_cases hk : kind' = kind
    · subst hk
      simp only [Function.update_self, Nat.succ_mul] at hi ⊢
      by_cases hold : i < done kind' * perCore kind'
      · rw [if_neg (by omega), h.threadArr kind' i hold]
      · rw [if_pos ⟨by omega, hi⟩, hthread i (by omega) hi]
    · simp only [Function.update_of_ne hk] at hi ⊢
      exact h.threadArr kind' i hi
  · show s.log ++ _ = s.log ++ _
    congr 1
    apply List.flatMap_congr
    intro j hj
    have hlt := List.mem_range.mp hj
    rw [hthread _ (Nat.le_add_right _ _) (by omega)]

/-- One core more. -/
theorem Started.startCore {core : ℕ} (h : Started perCore (fun _ => core) s₀ s)
    (hpolicy : s₀.policyArr core = some (policyOf core)) (hqueue : s₀.queueArr core = some core) :
    Started perCore (fun _ => core + 1) s₀ (startCore perCore s core) ∧
    (CoreSimulation.startCore perCore s core).log = s.log ++ coreEvents perCore core := by
  obtain ⟨hconsumers, hlog⟩ := h.makeThreads .consumer hpolicy hqueue
  obtain ⟨hproducers, hlog'⟩ := hconsumers.makeThreads .producer hpolicy hqueue
  have hdone : Function.update (Function.update (fun _ => core) Kind.consumer (core + 1))
      Kind.producer (core + 1) = fun _ => core + 1 := by
    funext kind
    cases kind <;> rfl
  have hproducer : Function.update (fun _ => core) Kind.consumer (core + 1) Kind.producer = core :=
    rfl
  rw [hproducer, hdone] at hproducers
  rw [hproducer, hlog, List.append_assoc] at hlog'
  exact ⟨hproducers, hlog'⟩

variable (perCore) in
theorem startCores_eq {numCores : ℕ}
    (hpolicy : ∀ core < numCores, s₀.policyArr core = some (policyOf core))
    (hqueue : ∀ core < numCores, s₀.queueArr core = some core) (hcur : ∀ kind, s₀.cur kind = 0) :
    Started perCore (fun _ => numCores) s₀ (startCores perCore numCores s₀) ∧
    (startCores perCore numCores s₀).log =
      s₀.log ++ (List.range numCores).flatMap (coreEvents perCore) := by
  unfold startCores
  induction numCores with
  | zero =>
      refine ⟨⟨rfl, rfl, fun kind => ?_, fun kind i hi => ?_⟩, ?_⟩
      · rw [Nat.zero_mul]
        exact hcur kind
      · rw [Nat.zero_mul] at hi
        exact absurd hi (Nat.not_lt_zero i)
      · rw [List.range_zero, List.flatMap_nil, List.append_nil]
        rfl
  | succ core ih =>
      obtain ⟨hstarted, hlog⟩ := ih (fun c hc => hpolicy c (by omega)) fun c hc => hqueue c (by omega)
      obtain ⟨hstarted', hlog'⟩ :=
        hstarted.startCore (hpolicy core (by omega)) (hqueue core (by omega))
      rw [List.range_succ, List.foldl_append, List.flatMap_append]
      refine ⟨hstarted', ?_⟩
      rw [List.flatMap_singleton, ← List.append_assoc, ← hlog]
      exact hlog'

end started

/-! ### The log -/

/-- What is logged before the arrays of threads are allocated. -/
def queuesLog (numCores : ℕ) : List Event :=
  (List.range numCores).flatMap queueEvents ++ [.access .policy 0]

def threadsLog (numCores : ℕ) (perCore : Kind → ℕ) : List Event :=
  (List.range numCores).flatMap (coreEvents perCore)

def deleteEvents (kind : Kind) (t : Thread) : List Event :=
  [.access (.thread kind) t.id, .join kind t, .delete (.thread kind t)]

def threadsDeleted (numCores : ℕ) (perCore : Kind → ℕ) (kind : Kind) : List Event :=
  (List.range (numCores * perCore kind)).flatMap fun i =>
    deleteEvents kind (threadOf (perCore kind) i)

/-- The end of the log. -/
def queuesDeleted (numCores : ℕ) : List Event :=
  (List.range numCores).flatMap fun i => [.access .queue i, .delete (.queue i)]

/-- Everything before it. -/
def logBefore (numCores : ℕ) (perCore : Kind → ℕ) : List Event :=
  queuesLog numCores ++ threadsLog numCores perCore ++
    (threadsDeleted numCores perCore .producer ++ [.release .producer true] ++
      threadsDeleted numCores perCore .consumer ++ [.release .consumer false])

section log
variable {numCores : ℕ} {perCore : Kind → ℕ}

theorem deleteThreads_eq {s₀ s : Sim} (h : Started perCore (fun _ => numCores) s₀ s) (kind : Kind) :
    deleteThreads kind s = threadsDeleted numCores perCore kind := by
  unfold deleteThreads threadsDeleted
  rw [h.cur kind]
  apply List.flatMap_congr
  intro i hi
  rw [h.threadArr kind i (List.mem_range.mp hi)]
  rfl

theorem deleteQueues_eq {s : Sim} (hqueue : ∀ core < numCores, s.queueArr core = some core) :
    deleteQueues numCores s = queuesDeleted numCores := by
  unfold deleteQueues queuesDeleted
  apply List.flatMap_congr
  intro i hi
  rw [hqueue i (List.mem_range.mp hi)]
  rfl

/-- When both arrays of threads are allocated. -/
theorem main_eq (h : ∀ kind, 0 ≤ entries perCore numCores kind) :
    main numCores perCore = logBefore numCores perCore ++ queuesDeleted numCores := by
  obtain ⟨hlog, hpolicy, hqueue, -, hcur⟩ := makeQueues_eq numCores
  obtain ⟨hstarted, hlog'⟩ := startCores_eq perCore hpolicy hqueue
    fun kind => congrFun hcur kind
  have hqueues : ∀ core < numCores,
      (startCores perCore numCores (makeQueues numCores initial)).queueArr core = some core := by
    intro core hcore
    rw [hstarted.queueArr]
    exact hqueue core hcore
  unfold main shutDown
  simp only
  rw [if_neg (Int.not_lt.mpr (h .producer)), if_neg (Int.not_lt.mpr (h .consumer)), hlog', hlog,
    deleteThreads_eq hstarted, deleteThreads_eq hstarted, deleteQueues_eq hqueues]
  unfold logBefore queuesLog threadsLog
  simp only [List.append_assoc]

/-- When the first product or the second is negative, there are queues and nothing else. -/
theorem main_eq_of_neg {kind : Kind} (h : entries perCore numCores kind < 0) :
    ∃ kind', main numCores perCore = queuesLog numCores ++ [.badLength kind'] := by
  have hlog := (makeQueues_eq numCores).1
  unfold main
  simp only
  rw [hlog]
  split
  · exact ⟨.producer, rfl⟩
  · next hproducer =>
      cases kind with
      | producer => exact absurd h hproducer
      | consumer =>
          rw [if_pos h]
          exact ⟨.consumer, rfl⟩

/-- The queues come first in any case. -/
theorem exists_main_eq (numCores : ℕ) (perCore : Kind → ℕ) :
    ∃ rest, main numCores perCore = queuesLog numCores ++ rest := by
  by_cases h : ∀ kind, 0 ≤ entries perCore numCores kind
  · rw [main_eq h]
    unfold logBefore
    rw [List.append_assoc, List.append_assoc]
    exact ⟨_, rfl⟩
  · obtain ⟨kind, hkind⟩ := not_forall.mp h
    obtain ⟨kind', hmain⟩ := main_eq_of_neg (Int.not_le.mp hkind)
    exact ⟨_, hmain⟩

end log

end LinuxProgramming.CoreSimulation
