import LinuxProgramming.Lts
import Mathlib.Algebra.Group.Nat.Defs

/-! # The life of a `ScheduledObject` with a message queue

A `Producer` or a `Consumer` is a `ScheduledObject`: the base constructor starts the thread that
runs `work()`, and the base destructor stops it.  `m_mqd` belongs to the derived class, so it is
assigned after the thread is there and closed while the thread still runs.

* **Object.**  `Object` holds the fields that `work()` and `run` read; `vptr` is the class whose
  `work()` a virtual call finds, which the constructors and destructors set as they are entered.
* **Steps.**  The owner and the worker each go from one program point to the next, in any
  interleaving; `sleep(2)` is a step like any other.  The label carries what the environment
  answers: whether `mq_open` succeeds, whether memory that was never assigned happens to hold
  `(mqd_t)-1`, whether `mq_timedsend` or `mq_timedreceive` succeeds.
* **History.**  `reads` are the values that `work()` has read from `m_mqd`, and `calls` what it
  has called on it; `Clean` is the discipline they should keep. -/

namespace LinuxProgramming.MessageQueue

/-! ### The object and its two parties -/

/-- The derived class. -/
inductive Role where
  | producer
  | consumer
deriving DecidableEq

inductive Vptr where
  | scheduledObject
  | derived
deriving DecidableEq

/-- What `m_mqd` holds; it is assigned first by the initialiser `m_mqd((mqd_t)-1)`. -/
inductive Mqd where
  | unassigned
  | invalid
  | opened
deriving DecidableEq

structure Object where
  run : Bool
  vptr : Vptr
  mqd : Mqd
  nextItemId : ℕ
  /-- `m_produced_count` or `m_consumed_count` -/
  count : ℕ

/-- Where the owner stands: what it has done last. -/
inductive OwnerPc where
  | allocated
  | fieldsSet
  | threadCreated
  | derivedEntered
  | mqdInitialised
  | idsSet
  | mqdOpened
  | constructed
  | mqdClosed
  | derivedLeft
  | runCleared
  | joined
deriving DecidableEq

/-- Where the worker stands: what it does next. -/
inductive WorkerPc where
  | notCreated
  | setScheduler
  | sleep
  | testRun
  | callWork
  | defaultWork
  | testMqd
  | prepare
  | callQueue
  | inQueue
  | exited
deriving DecidableEq

/-- Inside `work()` of the derived class, before its call on the queue. -/
def WorkerPc.inWork : WorkerPc → Bool
  | testMqd => true
  | prepare => true
  | callQueue => true
  | _ => false

inductive QueueFunction where
  | mqTimedsend
  | mqTimedreceive
deriving DecidableEq

structure Call where
  function : QueueFunction
  /-- the destructor had closed the descriptor when the call was made -/
  closed : Bool
deriving DecidableEq

structure State where
  owner : OwnerPc
  worker : WorkerPc
  obj : Object
  closed : Bool
  reads : List Mqd
  calls : List Call

inductive Act where
  | owner (answer : Bool)
  | worker (answer : Bool)

/-! ### Steps -/

/-- `ITEM_STARTING_ID_EACH_PRODUCER` -/
def itemStartingIdEachProducer : ℕ := 300000

def Role.queueFunction : Role → QueueFunction
  | producer => .mqTimedsend
  | consumer => .mqTimedreceive

/-- The member that the derived constructor sets before it opens the queue: `m_next_item_id` of a
`Producer`.  A `Consumer` sets `m_id` there, which only its messages read. -/
def Role.setIds (role : Role) (id : ℕ) (o : Object) : Object :=
  match role with
  | producer => { o with nextItemId := itemStartingIdEachProducer * id % 2 ^ 32 }
  | consumer => o

/-- What `work()` does between its test of `m_mqd` and its call: `cook_item`, in a `Producer`. -/
def Role.prepare (role : Role) (o : Object) : Object :=
  match role with
  | producer => { o with nextItemId := (o.nextItemId + 1) % 2 ^ 32 }
  | consumer => o

/-- The comparison `m_mqd == (mqd_t)-1`. -/
def Mqd.isInvalid (answer : Bool) : Mqd → Bool
  | unassigned => answer
  | invalid => true
  | opened => false

/-- The constructors and the destructors, base class and derived class, in the order in which
they run. -/
def ownerStep (role : Role) (id : ℕ) (s : State) (answer : Bool) : Option State :=
  match s.owner with
  | .allocated =>
      some { s with
        owner := .fieldsSet
        obj := { s.obj with run := true, vptr := .scheduledObject } }
  | .fieldsSet => some { s with owner := .threadCreated, worker := .setScheduler }
  | .threadCreated =>
      some { s with owner := .derivedEntered, obj := { s.obj with vptr := .derived } }
  | .derivedEntered =>
      some { s with owner := .mqdInitialised, obj := { s.obj with mqd := .invalid } }
  | .mqdInitialised => some { s with owner := .idsSet, obj := role.setIds id s.obj }
  | .idsSet =>
      some { s with
        owner := .mqdOpened
        obj := { s.obj with mqd := if answer then .opened else .invalid } }
  | .mqdOpened => some { s with owner := .constructed, obj := { s.obj with count := 0 } }
  | .constructed => some { s with owner := .mqdClosed, closed := true }
  | .mqdClosed =>
      some { s with owner := .derivedLeft, obj := { s.obj with vptr := .scheduledObject } }
  | .derivedLeft => some { s with owner := .runCleared, obj := { s.obj with run := false } }
  | .runCleared => if s.worker = .exited then some { s with owner := .joined } else none
  | .joined => none

/-- `ScheduledObject::run` and the `work()` it calls. -/
def workerStep (role : Role) (s : State) (answer : Bool) : Option State :=
  match s.worker with
  | .notCreated => none
  | .setScheduler => some { s with worker := .sleep }
  | .sleep => some { s with worker := .testRun }
  | .testRun => some { s with worker := if s.obj.run then .callWork else .exited }
  | .callWork =>
      match s.obj.vptr with
      | .scheduledObject => some { s with worker := .defaultWork }
      | .derived => some { s with worker := .testMqd }
  | .defaultWork => some { s with worker := .testRun }
  | .testMqd =>
      some { s with
        worker := if s.obj.mqd.isInvalid answer then .testRun else .prepare
        reads := s.obj.mqd :: s.reads }
  | .prepare => some { s with worker := .callQueue, obj := role.prepare s.obj }
  | .callQueue =>
      some { s with
        worker := .inQueue
        reads := s.obj.mqd :: s.reads
        calls := ⟨role.queueFunction, s.closed⟩ :: s.calls }
  | .inQueue =>
      some { s with
        worker := .testRun
        obj := { s.obj with
          count := if answer then (s.obj.count + 1) % 2 ^ 32 else s.obj.count } }
  | .exited => none

def step (role : Role) (id : ℕ) (s : State) : Act → Option State
  | .owner answer => ownerStep role id s answer
  | .worker answer => workerStep role s answer

/-- Memory before its constructor; the rest of the object is whatever the memory holds. -/
def start (memory : Object) : State where
  owner := .allocated
  worker := .notCreated
  obj := { memory with mqd := .unassigned }
  closed := false
  reads := []
  calls := []

/-- One object with its owner and its worker under every interleaving. -/
def system (role : Role) (id : ℕ) : Lts State Act where
  init s := ∃ memory, s = start memory
  step := step role id

/-- `work()` has read `m_mqd` only as the derived constructor has assigned it, and has called
nothing on it after the derived destructor has closed it. -/
structure Clean (s : State) : Prop where
  reads : ∀ m ∈ s.reads, m ≠ .unassigned
  calls : ∀ c ∈ s.calls, c.closed = false

/-! ### The condition -/

/-- What the order of construction and destruction does not ensure: the virtual call finds the
derived `work()` only while `m_mqd` is assigned and not closed, and the destructor closes the
queue only while `work()` is not on its way to use it. -/
def Ordered (s : State) : Act → Prop
  | .owner _ => s.owner = .constructed → s.obj.mqd = .opened → s.worker.inWork = false
  | .worker _ => s.worker = .callWork → s.obj.vptr = .derived →
      s.obj.mqd = .invalid ∨ s.obj.mqd = .opened ∧ s.closed = false

/-- What holds of `m_mqd` at a program point of the owner. -/
def OwnerPc.Outline (mqd : Mqd) (closed : Bool) : OwnerPc → Prop
  | allocated | fieldsSet | threadCreated | derivedEntered => mqd = .unassigned ∧ closed = false
  | mqdInitialised | idsSet => mqd = .invalid ∧ closed = false
  | mqdOpened | constructed => mqd ≠ .unassigned ∧ closed = false
  | mqdClosed | derivedLeft | runCleared | joined => mqd ≠ .unassigned

/-- What holds of `m_mqd` at a program point of the worker. -/
def WorkerPc.Outline (mqd : Mqd) (closed : Bool) : WorkerPc → Prop
  | testMqd => mqd = .invalid ∨ mqd = .opened ∧ closed = false
  | prepare | callQueue => mqd = .opened ∧ closed = false
  | notCreated | setScheduler | sleep | testRun | callWork | defaultWork | inQueue | exited => True

/-- The invariant of the runs that are `Ordered`. -/
structure Inv (s : State) : Prop where
  owner : s.owner.Outline s.obj.mqd s.closed
  worker : s.worker.Outline s.obj.mqd s.closed
  clean : Clean s

theorem inv_start (memory : Object) : Inv (start memory) where
  owner := ⟨rfl, rfl⟩
  worker := trivial
  clean := ⟨by simp [start], by simp [start]⟩

section
variable {role : Role} {id : ℕ} {s s' : State} {a : Act} {answer : Bool} {mqd : Mqd}
  {closed : Bool} {w : WorkerPc}

@[simp] theorem setIds_mqd (role : Role) (id : ℕ) (o : Object) :
    (role.setIds id o).mqd = o.mqd := by
  cases role <;> rfl

@[simp] theorem prepare_mqd (role : Role) (o : Object) : (role.prepare o).mqd = o.mqd := by
  cases role <;> rfl

/-- The outline of a worker outside `work()` says nothing, so it survives every step of the
owner. -/
theorem outline_of_not_inWork (h : w.inWork = false) : w.Outline mqd closed := by
  cases w with
  | testMqd => cases h
  | prepare => cases h
  | callQueue => cases h
  | _ => trivial

/-- While `m_mqd` is unassigned the worker is outside `work()`. -/
theorem not_inWork_of_unassigned (h : w.Outline .unassigned closed) : w.inWork = false := by
  cases w with
  | testMqd =>
      rcases h with h | ⟨h, -⟩
      · cases h
      · cases h
  | prepare => cases h.1
  | callQueue => cases h.1
  | _ => rfl

/-- Opening the queue costs a worker that has still to test `m_mqd` nothing. -/
theorem outline_open (h : w.Outline .invalid closed) (hc : closed = false) (answer : Bool) :
    w.Outline (if answer then .opened else .invalid) closed := by
  cases w with
  | testMqd =>
      cases answer with
      | true => exact Or.inr ⟨rfl, hc⟩
      | false => exact Or.inl rfl
  | prepare => cases h.1
  | callQueue => cases h.1
  | _ => trivial

/-- Closing the queue is harmless to a worker that will not use it. -/
theorem outline_close (h : w.Outline mqd closed) (hw : mqd = .opened → w.inWork = false) :
    w.Outline mqd true := by
  cases hm : w.inWork with
  | false => exact outline_of_not_inWork hm
  | true =>
      have hne : mqd ≠ .opened := fun he => by rw [hw he] at hm; cases hm
      cases w with
      | testMqd =>
          rcases h with h | ⟨h, -⟩
          · exact Or.inl h
          · exact absurd h hne
      | prepare => exact absurd h.1 hne
      | callQueue => exact absurd h.1 hne
      | _ => trivial

theorem clean_of_eq (h : Clean s) (hr : s'.reads = s.reads) (hc : s'.calls = s.calls) :
    Clean s' := ⟨by rw [hr]; exact h.reads, by rw [hc]; exact h.calls⟩

/-! ### Steps keep the invariant -/

theorem inv_ownerStep (hI : Inv s) (hO : Ordered s (.owner answer))
    (hs : ownerStep role id s answer = some s') : Inv s' := by
  obtain ⟨ho, hw, hcl⟩ := hI
  unfold ownerStep at hs
  cases hpc : s.owner with
  | allocated | threadCreated | mqdOpened | mqdClosed | derivedLeft =>
      rw [hpc] at ho hs
      cases hs
      exact ⟨ho, hw, clean_of_eq hcl rfl rfl⟩
  | fieldsSet =>
      rw [hpc] at ho hs
      cases hs
      exact ⟨ho, trivial, clean_of_eq hcl rfl rfl⟩
  | derivedEntered =>
      rw [hpc] at ho hs
      cases hs
      rw [ho.1] at hw
      refine ⟨⟨rfl, ho.2⟩, ?_, clean_of_eq hcl rfl rfl⟩
      exact outline_of_not_inWork (not_inWork_of_unassigned hw)
  | mqdInitialised =>
      rw [hpc] at ho hs
      cases hs
      refine ⟨?_, ?_, clean_of_eq hcl rfl rfl⟩
      · simpa [OwnerPc.Outline] using ho
      · simpa using hw
  | idsSet =>
      rw [hpc] at ho hs
      cases hs
      rw [ho.1] at hw
      refine ⟨⟨?_, ho.2⟩, outline_open hw ho.2 answer, clean_of_eq hcl rfl rfl⟩
      cases answer with
      | true => exact fun h => nomatch h
      | false => exact fun h => nomatch h
  | constructed =>
      rw [hpc] at ho hs
      cases hs
      exact ⟨ho.1, outline_close hw (hO hpc), clean_of_eq hcl rfl rfl⟩
  | runCleared =>
      rw [hpc] at ho hs
      dsimp only at hs
      split at hs
      · cases hs
        exact ⟨ho, hw, clean_of_eq hcl rfl rfl⟩
      · cases hs
  | joined =>
      rw [hpc] at hs
      cases hs

theorem inv_workerStep (hI : Inv s) (hO : Ordered s (.worker answer))
    (hs : workerStep role s answer = some s') : Inv s' := by
  obtain ⟨ho, hw, hcl⟩ := hI
  unfold workerStep at hs
  cases hpc : s.worker with
  | notCreated | exited =>
      rw [hpc] at hs
      cases hs
  | setScheduler | sleep | defaultWork | inQueue =>
      rw [hpc] at hs
      cases hs
      exact ⟨ho, trivial, clean_of_eq hcl rfl rfl⟩
  | testRun =>
      rw [hpc] at hs
      cases hs
      refine ⟨ho, outline_of_not_inWork ?_, clean_of_eq hcl rfl rfl⟩
      cases s.obj.run with
      | true => rfl
      | false => rfl
  | callWork =>
      rw [hpc] at hs
      dsimp only at hs
      cases hv : s.obj.vptr with
      | scheduledObject =>
          rw [hv] at hs
          cases hs
          exact ⟨ho, trivial, clean_of_eq hcl rfl rfl⟩
      | derived =>
          rw [hv] at hs
          cases hs
          exact ⟨ho, hO hpc hv, clean_of_eq hcl rfl rfl⟩
  | testMqd =>
      rw [hpc] at hw hs
      cases hs
      rcases hw with hm | ⟨hm, hc⟩
      · refine ⟨ho, ?_, List.forall_mem_cons.mpr ⟨?_, hcl.reads⟩, hcl.calls⟩
        · simp only [hm, Mqd.isInvalid, if_true]
          trivial
        · rw [hm]; decide
      · refine ⟨ho, ?_, List.forall_mem_cons.mpr ⟨?_, hcl.reads⟩, hcl.calls⟩
        · simp only [hm, Mqd.isInvalid, Bool.false_eq_true, if_false]
          exact ⟨rfl, hc⟩
        · rw [hm]; decide
  | prepare =>
      rw [hpc] at hw hs
      cases hs
      refine ⟨?_, ?_, clean_of_eq hcl rfl rfl⟩
      · simpa using ho
      · simpa [WorkerPc.Outline] using hw
  | callQueue =>
      rw [hpc] at hw hs
      cases hs
      refine ⟨ho, trivial, List.forall_mem_cons.mpr ⟨?_, hcl.reads⟩,
        List.forall_mem_cons.mpr ⟨hw.2, hcl.calls⟩⟩
      rw [hw.1]; decide

theorem inv_step (hI : Inv s) (hO : Ordered s a) (hs : step role id s a = some s') : Inv s' := by
  cases a with
  | owner answer => exact inv_ownerStep hI hO hs
  | worker answer => exact inv_workerStep hI hO hs

theorem inv_of_orderedRun (h : (system role id).ReachableBy Ordered s) : Inv s := by
  apply h.invariant
  · rintro s ⟨memory, rfl⟩
    exact inv_start memory
  · intro s a s' _ hI hO hs
    exact inv_step hI hO hs

/-! ### What a step outside the condition leads to -/

/-- The call that the worker is about to make finds the queue closed. -/
theorem unclean_of_callQueue (hw : s.worker = .callQueue) (hc : s.closed = true) :
    (system role id).CanReach (fun s => ¬ Clean s) s := by
  have hs : workerStep role s true = some { s with
      worker := .inQueue
      reads := s.obj.mqd :: s.reads
      calls := ⟨role.queueFunction, s.closed⟩ :: s.calls } := by
    simp only [workerStep, hw]
  apply Lts.CanReach.of_step (l := .worker true) hs
  apply Lts.CanReach.now
  intro h
  have h' := h.calls ⟨role.queueFunction, s.closed⟩ List.mem_cons_self
  rw [hc] at h'
  cases h'

theorem unclean_of_prepare (hw : s.worker = .prepare) (hc : s.closed = true) :
    (system role id).CanReach (fun s => ¬ Clean s) s := by
  have hs : workerStep role s true =
      some { s with worker := .callQueue, obj := role.prepare s.obj } := by
    simp only [workerStep, hw]
  apply Lts.CanReach.of_step (l := .worker true) hs
  exact unclean_of_callQueue rfl hc

theorem unclean_of_testMqd (hw : s.worker = .testMqd) (hm : s.obj.mqd = .opened)
    (hc : s.closed = true) : (system role id).CanReach (fun s => ¬ Clean s) s := by
  have hs : workerStep role s true =
      some { s with worker := .prepare, reads := s.obj.mqd :: s.reads } := by
    simp only [workerStep, hw, hm, Mqd.isInvalid, Bool.false_eq_true, if_false]
  apply Lts.CanReach.of_step (l := .worker true) hs
  exact unclean_of_prepare rfl hc

/-- A worker on its way through `work()` does not notice that the queue has been closed. -/
theorem unclean_of_closed (hw : s.worker.inWork = true) (hm : s.obj.mqd = .opened)
    (hc : s.closed = true) : (system role id).CanReach (fun s => ¬ Clean s) s := by
  cases hpc : s.worker with
  | testMqd => exact unclean_of_testMqd hpc hm hc
  | prepare => exact unclean_of_prepare hpc hc
  | callQueue => exact unclean_of_callQueue hpc hc
  | _ =>
      rw [hpc] at hw
      cases hw

theorem unclean_of_unassigned (hw : s.worker = .testMqd) (hm : s.obj.mqd = .unassigned) :
    (system role id).CanReach (fun s => ¬ Clean s) s := by
  have hs : workerStep role s true =
      some { s with worker := .testRun, reads := s.obj.mqd :: s.reads } := by
    simp only [workerStep, hw, hm, Mqd.isInvalid, if_true]
  apply Lts.CanReach.of_step (l := .worker true) hs
  apply Lts.CanReach.now
  intro h
  exact h.reads _ List.mem_cons_self hm

theorem unclean_of_not_ordered (hs : step role id s a = some s') (hO : ¬ Ordered s a) :
    (system role id).CanReach (fun s => ¬ Clean s) s' := by
  cases a with
  | owner answer =>
      obtain ⟨ho, hm, hw⟩ : s.owner = .constructed ∧ s.obj.mqd = .opened ∧
          ¬ s.worker.inWork = false := by
        simpa only [Ordered, Classical.not_imp] using hO
      rw [step, ownerStep, ho] at hs
      cases hs
      exact unclean_of_closed (eq_true_of_ne_false hw) hm rfl
  | worker answer =>
      obtain ⟨hw, hv, hm⟩ : s.worker = .callWork ∧ s.obj.vptr = .derived ∧
          ¬ (s.obj.mqd = .invalid ∨ s.obj.mqd = .opened ∧ s.closed = false) := by
        simpa only [Ordered, Classical.not_imp] using hO
      rw [step, workerStep, hw] at hs
      dsimp only at hs
      rw [hv] at hs
      cases hs
      cases hq : s.obj.mqd with
      | unassigned => exact unclean_of_unassigned rfl hq
      | invalid => exact absurd (Or.inl hq) hm
      | opened =>
          have hc : s.closed = true :=
            eq_true_of_ne_false fun hc => hm (Or.inr ⟨hq, hc⟩)
          exact unclean_of_testMqd rfl hq hc

end

/-- **Main result.**  In a run whose steps are all `Ordered`, `work()` never reads `m_mqd` before
it is assigned and never uses it after it is closed; and a step that is not `Ordered` leads to a
state from which the worker, left alone, does one or the other. -/
theorem mqd_discipline (role : Role) (id : ℕ) :
    (∀ s, (system role id).ReachableBy Ordered s → Clean s) ∧
      ∀ s a s', (system role id).Reachable s → (system role id).step s a = some s' →
        ¬ Ordered s a → (system role id).CanReach (fun s => ¬ Clean s) s' :=
  ⟨fun _ h => (inv_of_orderedRun h).clean, fun _ _ _ _ hs hO => unclean_of_not_ordered hs hO⟩

/-- An object in memory that was never used. -/
def zeroMemory : Object where
  run := false
  vptr := .scheduledObject
  mqd := .unassigned
  nextItemId := 0
  count := 0

/-- The worker starts and wakes up while the owner enters the derived constructor, and runs the
derived `work()` before `m_mqd` has its first value. -/
def earlyRead : List Act :=
  [.owner true, .owner true, .worker true, .worker true, .owner true, .worker true, .worker true,
    .worker true]

/-- The worker of a complete producer has tested `m_mqd` when the owner starts to destroy the
object; it calls `mq_timedsend` on what the destructor has closed. -/
def lateCall : List Act :=
  [.owner true, .owner true, .owner true, .owner true, .owner true, .owner true, .owner true,
    .worker true, .worker true, .worker true, .worker true, .worker true, .worker true,
    .owner true, .worker true]

theorem mqd_misused :
    (∃ s, (system .producer 1).exec (start zeroMemory) earlyRead = some s ∧
      .unassigned ∈ s.reads) ∧
      (∃ s, (system .producer 1).exec (start zeroMemory) lateCall = some s ∧
        ⟨.mqTimedsend, true⟩ ∈ s.calls) ∧
      ¬ ∀ s, (system .producer 1).Reachable s → Clean s := by
  have hearly : ∃ s, (system .producer 1).exec (start zeroMemory) earlyRead = some s ∧
      .unassigned ∈ s.reads := ⟨_, rfl, by decide⟩
  refine ⟨hearly, ⟨_, rfl, by decide⟩, ?_⟩
  obtain ⟨s, he, hr⟩ := hearly
  intro h
  have hreach : (system .producer 1).Reachable s :=
    Lts.Reachable.exec (Lts.Reachable.of_init ⟨zeroMemory, rfl⟩) he
  exact (h s hreach).reads _ hr rfl

end LinuxProgramming.MessageQueue
