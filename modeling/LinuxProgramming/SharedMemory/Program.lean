import LinuxProgramming.SharedMemory.Line
import LinuxProgramming.SharedMemory.Processes

/-! # The shared-memory simulation as a whole

The processes of `Attachment` and, in the segment of each id, the pipeline of `Delivery`, for any
number of simulations at once and in any interleaving.

* A child that has mapped the segment makes its producer or its consumer.  The constructor of the
  base starts a thread, which sleeps for two seconds and then repeats `work()`; behind it the
  members of the object are stored (`construct`).  The child goes on to unlink the name when the
  thread has been joined, that is from the test of the thread's loop.
* A thread that wakes up before the constructor of its object is over calls `work()` on members
  that are not stored yet, and leaves the pipeline in any state (`stray`).  `AwakeInTime` is the
  condition that no thread does; `Inv` holds along the runs that meet it.
* `report()` prints the two counters of the queue once both children have been waited for.
* A child may be too late to attach; then it fails, and the other one runs on its own.
* Left out: what the `work()` of the base prints, which a thread calls when it looks the function
  up while the base is being destroyed.

`report_accounts` says what the numbers in the report mean, and `simulation_returns` that every
simulation gets to its end by its own steps, whatever the others do. -/

namespace LinuxProgramming.SharedMemory

open Attachment (Child ChildPc ParentPc sharedMemName)
open RingQueue (only)

/-! ### The calls of one pipeline -/

namespace Delivery

/-- The child in whose process a step is made. -/
def Act.party : Act → Child
  | .work _ => .producer
  | .push _ => .producer
  | .test => .producer
  | .receive => .consumer
  | .pop _ => .consumer
  | .consume => .consumer

/-- The thread of a child is at the test of its loop. -/
def State.atTest (s : State) : Child → Bool
  | .producer =>
      match s.producer.pc with
      | .outside => true
      | _ => false
  | .consumer =>
      match s.consumer with
      | .outside => true
      | _ => false

/-- The steps that are left of a call of `work()`. -/
def ProducerPc.due (push : RingQueue.PushPc Items.WorkItem) : ProducerPc → ℕ
  | .outside => 0
  | .pushing => if push.busy = 0 then 7 else push.left + 1
  | .returned _ => 1

def ConsumerPc.due (pop : RingQueue.PopPc Items.WorkItem) : ConsumerPc → ℕ
  | .outside => 0
  | .popping => if pop.busy = 0 then 7 else pop.left + 1
  | .popped _ => 1

def State.due (s : State) : ℕ :=
  s.producer.pc.due (s.ring.push only) + s.consumer.due (s.ring.pop only)

/-- A step that does not begin a call of `work()`. -/
def Act.Completing : Act → Prop
  | .work _ => False
  | .receive => False
  | _ => True

variable {id size : ℕ} {s s' : State} {a : Act} {c : Child}

theorem atTest_producer : s.atTest .producer = true ↔ s.producer.pc = .outside := by
  cases hpc : s.producer.pc <;> simp [State.atTest, hpc]

theorem atTest_consumer : s.atTest .consumer = true ↔ s.consumer = .outside := by
  cases hpc : s.consumer <;> simp [State.atTest, hpc]

theorem due_push {b : RingQueue.PushAct Unit} {ring : RingQueue.State Items.WorkItem 1 1}
    (hs : RingQueue.PushStep s.ring 0 (pushOf s.producer.savedWorkItem b) ring) :
    ring.pop = s.ring.pop ∧
    (afterPush b).due (ring.push 0) < ProducerPc.pushing.due (s.ring.push 0) := by
  cases b with
  | timeout | take | lock | reserve | unlock | copy | post =>
      cases hs
      have hi := ‹s.ring.push 0 = _›
      simp [ProducerPc.due, hi, afterPush, RingQueue.PushPc.left, RingQueue.PushPc.busy]

theorem due_pop {b : RingQueue.PopAct} {ring : RingQueue.State Items.WorkItem 1 1}
    (hs : RingQueue.PopStep s.ring 0 b ring) :
    ring.push = s.ring.push ∧
    (afterPop (s.ring.pop 0) b).due (ring.pop 0) < ConsumerPc.popping.due (s.ring.pop 0) := by
  cases b with
  | timeout | take | lock | claim | unlock | copy | post =>
      cases hs
      have hi := ‹s.ring.pop 0 = _›
      simp [ConsumerPc.due, hi, afterPop, RingQueue.PopPc.left, RingQueue.PopPc.busy]

/-- A step in a call is made by a thread that has left its test, and brings the call on. -/
theorem due_of_completing (ha : a.Completing) (hs : step s a = some s') :
    s.atTest a.party = false ∧ s'.due < s.due := by
  cases a with
  | work rand | receive => exact ha.elim
  | push b =>
      simp only [step] at hs
      split at hs
      · next hpc =>
          obtain ⟨ring, hring, rfl⟩ := Option.map_eq_some_iff.mp hs
          obtain ⟨hpop, hdue⟩ := due_push (RingQueue.pushStep_iff.mp hring)
          refine ⟨by simp only [Act.party, State.atTest, hpc], ?_⟩
          simp only [State.due, hpc, hpop]
          exact Nat.add_lt_add_right hdue _
      · cases hs
  | pop b =>
      simp only [step] at hs
      split at hs
      · next hpc =>
          obtain ⟨ring, hring, rfl⟩ := Option.map_eq_some_iff.mp hs
          obtain ⟨hpush, hdue⟩ := due_pop (RingQueue.popStep_iff.mp hring)
          refine ⟨by simp only [Act.party, State.atTest, hpc], ?_⟩
          simp only [State.due, hpc, hpush]
          exact Nat.add_lt_add_left hdue _
      · cases hs
  | test =>
      simp only [step] at hs
      split at hs
      · next hpc =>
          cases hs
          simp [Act.party, State.atTest, State.due, ProducerPc.due, hpc]
      · next hpc =>
          cases hs
          simp [Act.party, State.atTest, State.due, ProducerPc.due, hpc]
      · cases hs
  | consume =>
      simp only [step] at hs
      split at hs
      · next item hpc =>
          cases hs
          simp [Act.party, State.atTest, State.due, ConsumerPc.due, hpc]
      · cases hs

/-- A thread stays where it is while the other one moves. -/
theorem atTest_frame (hs : step s a = some s') (hc : c ≠ a.party) : s'.atTest c = s.atTest c := by
  cases a with
  | work rand =>
      simp only [step] at hs
      split at hs
      · split at hs <;>
        · cases hs
          cases c with
          | producer => exact absurd rfl hc
          | consumer => rfl
      · cases hs
  | push b =>
      simp only [step] at hs
      split at hs
      · obtain ⟨ring, -, rfl⟩ := Option.map_eq_some_iff.mp hs
        cases c with
        | producer => exact absurd rfl hc
        | consumer => rfl
      · cases hs
  | pop b =>
      simp only [step] at hs
      split at hs
      · obtain ⟨ring, -, rfl⟩ := Option.map_eq_some_iff.mp hs
        cases c with
        | producer => rfl
        | consumer => exact absurd rfl hc
      · cases hs
  | test =>
      simp only [step] at hs
      split at hs <;> cases hs <;>
      · cases c with
        | producer => exact absurd rfl hc
        | consumer => rfl
  | receive | consume =>
      simp only [step] at hs
      split at hs <;> cases hs
      cases c with
      | producer => rfl
      | consumer => exact absurd rfl hc

/-- While a thread is in a call of `work()`, a call can be brought on. -/
theorem call_moves (h : Inv id size s) (hc : s.atTest c = false) :
    ∃ a s', a.Completing ∧ step s a = some s' := by
  by_cases hidle : RingQueue.Idle s.ring
  · cases c with
    | producer =>
        cases hpc : s.producer.pc with
        | outside =>
            rw [atTest_producer.mpr hpc] at hc
            cases hc
        | pushing =>
            exact ⟨.push (.timeout ()), _, trivial, by
              simp only [step, hpc, pushOf, RingQueue.pushStep, hidle.1 0]; rfl⟩
        | returned ok =>
            cases ok with
            | true => exact ⟨.test, _, trivial, by simp only [step, hpc]; rfl⟩
            | false => exact ⟨.test, _, trivial, by simp only [step, hpc]; rfl⟩
    | consumer =>
        cases hpc : s.consumer with
        | outside =>
            rw [atTest_consumer.mpr hpc] at hc
            cases hc
        | popping =>
            exact ⟨.pop .timeout, _, trivial, by
              simp only [step, hpc, RingQueue.popStep, hidle.2 0]; rfl⟩
        | popped item => exact ⟨.consume, _, trivial, by simp only [step, hpc]; rfl⟩
  · obtain ⟨a, s', ha, hs⟩ := ring_moves h hidle
    refine ⟨a, s', ?_, hs⟩
    rcases ha with ⟨b, rfl, -⟩ | ⟨b, rfl, -⟩ <;> trivial

end Delivery

/-! ### The program -/

namespace Program

/-- The processes, the pipeline in the segment of each id, and what `report()` has printed. -/
structure State where
  procs : Attachment.State
  /-- the constructor of the child's producer or consumer is over -/
  built : ℕ → Child → Bool
  pipe : ℕ → Delivery.State
  printed : ℕ → Option (BitVec 32 × BitVec 32)

inductive Act where
  | parent (id : ℕ)
  | child (id : ℕ) (c : Child)
  | construct (id : ℕ) (c : Child)
  | work (id : ℕ) (a : Delivery.Act)
  /-- with the pipeline as it is left -/
  | stray (id : ℕ) (c : Child) (left : Delivery.State)

/-- The child has mapped the segment, and has not left the block of its producer or consumer. -/
def running : ChildPc → Bool
  | .run _ => true
  | _ => false

/-- What `report()` prints. -/
def counters (p : Delivery.State) : BitVec 32 × BitVec 32 :=
  (p.ring.q.pushedCount, p.ring.q.poppedCount)

/-- What has been printed after a step of a parent. -/
def State.report (s : State) (id : ℕ) : ℕ → Option (BitVec 32 × BitVec 32) :=
  if (s.procs.sim id).parent = .report then
    Function.update s.printed id (some (counters (s.pipe id)))
  else s.printed

def step (s : State) : Act → Option State
  | .parent id =>
      (Attachment.step s.procs (.parent id)).map fun procs =>
        { s with procs := procs, printed := s.report id }
  | .child id c =>
      -- `pthread_join` in the destructor of the producer or the consumer
      if running ((s.procs.sim id).child c) && !(s.built id c && (s.pipe id).atTest c) then none
      else (Attachment.step s.procs (.child id c)).map fun procs => { s with procs := procs }
  | .construct id c =>
      if running ((s.procs.sim id).child c) && !s.built id c then
        some { s with built := Function.update s.built id (Function.update (s.built id) c true) }
      else none
  | .work id a =>
      if running ((s.procs.sim id).child a.party) && s.built id a.party then
        (Delivery.step (s.pipe id) a).map fun p => { s with pipe := Function.update s.pipe id p }
      else none
  | .stray id c left =>
      if running ((s.procs.sim id).child c) && !s.built id c then
        some { s with pipe := Function.update s.pipe id left }
      else none

/-- No thread leaves its `sleep(2)` before the constructor of its object is over. -/
def AwakeInTime (_ : State) : Act → Prop
  | .stray _ _ _ => False
  | _ => True

/-- No simulation has begun; `raw` and `uninit` will be in the memory of the queues and producers. -/
def start (names : KernelNames (List Char)) (size : ℕ) (raw : ℕ → ℤ → Items.WorkItem)
    (uninit : ℕ → Items.WorkItem) : State where
  procs := Attachment.start names
  built _ _ := false
  pipe id := Delivery.start id size (raw id) (uninit id)
  printed _ := none

/-- Any number of simulations with queues of the given size. -/
def system (names : KernelNames (List Char)) (size : ℕ) : Lts State Act where
  init s := ∃ raw uninit, s = start names size raw uninit
  step := step

/-- The simulation that makes a step. -/
def Act.simulation : Act → ℕ
  | .parent id => id
  | .child id _ => id
  | .construct id _ => id
  | .work id _ => id
  | .stray id _ _ => id

variable {names : KernelNames (List Char)} {size : ℕ} {s s' : State} {id : ℕ} {c : Child}

/-! ### The steps -/

inductive Step (s : State) : Act → State → Prop
  | parent (id : ℕ) (procs : Attachment.State)
      (h : Attachment.step s.procs (.parent id) = some procs) :
      Step s (.parent id) { s with procs := procs, printed := s.report id }
  | child (id : ℕ) (c : Child) (procs : Attachment.State)
      (hjoin : running ((s.procs.sim id).child c) = true →
        s.built id c = true ∧ (s.pipe id).atTest c = true)
      (h : Attachment.step s.procs (.child id c) = some procs) :
      Step s (.child id c) { s with procs := procs }
  | construct (id : ℕ) (c : Child) (hrun : running ((s.procs.sim id).child c) = true)
      (hbuilt : s.built id c = false) :
      Step s (.construct id c)
        { s with built := Function.update s.built id (Function.update (s.built id) c true) }
  | work (id : ℕ) (a : Delivery.Act) (p : Delivery.State)
      (hrun : running ((s.procs.sim id).child a.party) = true)
      (hbuilt : s.built id a.party = true) (h : Delivery.step (s.pipe id) a = some p) :
      Step s (.work id a) { s with pipe := Function.update s.pipe id p }
  | stray (id : ℕ) (c : Child) (left : Delivery.State)
      (hrun : running ((s.procs.sim id).child c) = true) (hbuilt : s.built id c = false) :
      Step s (.stray id c left) { s with pipe := Function.update s.pipe id left }

theorem step_iff {a : Act} : step s a = some s' ↔ Step s a s' := by
  constructor
  · intro hs
    cases a with
    | parent id =>
        obtain ⟨procs, hprocs, rfl⟩ := Option.map_eq_some_iff.mp hs
        exact .parent id procs hprocs
    | child id c =>
        simp only [step] at hs
        split at hs
        · cases hs
        · next hjoin =>
            obtain ⟨procs, hprocs, rfl⟩ := Option.map_eq_some_iff.mp hs
            exact .child id c procs (by simpa using hjoin) hprocs
    | construct id c =>
        obtain ⟨hguard, hs⟩ := Option.ite_none_right_eq_some.mp hs
        cases hs
        rw [Bool.and_eq_true, Bool.not_eq_true'] at hguard
        exact .construct id c hguard.1 hguard.2
    | work id a =>
        obtain ⟨hguard, hs⟩ := Option.ite_none_right_eq_some.mp hs
        obtain ⟨p, hp, rfl⟩ := Option.map_eq_some_iff.mp hs
        rw [Bool.and_eq_true] at hguard
        exact .work id a p hguard.1 hguard.2 hp
    | stray id c left =>
        obtain ⟨hguard, hs⟩ := Option.ite_none_right_eq_some.mp hs
        cases hs
        rw [Bool.and_eq_true, Bool.not_eq_true'] at hguard
        exact .stray id c left hguard.1 hguard.2
  · intro hs
    cases hs with
    | parent id procs h => simp [step, h]
    | child id c procs hjoin h =>
        have hguard : (running ((s.procs.sim id).child c) &&
            !(s.built id c && (s.pipe id).atTest c)) = false := by
          simpa using hjoin
        simp only [step, hguard, h, Bool.false_eq_true, if_false, Option.map_some]
    | construct id c hrun hbuilt => simp [step, hrun, hbuilt]
    | work id a p hrun hbuilt h => simp [step, hrun, hbuilt, h]
    | stray id c left hrun hbuilt => simp [step, hrun, hbuilt]

/-! ### The invariant -/

/-- A thread that is in a call of `work()` runs on an object that has been made, and what has been
printed has not changed. -/
structure Inv (names : KernelNames (List Char)) (size : ℕ) (s : State) : Prop where
  procs : Attachment.Waited names s.procs
  pipe : ∀ id, (Delivery.system id size).Reachable (s.pipe id)
  calls : ∀ id c, (s.pipe id).atTest c = false →
    running ((s.procs.sim id).child c) = true ∧ s.built id c = true
  printed : ∀ id r, s.printed id = some r → r = counters (s.pipe id) ∧
    ∀ c, ((s.procs.sim id).child c).over = true
  reported : ∀ id, (s.procs.sim id).parent = .unlink ∨ (s.procs.sim id).parent = .exited →
    (s.printed id).isSome

theorem Inv.start (raw : ℕ → ℤ → Items.WorkItem) (uninit : ℕ → Items.WorkItem) :
    Inv names size (Program.start names size raw uninit) where
  procs := .start
  pipe := fun id => .of_init ⟨raw id, uninit id, rfl⟩
  calls := by
    intro id c htest
    cases c <;> cases htest
  printed := by
    intro id r hr
    cases hr
  reported := by
    intro id hpc
    rcases hpc with hpc | hpc <;> cases hpc

theorem report_self : s.report id id =
    if (s.procs.sim id).parent = .report then some (counters (s.pipe id)) else s.printed id := by
  unfold State.report
  split
  · exact Function.update_self _ _ _
  · rfl

theorem report_of_ne {id' : ℕ} (hid : id' ≠ id) : s.report id id' = s.printed id' := by
  unfold State.report
  split
  · exact Function.update_of_ne hid _ _
  · rfl

theorem not_running_of_over {pc : ChildPc} (h : pc.over = true) : running pc = false := by
  cases pc <;> cases h <;> rfl

/-- A parent that moves leaves its children over. -/
theorem over_of_parentMove {sim sim' : Attachment.Sim} (h : Attachment.ParentMove sim sim')
    (hok : sim.parent.Ok sim.child) (hover : ∀ c, (sim.child c).over = true) (c : Child) :
    (sim'.child c).over = true := by
  rcases h.child_cases hok c with hsame | ⟨hforked, -⟩
  · rw [hsame]
    exact hover c
  · have hc := hover c
    rw [hforked] at hc
    cases hc

theorem Inv.parent (h : Inv names size s) {procs : Attachment.State}
    (hs : Attachment.step s.procs (.parent id) = some procs) :
    Inv names size { s with procs := procs, printed := s.report id } := by
  have hwaited := h.procs.step hs
  obtain ⟨names', sim', rfl, hmove⟩ := Attachment.parentMove_of_step hs
  have hok := h.procs.parent id
  refine ⟨hwaited, h.pipe, fun id' c htest => ?_, fun id' r hr => ?_, fun id' hpc => ?_⟩
  · obtain ⟨hrun, hbuilt⟩ := h.calls id' c htest
    refine ⟨?_, hbuilt⟩
    by_cases hid : id' = id
    · subst hid
      simp only [Function.update_self]
      rcases hmove.child_cases hok c with hsame | ⟨hforked, -⟩
      · rwa [hsame]
      · rw [hforked] at hrun
        cases hrun
    · simpa only [Function.update_of_ne hid] using hrun
  · by_cases hid : id' = id
    · subst hid
      simp only [Function.update_self, report_self] at hr ⊢
      split at hr
      · next hreport =>
          cases hr
          rw [hreport] at hok
          exact ⟨rfl, over_of_parentMove hmove (hreport ▸ hok) hok⟩
      · obtain ⟨heq, hover⟩ := h.printed id' r hr
        exact ⟨heq, over_of_parentMove hmove hok hover⟩
    · simp only [Function.update_of_ne hid, report_of_ne hid] at hr ⊢
      exact h.printed id' r hr
  · by_cases hid : id' = id
    · subst hid
      simp only [Function.update_self, report_self] at hpc ⊢
      cases hmove with
      | report hold =>
          rw [if_pos hold]
          rfl
      | unlink hold =>
          rw [if_neg (by simp [hold])]
          exact h.reported id' (.inl hold)
      | create | forkProducer | forkConsumer | waitProducer | waitConsumer =>
          rcases hpc with hpc | hpc <;> cases hpc
    · simp only [Function.update_of_ne hid, report_of_ne hid] at hpc ⊢
      exact h.reported id' hpc

theorem Inv.child (h : Inv names size s)
    (hjoin : running ((s.procs.sim id).child c) = true →
      s.built id c = true ∧ (s.pipe id).atTest c = true)
    {procs : Attachment.State} (hs : Attachment.step s.procs (.child id c) = some procs) :
    Inv names size { s with procs := procs } := by
  have hwaited := h.procs.step hs
  obtain ⟨names', pc, rfl, hmove⟩ := Attachment.childMove_of_step hs
  have hlive : ((s.procs.sim id).child c).over = false := by
    generalize (s.procs.sim id).child c = old at hmove
    cases hmove <;> rfl
  refine ⟨hwaited, h.pipe, fun id' c' htest => ?_, fun id' r hr => ?_, fun id' hpc => ?_⟩
  · obtain ⟨hrun, hbuilt⟩ := h.calls id' c' htest
    refine ⟨?_, hbuilt⟩
    by_cases hid : id' = id
    · subst hid
      simp only [Function.update_self]
      by_cases hc : c' = c
      · subst hc
        rw [(hjoin hrun).2] at htest
        cases htest
      · rwa [Attachment.setChild_of_ne hc]
    · simpa only [Function.update_of_ne hid] using hrun
  · obtain ⟨heq, hover⟩ := h.printed id' r hr
    by_cases hid : id' = id
    · subst hid
      rw [hover c] at hlive
      cases hlive
    · exact ⟨heq, by simpa only [Function.update_of_ne hid] using hover⟩
  · apply h.reported id'
    by_cases hid : id' = id
    · subst hid
      simp only [Function.update_self] at hpc
      exact hpc
    · simpa only [Function.update_of_ne hid] using hpc

theorem Inv.construct (h : Inv names size s) :
    Inv names size
      { s with built := Function.update s.built id (Function.update (s.built id) c true) } := by
  refine ⟨h.procs, h.pipe, fun id' c' htest => ?_, h.printed, h.reported⟩
  obtain ⟨hrun, hbuilt⟩ := h.calls id' c' htest
  refine ⟨hrun, ?_⟩
  by_cases hid : id' = id
  · subst hid
    simp only [Function.update_self]
    by_cases hc : c' = c
    · rw [hc, Function.update_self]
    · rwa [Function.update_of_ne hc]
  · simpa only [Function.update_of_ne hid] using hbuilt

theorem Inv.work (h : Inv names size s) {a : Delivery.Act}
    (hrun : running ((s.procs.sim id).child a.party) = true)
    (hbuilt : s.built id a.party = true) {p : Delivery.State}
    (hs : Delivery.step (s.pipe id) a = some p) :
    Inv names size { s with pipe := Function.update s.pipe id p } := by
  refine ⟨h.procs, fun id' => ?_, fun id' c htest => ?_, fun id' r hr => ?_, h.reported⟩
  · by_cases hid : id' = id
    · subst hid
      simpa only [Function.update_self] using (h.pipe id').next hs
    · simpa only [Function.update_of_ne hid] using h.pipe id'
  · by_cases hid : id' = id
    · subst hid
      by_cases hc : c = a.party
      · rw [hc]
        exact ⟨hrun, hbuilt⟩
      · simp only [Function.update_self, Delivery.atTest_frame hs hc] at htest
        exact h.calls id' c htest
    · simp only [Function.update_of_ne hid] at htest
      exact h.calls id' c htest
  · obtain ⟨heq, hover⟩ := h.printed id' r hr
    by_cases hid : id' = id
    · -- a child whose thread runs is not over
      subst hid
      rw [not_running_of_over (hover a.party)] at hrun
      cases hrun
    · exact ⟨by simpa only [Function.update_of_ne hid] using heq, hover⟩

theorem Inv.step (h : Inv names size s) {a : Act} (ha : AwakeInTime s a) (hs : Step s a s') :
    Inv names size s' := by
  cases hs with
  | parent id procs hs => exact h.parent hs
  | child id c procs hjoin hs => exact h.child hjoin hs
  | construct => exact h.construct
  | work id a p hrun hbuilt hs => exact h.work hrun hbuilt hs
  | stray => exact ha.elim

theorem reachable_inv (h : (system names size).ReachableBy AwakeInTime s) : Inv names size s := by
  apply h.invariant
  · rintro s ⟨raw, uninit, rfl⟩
    exact .start raw uninit
  · intro s a s' _ hI ha hs
    exact hI.step ha (step_iff.mp hs)

/-! ### What is reported -/

/-- The items that the ring has been given and has given back, between calls. -/
theorem counters_eq {p : Delivery.State} (h : (Delivery.system id size).Reachable p)
    (htest : ∀ c, p.atTest c = true) :
    (Delivery.queued p.ring.q).length ≤ size ∧
    p.cooked = p.consumed ++ Delivery.queued p.ring.q ++
      (if p.producer.validSavedWorkItem then [p.producer.savedWorkItem] else []) ∧
    counters p = (BitVec.ofNat 32 (p.consumed.length + (Delivery.queued p.ring.q).length),
      BitVec.ofNat 32 p.consumed.length) := by
  have hI := Delivery.reachable_inv h
  have hproducer := Delivery.atTest_producer.mp (htest .producer)
  have hconsumer := Delivery.atTest_consumer.mp (htest .consumer)
  have hpush : p.ring.push 0 = .idle := by simpa [Delivery.Producer.Ok, hproducer] using hI.producer
  have hpop : p.ring.pop 0 = .idle := by simpa [Delivery.ConsumerPc.Ok, hconsumer] using hI.consumer
  have hcooked := Delivery.cooked_eq h
  have hqueued := Delivery.queued_eq hI.ring hpush hpop
  have hring := RingQueue.reachable_inv hI.ring
  have hfifo := RingQueue.reachable_fifoInv hI.ring
  have hflight := RingQueue.pushSem_add_inFlight hI.ring
  rw [hqueued]
  refine ⟨by omega, ?_, ?_⟩
  · rw [hcooked, hconsumer, Delivery.pending, hproducer]
    simp [Delivery.ConsumerPc.inHand]
  · have hitems : p.ring.hist.items.length =
        p.consumed.length + (RingQueue.inFlight p.ring).length := by
      have haccepted := RingQueue.accepted_eq hI.ring
      rw [RingQueue.accepted, hpush, hI.consumed, hconsumer] at haccepted
      simpa [RingQueue.PushPc.inHand, Delivery.ConsumerPc.inHand] using
        congrArg List.length haccepted
    have hclaims : p.ring.hist.claims = p.consumed.length := by
      have hcard := hring.popTickets.card
      have hfreed := hfifo.freed
      rw [hI.consumed, hconsumer] at hfreed
      simp only [Delivery.ConsumerPc.inHand, List.append_nil] at hfreed
      simp only [tally, Finset.univ_unique, Fin.default_eq_zero, Finset.sum_singleton, hpop,
        RingQueue.PopPc.pos, holding_none] at hcard
      omega
    unfold counters
    rw [hring.pushed, hring.popped, hitems, hclaims]

/-! ### The end -/

/-- A step that brings a simulation nearer to its end: any but the beginning of another call. -/
def Act.Ending : Act → Prop
  | .work _ a => a.Completing
  | .stray _ _ _ => False
  | _ => True

theorem Act.Ending.awakeInTime {a : Act} (ha : a.Ending) : AwakeInTime s a := by
  cases a with
  | stray => exact ha
  | _ => trivial

/-- The constructors that a simulation has left. -/
def unbuilt (built : Child → Bool) : ℕ :=
  (if built .producer then 0 else 1) + if built .consumer then 0 else 1

theorem unbuilt_update {built : Child → Bool} (hc : built c = false) :
    unbuilt (Function.update built c true) < unbuilt built := by
  cases c with
  | producer => simp [unbuilt, hc]
  | consumer => simp [unbuilt, hc]

/-- The steps that a simulation has left. -/
def State.left (s : State) (id : ℕ) : ℕ :=
  (s.procs.sim id).left + unbuilt (s.built id) + (s.pipe id).due

theorem left_of_ending (h : Inv names size s) {a : Act} (hs : Step s a s') (ha : a.Ending) :
    s'.left a.simulation < s.left a.simulation := by
  cases hs with
  | parent id procs hs =>
      obtain ⟨names', sim', rfl, hmove⟩ := Attachment.parentMove_of_step hs
      have hlt := hmove.left_lt (h.procs.parent id)
      simp only [State.left, Act.simulation, Function.update_self]
      omega
  | child id c procs hjoin hs =>
      obtain ⟨names', pc, rfl, hmove⟩ := Attachment.childMove_of_step hs
      have hlt := hmove.left_lt
      simp only [State.left, Act.simulation, Function.update_self]
      omega
  | construct id c hrun hbuilt =>
      have hlt := unbuilt_update hbuilt
      simp only [State.left, Act.simulation, Function.update_self]
      omega
  | work id a p hrun hbuilt hs =>
      have hlt := (Delivery.due_of_completing ha hs).2
      simp only [State.left, Act.simulation, Function.update_self]
      omega
  | stray => exact ha.elim

/-- The simulations do not touch one another. -/
theorem step_frame {a : Act} (hs : Step s a s') (hid : id ≠ a.simulation) :
    s'.procs.sim id = s.procs.sim id ∧ s'.built id = s.built id ∧ s'.pipe id = s.pipe id ∧
      s'.printed id = s.printed id := by
  cases hs with
  | parent id' procs hs =>
      obtain ⟨names', sim', rfl, -⟩ := Attachment.parentMove_of_step hs
      exact ⟨Function.update_of_ne hid _ _, rfl, rfl, report_of_ne hid⟩
  | child id' c procs hjoin hs =>
      obtain ⟨names', pc, rfl, -⟩ := Attachment.childMove_of_step hs
      exact ⟨Function.update_of_ne hid _ _, rfl, rfl, rfl⟩
  | construct => exact ⟨rfl, Function.update_of_ne hid _ _, rfl, rfl⟩
  | work | stray => exact ⟨rfl, rfl, Function.update_of_ne hid _ _, rfl⟩

/-- Until its parent has exited, a simulation can move. -/
theorem ending_moves (h : Inv names size s) (hpc : (s.procs.sim id).parent ≠ .exited) :
    ∃ a s', a.simulation = id ∧ a.Ending ∧ step s a = some s' := by
  by_cases htest : ∀ c, (s.pipe id).atTest c = true
  · rcases Attachment.parent_moves (h.procs.parent id) hpc with ⟨procs, hs⟩ | ⟨c, hforked, hover⟩
    · exact ⟨.parent id, _, rfl, trivial, step_iff.mpr (.parent id procs hs)⟩
    · by_cases hnew : running ((s.procs.sim id).child c) = true ∧ s.built id c = false
      · exact ⟨.construct id c, _, rfl, trivial, step_iff.mpr (.construct id c hnew.1 hnew.2)⟩
      · obtain ⟨procs, hs⟩ := Attachment.child_moves hforked hover
        have hjoin : running ((s.procs.sim id).child c) = true →
            s.built id c = true ∧ (s.pipe id).atTest c = true :=
          fun hrun => ⟨by simpa [hrun] using hnew, htest c⟩
        exact ⟨.child id c, _, rfl, trivial, step_iff.mpr (.child id c procs hjoin hs)⟩
  · obtain ⟨c, hc⟩ := not_forall.mp htest
    obtain ⟨a, p, ha, hs⟩ := Delivery.call_moves (Delivery.reachable_inv (h.pipe id))
      (Bool.eq_false_of_not_eq_true hc)
    obtain ⟨hrun, hbuilt⟩ := h.calls id a.party (Delivery.due_of_completing ha hs).1
    exact ⟨.work id a, _, rfl, ha, step_iff.mpr (.work id a p hrun hbuilt hs)⟩

/-- **The report.**  In every run of any simulations in which no thread wakes up before its
constructor is over, whether or not their children have attached: what a parent has printed are the
items its queue has been given and has given back when both children are over and between calls, so
nothing that was cooked is missing but at most the item that the producer had saved; a parent that
has exited has reported and has left no name behind; and every name in use was in use before or
belongs to a simulation that has not come to its end. -/
theorem report_accounts (h : (system names size).ReachableBy AwakeInTime s) :
    (∀ id r, s.printed id = some r →
      (∀ c, ((s.procs.sim id).child c).over = true ∧ (s.pipe id).atTest c = true) ∧
      (Delivery.queued (s.pipe id).ring.q).length ≤ size ∧
      (s.pipe id).cooked = (s.pipe id).consumed ++ Delivery.queued (s.pipe id).ring.q ++
        (if (s.pipe id).producer.validSavedWorkItem then [(s.pipe id).producer.savedWorkItem]
          else []) ∧
      r = (BitVec.ofNat 32
          ((s.pipe id).consumed.length + (Delivery.queued (s.pipe id).ring.q).length),
        BitVec.ofNat 32 (s.pipe id).consumed.length)) ∧
    (∀ id, (s.procs.sim id).parent = .exited →
      (s.printed id).isSome ∧ s.procs.names.bound (sharedMemName id) = none) ∧
    ∀ name segment, s.procs.names.bound name = some segment → names.bound name = some segment ∨
      ∃ id, name = sharedMemName id ∧ (s.procs.sim id).parent ≠ .create ∧
        (s.procs.sim id).parent ≠ .exited := by
  have hI := reachable_inv h
  refine ⟨fun id r hr => ?_, fun id hpc => ⟨hI.reported id (.inr hpc), hI.procs.gone id hpc⟩,
    hI.procs.bound⟩
  obtain ⟨rfl, hover⟩ := hI.printed id r hr
  have htest : ∀ c, (s.pipe id).atTest c = true := by
    intro c
    by_contra hc
    obtain ⟨hrun, -⟩ := hI.calls id c (Bool.eq_false_of_not_eq_true hc)
    exact absurd hrun (by simp [not_running_of_over (hover c)])
  obtain ⟨hsize, hcooked, hcounters⟩ := counters_eq (hI.pipe id) htest
  exact ⟨fun c => ⟨hover c, htest c⟩, hsize, hcooked, hcounters⟩

/-- One item is cooked and pushed before both children end. -/
def oneItem : List Act :=
  [.parent 7, .parent 7, .child 7 .producer, .construct 7 .producer, .work 7 (.work fun n => n),
   .work 7 (.push (.take ())), .work 7 (.push .lock), .work 7 (.push .reserve),
   .work 7 (.push .unlock), .work 7 (.push .copy), .work 7 (.push .post), .work 7 .test, .parent 7,
   .child 7 .consumer, .construct 7 .consumer, .child 7 .producer, .child 7 .consumer,
   .child 7 .consumer, .child 7 .producer, .parent 7, .parent 7, .parent 7]

theorem report_accounts_oneItem : ∃ s, (system .empty 1).exec
    (start .empty 1 (fun _ _ => ⟨0, fun _ => 'z'⟩) fun _ => ⟨0, fun _ => 'z'⟩) oneItem = some s ∧
    s.printed 7 = some (1, 0) ∧
    (1, 0) = (BitVec.ofNat 32
        ((s.pipe 7).consumed.length + (Delivery.queued (s.pipe 7).ring.q).length),
      BitVec.ofNat 32 (s.pipe 7).consumed.length) ∧
    (Delivery.queued (s.pipe 7).ring.q).length ≤ 1 := by
  have hrun : ∃ s, (system .empty 1).exec
      (start .empty 1 (fun _ _ => ⟨0, fun _ => 'z'⟩) fun _ => ⟨0, fun _ => 'z'⟩) oneItem = some s ∧
      s.printed 7 = some (1, 0) := ⟨_, rfl, rfl⟩
  obtain ⟨s, hs, hprinted⟩ := hrun
  have hawake : ∀ s, ∀ a ∈ oneItem, AwakeInTime s a := by simp [oneItem, AwakeInTime]
  obtain ⟨-, hsize, -, hcounters⟩ :=
    (report_accounts (Lts.ReachableBy.exec (.init ⟨_, _, rfl⟩) hawake hs)).1 7 _ hprinted
  exact ⟨s, hs, hprinted, hcounters, hsize⟩

/-- **The end of a simulation.**  In every run of any simulations in which no thread wakes up before
its constructor is over, and for each of them: until its parent has exited it can move, by a step
that does not begin another call of `work()`; between any such steps of the others it makes at most
as many of those steps as it has left; by its own steps alone it gets to its end; and no step of
another one changes anything of it. -/
theorem simulation_returns (h : (system names size).ReachableBy AwakeInTime s) (id : ℕ) :
    ((s.procs.sim id).parent = .exited ∨
      ∃ a s', a.simulation = id ∧ a.Ending ∧ step s a = some s') ∧
    (∀ acts s', (∀ a ∈ acts, AwakeInTime s a ∧ (a.simulation = id → a.Ending)) →
      (system names size).exec s acts = some s' →
      acts.countP (·.simulation = id) + s'.left id ≤ s.left id) ∧
    (∃ acts s', (∀ a ∈ acts, a.simulation = id ∧ a.Ending) ∧
      (system names size).exec s acts = some s' ∧ (s'.procs.sim id).parent = .exited) ∧
    ∀ a s', AwakeInTime s a → step s a = some s' → a.simulation ≠ id →
      s'.procs.sim id = s.procs.sim id ∧ s'.built id = s.built id ∧ s'.pipe id = s.pipe id ∧
        s'.printed id = s.printed id := by
  have hI := reachable_inv h
  refine ⟨?_, fun acts s' hacts he => ?_, ?_,
    fun a s' _ hs hid => step_frame (step_iff.mp hs) hid.symm⟩
  · by_cases hpc : (s.procs.sim id).parent = .exited
    · exact .inl hpc
    · exact .inr (ending_moves hI hpc)
  · refine Lts.countP_add_le (I := Inv names size)
      (φ := fun a => AwakeInTime s a ∧ (a.simulation = id → a.Ending)) (μ := fun s => s.left id)
      (fun s a s' hI ha hs => hI.step ha.1 (step_iff.mp hs))
      (fun s a s' hI hown ha hs => ?_) (fun s a s' hown hs => ?_) hI hacts he
    · have hid : a.simulation = id := of_decide_eq_true hown
      have hlt := left_of_ending hI (step_iff.mp hs) (ha.2 hid)
      rwa [hid] at hlt
    · obtain ⟨hsim, hbuilt, hpipe, -⟩ :=
        step_frame (step_iff.mp hs) (Ne.symm (of_decide_eq_false hown))
      simp only [State.left, hsim, hbuilt, hpipe, le_refl]
  · obtain ⟨acts, s', he, halong, hblocked⟩ := Lts.exists_blocked (M := system names size)
      (φ := fun _ a => a.simulation = id ∧ a.Ending) (μ := fun s => s.left id)
      (fun s a s' hI ha hs => hI.step ha.2.awakeInTime (step_iff.mp hs))
      (fun s a s' hI ha hs => ha.1 ▸ left_of_ending hI (step_iff.mp hs) ha.2) _ s hI rfl
    have hacts := halong.forall he
    refine ⟨acts, s', hacts, he, ?_⟩
    by_contra hpc
    have hs' := h.exec (fun _ a ha => (hacts a ha).2.awakeInTime) he
    obtain ⟨a, s'', hid, ha, hs⟩ := ending_moves (reachable_inv hs') hpc
    have hnone := hblocked a ⟨hid, ha⟩
    rw [show step s' a = none from hnone] at hs
    cases hs

/-- The producer of simulation 7 has attached, and its thread has been started, when its parent has
still to fork the consumer. -/
theorem simulation_returns_attached : ∃ s, (system .empty 1).exec
    (start .empty 1 (fun _ _ => ⟨0, fun _ => 'z'⟩) fun _ => ⟨0, fun _ => 'z'⟩)
    [.parent 7, .parent 7, .child 7 .producer] = some s ∧ s.left 7 = 12 ∧
    (step s (.stray 7 .producer (s.pipe 7))).isSome ∧
    ∃ acts s', (∀ a ∈ acts, a.simulation = 7 ∧ a.Ending) ∧
      (system .empty 1).exec s acts = some s' ∧ (s'.procs.sim 7).parent = .exited := by
  have hrun : ∃ s, (system .empty 1).exec
      (start .empty 1 (fun _ _ => ⟨0, fun _ => 'z'⟩) fun _ => ⟨0, fun _ => 'z'⟩)
      [.parent 7, .parent 7, .child 7 .producer] = some s ∧ s.left 7 = 12 ∧
      (step s (.stray 7 .producer (s.pipe 7))).isSome := ⟨_, rfl, rfl, rfl⟩
  obtain ⟨s, hs, hleft, hstray⟩ := hrun
  have hawake : ∀ s, ∀ a ∈ [Act.parent 7, .parent 7, .child 7 .producer], AwakeInTime s a := by
    simp [AwakeInTime]
  have hend := simulation_returns (Lts.ReachableBy.exec (.init ⟨_, _, rfl⟩) hawake hs) 7
  exact ⟨s, hs, hleft, hstray, hend.2.2.1⟩

end Program

end LinuxProgramming.SharedMemory
