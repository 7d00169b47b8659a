import LinuxProgramming.Lts
import LinuxProgramming.KernelNames
import LinuxProgramming.Simulation.Names

/-! # Attaching to the shared memory

The processes of `Chapter14/SharedMemory/Sim`.  For each id a parent makes a segment under the
name of the id, constructs the queue in it, forks a producer and a consumer, waits for both,
reports, and unlinks the name.  Each child opens the name without `O_CREAT`, runs, and unlinks
the name as well; nothing orders the end of one child after the beginning of the other.

* **Steps.**  Every process goes from one program point to the next in any interleaving; how
  long a child runs is up to the interleaving.  Forks, `execl` and mappings succeed.
* **Names.**  The names may be bound to segments of earlier simulations at the start.

`attachment` says when both children attach to the segment of their parent: exactly as long as
no child unlinks the name before the other one has opened it. -/

namespace LinuxProgramming.SharedMemory.Attachment

open Simulation

/-- `SHARED_MEM_NAME_PATTERN`. -/
def sharedMemName (id : ℕ) : List Char := nameOf "PC_SHM_NAME_".toList id

/-- What the parent does next. -/
inductive ParentPc where
  | create
  | forkProducer
  | forkConsumer
  | waitProducer
  | waitConsumer
  | report
  | unlink
  | exited
deriving DecidableEq

/-- What a child does next; `segment` is what it has mapped. -/
inductive ChildPc where
  | notForked
  | attach
  | run (segment : ℕ)
  | unlink (segment : ℕ)
  | exited (segment : ℕ)
  | failed
deriving DecidableEq

inductive Child where
  | producer
  | consumer
deriving DecidableEq

/-- The processes of one id; `segment` is what the parent has mapped and constructed the queue
in, and `reported` where its last `report()` has read. -/
structure Sim where
  parent : ParentPc
  child : Child → ChildPc
  segment : Option ℕ
  reported : Option ℕ

structure State where
  names : KernelNames (List Char)
  sim : ℕ → Sim

inductive Act where
  | parent (id : ℕ)
  | child (id : ℕ) (c : Child)

/-- `waitpid` returns. -/
def ChildPc.over : ChildPc → Bool
  | exited _ => true
  | failed => true
  | _ => false

/-! ### Steps -/

def Sim.setChild (sim : Sim) (c : Child) (pc : ChildPc) : Sim :=
  { sim with child := Function.update sim.child c pc }

/-- `main` of `ProducerConsumerSim`. -/
def parentStep (names : KernelNames (List Char)) (id : ℕ) (sim : Sim) :
    Option (KernelNames (List Char) × Sim) :=
  match sim.parent with
  | .create =>
      some ((names.openCreate (sharedMemName id)).2, { sim with
        parent := .forkProducer
        segment := some (names.openCreate (sharedMemName id)).1 })
  | .forkProducer =>
      some (names, { sim.setChild .producer .attach with parent := .forkConsumer })
  | .forkConsumer =>
      some (names, { sim.setChild .consumer .attach with parent := .waitProducer })
  | .waitProducer =>
      if (sim.child .producer).over then some (names, { sim with parent := .waitConsumer })
      else none
  | .waitConsumer =>
      if (sim.child .consumer).over then some (names, { sim with parent := .report })
      else none
  | .report => some (names, { sim with parent := .unlink, reported := sim.segment })
  | .unlink => some (names.unlink (sharedMemName id), { sim with parent := .exited })
  | .exited => none

/-- `main` of `ProducerSim` and of `ConsumerSim`, which make the name out of their argument. -/
def childStep (names : KernelNames (List Char)) (id : ℕ) :
    ChildPc → Option (KernelNames (List Char) × ChildPc)
  | .attach =>
      match names.bound (sharedMemName (atoi (itoa id 10))) with
      | some segment => some (names, .run segment)
      | none => some (names, .failed)
  | .run segment => some (names, .unlink segment)
  | .unlink segment => some (names.unlink (sharedMemName (atoi (itoa id 10))), .exited segment)
  | _ => none

def step (s : State) : Act → Option State
  | .parent id =>
      (parentStep s.names id (s.sim id)).map fun r =>
        { names := r.1, sim := Function.update s.sim id r.2 }
  | .child id c =>
      (childStep s.names id ((s.sim id).child c)).map fun r =>
        { names := r.1, sim := Function.update s.sim id ((s.sim id).setChild c r.2) }

/-- No simulation has begun. -/
def start (names : KernelNames (List Char)) : State where
  names := names
  sim _ := ⟨.create, fun _ => .notForked, none, none⟩

/-- Any number of simulations at once, each with its own id. -/
def system (names : KernelNames (List Char)) : Lts State Act where
  init s := s = start names
  step := step

/-! ### What is to hold -/

/-- What a child has mapped. -/
def ChildPc.mapped : ChildPc → Option ℕ
  | run segment => some segment
  | unlink segment => some segment
  | exited segment => some segment
  | _ => none

/-- The child has still to make its `shm_open`. -/
def ChildPc.unopened : ChildPc → Bool
  | notForked => true
  | attach => true
  | _ => false

/-- No child has failed to attach; children and reports see the segment in which their parent
has constructed its queue; and no two ids share a segment. -/
structure Attached (s : State) : Prop where
  opened : ∀ id c, (s.sim id).child c ≠ .failed
  mapped : ∀ id c segment, ((s.sim id).child c).mapped = some segment →
    (s.sim id).segment = some segment
  reported : ∀ id segment, (s.sim id).reported = some segment → (s.sim id).segment = some segment
  separate : ∀ id id' segment, (s.sim id).segment = some segment →
    (s.sim id').segment = some segment → id = id'

/-- A child unlinks the name only when the other one has opened it. -/
def Kept (s : State) (a : Act) : Prop :=
  ∀ id c segment, a = .child id c → (s.sim id).child c = .unlink segment →
    ∀ c', ((s.sim id).child c').unopened = false

/-! ### The invariant -/

/-- How far the children can be at a program point of the parent. -/
def ParentPc.Ok (child : Child → ChildPc) : ParentPc → Prop
  | create => ∀ c, child c = .notForked
  | forkProducer => ∀ c, child c = .notForked
  | forkConsumer => child .producer ≠ .notForked ∧ child .consumer = .notForked
  | waitProducer => ∀ c, child c ≠ .notForked
  | waitConsumer => (child .producer).over = true ∧ ∀ c, child c ≠ .notForked
  | _ => ∀ c, (child c).over = true

/-- One simulation, whose name is bound as given: the name stays bound to the parent's segment
until both children have opened it. -/
structure SimOk (bound : Option ℕ) (sim : Sim) : Prop where
  parent : sim.parent.Ok sim.child
  created : sim.segment = none ↔ sim.parent = .create
  bound : sim.parent ≠ .create → ∀ c, (sim.child c).unopened = true → bound = sim.segment
  opened : ∀ c, sim.child c ≠ .failed
  mapped : ∀ c segment, (sim.child c).mapped = some segment → sim.segment = some segment
  reported : ∀ segment, sim.reported = some segment → sim.segment = some segment

structure Inv (s : State) : Prop where
  sim : ∀ id, SimOk (s.names.bound (sharedMemName id)) (s.sim id)
  separate : ∀ id id' segment, (s.sim id).segment = some segment →
    (s.sim id').segment = some segment → id = id'
  owner : ∀ k segment id, s.names.bound k = some segment →
    (s.sim id).segment = some segment → k = sharedMemName id
  lt : ∀ id segment, (s.sim id).segment = some segment → segment < s.names.next

theorem sharedMemName_inj {id id' : ℕ} (h : sharedMemName id = sharedMemName id') : id = id' :=
  nameOf_inj h

theorem sharedMemName_child (id : ℕ) :
    sharedMemName (atoi (itoa id 10)) = sharedMemName id := nameOf_child _ id

section steps
variable {names names' : KernelNames (List Char)} {id : ℕ} {sim sim' : Sim}
  {bound bound' : Option ℕ} {c : Child} {pc : ChildPc}

@[simp] theorem setChild_self (c : Child) (pc : ChildPc) : (sim.setChild c pc).child c = pc :=
  Function.update_self _ _ _

theorem setChild_of_ne {c c' : Child} (h : c' ≠ c) (pc : ChildPc) :
    (sim.setChild c pc).child c' = sim.child c' := Function.update_of_ne h _ _

theorem opened_of_over (h : pc.over = true) : pc.unopened = false := by
  cases pc <;> cases h <;> rfl

/-! ### Steps of the parent -/

namespace SimOk

/-- The parent moves on. -/
theorem advance (h : SimOk bound sim) (hpc : sim.parent ≠ .create) {next : ParentPc}
    (hnext : next ≠ .create) (hok : next.Ok sim.child) :
    SimOk bound { sim with parent := next } where
  parent := hok
  created := by
    have hsegment := h.created.not.mpr hpc
    exact iff_of_false hsegment hnext
  bound := fun _ => h.bound hpc
  opened := h.opened
  mapped := h.mapped
  reported := h.reported

/-- Once both children have opened the name, its binding does not matter. -/
theorem rebind (h : SimOk bound sim) (hopened : ∀ c, (sim.child c).unopened = false) :
    SimOk bound' sim where
  parent := h.parent
  created := h.created
  bound := by
    intro _ c hc
    rw [hopened c] at hc
    cases hc
  opened := h.opened
  mapped := h.mapped
  reported := h.reported

/-- A child comes to another program point, and with it perhaps the parent that forks it. -/
theorem setChild (h : SimOk bound sim) {next : ParentPc}
    (hnext : next = .create ↔ sim.parent = .create)
    (hok : next.Ok (Function.update sim.child c pc))
    (hbound : pc.unopened = true → (sim.child c).unopened = true) (hopened : pc ≠ .failed)
    (hmapped : ∀ segment, pc.mapped = some segment → sim.segment = some segment) :
    SimOk bound { sim.setChild c pc with parent := next } where
  parent := hok
  created := h.created.trans hnext.symm
  bound := by
    intro hpc c' hc'
    have hpc' : sim.parent ≠ .create := fun hcreate => hpc (hnext.mpr hcreate)
    by_cases hc : c' = c
    · subst hc
      rw [setChild_self] at hc'
      exact h.bound hpc' c' (hbound hc')
    · rw [setChild_of_ne hc] at hc'
      exact h.bound hpc' c' hc'
  opened := by
    intro c'
    by_cases hc : c' = c
    · subst hc
      rw [setChild_self]
      exact hopened
    · rw [setChild_of_ne hc]
      exact h.opened c'
  mapped := by
    intro c' segment hm
    by_cases hc : c' = c
    · subst hc
      rw [setChild_self] at hm
      exact hmapped segment hm
    · rw [setChild_of_ne hc] at hm
      exact h.mapped c' segment hm
  reported := h.reported

theorem fork (h : SimOk bound sim) (hpc : sim.parent ≠ .create) (hc : sim.child c = .notForked)
    {next : ParentPc} (hnext : next ≠ .create)
    (hok : next.Ok (Function.update sim.child c .attach)) :
    SimOk bound { sim.setChild c .attach with parent := next } := by
  apply h.setChild (iff_of_false hnext hpc) hok
  · intro _
    rw [hc]
    rfl
  · decide
  · intro segment hm
    cases hm

theorem create (h : SimOk (names.bound (sharedMemName id)) sim) (hpc : sim.parent = .create) :
    SimOk ((names.openCreate (sharedMemName id)).2.bound (sharedMemName id)) { sim with
      parent := .forkProducer
      segment := some (names.openCreate (sharedMemName id)).1 } := by
  have hforked : ∀ c, sim.child c = .notForked := by
    have hparent := h.parent
    rw [hpc] at hparent
    exact hparent
  refine ⟨hforked, by simp, fun _ _ _ => KernelNames.openCreate_bound_self, h.opened, ?_, ?_⟩
  · intro c segment hm
    rw [hforked c] at hm
    cases hm
  · intro segment hr
    have hsome := h.reported segment hr
    rw [h.created.mpr hpc] at hsome
    cases hsome

theorem parentStep (h : SimOk (names.bound (sharedMemName id)) sim)
    (hs : Attachment.parentStep names id sim = some (names', sim')) :
    SimOk (names'.bound (sharedMemName id)) sim' := by
  have hparent := h.parent
  unfold Attachment.parentStep at hs
  cases hpc : sim.parent with
  | create =>
      simp only [hpc, Option.some.injEq, Prod.mk.injEq] at hs
      obtain ⟨rfl, rfl⟩ := hs
      exact h.create hpc
  | forkProducer =>
      rw [hpc] at hparent
      simp only [hpc, Option.some.injEq, Prod.mk.injEq] at hs
      obtain ⟨rfl, rfl⟩ := hs
      have hforked : ∀ c, sim.child c = .notForked := hparent
      apply h.fork (by rw [hpc]; decide) (hforked .producer) (by decide)
      refine ⟨by simp, ?_⟩
      rw [Function.update_of_ne (by decide), hforked]
  | forkConsumer =>
      rw [hpc] at hparent
      simp only [hpc, Option.some.injEq, Prod.mk.injEq] at hs
      obtain ⟨rfl, rfl⟩ := hs
      obtain ⟨hproducer, hconsumer⟩ := hparent
      apply h.fork (by rw [hpc]; decide) hconsumer (by decide)
      intro c
      cases c with
      | producer =>
          rw [Function.update_of_ne (by decide)]
          exact hproducer
      | consumer => simp
  | waitProducer =>
      rw [hpc] at hparent
      simp only [hpc] at hs
      split at hs
      · next hover =>
          simp only [Option.some.injEq, Prod.mk.injEq] at hs
          obtain ⟨rfl, rfl⟩ := hs
          exact h.advance (by rw [hpc]; decide) (by decide) ⟨hover, hparent⟩
      · cases hs
  | waitConsumer =>
      rw [hpc] at hparent
      simp only [hpc] at hs
      split at hs
      · next hover =>
          simp only [Option.some.injEq, Prod.mk.injEq] at hs
          obtain ⟨rfl, rfl⟩ := hs
          apply h.advance (by rw [hpc]; decide) (by decide)
          intro c
          cases c with
          | producer => exact hparent.1
          | consumer => exact hover
      · cases hs
  | report =>
      rw [hpc] at hparent
      simp only [hpc, Option.some.injEq, Prod.mk.injEq] at hs
      obtain ⟨rfl, rfl⟩ := hs
      have hnext : SimOk (names.bound (sharedMemName id)) { sim with parent := .unlink } :=
        h.advance (by rw [hpc]; decide) (by decide) hparent
      exact { hnext with reported := fun segment hr => hr }
  | unlink =>
      rw [hpc] at hparent
      simp only [hpc, Option.some.injEq, Prod.mk.injEq] at hs
      obtain ⟨rfl, rfl⟩ := hs
      have hover : ∀ c, (sim.child c).over = true := hparent
      have hnext : SimOk (names.bound (sharedMemName id)) { sim with parent := .exited } :=
        h.advance (by rw [hpc]; decide) (by decide) hparent
      exact hnext.rebind fun c => opened_of_over (hover c)
  | exited =>
      simp only [hpc] at hs
      cases hs

/-! ### Steps of a child -/

/-- The children move on their own, between their fork and their end. -/
theorem ok_update {p : ParentPc} {child : Child → ChildPc} (h : p.Ok child)
    (hforked : child c ≠ .notForked) (hover : (child c).over = false) (hpc : pc ≠ .notForked) :
    p.Ok (Function.update child c pc) := by
  have hother : ∀ c', child c' ≠ .notForked → Function.update child c pc c' ≠ .notForked := by
    intro c' hc'
    by_cases hcc : c' = c
    · subst hcc
      simpa using hpc
    · rwa [Function.update_of_ne hcc]
  cases p with
  | create | forkProducer => exact absurd (h c) hforked
  | forkConsumer =>
      obtain ⟨hproducer, hconsumer⟩ := h
      cases c with
      | producer => exact ⟨hother _ hproducer, by rwa [Function.update_of_ne (by decide)]⟩
      | consumer => exact absurd hconsumer hforked
  | waitProducer => exact fun c' => hother c' (h c')
  | waitConsumer =>
      obtain ⟨hproducer, hall⟩ := h
      cases c with
      | producer =>
          rw [hproducer] at hover
          cases hover
      | consumer =>
          exact ⟨by rwa [Function.update_of_ne (by decide)], fun c' => hother c' (hall c')⟩
  | report | unlink | exited =>
      have hall : (child c).over = true := h c
      rw [hall] at hover
      cases hover

theorem parent_ne_create (h : SimOk bound sim) (hforked : sim.child c ≠ .notForked) :
    sim.parent ≠ .create := by
  intro hpc
  have hparent := h.parent
  rw [hpc] at hparent
  exact hforked (hparent c)

/-- A child that is not yet through comes to a place where it has mapped the parent's segment. -/
theorem setMapped (h : SimOk bound sim) {segment : ℕ} (hsegment : sim.segment = some segment)
    (hforked : sim.child c ≠ .notForked) (hover : (sim.child c).over = false)
    (hmapped : pc.mapped = some segment) : SimOk bound (sim.setChild c pc) := by
  have hpc : pc.unopened = false ∧ pc ≠ .notForked ∧ pc ≠ .failed := by
    cases pc with
    | run | unlink | exited => exact ⟨rfl, nofun, nofun⟩
    | notForked | attach | failed => cases hmapped
  obtain ⟨hopened, hnotForked, hfailed⟩ := hpc
  apply h.setChild Iff.rfl (ok_update h.parent hforked hover hnotForked)
  · intro hu
    rw [hopened] at hu
    cases hu
  · exact hfailed
  · intro segment' hm
    rw [hsegment, ← hmapped, hm]

theorem childStep (h : SimOk (names.bound (sharedMemName id)) sim)
    (hs : Attachment.childStep names id (sim.child c) = some (names', pc))
    (hkept : ∀ segment, sim.child c = .unlink segment → ∀ c', (sim.child c').unopened = false) :
    SimOk (names'.bound (sharedMemName id)) (sim.setChild c pc) := by
  unfold Attachment.childStep at hs
  rw [sharedMemName_child] at hs
  cases hpc : sim.child c with
  | notForked | exited | failed =>
      rw [hpc] at hs
      cases hs
  | attach =>
      rw [hpc] at hs
      have hcreate := h.parent_ne_create (c := c) (by rw [hpc]; decide)
      have hbound := h.bound hcreate c (by rw [hpc]; rfl)
      obtain ⟨segment, hsegment⟩ : ∃ segment, sim.segment = some segment :=
        Option.ne_none_iff_exists'.mp fun hnone => hcreate (h.created.mp hnone)
      rw [hbound, hsegment] at hs
      cases hs
      exact h.setMapped hsegment (by rw [hpc]; decide) (by rw [hpc]; rfl) rfl
  | run segment =>
      rw [hpc] at hs
      cases hs
      have hsegment := h.mapped c segment (by rw [hpc]; rfl)
      exact h.setMapped hsegment (by rw [hpc]; nofun) (by rw [hpc]; rfl) rfl
  | unlink segment =>
      rw [hpc] at hs
      cases hs
      have hsegment := h.mapped c segment (by rw [hpc]; rfl)
      have hnext : SimOk (names.bound (sharedMemName id)) (sim.setChild c (.exited segment)) :=
        h.setMapped hsegment (by rw [hpc]; nofun) (by rw [hpc]; rfl) rfl
      apply hnext.rebind
      intro c'
      by_cases hc : c' = c
      · subst hc
        simp [ChildPc.unopened]
      · have hopened := hkept segment hpc c'
        rw [← setChild_of_ne hc (.exited segment)] at hopened
        exact hopened

end SimOk

/-! ### All simulations at once -/

/-- What a step of one simulation does to the names. -/
structure Moved (id : ℕ) (names names' : KernelNames (List Char)) (sim sim' : Sim) : Prop where
  other : ∀ k ≠ sharedMemName id, names'.bound k = names.bound k
  next_le : names.next ≤ names'.next
  segment : sim'.segment = sim.segment ∧
      (∀ o, names'.bound (sharedMemName id) = some o → names.bound (sharedMemName id) = some o) ∨
    sim.segment = none ∧ sim'.segment = some (names.openCreate (sharedMemName id)).1 ∧
      names' = (names.openCreate (sharedMemName id)).2

theorem moved_of_unlink (hsegment : sim'.segment = sim.segment) :
    Moved id names (names.unlink (sharedMemName id)) sim sim' where
  other k hk := KernelNames.unlink_bound_of_ne hk
  next_le := Nat.le_refl _
  segment := by
    refine .inl ⟨hsegment, fun o ho => ?_⟩
    rw [KernelNames.unlink_bound_self] at ho
    cases ho

theorem moved_of_segment (hsegment : sim'.segment = sim.segment) : Moved id names names sim sim' :=
  ⟨fun _ _ => rfl, Nat.le_refl _, .inl ⟨hsegment, fun _ ho => ho⟩⟩

theorem moved_parentStep (h : SimOk bound sim)
    (hs : parentStep names id sim = some (names', sim')) : Moved id names names' sim sim' := by
  unfold parentStep at hs
  split at hs
  · next hpc =>
      cases hs
      exact ⟨fun k hk => KernelNames.openCreate_bound_of_ne hk, KernelNames.next_le_openCreate,
        .inr ⟨h.created.mpr hpc, rfl, rfl⟩⟩
  · cases hs
    exact moved_of_segment rfl
  · cases hs
    exact moved_of_segment rfl
  · split at hs
    · cases hs
      exact moved_of_segment rfl
    · cases hs
  · split at hs
    · cases hs
      exact moved_of_segment rfl
    · cases hs
  · cases hs
    exact moved_of_segment rfl
  · cases hs
    exact moved_of_unlink rfl
  · cases hs

theorem moved_childStep (hs : childStep names id (sim.child c) = some (names', pc)) :
    Moved id names names' sim (sim.setChild c pc) := by
  unfold childStep at hs
  rw [sharedMemName_child] at hs
  split at hs
  · split at hs
    · cases hs
      exact moved_of_segment rfl
    · cases hs
      exact moved_of_segment rfl
  · cases hs
    exact moved_of_segment rfl
  · cases hs
    exact moved_of_unlink rfl
  · cases hs

/-- A segment that a simulation opens or makes belongs to no other one. -/
theorem Inv.openCreate_new {s : State} (h : Inv s) {id id' : ℕ} (hne : id' ≠ id) :
    (s.sim id').segment ≠ some (s.names.openCreate (sharedMemName id)).1 := by
  intro hsegment
  rcases KernelNames.openCreate_cases s.names (sharedMemName id) with
    ⟨o, hb, ho⟩ | ⟨-, ho⟩
  · rw [ho] at hsegment
    exact hne (sharedMemName_inj (h.owner _ _ _ hb hsegment)).symm
  · rw [ho] at hsegment
    exact Nat.lt_irrefl _ (h.lt _ _ hsegment)

/-- The other simulations do not see the names change. -/
theorem Inv.sim_move {s : State} (h : Inv s) {id : ℕ} {names' : KernelNames (List Char)}
    {sim' : Sim} (hsim : SimOk (names'.bound (sharedMemName id)) sim')
    (hother : ∀ k ≠ sharedMemName id, names'.bound k = s.names.bound k) (id' : ℕ) :
    SimOk (names'.bound (sharedMemName id')) (Function.update s.sim id sim' id') := by
  by_cases hid : id' = id
  · subst hid
    rw [Function.update_self]
    exact hsim
  · rw [Function.update_of_ne hid, hother _ fun hname => hid (sharedMemName_inj hname)]
    exact h.sim id'

/-- One simulation moves and keeps its segment. -/
theorem Inv.move_of_keep {s : State} (h : Inv s) {id : ℕ} {names' : KernelNames (List Char)}
    {sim' : Sim} (hsim : SimOk (names'.bound (sharedMemName id)) sim')
    (hm : Moved id s.names names' (s.sim id) sim') (hsegment : sim'.segment = (s.sim id).segment)
    (hbound : ∀ o, names'.bound (sharedMemName id) = some o →
      s.names.bound (sharedMemName id) = some o) :
    Inv { names := names', sim := Function.update s.sim id sim' } := by
  have hsame : ∀ id', (Function.update s.sim id sim' id').segment = (s.sim id').segment := by
    intro id'
    by_cases hid : id' = id
    · subst hid
      rw [Function.update_self, hsegment]
    · rw [Function.update_of_ne hid]
  refine ⟨h.sim_move hsim hm.other, ?_, ?_, ?_⟩
  · intro id₁ id₂ segment h₁ h₂
    rw [hsame] at h₁ h₂
    exact h.separate _ _ _ h₁ h₂
  · intro k segment id' hk hs
    rw [hsame] at hs
    apply h.owner k segment id' _ hs
    by_cases hname : k = sharedMemName id
    · subst hname
      exact hbound _ hk
    · rw [← hm.other k hname]
      exact hk
  · intro id' segment hs
    rw [hsame] at hs
    exact Nat.lt_of_lt_of_le (h.lt _ _ hs) hm.next_le

/-- One simulation opens or makes its segment. -/
theorem Inv.move_of_openCreate {s : State} (h : Inv s) {id : ℕ} {sim' : Sim}
    (hsim : SimOk ((s.names.openCreate (sharedMemName id)).2.bound (sharedMemName id)) sim')
    (hm : Moved id s.names (s.names.openCreate (sharedMemName id)).2 (s.sim id) sim')
    (hsegment : sim'.segment = some (s.names.openCreate (sharedMemName id)).1) :
    Inv { names := (s.names.openCreate (sharedMemName id)).2
          sim := Function.update s.sim id sim' } := by
  -- a segment is the new one, of this simulation, or an old one, of another
  have hcases : ∀ id' segment, (Function.update s.sim id sim' id').segment = some segment →
      id' = id ∧ segment = (s.names.openCreate (sharedMemName id)).1 ∨
      id' ≠ id ∧ (s.sim id').segment = some segment ∧
        segment ≠ (s.names.openCreate (sharedMemName id)).1 := by
    intro id' segment hs
    by_cases hid : id' = id
    · subst hid
      rw [Function.update_self, hsegment] at hs
      exact .inl ⟨rfl, (Option.some.inj hs).symm⟩
    · rw [Function.update_of_ne hid] at hs
      exact .inr ⟨hid, hs, fun hnew => h.openCreate_new hid (hnew ▸ hs)⟩
  refine ⟨h.sim_move hsim hm.other, ?_, ?_, ?_⟩
  · intro id₁ id₂ segment h₁ h₂
    rcases hcases _ _ h₁ with ⟨rfl, rfl⟩ | ⟨-, hs₁, hne₁⟩
    · rcases hcases _ _ h₂ with ⟨rfl, -⟩ | ⟨-, -, hne₂⟩
      · rfl
      · exact absurd rfl hne₂
    · rcases hcases _ _ h₂ with ⟨rfl, rfl⟩ | ⟨-, hs₂, -⟩
      · exact absurd rfl hne₁
      · exact h.separate _ _ _ hs₁ hs₂
  · intro k segment id' hk hs
    rcases hcases _ _ hs with ⟨rfl, rfl⟩ | ⟨-, hs', hne⟩
    · exact (s.names.openCreate _).2.bound_inj _ _ _ hk KernelNames.openCreate_bound_self
    · by_cases hname : k = sharedMemName id
      · subst hname
        have hself : (s.names.openCreate (sharedMemName id)).2.bound (sharedMemName id) =
            some (s.names.openCreate (sharedMemName id)).1 := KernelNames.openCreate_bound_self
        exact absurd (Option.some.inj (hk.symm.trans hself)) hne
      · rw [hm.other k hname] at hk
        exact h.owner k segment id' hk hs'
  · intro id' segment hs
    rcases hcases _ _ hs with ⟨rfl, rfl⟩ | ⟨-, hs', -⟩
    · exact KernelNames.openCreate_lt
    · exact Nat.lt_of_lt_of_le (h.lt _ _ hs') hm.next_le

/-- One simulation moves, the others stand still. -/
theorem Inv.move {s : State} (h : Inv s) {id : ℕ} {names' : KernelNames (List Char)} {sim' : Sim}
    (hsim : SimOk (names'.bound (sharedMemName id)) sim')
    (hm : Moved id s.names names' (s.sim id) sim') :
    Inv { names := names', sim := Function.update s.sim id sim' } := by
  rcases hm.segment with ⟨hsegment, hbound⟩ | ⟨-, hsegment, rfl⟩
  · exact h.move_of_keep hsim hm hsegment hbound
  · exact h.move_of_openCreate hsim hm hsegment

theorem Inv.start (names : KernelNames (List Char)) : Inv (Attachment.start names) where
  sim := by
    intro id
    refine ⟨fun _ => rfl, iff_of_true rfl rfl, fun h => absurd rfl h, by simp [Attachment.start],
      ?_, ?_⟩
    · intro c segment hm
      cases hm
    · intro segment hr
      cases hr
  separate := by
    intro id id' segment hs
    cases hs
  owner := by
    intro k segment id hk hs
    cases hs
  lt := by
    intro id segment hs
    cases hs

/-- **Step lemma.** -/
theorem Inv.step {s s' : State} (h : Inv s) {a : Act} (hk : Kept s a)
    (hs : Attachment.step s a = some s') : Inv s' := by
  cases a with
  | parent id =>
      obtain ⟨⟨names', sim'⟩, hr, rfl⟩ := Option.map_eq_some_iff.mp hs
      exact h.move ((h.sim id).parentStep hr) (moved_parentStep (h.sim id) hr)
  | child id c =>
      obtain ⟨⟨names', pc⟩, hr, rfl⟩ := Option.map_eq_some_iff.mp hs
      exact h.move ((h.sim id).childStep hr fun segment hc => hk id c segment rfl hc)
        (moved_childStep hr)

end steps

theorem inv_of_kept {names : KernelNames (List Char)} {s : State}
    (h : (system names).ReachableBy Kept s) : Inv s := by
  apply h.invariant
  · rintro s rfl
    exact Inv.start names
  · intro s a s' _ hI hk hs
    exact hI.step hk hs

theorem Inv.attached {s : State} (h : Inv s) : Attached s where
  opened id c := (h.sim id).opened c
  mapped id c segment := (h.sim id).mapped c segment
  reported id segment := (h.sim id).reported segment
  separate := h.separate

/-! ### A name that goes too early -/

/-- A child that has still to open a name that is gone fails. -/
theorem unattached_of_gone {names : KernelNames (List Char)} {s : State} {id : ℕ} {c : Child}
    (hname : s.names.bound (sharedMemName id) = none) (hc : (s.sim id).child c = .attach) :
    (system names).CanReach (fun s => ¬ Attached s) s := by
  have hstep : (system names).step s (.child id c) = some
      { names := s.names, sim := Function.update s.sim id ((s.sim id).setChild c .failed) } := by
    simp [system, step, hc, childStep, sharedMemName_child, hname]
  apply Lts.CanReach.of_step hstep
  apply Lts.CanReach.now
  intro hattached
  apply hattached.opened id c
  simp

/-- While one child runs and the other is not forked, the parent is about to fork the consumer. -/
theorem forkConsumer_of_notForked {bound : Option ℕ} {sim : Sim} (h : SimOk bound sim)
    {c c' : Child} (hc : sim.child c ≠ .notForked) (hc' : sim.child c' = .notForked) :
    sim.parent = .forkConsumer ∧ c' = .consumer := by
  have hparent := h.parent
  cases hpc : sim.parent with
  | create | forkProducer =>
      rw [hpc] at hparent
      exact absurd (hparent c) hc
  | forkConsumer =>
      rw [hpc] at hparent
      cases c' with
      | producer => exact absurd hc' hparent.1
      | consumer => exact ⟨rfl, rfl⟩
  | waitProducer =>
      rw [hpc] at hparent
      exact absurd hc' (hparent c')
  | waitConsumer =>
      rw [hpc] at hparent
      exact absurd hc' (hparent.2 c')
  | report | unlink | exited =>
      rw [hpc] at hparent
      have hover : (sim.child c').over = true := hparent c'
      rw [hc'] at hover
      cases hover

/-- **Converse.**  If a child unlinks the name before the other one has opened it, some
continuation of the run has the other one fail. -/
theorem unattached_of_not_kept {names : KernelNames (List Char)} {s s' : State} {a : Act}
    (hI : Inv s) (hs : step s a = some s') (hk : ¬ Kept s a) :
    (system names).CanReach (fun s => ¬ Attached s) s' := by
  unfold Kept at hk
  push Not at hk
  obtain ⟨id, c, segment, rfl, hc, c', hc'⟩ := hk
  have hne : c' ≠ c := by
    rintro rfl
    rw [hc] at hc'
    exact hc' rfl
  simp only [step, hc, childStep, sharedMemName_child, Option.map_some, Option.some.injEq] at hs
  subst hs
  cases hpc : (s.sim id).child c' with
  | attach =>
      apply unattached_of_gone (c := c') KernelNames.unlink_bound_self
      simp only [Function.update_self, setChild_of_ne hne, hpc]
  | notForked =>
      obtain ⟨hparent, rfl⟩ :=
        forkConsumer_of_notForked (hI.sim id) (c := c) (by rw [hc]; simp) hpc
      have hfork : (system names).step
          { names := s.names.unlink (sharedMemName id)
            sim := Function.update s.sim id ((s.sim id).setChild c (.exited segment)) }
          (.parent id) = some
          { names := s.names.unlink (sharedMemName id)
            sim := Function.update s.sim id { ((s.sim id).setChild c (.exited segment)).setChild
              .consumer .attach with parent := .waitProducer } } := by
        simp [system, step, parentStep, Sim.setChild, hparent]
      apply Lts.CanReach.of_step hfork
      apply unattached_of_gone (c := .consumer) KernelNames.unlink_bound_self
      simp
  | run | unlink | exited | failed =>
      rw [hpc] at hc'
      exact absurd rfl hc'

/-- **Attachment.**  In every run in which no child unlinks the name before the other one has
opened it, both children of every simulation attach to the segment of their parent, whatever
names were bound at the start; any other `shm_unlink` of a child leads to a run in which the
other one does not. -/
theorem attachment (names : KernelNames (List Char)) :
    (∀ s, (system names).ReachableBy Kept s → Attached s) ∧
    ∀ s a s', (system names).ReachableBy Kept s → step s a = some s' → ¬ Kept s a →
      (system names).CanReach (fun s => ¬ Attached s) s' :=
  ⟨fun _ h => (inv_of_kept h).attached,
    fun _ _ _ h hs hk => unattached_of_not_kept (inv_of_kept h) hs hk⟩

/-- The producer of simulation 0 is done before the consumer begins. -/
theorem consumerTooLate : ∃ s, (system .empty).exec (start .empty)
    [.parent 0, .parent 0, .parent 0, .child 0 .producer, .child 0 .producer,
      .child 0 .producer, .child 0 .consumer] = some s ∧
    (s.sim 0).child .producer = .exited 0 ∧ (s.sim 0).child .consumer = .failed ∧
    ¬ Attached s := by
  have hrun : ∃ s, (system .empty).exec (start .empty)
      [.parent 0, .parent 0, .parent 0, .child 0 .producer, .child 0 .producer,
        .child 0 .producer, .child 0 .consumer] = some s ∧
      (s.sim 0).child .producer = .exited 0 ∧ (s.sim 0).child .consumer = .failed :=
    ⟨_, rfl, rfl, rfl⟩
  obtain ⟨s, hs, hproducer, hconsumer⟩ := hrun
  exact ⟨s, hs, hproducer, hconsumer, fun h => h.opened 0 .consumer hconsumer⟩

end LinuxProgramming.SharedMemory.Attachment
