import LinuxProgramming.SharedMemory.Attachment

/-! # The processes of the shared-memory simulations

What holds of the processes in every run, whether or not the children attach: a parent waits for
what it has forked (`Waited`), every process has only so many steps (`Sim.left`), and until its
parent has exited a simulation has a process that can move (`parent_moves`, `child_moves`). -/

namespace LinuxProgramming.SharedMemory.Attachment

variable {names : KernelNames (List Char)} {s s' : State} {id : ℕ} {c : Child}

/-- What holds of the processes in every run, whether or not the children attach: how far the
children can be, and which names are bound. -/
structure Waited (names : KernelNames (List Char)) (s : State) : Prop where
  parent : ∀ id, (s.sim id).parent.Ok (s.sim id).child
  gone : ∀ id, (s.sim id).parent = .exited → s.names.bound (sharedMemName id) = none
  bound : ∀ k o, s.names.bound k = some o → names.bound k = some o ∨
    ∃ id, k = sharedMemName id ∧ (s.sim id).parent ≠ .create ∧ (s.sim id).parent ≠ .exited

theorem Waited.start : Waited names (Attachment.start names) where
  parent := fun _ _ => rfl
  gone := by
    intro id hpc
    cases hpc
  bound := fun _ _ h => .inl h

/-- One simulation moves, and no name is bound in the step. -/
theorem Waited.move (h : Waited names s) {names' : KernelNames (List Char)} {sim : Sim}
    (hok : sim.parent.Ok sim.child)
    (hsub : ∀ k o, names'.bound k = some o → s.names.bound k = some o)
    (hgone : sim.parent = .exited → names'.bound (sharedMemName id) = none)
    (hbegun : (s.sim id).parent ≠ .create → sim.parent ≠ .create) :
    Waited names { names := names', sim := Function.update s.sim id sim } where
  parent := by
    intro id'
    by_cases hid : id' = id
    · subst hid
      simpa only [Function.update_self] using hok
    · simpa only [Function.update_of_ne hid] using h.parent id'
  gone := by
    intro id' hpc
    by_cases hid : id' = id
    · subst hid
      exact hgone (by simpa only [Function.update_self] using hpc)
    · have hnone := h.gone id' (by simpa only [Function.update_of_ne hid] using hpc)
      refine Option.eq_none_iff_forall_ne_some.mpr fun o hb => ?_
      rw [hsub _ o hb] at hnone
      cases hnone
  bound := by
    intro k o hb
    rcases h.bound k o (hsub k o hb) with hstart | ⟨id', rfl, hcreate, hexited⟩
    · exact .inl hstart
    · refine .inr ⟨id', rfl, ?_⟩
      by_cases hid : id' = id
      · subst hid
        simp only [Function.update_self]
        refine ⟨hbegun hcreate, fun hpc => ?_⟩
        rw [hgone hpc] at hb
        cases hb
      · simp only [Function.update_of_ne hid]
        exact ⟨hcreate, hexited⟩

theorem Waited.create (h : Waited names s) (hpc : (s.sim id).parent = .create) {sim : Sim}
    (hparent : sim.parent = .forkProducer) (hchild : sim.child = (s.sim id).child) :
    Waited names { names := (s.names.openCreate (sharedMemName id)).2
                   sim := Function.update s.sim id sim } where
  parent := by
    intro id'
    by_cases hid : id' = id
    · subst hid
      have hforked := h.parent id'
      rw [hpc] at hforked
      simp only [Function.update_self, hparent, hchild]
      exact hforked
    · simpa only [Function.update_of_ne hid] using h.parent id'
  gone := by
    intro id' hexited
    simp only at hexited
    by_cases hid : id' = id
    · rw [hid, Function.update_self, hparent] at hexited
      cases hexited
    · rw [Function.update_of_ne hid] at hexited
      exact (KernelNames.openCreate_bound_of_ne fun hk => hid (sharedMemName_inj hk)).trans
        (h.gone id' hexited)
  bound := by
    intro k o hb
    by_cases hk : k = sharedMemName id
    · exact .inr ⟨id, hk, by simp [hparent], by simp [hparent]⟩
    · simp only at hb
      rw [KernelNames.openCreate_bound_of_ne hk] at hb
      rcases h.bound k o hb with hstart | ⟨id', rfl, hid'⟩
      · exact .inl hstart
      · have hne : id' ≠ id := fun hid => hk (by rw [hid])
        exact .inr ⟨id', rfl, by simpa only [Function.update_of_ne hne] using hid'⟩

theorem bound_of_unlink {k k' : List Char} {o : ℕ} (hb : (s.names.unlink k).bound k' = some o) :
    s.names.bound k' = some o := by
  by_cases hk : k' = k
  · rw [hk, KernelNames.unlink_bound_self] at hb
    cases hb
  · rwa [KernelNames.unlink_bound_of_ne hk] at hb

theorem Waited.parentStep (h : Waited names s) (hs : step s (.parent id) = some s') :
    Waited names s' := by
  have hok := h.parent id
  simp only [step, Attachment.parentStep] at hs
  cases hpc : (s.sim id).parent with
  | create =>
      simp only [hpc] at hs
      cases hs
      exact h.create hpc rfl rfl
  | forkProducer =>
      simp only [hpc] at hok hs
      cases hs
      refine h.move ⟨?_, ?_⟩ (fun _ _ hb => hb) (by simp) (by simp)
      · simp [Sim.setChild]
      · simpa [Sim.setChild] using hok .consumer
  | forkConsumer =>
      simp only [hpc] at hok hs
      cases hs
      refine h.move ?_ (fun _ _ hb => hb) (by simp) (by simp)
      intro c
      cases c with
      | producer => simpa [Sim.setChild] using hok.1
      | consumer => simp [Sim.setChild]
  | waitProducer =>
      simp only [hpc] at hok hs
      split at hs
      · next hover =>
          cases hs
          exact h.move ⟨hover, hok⟩ (fun _ _ hb => hb) (by simp) (by simp)
      · cases hs
  | waitConsumer =>
      simp only [hpc] at hok hs
      split at hs
      · next hover =>
          cases hs
          refine h.move ?_ (fun _ _ hb => hb) (by simp) (by simp)
          intro c
          cases c with
          | producer => exact hok.1
          | consumer => exact hover
      · cases hs
  | report =>
      simp only [hpc] at hok hs
      cases hs
      exact h.move hok (fun _ _ hb => hb) (by simp) (by simp)
  | unlink =>
      simp only [hpc] at hok hs
      cases hs
      exact h.move hok (fun _ _ hb => bound_of_unlink hb)
        (fun _ => KernelNames.unlink_bound_self) (by simp)
  | exited =>
      simp only [hpc] at hs
      cases hs

/-- A child that moves has been forked and has not come to its end, and does not bind its name. -/
theorem childStep_cases {names' : KernelNames (List Char)} {pc pc' : ChildPc}
    (hs : childStep s.names id pc = some (names', pc')) :
    pc ≠ .notForked ∧ pc.over = false ∧ pc' ≠ .notForked ∧
    (∀ k o, names'.bound k = some o → s.names.bound k = some o) := by
  unfold childStep at hs
  split at hs
  · split at hs <;>
    · cases hs
      exact ⟨by simp, rfl, by simp, fun _ _ hb => hb⟩
  · cases hs
    exact ⟨by simp, rfl, by simp, fun _ _ hb => hb⟩
  · cases hs
    exact ⟨by simp, rfl, by simp, fun _ _ hb => bound_of_unlink hb⟩
  · cases hs

theorem Waited.childStep (h : Waited names s) (hs : step s (.child id c) = some s') :
    Waited names s' := by
  obtain ⟨⟨names', pc⟩, hchild, rfl⟩ := Option.map_eq_some_iff.mp hs
  obtain ⟨hforked, hover, hnotForked, hsub⟩ := childStep_cases hchild
  refine h.move (SimOk.ok_update (h.parent id) hforked hover hnotForked) hsub (fun hexited => ?_)
    (fun hbegun => hbegun)
  have hall := h.parent id
  simp only [Sim.setChild] at hexited
  rw [hexited] at hall
  rw [hall c] at hover
  cases hover

theorem Waited.step (h : Waited names s) {a : Act} (hs : Attachment.step s a = some s') :
    Waited names s' := by
  cases a with
  | parent id => exact h.parentStep hs
  | child id c => exact h.childStep hs

/-! ### Where a step leads -/

/-- A step of the parent, apart from the names. -/
inductive ParentMove (sim : Sim) : Sim → Prop
  | create (segment : Option ℕ) (hpc : sim.parent = .create) :
      ParentMove sim { sim with parent := .forkProducer, segment := segment }
  | forkProducer (hpc : sim.parent = .forkProducer) :
      ParentMove sim { sim.setChild .producer .attach with parent := .forkConsumer }
  | forkConsumer (hpc : sim.parent = .forkConsumer) :
      ParentMove sim { sim.setChild .consumer .attach with parent := .waitProducer }
  | waitProducer (hpc : sim.parent = .waitProducer) (hover : (sim.child .producer).over = true) :
      ParentMove sim { sim with parent := .waitConsumer }
  | waitConsumer (hpc : sim.parent = .waitConsumer) (hover : (sim.child .consumer).over = true) :
      ParentMove sim { sim with parent := .report }
  | report (hpc : sim.parent = .report) :
      ParentMove sim { sim with parent := .unlink, reported := sim.segment }
  | unlink (hpc : sim.parent = .unlink) : ParentMove sim { sim with parent := .exited }

inductive ChildMove : ChildPc → ChildPc → Prop
  | attach (segment : ℕ) : ChildMove .attach (.run segment)
  | fail : ChildMove .attach .failed
  | leave (segment : ℕ) : ChildMove (.run segment) (.unlink segment)
  | unlink (segment : ℕ) : ChildMove (.unlink segment) (.exited segment)

theorem parentMove_of_step (hs : step s (.parent id) = some s') : ∃ names' sim',
    s' = { names := names', sim := Function.update s.sim id sim' } ∧
    ParentMove (s.sim id) sim' := by
  obtain ⟨⟨names', sim'⟩, hparent, rfl⟩ := Option.map_eq_some_iff.mp hs
  refine ⟨names', sim', rfl, ?_⟩
  unfold Attachment.parentStep at hparent
  cases hpc : (s.sim id).parent with
  | create =>
      simp only [hpc] at hparent
      cases hparent
      exact .create _ hpc
  | forkProducer =>
      simp only [hpc] at hparent
      cases hparent
      exact .forkProducer hpc
  | forkConsumer =>
      simp only [hpc] at hparent
      cases hparent
      exact .forkConsumer hpc
  | waitProducer =>
      simp only [hpc] at hparent
      split at hparent
      · next hover =>
          cases hparent
          exact .waitProducer hpc hover
      · cases hparent
  | waitConsumer =>
      simp only [hpc] at hparent
      split at hparent
      · next hover =>
          cases hparent
          exact .waitConsumer hpc hover
      · cases hparent
  | report =>
      simp only [hpc] at hparent
      cases hparent
      exact .report hpc
  | unlink =>
      simp only [hpc] at hparent
      cases hparent
      exact .unlink hpc
  | exited =>
      simp only [hpc] at hparent
      cases hparent

theorem childMove_of_step (hs : step s (.child id c) = some s') : ∃ names' pc',
    s' = { names := names', sim := Function.update s.sim id ((s.sim id).setChild c pc') } ∧
    ChildMove ((s.sim id).child c) pc' := by
  obtain ⟨⟨names', pc'⟩, hchild, rfl⟩ := Option.map_eq_some_iff.mp hs
  refine ⟨names', pc', rfl, ?_⟩
  unfold childStep at hchild
  split at hchild
  · next hpc =>
      rw [hpc]
      split at hchild <;> cases hchild
      · exact .attach _
      · exact .fail
  · next segment hpc =>
      cases hchild
      rw [hpc]
      exact .leave segment
  · next segment hpc =>
      cases hchild
      rw [hpc]
      exact .unlink segment
  · cases hchild

/-- A step of the parent forks a child or leaves it alone. -/
theorem ParentMove.child_cases {sim sim' : Sim} (h : ParentMove sim sim')
    (hok : sim.parent.Ok sim.child) (c : Child) :
    sim'.child c = sim.child c ∨ sim.child c = .notForked ∧ sim'.child c = .attach := by
  cases h with
  | create | waitProducer | waitConsumer | report | unlink => exact .inl rfl
  | forkProducer hpc =>
      rw [hpc] at hok
      cases c with
      | producer => exact .inr ⟨hok .producer, by simp [Sim.setChild]⟩
      | consumer => exact .inl (by simp [Sim.setChild])
  | forkConsumer hpc =>
      rw [hpc] at hok
      cases c with
      | producer => exact .inl (by simp [Sim.setChild])
      | consumer => exact .inr ⟨hok.2, by simp [Sim.setChild]⟩

/-! ### The steps that are left -/

/-- The steps that the parent has left, and those of the children that it has not forked. -/
def ParentPc.left : ParentPc → ℕ
  | create => 13
  | forkProducer => 12
  | forkConsumer => 8
  | waitProducer => 4
  | waitConsumer => 3
  | report => 2
  | unlink => 1
  | exited => 0

def ChildPc.left : ChildPc → ℕ
  | attach => 3
  | run _ => 2
  | unlink _ => 1
  | _ => 0

def Sim.left (sim : Sim) : ℕ :=
  sim.parent.left + (sim.child .producer).left + (sim.child .consumer).left

theorem ParentMove.left_lt {sim sim' : Sim} (h : ParentMove sim sim')
    (hok : sim.parent.Ok sim.child) : sim'.left < sim.left := by
  cases h with
  | create segment hpc | waitProducer hpc hover | waitConsumer hpc hover | report hpc | unlink hpc =>
      simp [Sim.left, hpc, ParentPc.left]
  | forkProducer hpc =>
      rw [hpc] at hok
      simp [Sim.left, Sim.setChild, hpc, hok .producer, ParentPc.left, ChildPc.left]
  | forkConsumer hpc =>
      rw [hpc] at hok
      simp [Sim.left, Sim.setChild, hpc, hok.2, ParentPc.left, ChildPc.left]
      omega

theorem ChildMove.left_lt {sim : Sim} {pc : ChildPc} (h : ChildMove (sim.child c) pc) :
    (sim.setChild c pc).left < sim.left := by
  have hlt : pc.left < (sim.child c).left := by
    generalize sim.child c = old at h
    cases h <;> simp [ChildPc.left]
  cases c with
  | producer =>
      simp only [Sim.left, Sim.setChild, Function.update_self, ne_eq, reduceCtorEq,
        not_false_eq_true, Function.update_of_ne]
      omega
  | consumer =>
      simp only [Sim.left, Sim.setChild, Function.update_self, ne_eq, reduceCtorEq,
        not_false_eq_true, Function.update_of_ne]
      omega

/-- A child between its fork and its end can move. -/
theorem child_moves (hforked : (s.sim id).child c ≠ .notForked)
    (hover : ((s.sim id).child c).over = false) : ∃ s', step s (.child id c) = some s' := by
  cases hpc : (s.sim id).child c with
  | notForked => exact absurd hpc hforked
  | exited | failed =>
      rw [hpc] at hover
      cases hover
  | attach =>
      simp only [step, childStep, hpc]
      split <;> exact ⟨_, rfl⟩
  | run segment | unlink segment =>
      simp only [step, childStep, hpc]
      exact ⟨_, rfl⟩

/-- Until it has exited, the parent can move or waits for a child that it has forked. -/
theorem parent_moves (hok : (s.sim id).parent.Ok (s.sim id).child)
    (hpc : (s.sim id).parent ≠ .exited) : (∃ s', step s (.parent id) = some s') ∨
      ∃ c, (s.sim id).child c ≠ .notForked ∧ ((s.sim id).child c).over = false := by
  cases hparent : (s.sim id).parent with
  | exited => exact absurd hparent hpc
  | create | forkProducer | forkConsumer | report | unlink =>
      left
      simp only [step, parentStep, hparent]
      exact ⟨_, rfl⟩
  | waitProducer =>
      rw [hparent] at hok
      cases hover : ((s.sim id).child .producer).over with
      | false => exact .inr ⟨.producer, hok _, hover⟩
      | true =>
          left
          simp only [step, parentStep, hparent, hover, if_true]
          exact ⟨_, rfl⟩
  | waitConsumer =>
      rw [hparent] at hok
      cases hover : ((s.sim id).child .consumer).over with
      | false => exact .inr ⟨.consumer, hok.2 _, hover⟩
      | true =>
          left
          simp only [step, parentStep, hparent, hover, if_true]
          exact ⟨_, rfl⟩

end LinuxProgramming.SharedMemory.Attachment
