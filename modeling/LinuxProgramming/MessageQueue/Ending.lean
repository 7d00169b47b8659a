import LinuxProgramming.Countdown
import LinuxProgramming.MessageQueue.Isolation

/-! # How the runs end

The runs of `Chapter14/MessageQueue/Sim` with one id, whichever forks fail.  A run always comes to
its end once its forks succeed, after at most as many steps of its own as it has left, whatever the
children of other runs do meanwhile; and it leaves its queue behind exactly where a fork has failed
(`runs_return`). -/

namespace LinuxProgramming.MessageQueue.Isolation

open Items

variable {id run : ℕ} {s s' : State} {c : Child} {ok : Bool}

def Act.isParent : Act → Bool
  | .parent _ => true
  | _ => false

/-- A step of the processes of the run; sending and receiving is none. -/
def Act.ofRun (run : ℕ) : Act → Bool
  | .parent _ => true
  | .child r _ => r = run
  | _ => false

/-- A step of the processes of the run in which no fork fails. -/
def Act.Ending (run : ℕ) : Act → Prop
  | .parent ok => ok = true
  | .child r _ => r = run
  | _ => False

/-- The runs up to the end of the current one. -/
def current (id : ℕ) : Lts State Act where
  init s := (system id).init s
  step s a := if s.parent = .left ∧ a.isParent = true then none else step id s a

/-! ### Where a step leads -/

/-- A step of the parent. -/
inductive ParentMove (id : ℕ) (s : State) : Bool → State → Prop
  | create (ok : Bool) (names : KernelNames (List Char)) (messages : ℕ → List Message)
      (hpc : s.parent = .create) (hname : names.bound (queueName id) ≠ none) :
      ParentMove id s ok { s with
        names := names
        messages := messages
        parent := .forkProducer }
  | forkProducer (hpc : s.parent = .forkProducer) :
      ParentMove id s true { s.setChild s.run .producer .attach with parent := .forkConsumer }
  | forkConsumer (hpc : s.parent = .forkConsumer) :
      ParentMove id s true { s.setChild s.run .consumer .attach with parent := .waitProducer }
  | fail (hpc : s.parent = .forkProducer ∨ s.parent = .forkConsumer) :
      ParentMove id s false { s with parent := .left }
  | waitProducer (ok : Bool) (hpc : s.parent = .waitProducer)
      (hexited : s.child s.run .producer = .exited) :
      ParentMove id s ok { s with parent := .waitConsumer }
  | waitConsumer (ok : Bool) (hpc : s.parent = .waitConsumer)
      (hexited : s.child s.run .consumer = .exited) : ParentMove id s ok { s with parent := .unlink }
  | unlink (ok : Bool) (hpc : s.parent = .unlink) :
      ParentMove id s ok { s with names := s.names.unlink (queueName id), parent := .left }
  | next (ok : Bool) (hpc : s.parent = .left) :
      ParentMove id s ok { s with run := s.run + 1, parent := .create }

theorem parentMove_of_step (hs : parentStep id s ok = some s') : ParentMove id s ok s' := by
  unfold parentStep at hs
  cases hpc : s.parent with
  | create =>
      rw [hpc] at hs
      simp only at hs
      split at hs
      · next queue hname =>
          cases hs
          exact .create ok s.names s.messages hpc (by rw [hname]; simp)
      · cases hs
        exact .create ok _ _ hpc (by simp [KernelNames.make])
  | forkProducer =>
      rw [hpc] at hs
      cases ok with
      | true =>
          cases hs
          exact .forkProducer hpc
      | false =>
          cases hs
          exact .fail (.inl hpc)
  | forkConsumer =>
      rw [hpc] at hs
      cases ok with
      | true =>
          cases hs
          exact .forkConsumer hpc
      | false =>
          cases hs
          exact .fail (.inr hpc)
  | waitProducer =>
      rw [hpc] at hs
      obtain ⟨hexited, hs⟩ := Option.ite_none_right_eq_some.mp hs
      cases hs
      exact .waitProducer ok hpc hexited
  | waitConsumer =>
      rw [hpc] at hs
      obtain ⟨hexited, hs⟩ := Option.ite_none_right_eq_some.mp hs
      cases hs
      exact .waitConsumer ok hpc hexited
  | unlink =>
      rw [hpc] at hs
      cases hs
      exact .unlink ok hpc
  | left =>
      rw [hpc] at hs
      cases hs
      exact .next ok hpc

/-- The steps that a child has left, with those that it has when it will have been forked. -/
def ChildPc.remaining : ChildPc → ℕ
  | notForked => 2
  | attach => 2
  | running _ => 1
  | noQueue => 1
  | exited => 0

/-- A child that moves has been forked, has not exited and has one step less left. -/
theorem childMove_of_step (hs : childStep id s run c = some s') :
    ∃ pc, s' = s.setChild run c pc ∧ s.child run c ≠ .notForked ∧ s.child run c ≠ .exited ∧
      pc ≠ .notForked ∧ pc.remaining + 1 = (s.child run c).remaining := by
  unfold childStep at hs
  cases hpc : s.child run c with
  | notForked | exited =>
      rw [hpc] at hs
      cases hs
  | attach =>
      simp only [hpc] at hs
      split at hs <;>
      · cases hs
        exact ⟨_, rfl, by simp, by simp, by simp, rfl⟩
  | running queue =>
      simp only [hpc] at hs
      cases hs
      exact ⟨_, rfl, by simp, by simp, by simp, rfl⟩
  | noQueue =>
      simp only [hpc] at hs
      cases hs
      exact ⟨_, rfl, by simp, by simp, by simp, rfl⟩

/-- The children are where they were, and so is the parent. -/
structure Untouched (s s' : State) : Prop where
  names : s'.names = s.names
  run : s'.run = s.run
  parent : s'.parent = s.parent
  child : s'.child = s.child

theorem untouched_send {item : WorkItem} (hs : send s run item ok = some s') : Untouched s s' := by
  unfold send at hs
  split at hs
  · split at hs
    · split at hs
      · cases hs
        exact ⟨rfl, rfl, rfl, rfl⟩
      · cases hs
    · cases hs
      exact ⟨rfl, rfl, rfl, rfl⟩
  · cases hs

theorem untouched_receive (hs : receive s run ok = some s') : Untouched s s' := by
  unfold receive at hs
  split at hs
  · split at hs
    · split at hs
      · cases hs
      · cases hs
        exact ⟨rfl, rfl, rfl, rfl⟩
    · cases hs
      exact ⟨rfl, rfl, rfl, rfl⟩
  · cases hs

/-! ### What has been forked -/

/-- How far the children of the run are, and whether the queue of the name is there, at the program
points of the parent. -/
def ParentPc.Stage (id : ℕ) (s : State) : ParentPc → Prop
  | create => ∀ c, s.child s.run c = .notForked
  | forkProducer => (∀ c, s.child s.run c = .notForked) ∧ s.names.bound (queueName id) ≠ none
  | forkConsumer => s.child s.run .producer ≠ .notForked ∧
      s.child s.run .consumer = .notForked ∧ s.names.bound (queueName id) ≠ none
  | waitProducer => ∀ c, s.child s.run c ≠ .notForked
  | waitConsumer => s.child s.run .producer = .exited ∧ s.child s.run .consumer ≠ .notForked
  | unlink => ∀ c, s.child s.run c = .exited
  | left => (s.names.bound (queueName id) = none ∧ ∀ c, s.child s.run c = .exited) ∨
      (s.names.bound (queueName id) ≠ none ∧ s.child s.run .consumer = .notForked)

structure Forked (id : ℕ) (s : State) : Prop where
  stage : s.parent.Stage id s
  future : ∀ run > s.run, ∀ c, s.child run c = .notForked

theorem Forked.start {names : KernelNames (List Char)} {messages : ℕ → List Message} :
    Forked id (Isolation.start names messages) := ⟨fun _ => rfl, fun _ _ _ => rfl⟩

theorem Forked.untouched (h : Forked id s) (hs : Untouched s s') : Forked id s' where
  stage := by
    have hstage := h.stage
    rw [hs.parent]
    unfold ParentPc.Stage at hstage ⊢
    rw [hs.names, hs.run, hs.child]
    exact hstage
  future := by
    rw [hs.run, hs.child]
    exact h.future

theorem Forked.parentMove (h : Forked id s) (hs : ParentMove id s ok s') : Forked id s' := by
  have hstage := h.stage
  cases hs with
  | create _ names messages hpc hname =>
      rw [hpc] at hstage
      exact ⟨⟨hstage, hname⟩, h.future⟩
  | forkProducer hpc =>
      rw [hpc] at hstage
      obtain ⟨hforked, hname⟩ := hstage
      refine ⟨⟨?_, ?_, hname⟩, fun run hrun c => ?_⟩
      · show (s.setChild s.run .producer .attach).child s.run .producer ≠ _
        rw [setChild_self]
        decide
      · exact (setChild_of_ne (by decide)).trans (hforked .consumer)
      · exact (congrFun (setChild_of_ne_run (Nat.ne_of_gt hrun)) c).trans (h.future run hrun c)
  | forkConsumer hpc =>
      rw [hpc] at hstage
      obtain ⟨hproducer, -, -⟩ := hstage
      refine ⟨fun c => ?_, fun run hrun c => ?_⟩
      · cases c with
        | producer =>
            show (s.setChild s.run .consumer .attach).child s.run .producer ≠ _
            rw [setChild_of_ne (by decide)]
            exact hproducer
        | consumer =>
            show (s.setChild s.run .consumer .attach).child s.run .consumer ≠ _
            rw [setChild_self]
            decide
      · exact (congrFun (setChild_of_ne_run (Nat.ne_of_gt hrun)) c).trans (h.future run hrun c)
  | fail hpc =>
      refine ⟨.inr ?_, h.future⟩
      rcases hpc with hpc | hpc
      · rw [hpc] at hstage
        exact ⟨hstage.2, hstage.1 .consumer⟩
      · rw [hpc] at hstage
        exact ⟨hstage.2.2, hstage.2.1⟩
  | waitProducer _ hpc hexited =>
      rw [hpc] at hstage
      exact ⟨⟨hexited, hstage .consumer⟩, h.future⟩
  | waitConsumer _ hpc hexited =>
      rw [hpc] at hstage
      refine ⟨fun c => ?_, h.future⟩
      cases c with
      | producer => exact hstage.1
      | consumer => exact hexited
  | unlink _ hpc =>
      rw [hpc] at hstage
      exact ⟨.inl ⟨KernelNames.unlink_bound_self, hstage⟩, h.future⟩
  | next _ hpc =>
      exact ⟨h.future _ (Nat.lt_succ_self _), fun run hrun => h.future run (Nat.lt_of_succ_lt hrun)⟩

/-- A child between its fork and its exit moves, and the parent is not ahead of it. -/
theorem stage_setChild (h : s.parent.Stage id s) {pc : ChildPc}
    (hforked : s.child s.run c ≠ .notForked) (hexited : s.child s.run c ≠ .exited)
    (hpc : pc ≠ .notForked) : s.parent.Stage id (s.setChild s.run c pc) := by
  have hself : (s.setChild s.run c pc).child s.run c = pc := setChild_self
  have hother : ∀ c', c' ≠ c → (s.setChild s.run c pc).child s.run c' = s.child s.run c' :=
    fun c' hc => setChild_of_ne hc
  cases hparent : s.parent with
  | create =>
      rw [hparent] at h
      exact absurd (h c) hforked
  | forkProducer =>
      rw [hparent] at h
      exact absurd (h.1 c) hforked
  | forkConsumer =>
      rw [hparent] at h
      obtain ⟨hproducer, hconsumer, hname⟩ := h
      cases c with
      | producer => exact ⟨fun heq => hpc (hself.symm.trans heq),
          (hother .consumer (by decide)).trans hconsumer, hname⟩
      | consumer => exact absurd hconsumer hforked
  | waitProducer =>
      rw [hparent] at h
      intro c' heq
      by_cases hc : c' = c
      · subst hc
        exact hpc (hself.symm.trans heq)
      · exact h c' ((hother c' hc).symm.trans heq)
  | waitConsumer =>
      rw [hparent] at h
      obtain ⟨hproducer, -⟩ := h
      cases c with
      | producer => exact absurd hproducer hexited
      | consumer => exact ⟨(hother .producer (by decide)).trans hproducer,
          fun heq => hpc (hself.symm.trans heq)⟩
  | unlink =>
      rw [hparent] at h
      exact absurd (h c) hexited
  | left =>
      rw [hparent] at h
      rcases h with ⟨-, hall⟩ | ⟨hname, hconsumer⟩
      · exact absurd (hall c) hexited
      · cases c with
        | producer => exact .inr ⟨hname, (hother .consumer (by decide)).trans hconsumer⟩
        | consumer => exact absurd hconsumer hforked

theorem Forked.childStep (h : Forked id s) (hs : Isolation.childStep id s run c = some s') :
    Forked id s' := by
  obtain ⟨pc, rfl, hforked, hexited, hpc, -⟩ := childMove_of_step hs
  have hle : run ≤ s.run := by
    by_contra hlt
    exact hforked (h.future run (Nat.lt_of_not_le hlt) c)
  refine ⟨?_, fun run' hrun' c' => ?_⟩
  · by_cases hrun : run = s.run
    · subst hrun
      exact stage_setChild h.stage hforked hexited hpc
    · have hstage := h.stage
      have hchild : (s.setChild run c pc).child s.run = s.child s.run :=
        setChild_of_ne_run (Ne.symm hrun)
      show s.parent.Stage id (s.setChild run c pc)
      unfold ParentPc.Stage at hstage ⊢
      rw [show (s.setChild run c pc).run = s.run from rfl, hchild]
      exact hstage
  · have hne : run' ≠ run := Nat.ne_of_gt (Nat.lt_of_le_of_lt hle hrun')
    exact (congrFun (setChild_of_ne_run hne) c').trans (h.future run' hrun' c')

/-- **Step lemma.** -/
theorem Forked.step (h : Forked id s) {a : Act} (hs : Isolation.step id s a = some s') :
    Forked id s' := by
  cases a with
  | parent ok => exact h.parentMove (parentMove_of_step hs)
  | child run c => exact h.childStep hs
  | send run item ok => exact h.untouched (untouched_send hs)
  | receive run ok => exact h.untouched (untouched_receive hs)

theorem reachable_forked (h : (system id).Reachable s) : Forked id s := by
  apply h.invariant
  · rintro s ⟨names, messages, -, rfl⟩
    exact .start
  · intro s a s' hF hs
    exact hF.step hs

/-! ### The steps that are left -/

def ParentPc.remaining : ParentPc → ℕ
  | create => 6
  | forkProducer => 5
  | forkConsumer => 4
  | waitProducer => 3
  | waitConsumer => 2
  | unlink => 1
  | left => 0

/-- The steps of its own that a run has left at most. -/
def State.remaining (s : State) (run : ℕ) : ℕ :=
  s.parent.remaining + (s.child run .producer).remaining + (s.child run .consumer).remaining

/-- The current run goes on. -/
structure Going (id run : ℕ) (s : State) : Prop where
  forked : Forked id s
  run_eq : s.run = run

theorem current_step {a : Act} (hs : (current id).step s a = some s') :
    ¬ (s.parent = .left ∧ a.isParent = true) ∧ step id s a = some s' :=
  Option.ite_none_left_eq_some.mp hs

theorem Going.parentMove (h : Going id run s) (hpc : s.parent ≠ .left)
    (hs : ParentMove id s ok s') : s'.run = run ∧ s'.remaining run < s.remaining run := by
  obtain ⟨hF, rfl⟩ := h
  have hstage := hF.stage
  cases hs with
  | create _ names messages hpc hname =>
      exact ⟨rfl, by simp [State.remaining, hpc, ParentPc.remaining]⟩
  | forkProducer hpc =>
      rw [hpc] at hstage
      refine ⟨rfl, ?_⟩
      simp [State.remaining, State.setChild, hpc, hstage.1 .producer, ParentPc.remaining, ChildPc.remaining]
  | forkConsumer hpc =>
      rw [hpc] at hstage
      refine ⟨rfl, ?_⟩
      simp [State.remaining, State.setChild, hpc, hstage.2.1, ParentPc.remaining, ChildPc.remaining]
  | fail hpc => exact ⟨rfl, by rcases hpc with hpc | hpc <;> simp [State.remaining, hpc, ParentPc.remaining]⟩
  | waitProducer _ hpc hexited | waitConsumer _ hpc hexited =>
      exact ⟨rfl, by simp [State.remaining, hpc, ParentPc.remaining]⟩
  | unlink _ hpc => exact ⟨rfl, by simp [State.remaining, hpc, ParentPc.remaining]⟩
  | next _ hleft => exact absurd hleft hpc

theorem remaining_setChild {pc : ChildPc} (hpc : pc.remaining + 1 = (s.child run c).remaining) :
    (s.setChild run c pc).remaining run + 1 = s.remaining run := by
  cases c with
  | producer =>
      simp only [State.remaining, setChild_self, setChild_of_ne (show Child.consumer ≠ .producer by decide)]
      show s.parent.remaining + _ + _ + 1 = _
      omega
  | consumer =>
      simp only [State.remaining, setChild_self, setChild_of_ne (show Child.producer ≠ .consumer by decide)]
      show s.parent.remaining + _ + _ + 1 = _
      omega

theorem Untouched.remaining_eq (hs : Untouched s s') : s'.remaining run = s.remaining run := by
  unfold State.remaining
  rw [hs.parent, hs.child]

theorem Going.step (h : Going id run s) {a : Act} (hs : (current id).step s a = some s') :
    Going id run s' := by
  obtain ⟨hin, hs⟩ := current_step hs
  refine ⟨h.forked.step hs, ?_⟩
  cases a with
  | parent ok =>
      exact (h.parentMove (fun hpc => hin ⟨hpc, rfl⟩) (parentMove_of_step hs)).1
  | child run' c =>
      obtain ⟨pc, rfl, -⟩ := childMove_of_step hs
      exact h.run_eq
  | send run' item ok => exact (untouched_send hs).run.trans h.run_eq
  | receive run' ok => exact (untouched_receive hs).run.trans h.run_eq

/-- A step of the run's own processes. -/
theorem Going.remaining_lt (h : Going id run s) {a : Act} (ha : a.ofRun run = true)
    (hs : (current id).step s a = some s') : s'.remaining run < s.remaining run := by
  obtain ⟨hin, hs⟩ := current_step hs
  cases a with
  | parent ok =>
      exact (h.parentMove (fun hpc => hin ⟨hpc, rfl⟩) (parentMove_of_step hs)).2
  | child run' c =>
      obtain rfl : run' = run := of_decide_eq_true ha
      obtain ⟨pc, rfl, -, -, -, hleft⟩ := childMove_of_step hs
      have hlower := remaining_setChild hleft
      omega
  | send run' item ok | receive run' ok => cases ha

/-- A step of another run, or of the queue. -/
theorem remaining_of_not_ofRun {a : Act} (ha : a.ofRun run = false)
    (hs : (current id).step s a = some s') : s'.remaining run = s.remaining run := by
  obtain ⟨-, hs⟩ := current_step hs
  cases a with
  | parent ok => cases ha
  | child run' c =>
      obtain ⟨pc, rfl, -⟩ := childMove_of_step hs
      have hne : run ≠ run' := Ne.symm (of_decide_eq_false ha)
      unfold State.remaining
      rw [setChild_of_ne_run hne]
      rfl
  | send run' item ok => exact (untouched_send hs).remaining_eq
  | receive run' ok => exact (untouched_receive hs).remaining_eq

/-! ### The end -/

variable (id) in
theorem child_moves (hforked : s.child run c ≠ .notForked) (hexited : s.child run c ≠ .exited) :
    ∃ s', childStep id s run c = some s' := by
  unfold childStep
  cases hpc : s.child run c with
  | notForked => exact absurd hpc hforked
  | exited => exact absurd hpc hexited
  | attach =>
      simp only
      split <;> exact ⟨_, rfl⟩
  | running queue => exact ⟨_, rfl⟩
  | noQueue => exact ⟨_, rfl⟩

/-- Until it has left, the parent can move or waits for a child that it has forked. -/
theorem parent_moves (h : s.parent.Stage id s) (hpc : s.parent ≠ .left) :
    (∃ s', parentStep id s true = some s') ∨
      ∃ c, s.child s.run c ≠ .notForked ∧ s.child s.run c ≠ .exited := by
  unfold parentStep
  cases hparent : s.parent with
  | left => exact absurd hparent hpc
  | create =>
      simp only
      split <;> exact .inl ⟨_, rfl⟩
  | forkProducer | forkConsumer | unlink => exact .inl ⟨_, rfl⟩
  | waitProducer =>
      rw [hparent] at h
      by_cases hexited : s.child s.run .producer = .exited
      · exact .inl ⟨_, if_pos hexited⟩
      · exact .inr ⟨.producer, h _, hexited⟩
  | waitConsumer =>
      rw [hparent] at h
      by_cases hexited : s.child s.run .consumer = .exited
      · exact .inl ⟨_, if_pos hexited⟩
      · exact .inr ⟨.consumer, h.2, hexited⟩

theorem Going.moves (h : Going id run s) (hpc : s.parent ≠ .left) :
    ∃ a s', a.Ending run ∧ (current id).step s a = some s' := by
  obtain ⟨hF, rfl⟩ := h
  have hin : ∀ a : Act, (current id).step s a = Isolation.step id s a :=
    fun a => if_neg fun hleft => hpc hleft.1
  rcases parent_moves hF.stage hpc with ⟨s', hs⟩ | ⟨c, hforked, hexited⟩
  · exact ⟨.parent true, s', rfl, (hin _).trans hs⟩
  · obtain ⟨s', hs⟩ := child_moves id hforked hexited
    exact ⟨.child s.run c, s', rfl, (hin _).trans hs⟩

/-- Where no fork fails, a run that has left has taken its queue away. -/
structure TidyEnd (id : ℕ) (s : State) : Prop where
  name : s.parent = .left → s.names.bound (queueName id) = none
  child : s.parent = .left → ∀ c, s.child s.run c = .exited

theorem TidyEnd.step (h : TidyEnd id s) (hg : Going id run s) {a : Act} (ha : a.Ending run)
    (hs : (current id).step s a = some s') : TidyEnd id s' := by
  obtain ⟨hin, hs⟩ := current_step hs
  cases a with
  | send run' item ok | receive run' ok => exact ha.elim
  | child run' c =>
      obtain rfl : run' = run := ha
      obtain ⟨pc, rfl, -, hexited, -⟩ := childMove_of_step hs
      rw [← hg.run_eq] at hexited
      exact ⟨fun hleft => absurd (h.child hleft c) hexited,
        fun hleft => absurd (h.child hleft c) hexited⟩
  | parent ok =>
      obtain rfl : ok = true := ha
      have hstage := hg.forked.stage
      cases parentMove_of_step hs with
      | create _ names messages hpc hname => exact ⟨by simp, by simp⟩
      | forkProducer hpc => exact ⟨by simp, by simp⟩
      | forkConsumer hpc => exact ⟨by simp, by simp⟩
      | waitProducer _ hpc hexited => exact ⟨by simp, by simp⟩
      | waitConsumer _ hpc hexited => exact ⟨by simp, by simp⟩
      | unlink _ hpc =>
          rw [hpc] at hstage
          exact ⟨fun _ => KernelNames.unlink_bound_self, fun _ => hstage⟩
      | next _ hpc => exact absurd ⟨hpc, rfl⟩ hin

theorem TidyEnd.exec (h : TidyEnd id s) (hg : Going id run s) {acts : List Act}
    (hacts : ∀ a ∈ acts, a.Ending run) (he : (current id).exec s acts = some s') :
    TidyEnd id s' := by
  induction acts generalizing s with
  | nil =>
      cases he
      exact h
  | cons a acts ih =>
      rw [Lts.exec_cons] at he
      obtain ⟨s₁, hs, he⟩ := Option.bind_eq_some_iff.mp he
      exact ih (h.step hg (hacts a List.mem_cons_self) hs) (hg.step hs)
        (fun a' ha' => hacts a' (List.mem_cons_of_mem a ha')) he

/-- **The end of a run.**  In every reachable state, whatever forks have failed: the processes of
the current run make at most as many steps as they have left before the next run begins, between
any steps of the others; as long as its parent has not left, the run gets by such steps alone to
where it has left, both its children have exited and the queue is gone; and a run that has left has
left the queue behind if and only if it has not forked its consumer, and else both children have
exited. -/
theorem runs_return (h : (system id).Reachable s) :
    (∀ acts s', (current id).exec s acts = some s' →
      acts.countP (Act.ofRun s.run) + s'.remaining s.run ≤ s.remaining s.run) ∧
    (s.parent ≠ .left → ∃ acts s', (∀ a ∈ acts, a.Ending s.run) ∧
      (current id).exec s acts = some s' ∧ s'.parent = .left ∧
      s'.names.bound (queueName id) = none ∧ ∀ c, s'.child s.run c = .exited) ∧
    (s.parent = .left →
      (s.names.bound (queueName id) ≠ none ↔ s.child s.run .consumer = .notForked) ∧
      (s.names.bound (queueName id) = none → ∀ c, s.child s.run c = .exited)) := by
  have hg : Going id s.run s := ⟨reachable_forked h, rfl⟩
  have hkeep : ∀ t a t', Going id s.run t → (current id).step t a = some t' →
      Going id s.run t' := fun _ _ _ hG hs => hG.step hs
  refine ⟨fun acts s' he => ?_, fun hpc => ?_, fun hleft => ?_⟩
  · exact Lts.countP_add_le (I := Going id s.run) (φ := fun _ => True)
      (μ := fun t => t.remaining s.run) (fun t a t' hG _ hs => hkeep t a t' hG hs)
      (fun _ _ _ hG ha _ hs => hG.remaining_lt ha hs)
      (fun _ _ _ ha hs => Nat.le_of_eq (remaining_of_not_ofRun ha hs)) hg
      (fun _ _ => trivial) he
  · have hlower : ∀ t a t', Going id s.run t → a.Ending s.run →
        (current id).step t a = some t' → t'.remaining s.run < t.remaining s.run := by
      intro t a t' hG ha hs
      refine hG.remaining_lt ?_ hs
      cases a with
      | parent ok => rfl
      | child run' c => exact decide_eq_true ha
      | send run' item ok | receive run' ok => exact ha.elim
    obtain ⟨acts, s', he, halong, hblocked⟩ := Lts.exists_blocked (M := current id)
      (φ := fun _ a => a.Ending s.run) (μ := fun t => t.remaining s.run)
      (fun t a t' hG _ hs => hkeep t a t' hG hs) hlower _ s hg rfl
    have hacts := halong.forall he
    have hend : TidyEnd id s' := TidyEnd.exec ⟨fun hleft => absurd hleft hpc,
      fun hleft => absurd hleft hpc⟩ hg hacts he
    have hg' : Going id s.run s' := Lts.exec_invariant hkeep hg he
    have hleft : s'.parent = .left := by
      by_contra hpc'
      obtain ⟨a, s'', ha, hs⟩ := hg'.moves hpc'
      rw [hblocked a ha] at hs
      cases hs
    refine ⟨acts, s', hacts, he, hleft, hend.name hleft, ?_⟩
    rw [← hg'.run_eq]
    exact hend.child hleft
  · have hstage := hg.forked.stage
    rw [hleft] at hstage
    rcases hstage with ⟨hname, hall⟩ | ⟨hname, hconsumer⟩
    · refine ⟨⟨fun hbound => absurd hname hbound, fun hforked => ?_⟩, fun _ => hall⟩
      rw [hall .consumer] at hforked
      cases hforked
    · exact ⟨⟨fun _ => hconsumer, fun _ => hname⟩, fun hnone => absurd hnone hname⟩

/-- The producer of the first run has opened the queue, and its consumer is not forked yet. -/
theorem runs_return_opened : ∃ s, (system 0).exec (start .empty fun _ => [])
      [.parent true, .parent true, .child 0 .producer] = some s ∧ s.remaining 0 = 7 ∧
    ∃ acts s', (∀ a ∈ acts, a.Ending 0) ∧ (current 0).exec s acts = some s' ∧
      s'.parent = .left ∧ s'.names.bound (queueName 0) = none := by
  have hrun : ∃ s, (system 0).exec (start .empty fun _ => [])
        [.parent true, .parent true, .child 0 .producer] = some s ∧ s.remaining 0 = 7 ∧
      s.run = 0 ∧ s.parent = .forkConsumer := ⟨_, rfl, rfl, rfl, rfl⟩
  obtain ⟨s, hs, hremaining, hzero, hparent⟩ := hrun
  have hreach : (system 0).Reachable s := Lts.Reachable.exec (.of_init ⟨_, _, rfl, rfl⟩) hs
  obtain ⟨acts, s', hacts, he, hleft, hname, -⟩ :=
    (runs_return hreach).2.1 (by rw [hparent]; decide)
  rw [hzero] at hacts
  exact ⟨s, hs, hremaining, acts, s', hacts, he, hleft, hname⟩

end LinuxProgramming.MessageQueue.Isolation
