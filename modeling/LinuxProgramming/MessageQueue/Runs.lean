import LinuxProgramming.Countdown
import LinuxProgramming.TaggedLog
import LinuxProgramming.MessageQueue.Isolation

/-! # What the runs deliver

The runs of `Chapter14/MessageQueue/Sim` with one id, one after the other, as in `Isolation`.  As
long as a failing fork of a consumer leaves neither a message nor a producer that can still send,
the consumer of a run receives the items that the producer of that run has sent, in that order and
without a gap, and a run loses no more of them than fit into the queue (`runs_deliver`). -/

namespace LinuxProgramming.MessageQueue.Isolation

open Items

/-- The item that the producer of the run sends in a step. -/
def Act.sentBy (run : ℕ) : Act → Option WorkItem
  | .send sender item true => if sender = run then some item else none
  | _ => none

/-- What the producer of the run has sent. -/
def sentBy (run : ℕ) (acts : List Act) : List WorkItem := acts.filterMap (Act.sentBy run)

/-- What the consumer of the run has received. -/
def State.receivedBy (s : State) (run : ℕ) : List WorkItem :=
  (part s.received run).map Message.item

/-- Each run against what its producer has sent: what is in the queue of the name is the rest of
what the current run has sent, and no run has more left over than fits into the queue. -/
structure Delivered (id : ℕ) (sent : ℕ → List WorkItem) (s : State) : Prop where
  current : ∀ queue, s.names.bound (queueName id) = some queue →
    sent s.run = s.receivedBy s.run ++ (s.messages queue).map Message.item
  rest : ∀ run, ∃ lost, sent run = s.receivedBy run ++ lost ∧ lost.length ≤ queueSize
  fresh : ∀ run, s.child run .producer = .notForked → sent run = []

section steps
variable {id run : ℕ} {sent : ℕ → List WorkItem} {s s' : State} {c : Child}

/-- Before its producer has been forked, a run has received nothing. -/
theorem Delivered.receivedBy_eq_nil (h : Delivered id sent s)
    (hforked : s.child run .producer = .notForked) : s.receivedBy run = [] := by
  obtain ⟨lost, hlost, -⟩ := h.rest run
  rw [h.fresh run hforked] at hlost
  exact (List.append_eq_nil_iff.mp hlost.symm).1

theorem Delivered.current_of_notForked (h : Delivered id sent s) {queue : ℕ}
    (hforked : s.child run .producer = .notForked) (hempty : s'.messages queue = [])
    (hreceived : s'.received = s.received) :
    sent run = s'.receivedBy run ++ (s'.messages queue).map Message.item := by
  have hnil := h.receivedBy_eq_nil hforked
  rw [h.fresh run hforked, hempty]
  unfold State.receivedBy at hnil ⊢
  rw [hreceived, hnil]
  rfl

/-- A step that neither sends nor receives. -/
theorem Delivered.quiet (h : Delivered id sent s) (hreceived : s'.received = s.received)
    (hforked : ∀ run, s'.child run .producer = .notForked → s.child run .producer = .notForked)
    (hcurrent : ∀ queue, s'.names.bound (queueName id) = some queue →
      sent s'.run = s'.receivedBy s'.run ++ (s'.messages queue).map Message.item) :
    Delivered id sent s' where
  current := hcurrent
  rest run := by
    unfold State.receivedBy
    rw [hreceived]
    exact h.rest run
  fresh run hrun := h.fresh run (hforked run hrun)

/-- Only the place of the parent changes, or that of a child that has been forked. -/
theorem Delivered.setChild (h : Delivered id sent s) {pc : ChildPc} (hpc : pc ≠ .notForked)
    (next : ParentPc) : Delivered id sent { s.setChild run c pc with parent := next } := by
  refine h.quiet rfl (fun run' hrun' => ?_) h.current
  by_cases hrun : run' = run
  · subst hrun
    by_cases hc : Child.producer = c
    · subst hc
      exact absurd (setChild_self.symm.trans hrun') hpc
    · exact (setChild_of_ne hc).symm.trans hrun'
  · have hchild : (s.setChild run c pc).child run' = s.child run' := setChild_of_ne_run hrun
    exact (congrFun hchild _).symm.trans hrun'

theorem Delivered.advance (h : Delivered id sent s) (next : ParentPc) :
    Delivered id sent { s with parent := next } := h.quiet rfl (fun _ hrun => hrun) h.current

theorem Delivered.parentStep (h : Delivered id sent s) (hI : Inv id s) {ok : Bool}
    (hs : Isolation.parentStep id s ok = some s') : Delivered id sent s' := by
  have hparent := hI.parent
  unfold Isolation.parentStep at hs
  cases hpc : s.parent with
  | create =>
      rw [hpc] at hparent hs
      simp only at hs
      split at hs
      · cases hs
        exact h.advance _
      · cases hs
        refine h.quiet rfl (fun _ hrun => hrun) fun queue hq => ?_
        have hbound : (s.names.make (queueName id)).bound (queueName id) = some s.names.next :=
          Function.update_self _ _ _
        obtain rfl := Option.some.inj (hbound.symm.trans hq)
        exact h.current_of_notForked (hparent.1 .producer) (Function.update_self _ _ _) rfl
  | forkProducer =>
      rw [hpc] at hs
      cases ok with
      | true =>
          cases hs
          exact h.setChild (by decide) _
      | false =>
          cases hs
          exact h.advance _
  | forkConsumer =>
      rw [hpc] at hs
      cases ok with
      | true =>
          cases hs
          exact h.setChild (by decide) _
      | false =>
          cases hs
          exact h.advance _
  | waitProducer | waitConsumer =>
      rw [hpc] at hs
      obtain ⟨-, hs⟩ := Option.ite_none_right_eq_some.mp hs
      cases hs
      exact h.advance _
  | unlink =>
      rw [hpc] at hs
      cases hs
      refine h.quiet rfl (fun _ hrun => hrun) fun queue hq => ?_
      have hnone : (s.names.unlink (queueName id)).bound (queueName id) = none :=
        KernelNames.unlink_bound_self
      cases hnone.symm.trans hq
  | left =>
      rw [hpc] at hparent hs
      cases hs
      refine h.quiet rfl (fun _ hrun => hrun) fun queue hq => ?_
      exact h.current_of_notForked (hI.future _ (Nat.lt_succ_self _) .producer)
        (hparent.2 queue hq) rfl

theorem Delivered.childStep (h : Delivered id sent s)
    (hs : Isolation.childStep id s run c = some s') : Delivered id sent s' := by
  unfold Isolation.childStep at hs
  split at hs
  · split at hs <;>
    · cases hs
      exact h.setChild (by simp) _
  · cases hs
    exact h.setChild (by decide) _
  · cases hs
    exact h.setChild (by decide) _
  · cases hs

theorem setMessages_messages {queue : ℕ} {messages : List Message} :
    (s.setMessages queue messages).messages queue = messages := Function.update_self _ _ _

/-- The producer of the current run sends an item. -/
theorem Delivered.setMessages_send (h : Delivered id sent s) {queue : ℕ} {item : WorkItem}
    (hname : s.names.bound (queueName id) = some queue)
    (hc : s.child s.run .producer ≠ .notForked) (hroom : (s.messages queue).length < queueSize) :
    Delivered id (fun r => sent r ++ if s.run = r then [item] else [])
      (s.setMessages queue (s.messages queue ++ [Message.mk s.run item])) := by
  have hsent : sent s.run ++ [item] = s.receivedBy s.run ++
      (s.messages queue ++ [Message.mk s.run item]).map Message.item := by
    rw [h.current queue hname, List.append_assoc, List.map_append]
    rfl
  refine ⟨fun queue' hq => ?_, fun r => ?_, fun r hr => ?_⟩
  · obtain rfl := Option.some.inj (hname.symm.trans hq)
    rw [setMessages_messages]
    exact (congrArg (sent s.run ++ ·) (if_pos rfl)).trans hsent
  · by_cases hrun : s.run = r
    · subst hrun
      refine ⟨_, (congrArg (sent s.run ++ ·) (if_pos rfl)).trans hsent, ?_⟩
      simpa using hroom
    · simp only [if_neg hrun, List.append_nil]
      exact h.rest r
  · have hrun : s.run ≠ r := by
      rintro rfl
      exact hc hr
    simp only [if_neg hrun, List.append_nil]
    exact h.fresh r hr

/-- Only a producer of the current run can send. -/
theorem Delivered.send (h : Delivered id sent s) (hI : Inv id s) {item : WorkItem} {ok : Bool}
    (hs : Isolation.send s run item ok = some s') :
    Delivered id (fun r => sent r ++ ((Act.send run item ok).sentBy r).toList) s' := by
  unfold Isolation.send at hs
  split at hs
  · next queue hc =>
      obtain ⟨rfl, hname⟩ := hI.bound_eq hc
      cases ok with
      | true =>
          obtain ⟨hroom, hs⟩ := Option.ite_none_right_eq_some.mp hs
          cases hs
          have hlist : ∀ r, ((Act.send s.run item true).sentBy r).toList =
              if s.run = r then [item] else [] := by
            intro r
            simp only [Act.sentBy]
            split <;> rfl
          simp only [hlist]
          exact h.setMessages_send hname (by rw [hc]; simp) hroom
      | false =>
          cases hs
          simpa [Act.sentBy] using h
  · cases hs

/-- Only a consumer of the current run can receive, and it gets the first item that is left. -/
theorem Delivered.receive (h : Delivered id sent s) (hI : Inv id s) {ok : Bool}
    (hs : Isolation.receive s run ok = some s') : Delivered id sent s' := by
  unfold Isolation.receive at hs
  split at hs
  · next queue hc =>
      obtain ⟨rfl, hname⟩ := hI.bound_eq hc
      split at hs
      · split at hs
        · cases hs
        · next m rest hqueue =>
            cases hs
            have hreceived : ∀ r, State.receivedBy { s.setMessages queue rest with
                received := s.received ++ [(s.run, m)] } r =
                s.receivedBy r ++ if s.run = r then [m.item] else [] := by
              intro r
              simp only [State.receivedBy, part_append, part_singleton, List.map_append]
              split <;> rfl
            have hsent : sent s.run =
                (s.receivedBy s.run ++ [m.item]) ++ rest.map Message.item := by
              rw [h.current queue hname, hqueue, List.append_assoc]
              rfl
            refine ⟨fun queue' hq => ?_, fun r => ?_, h.fresh⟩
            · obtain rfl := Option.some.inj (hname.symm.trans hq)
              rw [hreceived]
              simpa [State.setMessages] using hsent
            · rw [hreceived]
              by_cases hrun : s.run = r
              · subst hrun
                obtain ⟨lost, hlost, hroom⟩ := h.rest s.run
                refine ⟨rest.map Message.item, by simpa only [if_true] using hsent, ?_⟩
                have hmessages : lost = (s.messages queue).map Message.item :=
                  List.append_cancel_left (hlost.symm.trans (h.current queue hname))
                rw [hmessages, hqueue, List.length_map, List.length_cons] at hroom
                rw [List.length_map]
                omega
              · simp only [if_neg hrun, List.append_nil]
                exact h.rest r
      · cases hs
        exact h
  · cases hs

/-- **Step lemma.** -/
theorem Delivered.step (h : Delivered id sent s) (hI : Inv id s) {a : Act}
    (hs : Isolation.step id s a = some s') :
    Delivered id (fun r => sent r ++ (a.sentBy r).toList) s' := by
  cases a with
  | parent ok => simpa [Act.sentBy] using h.parentStep hI hs
  | child run c => simpa [Act.sentBy] using h.childStep hs
  | send run item ok => exact h.send hI hs
  | receive run ok => simpa [Act.sentBy] using h.receive hI hs

theorem Delivered.start {names : KernelNames (List Char)} {messages : ℕ → List Message}
    (hname : names.bound (queueName id) = none) :
    Delivered id (fun _ => []) (Isolation.start names messages) where
  current queue hq := by
    rw [show (Isolation.start names messages).names = names from rfl, hname] at hq
    cases hq
  rest _ := ⟨[], rfl, Nat.zero_le _⟩
  fresh _ _ := rfl

/-- **Run lemma.** -/
theorem Delivered.exec (h : Delivered id sent s) (hI : Inv id s) {acts : List Act}
    (hkept : (system id).Along (Kept id) s acts) (hrun : (system id).exec s acts = some s') :
    Delivered id (fun r => sent r ++ sentBy r acts) s' := by
  induction acts generalizing s sent with
  | nil =>
      cases hrun
      simpa [sentBy] using h
  | cons a acts ih =>
      rw [Lts.exec_cons] at hrun
      obtain ⟨s₁, hs, hrun⟩ := Option.bind_eq_some_iff.mp hrun
      have h' := ih (h.step hI hs) (hI.step hkept.1 hs) (hkept.2 s₁ hs) hrun
      have hcons : ∀ r, sentBy r (a :: acts) = (a.sentBy r).toList ++ sentBy r acts := by
        intro r
        unfold sentBy
        rw [List.filterMap_cons]
        split
        · next hnone => rw [hnone]; rfl
        · next item hitem => rw [hitem]; rfl
      simpa only [hcons, List.append_assoc] using h'

end steps

/-- **Delivery over runs.**  In every sequence of runs in which a failing fork of a consumer leaves
neither a message nor a producer that can still send, the items that the producer of a run has sent
are those that its consumer has received, in the same order, and at most as many after them as fit
into the queue; those of the current run are what is in the queue. -/
theorem runs_deliver (id : ℕ) {names : KernelNames (List Char)} {messages : ℕ → List Message}
    (hname : names.bound (queueName id) = none) {acts : List Act} {s : State}
    (hkept : (system id).Along (Kept id) (start names messages) acts)
    (hrun : (system id).exec (start names messages) acts = some s) :
    (∀ run, ∃ lost, sentBy run acts = s.receivedBy run ++ lost ∧ lost.length ≤ queueSize) ∧
    ∀ queue, s.names.bound (queueName id) = some queue →
      sentBy s.run acts = s.receivedBy s.run ++ (s.messages queue).map Message.item := by
  have h := (Delivered.start hname).exec (Inv.start hname) hkept hrun
  simp only [List.nil_append] at h
  exact ⟨h.rest, h.current⟩

/-- Run 0 ends with an item in its queue, and run 1 receives its own. -/
def leftInQueue : List Act :=
  [.parent true, .parent true, .parent true, .child 0 .producer, .child 0 .consumer,
    .send 0 ⟨300000, fun _ => 'a'⟩ true, .child 0 .producer, .child 0 .consumer, .parent true,
    .parent true, .parent true, .parent true, .parent true, .parent true, .parent true,
    .child 1 .producer, .child 1 .consumer, .send 1 ⟨300000, fun _ => 'b'⟩ true, .receive 1 true]

theorem runs_deliver_leftInQueue : ∃ s,
    (system 1).exec (start .empty fun _ => []) leftInQueue = some s ∧
    s.receivedBy 0 = [] ∧ s.receivedBy 1 = [⟨300000, fun _ => 'b'⟩] ∧
    ∃ lost, sentBy 0 leftInQueue = s.receivedBy 0 ++ lost ∧ lost.length ≤ queueSize := by
  have hrun : ∃ s, (system 1).exec (start .empty fun _ => []) leftInQueue = some s ∧
      s.receivedBy 0 = [] ∧ s.receivedBy 1 = [⟨300000, fun _ => 'b'⟩] := ⟨_, rfl, rfl, rfl⟩
  obtain ⟨s, hs, hzero, hone⟩ := hrun
  have hforks : ∀ a ∈ leftInQueue, a ≠ .parent false := by simp [leftInQueue]
  have hkept : (system 1).Along (Kept 1) (start .empty fun _ => []) leftInQueue :=
    .of_forall (fun _ a ha _ hfalse => absurd hfalse (hforks a ha)) _
  exact ⟨s, hs, hzero, hone, (runs_deliver 1 rfl hkept hs).1 0⟩

end LinuxProgramming.MessageQueue.Isolation
