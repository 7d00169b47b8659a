import LinuxProgramming.Lts
import LinuxProgramming.KernelNames
import LinuxProgramming.Items.WorkItem
import LinuxProgramming.Simulation.Names

/-! # Runs that share a message queue

`Chapter14/MessageQueue/Sim`, run again and again with one id.  Each run opens the queue of the
id with `O_CREAT`, which finds a queue that is there and leaves it as it is, forks a producer and
a consumer, waits for both, and unlinks the queue.  When a fork fails, `main` leaves at once: the
queue stays, and so does a producer that has been forked.

* **Steps.**  The parents of the runs follow each other; the processes of all runs go on in any
  interleaving.  The label says whether a fork succeeds, and whether `mq_timedsend` and
  `mq_timedreceive` do.  An `execl` succeeds.
* **Messages.**  A message carries the number of the run whose producer has sent it, for the
  statements only.

`isolation` says when no consumer receives a message of another run: exactly as long as a run
whose second fork fails leaves neither messages nor a producer that can still send. -/

namespace LinuxProgramming.MessageQueue.Isolation

open Items Simulation

/-- `SHARED_MEM_NAME_PATTERN`. -/
def queueName (id : ℕ) : List Char := nameOf "/PC_MESSAGE_Q_NAME_".toList id

/-- `QUEUE_SIZE`. -/
def queueSize : ℕ := 10

/-- What the parent of the current run does next. -/
inductive ParentPc where
  | create
  | forkProducer
  | forkConsumer
  | waitProducer
  | waitConsumer
  | unlink
  | left
deriving DecidableEq

/-- Where a child stands; `noQueue` is one whose `mq_open` has failed. -/
inductive ChildPc where
  | notForked
  | attach
  | running (queue : ℕ)
  | noQueue
  | exited
deriving DecidableEq

inductive Child where
  | producer
  | consumer
deriving DecidableEq

structure Message where
  sender : ℕ
  item : WorkItem

/-- `received` pairs each message received with the run of the consumer, in order. -/
structure State where
  names : KernelNames (List Char)
  messages : ℕ → List Message
  run : ℕ
  parent : ParentPc
  child : ℕ → Child → ChildPc
  received : List (ℕ × Message)

inductive Act where
  | parent (ok : Bool)
  | child (run : ℕ) (c : Child)
  | send (run : ℕ) (item : WorkItem) (ok : Bool)
  | receive (run : ℕ) (ok : Bool)

/-! ### Steps -/

def State.setChild (s : State) (run : ℕ) (c : Child) (pc : ChildPc) : State :=
  { s with child := Function.update s.child run (Function.update (s.child run) c pc) }

def State.setMessages (s : State) (queue : ℕ) (messages : List Message) : State :=
  { s with messages := Function.update s.messages queue messages }

/-- `main` of `ProducerConsumerSim`, and the beginning of the next run. -/
def parentStep (id : ℕ) (s : State) (ok : Bool) : Option State :=
  match s.parent with
  | .create =>
      match s.names.bound (queueName id) with
      | some _ => some { s with parent := .forkProducer }
      | none =>
          some { s.setMessages s.names.next [] with
            names := s.names.make (queueName id)
            parent := .forkProducer }
  | .forkProducer =>
      if ok then some { s.setChild s.run .producer .attach with parent := .forkConsumer }
      else some { s with parent := .left }
  | .forkConsumer =>
      if ok then some { s.setChild s.run .consumer .attach with parent := .waitProducer }
      else some { s with parent := .left }
  | .waitProducer =>
      if s.child s.run .producer = .exited then some { s with parent := .waitConsumer } else none
  | .waitConsumer =>
      if s.child s.run .consumer = .exited then some { s with parent := .unlink } else none
  | .unlink => some { s with names := s.names.unlink (queueName id), parent := .left }
  | .left => some { s with run := s.run + 1, parent := .create }

/-- `main` of `ProducerSim` and of `ConsumerSim`: the constructor opens the queue, and the process
ends at any time after that. -/
def childStep (id : ℕ) (s : State) (run : ℕ) (c : Child) : Option State :=
  match s.child run c with
  | .attach =>
      match s.names.bound (queueName (atoi (itoa id 10))) with
      | some queue => some (s.setChild run c (.running queue))
      | none => some (s.setChild run c .noQueue)
  | .running _ => some (s.setChild run c .exited)
  | .noQueue => some (s.setChild run c .exited)
  | _ => none

/-- `mq_timedsend`, called by `Producer::work`. -/
def send (s : State) (run : ℕ) (item : WorkItem) (ok : Bool) : Option State :=
  match s.child run .producer with
  | .running queue =>
      if ok then
        if (s.messages queue).length < queueSize then
          some (s.setMessages queue (s.messages queue ++ [⟨run, item⟩]))
        else none
      else some s
  | _ => none

/-- `mq_timedreceive`, called by `Consumer::work`. -/
def receive (s : State) (run : ℕ) (ok : Bool) : Option State :=
  match s.child run .consumer with
  | .running queue =>
      if ok then
        match s.messages queue with
        | [] => none
        | m :: rest =>
            some { s.setMessages queue rest with received := s.received ++ [(run, m)] }
      else some s
  | _ => none

def step (id : ℕ) (s : State) : Act → Option State
  | .parent ok => parentStep id s ok
  | .child run c => childStep id s run c
  | .send run item ok => send s run item ok
  | .receive run ok => receive s run ok

/-- Before the first run. -/
def start (names : KernelNames (List Char)) (messages : ℕ → List Message) : State where
  names := names
  messages := messages
  run := 0
  parent := .create
  child _ _ := .notForked
  received := []

/-- The runs with one id, whose queue is not there before the first of them. -/
def system (id : ℕ) : Lts State Act where
  init s := ∃ names messages, names.bound (queueName id) = none ∧ s = start names messages
  step := step id

/-! ### What is to hold -/

/-- Every message received in a run was sent by the producer of that run. -/
def Isolated (s : State) : Prop := ∀ run m, (run, m) ∈ s.received → m.sender = run

/-- The child will not use a queue any more. -/
def ChildPc.silent : ChildPc → Bool
  | attach => false
  | running _ => false
  | _ => true

/-- The queue of the name, if there is one, is empty. -/
def Empty (id : ℕ) (s : State) : Prop :=
  ∀ queue, s.names.bound (queueName id) = some queue → s.messages queue = []

/-- The fork of the consumer fails only where the producer is through and the queue is empty. -/
def Kept (id : ℕ) (s : State) (a : Act) : Prop :=
  s.parent = .forkConsumer → a = .parent false →
    (s.child s.run .producer).silent = true ∧ Empty id s

/-! ### The invariant -/

/-- What holds at the program points of the parent. -/
def ParentPc.Ok (id : ℕ) (s : State) : ParentPc → Prop
  | create => (∀ c, s.child s.run c = .notForked) ∧ Empty id s
  | forkProducer => (∀ c, s.child s.run c = .notForked) ∧ Empty id s ∧
      s.names.bound (queueName id) ≠ none
  | forkConsumer => s.child s.run .consumer = .notForked ∧ s.names.bound (queueName id) ≠ none
  | waitProducer => s.names.bound (queueName id) ≠ none
  | waitConsumer => s.child s.run .producer = .exited ∧ s.names.bound (queueName id) ≠ none
  | unlink => ∀ c, s.child s.run c = .exited
  | left => (∀ c, (s.child s.run c).silent = true) ∧ Empty id s

structure Inv (id : ℕ) (s : State) : Prop where
  parent : s.parent.Ok id s
  past : ∀ run < s.run, ∀ c, (s.child run c).silent = true
  future : ∀ run > s.run, ∀ c, s.child run c = .notForked
  running : ∀ c queue, s.child s.run c = .running queue →
    s.names.bound (queueName id) = some queue
  messages : ∀ queue, s.names.bound (queueName id) = some queue →
    ∀ m ∈ s.messages queue, m.sender = s.run
  isolated : Isolated s

section steps
variable {id : ℕ} {s s' : State} {run : ℕ} {c : Child} {pc : ChildPc}

theorem queueName_child (id : ℕ) : queueName (atoi (itoa id 10)) = queueName id :=
  nameOf_child _ id

@[simp] theorem setChild_self : (s.setChild run c pc).child run c = pc := by
  simp [State.setChild]

theorem setChild_of_ne_run {run' : ℕ} (h : run' ≠ run) :
    (s.setChild run c pc).child run' = s.child run' := Function.update_of_ne h _ _

theorem setChild_of_ne {c' : Child} (h : c' ≠ c) :
    (s.setChild run c pc).child run c' = s.child run c' := by
  simp [State.setChild, h]

/-- A child that may still use a queue belongs to the current run. -/
theorem Inv.run_eq (h : Inv id s) (hc : (s.child run c).silent = false) : run = s.run := by
  rcases Nat.lt_trichotomy run s.run with hlt | heq | hgt
  · rw [h.past run hlt c] at hc
    cases hc
  · exact heq
  · rw [h.future run hgt c] at hc
    cases hc

/-! ### Steps of the parent -/

/-- The parent moves on, and nothing else does. -/
theorem Inv.advance (h : Inv id s) {next : ParentPc} (hok : next.Ok id s) :
    Inv id { s with parent := next } where
  parent := by
    cases next <;> exact hok
  past := h.past
  future := h.future
  running := h.running
  messages := h.messages
  isolated := h.isolated

/-- A child of the current run comes to a program point, and with it perhaps the parent. -/
theorem Inv.setChild (h : Inv id s) {next : ParentPc}
    (hok : next.Ok id (s.setChild s.run c pc))
    (hrunning : ∀ queue, pc = .running queue → s.names.bound (queueName id) = some queue) :
    Inv id { s.setChild s.run c pc with parent := next } where
  parent := by
    cases next <;> exact hok
  past := by
    intro run hlt c'
    show ((s.setChild s.run c pc).child run c').silent = true
    rw [setChild_of_ne_run (show run ≠ s.run from Nat.ne_of_lt hlt)]
    exact h.past run hlt c'
  future := by
    intro run hgt c'
    show (s.setChild s.run c pc).child run c' = .notForked
    rw [setChild_of_ne_run (show run ≠ s.run from Nat.ne_of_gt hgt)]
    exact h.future run hgt c'
  running := by
    intro c' queue hc'
    by_cases hcc : c' = c
    · subst hcc
      exact hrunning queue (setChild_self.symm.trans hc')
    · exact h.running c' queue ((setChild_of_ne hcc).symm.trans hc')
  messages := h.messages
  isolated := h.isolated

theorem Inv.create (h : Inv id s) (hpc : s.parent = .create) :
    Inv id { s.setMessages s.names.next [] with
      names := s.names.make (queueName id)
      parent := .forkProducer } := by
  have hparent := h.parent
  rw [hpc] at hparent
  obtain ⟨hforked, -⟩ := hparent
  have hbound : (s.names.make (queueName id)).bound (queueName id) = some s.names.next :=
    Function.update_self _ _ _
  have hempty : ∀ queue, (s.names.make (queueName id)).bound (queueName id) = some queue →
      (s.setMessages s.names.next []).messages queue = [] := by
    intro queue hq
    obtain rfl := Option.some.inj (hbound.symm.trans hq)
    exact Function.update_self _ _ _
  refine ⟨⟨hforked, hempty, ?_⟩, h.past, h.future, ?_, ?_, h.isolated⟩
  · show (s.names.make (queueName id)).bound (queueName id) ≠ none
    rw [hbound]
    simp
  · intro c queue hc
    have hnot : s.child s.run c = .running queue := hc
    rw [hforked c] at hnot
    cases hnot
  · intro queue hq m hm
    have hnone : m ∈ (s.setMessages s.names.next []).messages queue := hm
    rw [hempty queue hq] at hnone
    cases hnone

theorem Inv.unlink (h : Inv id s) (hpc : s.parent = .unlink) :
    Inv id { s with names := s.names.unlink (queueName id), parent := .left } := by
  have hparent := h.parent
  rw [hpc] at hparent
  have hexited : ∀ c, s.child s.run c = .exited := hparent
  have hgone : ∀ queue, (s.names.unlink (queueName id)).bound (queueName id) ≠ some queue := by
    intro queue
    rw [KernelNames.unlink_bound_self]
    simp
  refine ⟨⟨fun c => ?_, fun queue hq => absurd hq (hgone queue)⟩, h.past, h.future, ?_, ?_,
    h.isolated⟩
  · show (s.child s.run c).silent = true
    rw [hexited c]
    rfl
  · intro c queue hc
    have hnot : s.child s.run c = .running queue := hc
    rw [hexited c] at hnot
    cases hnot
  · intro queue hq
    exact absurd hq (hgone queue)

theorem Inv.nextRun (h : Inv id s) (hpc : s.parent = .left) :
    Inv id { s with run := s.run + 1, parent := .create } := by
  have hparent := h.parent
  rw [hpc] at hparent
  obtain ⟨hsilent, hempty⟩ := hparent
  have hforked : ∀ c, s.child (s.run + 1) c = .notForked :=
    h.future (s.run + 1) (Nat.lt_succ_self _)
  refine ⟨⟨hforked, hempty⟩, ?_, ?_, ?_, ?_, h.isolated⟩
  · intro run hlt c
    rcases Nat.lt_succ_iff_lt_or_eq.mp hlt with hlt | rfl
    · exact h.past run hlt c
    · exact hsilent c
  · intro run hgt c
    exact h.future run (Nat.lt_of_succ_lt hgt) c
  · intro c queue hc
    have hnot : s.child (s.run + 1) c = .running queue := hc
    rw [hforked c] at hnot
    cases hnot
  · intro queue hq m hm
    have hnone : m ∈ s.messages queue := hm
    rw [hempty queue hq] at hnone
    cases hnone

theorem Inv.forkProducer (h : Inv id s) (hpc : s.parent = .forkProducer) :
    Inv id { s.setChild s.run .producer .attach with parent := .forkConsumer } := by
  have hparent := h.parent
  rw [hpc] at hparent
  obtain ⟨hforked, -, hname⟩ := hparent
  have hconsumer : (s.setChild s.run .producer .attach).child s.run .consumer = .notForked := by
    rw [setChild_of_ne (by decide), hforked]
  apply h.setChild (show ParentPc.forkConsumer.Ok id _ from ⟨hconsumer, hname⟩)
  intro queue hq
  cases hq

/-- The fork of the producer fails before anything has been sent. -/
theorem Inv.leaveUnforked (h : Inv id s) (hpc : s.parent = .forkProducer) :
    Inv id { s with parent := .left } := by
  have hparent := h.parent
  rw [hpc] at hparent
  obtain ⟨hforked, hempty, -⟩ := hparent
  apply h.advance
  refine ⟨fun c => ?_, hempty⟩
  rw [hforked c]
  rfl

/-- The fork of the consumer fails and leaves nothing behind. -/
theorem Inv.leaveForked (h : Inv id s) (hpc : s.parent = .forkConsumer)
    (hsilent : (s.child s.run .producer).silent = true) (hempty : Empty id s) :
    Inv id { s with parent := .left } := by
  have hparent := h.parent
  rw [hpc] at hparent
  obtain ⟨hconsumer, -⟩ := hparent
  apply h.advance
  refine ⟨fun c => ?_, hempty⟩
  cases c with
  | producer => exact hsilent
  | consumer =>
      rw [hconsumer]
      rfl

theorem Inv.parentStep (h : Inv id s) {ok : Bool} (hk : Kept id s (.parent ok))
    (hs : Isolation.parentStep id s ok = some s') : Inv id s' := by
  have hparent := h.parent
  unfold Isolation.parentStep at hs
  cases hpc : s.parent with
  | create =>
      rw [hpc] at hparent hs
      obtain ⟨hforked, hempty⟩ := hparent
      simp only at hs
      split at hs
      · next queue hname =>
          cases hs
          apply h.advance
          refine ⟨hforked, hempty, ?_⟩
          rw [hname]
          simp
      · cases hs
        exact h.create hpc
  | forkProducer =>
      rw [hpc] at hs
      cases ok with
      | true =>
          cases hs
          exact h.forkProducer hpc
      | false =>
          cases hs
          exact h.leaveUnforked hpc
  | forkConsumer =>
      rw [hpc] at hparent hs
      cases ok with
      | true =>
          cases hs
          apply h.setChild (show ParentPc.waitProducer.Ok id _ from hparent.2)
          intro queue hq
          cases hq
      | false =>
          cases hs
          obtain ⟨hproducer, hempty⟩ := hk hpc rfl
          exact h.leaveForked hpc hproducer hempty
  | waitProducer =>
      rw [hpc] at hparent hs
      simp only at hs
      split at hs
      · next hexited =>
          cases hs
          exact h.advance ⟨hexited, hparent⟩
      · cases hs
  | waitConsumer =>
      rw [hpc] at hparent hs
      obtain ⟨hproducer, hname⟩ := hparent
      simp only at hs
      split at hs
      · next hexited =>
          cases hs
          apply h.advance
          intro c
          cases c with
          | producer => exact hproducer
          | consumer => exact hexited
      · cases hs
  | unlink =>
      rw [hpc] at hs
      cases hs
      exact h.unlink hpc
  | left =>
      rw [hpc] at hs
      cases hs
      exact h.nextRun hpc

/-! ### Steps of the children -/

theorem Inv.bound_eq (h : Inv id s) {queue : ℕ} (hc : s.child run c = .running queue) :
    run = s.run ∧ s.names.bound (queueName id) = some queue := by
  obtain rfl : run = s.run := h.run_eq (c := c) (by rw [hc]; rfl)
  exact ⟨rfl, h.running c queue hc⟩

/-- The parent sees the children of its own run only. -/
theorem ok_setChild_of_ne {p : ParentPc} (h : p.Ok id s) (hrun : run ≠ s.run) :
    p.Ok id (s.setChild run c pc) := by
  have hchild : (s.setChild run c pc).child s.run = s.child s.run :=
    setChild_of_ne_run (Ne.symm hrun)
  have hself : (s.setChild run c pc).run = s.run := rfl
  unfold ParentPc.Ok at *
  rw [hself, hchild]
  exact h

/-- A child that has not ended moves on, without waking up. -/
theorem ok_setChild {p : ParentPc} (h : p.Ok id s) (hforked : s.child s.run c ≠ .notForked)
    (hexited : s.child s.run c ≠ .exited)
    (hsilent : (s.child s.run c).silent = true → pc.silent = true) :
    p.Ok id (s.setChild s.run c pc) := by
  have hself : (s.setChild s.run c pc).run = s.run := rfl
  cases p with
  | create => exact absurd (h.1 c) hforked
  | forkProducer => exact absurd (h.1 c) hforked
  | forkConsumer =>
      obtain ⟨hconsumer, hname⟩ := h
      cases c with
      | producer =>
          refine ⟨?_, hname⟩
          rw [hself, setChild_of_ne (by decide)]
          exact hconsumer
      | consumer => exact absurd hconsumer hforked
  | waitProducer => exact h
  | waitConsumer =>
      obtain ⟨hproducer, hname⟩ := h
      cases c with
      | producer => exact absurd hproducer hexited
      | consumer =>
          refine ⟨?_, hname⟩
          rw [hself, setChild_of_ne (by decide)]
          exact hproducer
  | unlink => exact absurd (h c) hexited
  | left =>
      obtain ⟨hall, hempty⟩ := h
      refine ⟨fun c' => ?_, hempty⟩
      rw [hself]
      by_cases hc : c' = c
      · subst hc
        rw [setChild_self]
        exact hsilent (hall c')
      · rw [setChild_of_ne hc]
        exact hall c'

theorem Inv.move (h : Inv id s) (hforked : s.child run c ≠ .notForked)
    (hexited : s.child run c ≠ .exited)
    (hsilent : (s.child run c).silent = true → pc.silent = true)
    (hrunning : ∀ queue, pc = .running queue → s.names.bound (queueName id) = some queue) :
    Inv id (s.setChild run c pc) := by
  rcases Nat.lt_trichotomy run s.run with hlt | rfl | hgt
  · refine ⟨ok_setChild_of_ne h.parent (Nat.ne_of_lt hlt), ?_, ?_, ?_, h.messages, h.isolated⟩
    · intro run' hlt' c'
      by_cases hrun : run' = run
      · subst hrun
        by_cases hc : c' = c
        · subst hc
          rw [setChild_self]
          exact hsilent (h.past run' hlt c')
        · rw [setChild_of_ne hc]
          exact h.past run' hlt c'
      · rw [setChild_of_ne_run hrun]
        exact h.past run' hlt' c'
    · intro run' hgt' c'
      rw [setChild_of_ne_run (Nat.ne_of_gt (Nat.lt_trans hlt hgt'))]
      exact h.future run' hgt' c'
    · intro c' queue hc'
      apply h.running c' queue
      rw [← hc']
      exact congrFun (setChild_of_ne_run (Nat.ne_of_gt hlt)).symm c'
  · exact h.setChild (ok_setChild h.parent hforked hexited hsilent) hrunning
  · exact absurd (h.future run hgt c) hforked

theorem Inv.childStep (h : Inv id s) (hs : Isolation.childStep id s run c = some s') :
    Inv id s' := by
  unfold Isolation.childStep at hs
  rw [queueName_child] at hs
  cases hpc : s.child run c with
  | notForked | exited =>
      rw [hpc] at hs
      cases hs
  | attach =>
      simp only [hpc] at hs
      split at hs
      · next queue hname =>
          cases hs
          apply h.move (by rw [hpc]; decide) (by rw [hpc]; decide)
          · rw [hpc]
            intro hsilent
            cases hsilent
          · intro queue' hq
            cases hq
            exact hname
      · cases hs
        apply h.move (by rw [hpc]; decide) (by rw [hpc]; decide)
        · intro _
          rfl
        · intro queue' hq
          cases hq
  | running queue =>
      simp only [hpc] at hs
      cases hs
      apply h.move (by rw [hpc]; simp) (by rw [hpc]; simp)
      · intro _
        rfl
      · intro queue' hq
        cases hq
  | noQueue =>
      simp only [hpc] at hs
      cases hs
      apply h.move (by rw [hpc]; decide) (by rw [hpc]; decide)
      · intro _
        rfl
      · intro queue' hq
        cases hq

/-! ### Messages -/

/-- While a child uses the queue, the parent does not rely on what is in it. -/
theorem ok_setMessages {p : ParentPc} (h : p.Ok id s) {queue : ℕ}
    (hc : s.child s.run c = .running queue) (messages : List Message) :
    p.Ok id (s.setMessages queue messages) := by
  cases p with
  | create | forkProducer =>
      rw [h.1 c] at hc
      cases hc
  | forkConsumer | waitProducer | waitConsumer | unlink => exact h
  | left =>
      have hsilent := h.1 c
      rw [hc] at hsilent
      cases hsilent

/-- The messages of the queue of the current run change. -/
theorem Inv.setMessages (h : Inv id s) {queue : ℕ} (hc : s.child s.run c = .running queue)
    {messages : List Message} (hsender : ∀ m ∈ messages, m.sender = s.run) :
    Inv id (s.setMessages queue messages) where
  parent := ok_setMessages h.parent hc messages
  past := h.past
  future := h.future
  running := h.running
  messages := by
    intro queue' hq
    obtain rfl := Option.some.inj ((h.running c queue hc).symm.trans hq)
    rw [show (s.setMessages queue messages).messages queue = messages from
      Function.update_self _ _ _]
    exact hsender
  isolated := h.isolated

theorem Inv.send (h : Inv id s) {item : WorkItem} {ok : Bool}
    (hs : Isolation.send s run item ok = some s') : Inv id s' := by
  unfold Isolation.send at hs
  split at hs
  · next queue hc =>
      obtain ⟨rfl, hname⟩ := h.bound_eq hc
      split at hs
      · split at hs
        · cases hs
          apply h.setMessages hc
          intro m hm
          rcases List.mem_append.mp hm with hm | hm
          · exact h.messages queue hname m hm
          · rw [List.mem_singleton.mp hm]
        · cases hs
      · cases hs
        exact h
  · cases hs

theorem Inv.receive (h : Inv id s) {ok : Bool} (hs : Isolation.receive s run ok = some s') :
    Inv id s' := by
  unfold Isolation.receive at hs
  split at hs
  · next queue hc =>
      obtain ⟨rfl, hname⟩ := h.bound_eq hc
      split at hs
      · split at hs
        · cases hs
        · next m rest hqueue =>
            cases hs
            have hall := h.messages queue hname
            rw [hqueue] at hall
            have hrest := h.setMessages hc fun m' hm' => hall m' (List.mem_cons_of_mem m hm')
            refine { hrest with isolated := fun run' m' hm' => ?_ }
            rcases List.mem_append.mp hm' with hm' | hm'
            · exact h.isolated run' m' hm'
            · cases List.mem_singleton.mp hm'
              exact hall m List.mem_cons_self
      · cases hs
        exact h
  · cases hs

/-- **Step lemma.** -/
theorem Inv.step (h : Inv id s) {a : Act} (hk : Kept id s a)
    (hs : Isolation.step id s a = some s') : Inv id s' := by
  cases a with
  | parent ok => exact h.parentStep hk hs
  | child run c => exact h.childStep hs
  | send run item ok => exact h.send hs
  | receive run ok => exact h.receive hs

theorem Inv.start {names : KernelNames (List Char)} {messages : ℕ → List Message}
    (hname : names.bound (queueName id) = none) : Inv id (Isolation.start names messages) where
  parent := by
    refine ⟨fun _ => rfl, fun queue hq => ?_⟩
    rw [show (Isolation.start names messages).names = names from rfl, hname] at hq
    cases hq
  past := by
    intro run hlt
    cases hlt
  future := fun _ _ _ => rfl
  running := by
    intro c queue hc
    cases hc
  messages := by
    intro queue hq
    rw [show (Isolation.start names messages).names = names from rfl, hname] at hq
    cases hq
  isolated := by
    intro run m hm
    cases hm

end steps

theorem inv_of_kept {id : ℕ} {s : State} (h : (system id).ReachableBy (Kept id) s) : Inv id s := by
  apply h.invariant
  · rintro s ⟨names, messages, hname, rfl⟩
    exact Inv.start hname
  · intro s a s' _ hI hk hs
    exact hI.step hk hs

/-! ### What a run can leave behind -/

section leftover
variable {id : ℕ} {s : State}

/-- A run has been left with a message in its queue. -/
structure Leftover (id queue : ℕ) (m : Message) (s : State) : Prop where
  parent : s.parent = .left
  name : s.names.bound (queueName id) = some queue
  messages : ∃ rest, s.messages queue = m :: rest
  sender : m.sender = s.run
  future : ∀ c, s.child (s.run + 1) c = .notForked

/-- The consumer of the next run receives the message. -/
theorem mixed_of_leftover {queue : ℕ} {m : Message} (h : Leftover id queue m s) :
    (system id).CanReach (fun s => ¬ Isolated s) s := by
  obtain ⟨rest, hqueue⟩ := h.messages
  have hrun : ∃ s', (system id).exec s [.parent true, .parent true, .parent true, .parent true,
      .child (s.run + 1) .consumer, .receive (s.run + 1) true] = some s' ∧
      (s.run + 1, m) ∈ s'.received := by
    simp [Lts.exec, system, step, parentStep, childStep, receive, State.setChild,
      State.setMessages, queueName_child, h.parent, h.name, hqueue]
  obtain ⟨s', hs', hmem⟩ := hrun
  refine ⟨_, s', hs', fun hisolated => ?_⟩
  have hsender := hisolated _ m hmem
  rw [h.sender] at hsender
  omega

/-- A run has been left with its producer running on an empty queue: it sends one more item. -/
theorem mixed_of_running {queue : ℕ} (hparent : s.parent = .left)
    (hname : s.names.bound (queueName id) = some queue) (hqueue : s.messages queue = [])
    (hfuture : ∀ c, s.child (s.run + 1) c = .notForked)
    (hc : s.child s.run .producer = .running queue) :
    (system id).CanReach (fun s => ¬ Isolated s) s := by
  have hsend : (system id).step s (.send s.run ⟨0, fun _ => 'z'⟩ true) =
      some (s.setMessages queue [⟨s.run, ⟨0, fun _ => 'z'⟩⟩]) := by
    simp [system, step, send, hc, hqueue, queueSize]
  apply Lts.CanReach.of_step hsend
  exact mixed_of_leftover (m := ⟨s.run, ⟨0, fun _ => 'z'⟩⟩)
    ⟨hparent, hname, ⟨[], Function.update_self _ _ _⟩, rfl, hfuture⟩

/-- **Converse.**  If the fork of the consumer fails and leaves a message or a producer that can
still send, some continuation mixes the runs. -/
theorem mixed_of_not_kept {s' : State} {a : Act} (hI : Inv id s) (hs : step id s a = some s')
    (hk : ¬ Kept id s a) : (system id).CanReach (fun s => ¬ Isolated s) s' := by
  unfold Kept at hk
  push Not at hk
  obtain ⟨hparent, rfl, hleft⟩ := hk
  have hok := hI.parent
  rw [hparent] at hok
  obtain ⟨-, hbound⟩ := hok
  obtain ⟨queue, hname⟩ := Option.ne_none_iff_exists'.mp hbound
  have hfuture : ∀ c, s.child (s.run + 1) c = .notForked := hI.future _ (Nat.lt_succ_self _)
  simp only [step, parentStep, hparent, Bool.false_eq_true, if_false, Option.some.injEq] at hs
  subst hs
  cases hqueue : s.messages queue with
  | cons m rest =>
      have hsender : m.sender = s.run :=
        hI.messages queue hname m (by rw [hqueue]; exact List.mem_cons_self)
      exact mixed_of_leftover (m := m) ⟨rfl, hname, ⟨rest, hqueue⟩, hsender, hfuture⟩
  | nil =>
      have hempty : Empty id s := by
        intro queue' hq
        obtain rfl := Option.some.inj (hname.symm.trans hq)
        exact hqueue
      cases hc : s.child s.run .producer with
      | attach =>
          have hopen : (system id).step { s with parent := .left } (.child s.run .producer) =
              some ({ s with parent := .left }.setChild s.run .producer (.running queue)) := by
            simp [system, step, childStep, hc, queueName_child, hname]
          apply Lts.CanReach.of_step hopen
          apply mixed_of_running
          · rfl
          · exact hname
          · exact hqueue
          · intro c
            have hother : ({ s with parent := .left }.setChild s.run .producer
                (.running queue)).child (s.run + 1) = s.child (s.run + 1) :=
              setChild_of_ne_run (Nat.succ_ne_self _)
            exact (congrFun hother c).trans (hfuture c)
          · exact setChild_self
      | running queue' =>
          obtain rfl := Option.some.inj (hname.symm.trans (hI.running _ _ hc))
          exact mixed_of_running rfl hname hqueue hfuture hc
      | notForked | noQueue | exited =>
          refine absurd hempty (hleft ?_)
          rw [hc]
          rfl

end leftover

/-- **Isolation.**  In every sequence of runs in which a failing fork of a consumer leaves
neither a message nor a producer that can still send, the runs are isolated; any other failing
fork of a consumer leads to a consumer that receives a message of another run. -/
theorem isolation (id : ℕ) :
    (∀ s, (system id).ReachableBy (Kept id) s → Isolated s) ∧
    ∀ s a s', (system id).ReachableBy (Kept id) s → step id s a = some s' → ¬ Kept id s a →
      (system id).CanReach (fun s => ¬ Isolated s) s' :=
  ⟨fun _ h => (inv_of_kept h).isolated,
    fun _ _ _ h hs hk => mixed_of_not_kept (inv_of_kept h) hs hk⟩

/-- The consumer of run 0 is not forked, its producer sends, and run 1 finds the queue. -/
def orphan : List Act :=
  [.parent true, .parent true, .parent false, .child 0 .producer,
    .send 0 ⟨0, fun _ => 'z'⟩ true, .parent true, .parent true, .parent true, .parent true,
    .child 1 .consumer, .receive 1 true]

theorem orphanReceived : ∃ s, (system 0).exec (start .empty fun _ => []) orphan = some s ∧
    s.received.map (fun r => (r.1, r.2.sender, r.2.item.id)) = [(1, 0, 0)] ∧
    ¬ Isolated s := by
  have hrun : ∃ s, (system 0).exec (start .empty fun _ => []) orphan = some s ∧
      s.received = [(1, ⟨0, ⟨0, fun _ => 'z'⟩⟩)] := ⟨_, rfl, rfl⟩
  obtain ⟨s, hs, hreceived⟩ := hrun
  refine ⟨s, hs, by rw [hreceived]; rfl, fun h => ?_⟩
  have hsender := h 1 ⟨0, ⟨0, fun _ => 'z'⟩⟩ (by rw [hreceived]; exact List.mem_cons_self)
  cases hsender

end LinuxProgramming.MessageQueue.Isolation
