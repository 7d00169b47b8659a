import LinuxProgramming.Items.Text
import LinuxProgramming.Line
import LinuxProgramming.RingQueue.Completion
import LinuxProgramming.SharedMemory.Delivery

/-! # The shared-memory pipeline from its ends

Seen are the items that are cooked and those that are consumed.  Between them an item is saved,
in the ring, or in the consumer's hands, so the pipeline over a queue of `size` items is a line of
`size + 2` places (`carries`).  What is done with the items inside, in whatever steps and after
whatever timeouts, goes on until nothing more can be done before one of the ends moves
(`settled_of_blocked`). -/

namespace LinuxProgramming.SharedMemory.Delivery

open Items
open RingQueue (only)

variable {id size : ℕ} {s s' : State} {a : Act}

/-- What is seen of a step. -/
def observe (s : State) : Act → List (Fifo.Op (ℕ × List Char))
  | .work rand =>
      match s.producer.pc with
      | .outside =>
          if s.producer.validSavedWorkItem then []
          else [.enq (cookItem s.producer.nextItemId rand s.producer.savedWorkItem).1.seen]
      | _ => []
  | .consume =>
      match s.consumer with
      | .popped item => [.deq item.seen]
      | _ => []
  | _ => []

/-- The items on their way, oldest first. -/
def onTheWay (s : State) : List WorkItem :=
  s.consumer.inHand ++ RingQueue.inFlight s.ring ++ pending s

theorem step_logs (hs : step s a = some s') :
    s'.cooked.map WorkItem.seen = s.cooked.map WorkItem.seen ++ Fifo.enqs (observe s a) ∧
    s'.consumed.map WorkItem.seen = s.consumed.map WorkItem.seen ++ Fifo.deqs (observe s a) := by
  cases a with
  | work rand =>
      simp only [step] at hs
      split at hs
      · next hpc =>
          split at hs
          · next hvalid =>
              cases hs
              simp [observe, hpc, hvalid, Fifo.enqs, Fifo.deqs]
          · next hvalid =>
              cases hs
              simp [observe, hpc, hvalid, Fifo.enqs, Fifo.deqs]
      · cases hs
  | push a | pop a =>
      simp only [step] at hs
      split at hs
      · obtain ⟨ring, -, rfl⟩ := Option.map_eq_some_iff.mp hs
        simp [observe, Fifo.enqs, Fifo.deqs]
      · cases hs
  | test | receive =>
      simp only [step] at hs
      split at hs <;> cases hs <;> simp [observe, Fifo.enqs, Fifo.deqs]
  | consume =>
      simp only [step] at hs
      split at hs
      · next item hpc =>
          cases hs
          simp [observe, hpc, Fifo.enqs, Fifo.deqs]
      · cases hs

theorem length_inHand_le (pc : ConsumerPc) : pc.inHand.length ≤ 1 := by
  cases pc <;> simp [ConsumerPc.inHand]

/-- An item is cooked only when there is room, and it is the next one of the producer. -/
theorem observe_cases (h : (system id size).Reachable s) : observe s a = [] ∨
    (∃ x, observe s a = [.enq x] ∧ (onTheWay s).length < size + 2 ∧ Cookable id s.cooked.length x) ∨
    ∃ x, observe s a = [.deq x] := by
  cases a with
  | push a | pop a | test | receive => exact .inl rfl
  | consume =>
      simp only [observe]
      split
      · exact .inr (.inr ⟨_, rfl⟩)
      · exact .inl rfl
  | work rand =>
      have hI := reachable_inv h
      cases hpc : s.producer.pc with
      | pushing | returned ok => exact .inl (by simp only [observe, hpc])
      | outside =>
          cases hvalid : s.producer.validSavedWorkItem with
          | true => exact .inl (by simp only [observe, hpc, hvalid, if_true])
          | false =>
              refine .inr (.inl ⟨_, by simp [observe, hpc, hvalid]; rfl, ?_, hI.counted.seen_cook _ _⟩)
              have hpending : pending s = [] := by simp [pending, hpc, hvalid]
              have hhand := length_inHand_le s.consumer
              have hflight := RingQueue.pushSem_add_inFlight hI.ring
              simp only [onTheWay, hpending, List.append_nil, List.length_append]
              omega

/-! ### What goes on inside -/

/-- The steps until the item of the producer is in the queue. -/
def Producer.left (p : Producer) (pc : RingQueue.PushPc WorkItem) : ℕ :=
  match p.pc with
  | .outside => if p.validSavedWorkItem then 8 else 0
  | .pushing => if pc.busy = 0 then 7 else pc.left + 1
  | .returned true => 1
  | .returned false => 9

/-- The steps until the consumer has an item. -/
def ConsumerPc.left (pc : RingQueue.PopPc WorkItem) : ConsumerPc → ℕ
  | .outside => 7
  | .popping => if pc.busy = 0 then 6 else pc.left
  | .popped _ => 0

def State.left (s : State) : ℕ :=
  s.producer.left (s.ring.push only) + s.consumer.left (s.ring.pop only)

/-- A step inside the pipeline, other than a timeout. -/
def Going (s : State) : Act → Prop
  | .work _ => s.producer.validSavedWorkItem = true
  | .push a => a ≠ .timeout ()
  | .pop a => a ≠ .timeout
  | .consume => False
  | _ => True

theorem observe_of_going (ha : Going s a) : observe s a = [] := by
  cases a with
  | push a | pop a | test | receive => rfl
  | consume => exact ha.elim
  | work rand =>
      have hvalid : s.producer.validSavedWorkItem = true := ha
      simp only [observe, hvalid, if_true]
      split <;> rfl

theorem left_push (hpc : s.producer.pc = .pushing) {b : RingQueue.PushAct Unit}
    {ring : RingQueue.State WorkItem 1 1} (hb : b ≠ .timeout ())
    (hs : RingQueue.PushStep s.ring 0 (pushOf s.producer.savedWorkItem b) ring) :
    ring.pop = s.ring.pop ∧
    { s.producer with pc := afterPush b }.left (ring.push 0) < s.producer.left (s.ring.push 0) := by
  cases b with
  | timeout => exact absurd rfl hb
  | take | lock | reserve | unlock | copy | post =>
      cases hs
      have hi := ‹s.ring.push 0 = _›
      simp [Producer.left, hpc, hi, afterPush, RingQueue.PushPc.left, RingQueue.PushPc.busy]

theorem left_pop {b : RingQueue.PopAct} {ring : RingQueue.State WorkItem 1 1}
    (hb : b ≠ .timeout) (hs : RingQueue.PopStep s.ring 0 b ring) :
    ring.push = s.ring.push ∧
    (afterPop (s.ring.pop 0) b).left (ring.pop 0) < ConsumerPc.popping.left (s.ring.pop 0) := by
  cases b with
  | timeout => exact absurd rfl hb
  | take | lock | claim | unlock | copy | post =>
      cases hs
      have hi := ‹s.ring.pop 0 = _›
      simp [ConsumerPc.left, hi, afterPop, RingQueue.PopPc.left, RingQueue.PopPc.busy]

/-- Every step inside brings the items on. -/
theorem left_of_going (h : Inv id size s) (ha : Going s a) (hs : step s a = some s') :
    s'.left < s.left := by
  have hproducer := h.producer
  have hconsumer := h.consumer
  cases a with
  | consume => exact ha.elim
  | work rand =>
      have hvalid : s.producer.validSavedWorkItem = true := ha
      simp only [step, hvalid, if_true] at hs
      split at hs
      · next hpc =>
          cases hs
          have hidle : s.ring.push 0 = .idle := by simpa [Producer.Ok, hpc] using hproducer
          simp [State.left, Producer.left, hpc, hvalid, hidle, RingQueue.PushPc.busy]
      · cases hs
  | push b =>
      simp only [step] at hs
      split at hs
      · next hpc =>
          obtain ⟨ring, hring, rfl⟩ := Option.map_eq_some_iff.mp hs
          obtain ⟨hpop, hleft⟩ := left_push hpc ha (RingQueue.pushStep_iff.mp hring)
          simp only [State.left, hpop]
          exact Nat.add_lt_add_right hleft _
      · cases hs
  | test =>
      simp only [step] at hs
      split at hs
      · next hpc =>
          cases hs
          simp [State.left, Producer.left, hpc]
      · next hpc =>
          cases hs
          simp only [State.left, Producer.left, hpc]
          split <;> omega
      · cases hs
  | receive =>
      simp only [step] at hs
      split at hs
      · next hpc =>
          cases hs
          have hidle : s.ring.pop 0 = .idle := by simpa [ConsumerPc.Ok, hpc] using hconsumer
          simp [State.left, ConsumerPc.left, hpc, hidle, RingQueue.PopPc.busy]
      · cases hs
  | pop b =>
      simp only [step] at hs
      split at hs
      · next hpc =>
          obtain ⟨ring, hring, rfl⟩ := Option.map_eq_some_iff.mp hs
          obtain ⟨hpush, hleft⟩ := left_pop ha (RingQueue.popStep_iff.mp hring)
          simp only [State.left, hpush, hpc]
          exact Nat.add_lt_add_left hleft _
      · cases hs

/-! ### Where the steps inside end -/

/-- Nothing is left to do inside: the item of the producer is in the queue, or the ring is full;
the consumer has an item, or the ring is empty. -/
structure Settled (s : State) : Prop where
  push : s.ring.push 0 = .idle
  pop : s.ring.pop 0 = .idle
  producer : (s.producer.pc = .outside ∧ s.producer.validSavedWorkItem = false) ∨
    (s.producer.pc = .pushing ∧ s.ring.q.pushSem = 0)
  consumer : (∃ item, s.consumer = .popped item) ∨
    (s.consumer = .popping ∧ s.ring.q.popSem = 0)

/-- A step of a call in the ring is one of the thread that has called. -/
theorem exists_pushOf (item : WorkItem) {b : RingQueue.PushAct WorkItem}
    (hb : (RingQueue.Act.push 0 b : RingQueue.Act WorkItem 1 1).Completing) :
    ∃ b', pushOf item b' = b ∧ b' ≠ .timeout () := by
  cases b with
  | timeout | take => exact hb.elim
  | lock => exact ⟨.lock, rfl, by simp⟩
  | reserve => exact ⟨.reserve, rfl, by simp⟩
  | unlock => exact ⟨.unlock, rfl, by simp⟩
  | copy => exact ⟨.copy, rfl, by simp⟩
  | post => exact ⟨.post, rfl, by simp⟩

theorem pushing_of_busy (h : Inv id size s) (hne : s.ring.push 0 ≠ .idle) :
    s.producer.pc = .pushing := by
  have hproducer := h.producer
  unfold Producer.Ok at hproducer
  cases hpc : s.producer.pc with
  | pushing => rfl
  | outside =>
      rw [hpc] at hproducer
      exact absurd hproducer hne
  | returned ok =>
      rw [hpc] at hproducer
      exact absurd hproducer.1 hne

theorem popping_of_busy (h : Inv id size s) (hne : s.ring.pop 0 ≠ .idle) :
    s.consumer = .popping := by
  have hconsumer := h.consumer
  cases hpc : s.consumer with
  | popping => rfl
  | outside | popped item =>
      rw [hpc] at hconsumer
      exact absurd hconsumer hne

/-- While a call in the ring is in progress, one of them can move. -/
theorem ring_moves (h : Inv id size s) (hbusy : ¬ RingQueue.Idle s.ring) : ∃ a s',
    ((∃ b, a = .push b ∧ b ≠ .timeout ()) ∨ ∃ b, a = .pop b ∧ b ≠ .timeout) ∧
    step s a = some s' := by
  obtain ⟨l, ring, hl, hring⟩ := (RingQueue.reachable_inv h.ring).moves hbusy
  cases l with
  | push i b =>
      obtain rfl : i = 0 := Subsingleton.elim _ _
      have hpc := pushing_of_busy h ((RingQueue.pushStep_iff.mp hring).busy hl)
      obtain ⟨b', hb', hne⟩ := exists_pushOf s.producer.savedWorkItem hl
      have hstep : RingQueue.pushStep s.ring 0 b = some ring := hring
      exact ⟨.push b', _, .inl ⟨b', rfl, hne⟩, by simp only [step, hpc, hb', hstep]; rfl⟩
  | pop i b =>
      obtain rfl : i = 0 := Subsingleton.elim _ _
      have hpc := popping_of_busy h ((RingQueue.popStep_iff.mp hring).busy hl)
      have hstep : RingQueue.popStep s.ring 0 b = some ring := hring
      have hne : b ≠ .timeout := by
        rintro rfl
        exact hl.elim
      exact ⟨.pop b, _, .inr ⟨b, rfl, hne⟩, by simp only [step, hpc, hstep]; rfl⟩

theorem settled_of_blocked (h : Inv id size s) (hblocked : ∀ a, Going s a → step s a = none) :
    Settled s := by
  have hidle : RingQueue.Idle s.ring := by
    by_contra hbusy
    obtain ⟨a, s', ha, hstep⟩ := ring_moves h hbusy
    have hgoing : Going s a := by
      rcases ha with ⟨b, rfl, hb⟩ | ⟨b, rfl, hb⟩ <;> exact hb
    rw [hblocked a hgoing] at hstep
    cases hstep
  have hpush := hidle.1 0
  have hpop := hidle.2 0
  refine ⟨hpush, hpop, ?_, ?_⟩
  · cases hpc : s.producer.pc with
    | outside =>
        cases hvalid : s.producer.validSavedWorkItem with
        | false => exact .inl ⟨rfl, rfl⟩
        | true =>
            have hnone := hblocked (.work fun _ => 0) hvalid
            simp [step, hpc, hvalid] at hnone
    | pushing =>
        refine .inr ⟨rfl, Nat.eq_zero_of_not_pos fun hpos => ?_⟩
        have hnone := hblocked (.push (.take ())) (by intro htake; cases htake)
        simp [step, hpc, pushOf, RingQueue.pushStep, hpush, hpos] at hnone
    | returned ok =>
        have hnone := hblocked .test trivial
        cases ok <;> simp [step, hpc] at hnone
  · cases hpc : s.consumer with
    | popped item => exact .inl ⟨item, rfl⟩
    | outside =>
        have hnone := hblocked .receive trivial
        simp [step, hpc] at hnone
    | popping =>
        refine .inr ⟨rfl, Nat.eq_zero_of_not_pos fun hpos => ?_⟩
        have hnone := hblocked (.pop .take) (by intro htake; cases htake)
        simp [step, hpc, RingQueue.popStep, hpop, hpos] at hnone

/-- Between calls the units of `m_pop_sem` are the items in the ring. -/
theorem popSem_eq (h : Inv id size s) (hs : Settled s) :
    s.ring.q.popSem = (RingQueue.inFlight s.ring).length := by
  have hpush : ∀ i, s.ring.push i = .idle := fun i => by rw [Subsingleton.elim i 0, hs.push]
  have hpop : ∀ i, s.ring.pop i = .idle := fun i => by rw [Subsingleton.elim i 0, hs.pop]
  have hquiet := ((RingQueue.reachable_inv h.ring).quiet hpush hpop).1
  rw [(RingQueue.ring_eq h.ring hs.push hs.pop).1] at hquiet
  exact_mod_cast hquiet

/-- A settled pipeline with room is one whose producer cooks next. -/
theorem producer_of_room (h : Inv id size s) (hs : Settled s) (hsize : 0 < size)
    (hroom : (onTheWay s).length < size + 2) :
    s.producer.pc = .outside ∧ s.producer.validSavedWorkItem = false := by
  rcases hs.producer with hproducer | ⟨hpc, hsem⟩
  · exact hproducer
  have hflight := RingQueue.pushSem_add_inFlight h.ring
  have hpopSem := popSem_eq h hs
  have hpending : pending s = [s.producer.savedWorkItem] := by simp [pending, hpc, hs.push]
  rcases hs.consumer with ⟨item, hitem⟩ | ⟨hpopping, hzero⟩
  · simp only [onTheWay, hpending, hitem, ConsumerPc.inHand, List.length_append,
      List.length_singleton] at hroom
    omega
  · omega

/-- A settled pipeline with an item is one whose consumer consumes next. -/
theorem consumer_of_ne_nil (h : Inv id size s) (hs : Settled s) (hsize : 0 < size)
    (hne : onTheWay s ≠ []) : ∃ item, s.consumer = .popped item := by
  rcases hs.consumer with hitem | ⟨hpopping, hzero⟩
  · exact hitem
  have hflight := RingQueue.pushSem_add_inFlight h.ring
  have hpopSem := popSem_eq h hs
  rcases hs.producer with ⟨hpc, hvalid⟩ | ⟨hpc, hsem⟩
  · have hnil : RingQueue.inFlight s.ring = [] := List.eq_nil_of_length_eq_zero (by omega)
    exact absurd (by simp [onTheWay, hpopping, ConsumerPc.inHand, hnil, pending, hpc, hvalid]) hne
  · omega

/-! ### The line -/

/-- The pipeline carries what its producer cooks over the saved item, the ring and the consumer's
hands. -/
def carries (id : ℕ) {size : ℕ} (hsize : 0 < size) :
    Line.Carries (system id size) observe (Cookable id) (size + 2) where
  put s := s.cooked.map WorkItem.seen
  got s := s.consumed.map WorkItem.seen
  inside s := (onTheWay s).map WorkItem.seen
  settled := Settled
  nonempty := ⟨_, fun _ => ⟨0, fun _ => 'z'⟩, ⟨0, fun _ => 'z'⟩, rfl⟩
  start := by
    rintro s ⟨raw, uninit, rfl⟩
    exact ⟨rfl, rfl⟩
  split := by
    intro s hr
    rw [← List.map_append, cooked_eq hr]
    simp only [onTheWay, List.append_assoc]
  put_step := fun _ _ _ hs => (step_logs hs).1
  got_step := fun _ _ _ hs => (step_logs hs).2
  shown := by
    intro s a s' hr hs
    simpa only [List.length_map] using observe_cases (a := a) hr
  settle := by
    intro s hr
    obtain ⟨acts, s', he, halong, hblocked⟩ := Lts.exists_blocked (M := system id size)
      (fun _ _ _ hr _ hs => Lts.Reachable.next hr hs)
      (fun _ _ _ hr ha hs => left_of_going (reachable_inv hr) ha hs) _ s hr rfl
    exact ⟨acts, s', he, halong.trace_eq_nil fun _ _ ha => observe_of_going ha,
      settled_of_blocked (reachable_inv (hr.exec he)) hblocked⟩
  canPut := by
    intro s x hr hsettled hroom hx
    have hI := reachable_inv hr
    rw [List.length_map] at hroom hx
    obtain ⟨hpc, hvalid⟩ := producer_of_room hI hsettled hsize hroom
    obtain ⟨rand, hrand⟩ := hI.counted.exists_cook hx
    refine ⟨.work rand, _, by simp only [system, step, hpc, hvalid]; rfl, ?_⟩
    simp [observe, hpc, hvalid, hrand]
  canGet := by
    intro s hr hsettled hne
    obtain ⟨item, hitem⟩ := consumer_of_ne_nil (reachable_inv hr) hsettled hsize
      fun hnil => hne (by rw [hnil, List.map_nil])
    refine ⟨.consume, _, item.seen, by simp only [system, step, hitem]; rfl, ?_⟩
    simp only [observe, hitem]

end LinuxProgramming.SharedMemory.Delivery
