import LinuxProgramming.MessageQueue.Delivery
import LinuxProgramming.SharedMemory.Line

/-! # The two implementations from their ends

As long as no call of `mq_timedsend` fails, the pipeline over a message queue is a line too: an
item is in the local variable of the producer, in the queue, or in that of the consumer.  It has
as many places as the pipeline through shared memory over a queue of the same size, so from the
items cooked and consumed the two implementations cannot be told apart (`pipelines_agree`). -/

namespace LinuxProgramming.MessageQueue.Delivery

open Items

variable {id cap : ℕ} {s s' : State} {a : Act}

/-- A step in which `mq_timedsend` does not fail. -/
def keptStep (cap : ℕ) (s : State) : Act → Option State
  | .send false => none
  | a => step cap s a

/-- The pipeline when both parties have opened the queue and no call of `mq_timedsend` fails. -/
def reliable (id cap : ℕ) : Lts State Act where
  init s := s = start id true true
  step := keptStep cap

/-- What is seen of a step. -/
def observe (s : State) : Act → List (Fifo.Op (ℕ × List Char))
  | .work rand memory =>
      match s.producer.item with
      | none =>
          if s.producer.mqd then [.enq (cookItem s.producer.nextItemId rand memory).1.seen] else []
      | some _ => []
  | .consume =>
      match s.consumer.item with
      | some item => [.deq item.seen]
      | none => []
  | _ => []

theorem keptStep_eq_some (hs : keptStep cap s a = some s') : Kept s a ∧ step cap s a = some s' := by
  unfold keptStep at hs
  split at hs
  · cases hs
  · next hne => exact ⟨fun hsend => absurd hsend hne, hs⟩

theorem step_logs (hs : step cap s a = some s') :
    s'.cooked.map WorkItem.seen = s.cooked.map WorkItem.seen ++ Fifo.enqs (observe s a) ∧
    s'.consumed.map WorkItem.seen = s.consumed.map WorkItem.seen ++ Fifo.deqs (observe s a) := by
  cases a with
  | send ok => cases step_cases hs <;> simp [observe, Fifo.enqs, Fifo.deqs]
  | receive ok => cases step_cases hs <;> simp [observe, receiveItem, Fifo.enqs, Fifo.deqs]
  | consume =>
      cases step_cases hs with
      | consume item hitem => simp [observe, hitem, consumeItem, Fifo.enqs, Fifo.deqs]
  | work rand memory =>
      simp only [step] at hs
      split at hs
      · cases hs
      · next hitem =>
          split at hs
          · next hmqd =>
              cases hs
              simp [observe, hitem, hmqd, Fifo.enqs, Fifo.deqs]
          · next hmqd =>
              cases hs
              simp [observe, hitem, hmqd, Fifo.enqs, Fifo.deqs]

/-! ### Reliable runs -/

/-- Both parties use the queue, which is never overfull. -/
structure Open (cap : ℕ) (s : State) : Prop where
  producer : s.producer.mqd = true
  consumer : s.consumer.mqd = true
  queue : s.queue.length ≤ cap

theorem kept_of_reachable (h : (reliable id cap).Reachable s) :
    (system id cap).ReachableBy Kept s ∧ Open cap s := by
  apply h.invariant
  · rintro s rfl
    exact ⟨.init ⟨true, true, rfl⟩, rfl, rfl, Nat.zero_le _⟩
  · rintro s a s' ⟨hr, hopen⟩ hs
    obtain ⟨hkept, hs⟩ := keptStep_eq_some hs
    refine ⟨hr.step hkept hs, ?_⟩
    cases step_cases hs with
    | noQueue | cook | dropped | nothing | consume =>
        exact ⟨hopen.producer, hopen.consumer, hopen.queue⟩
    | sent item hitem hroom =>
        refine ⟨hopen.producer, hopen.consumer, ?_⟩
        simp only [List.length_append, List.length_singleton]
        exact hroom
    | received ok item queue hmqd hitem hqueue =>
        refine ⟨hopen.producer, hopen.consumer, ?_⟩
        have hle := hopen.queue
        rw [hqueue, List.length_cons] at hle
        exact Nat.le_of_succ_le hle

theorem length_toList_le (item : Option WorkItem) : item.toList.length ≤ 1 := by
  cases item <;> simp

theorem observe_cases (h : (reliable id cap).Reachable s) : observe s a = [] ∨
    (∃ x, observe s a = [.enq x] ∧ (onTheWay s).length < cap + 2 ∧ Cookable id s.cooked.length x) ∨
    ∃ x, observe s a = [.deq x] := by
  obtain ⟨hr, hopen⟩ := kept_of_reachable h
  cases a with
  | send ok | receive ok => exact .inl rfl
  | consume =>
      simp only [observe]
      split
      · exact .inr (.inr ⟨_, rfl⟩)
      · exact .inl rfl
  | work rand memory =>
      cases hitem : s.producer.item with
      | some item => exact .inl (by simp only [observe, hitem])
      | none =>
          refine .inr (.inl ⟨_, by simp only [observe, hitem, hopen.producer, if_true]; rfl, ?_,
            (counted_of_reachable hr.reachable).seen_cook _ _⟩)
          have hhand := length_toList_le s.consumer.item
          have hqueue := hopen.queue
          simp only [onTheWay, hitem, Option.toList_none, List.append_nil, List.length_append]
          omega

/-! ### What goes on inside -/

/-- The steps until the items are as far as they can be. -/
def State.left (s : State) : ℕ := 2 * s.producer.item.toList.length + s.queue.length

def Going (a : Act) : Prop := a = .send true ∨ a = .receive true

theorem observe_of_going (s : State) (ha : Going a) : observe s a = [] := by
  rcases ha with rfl | rfl <;> rfl

theorem left_of_going (hopen : Open cap s) (ha : Going a) (hs : step cap s a = some s') :
    s'.left < s.left := by
  rcases ha with rfl | rfl
  · cases step_cases hs with
    | sent item hitem hroom =>
        simp only [State.left, hitem, Option.toList_some, Option.toList_none, List.length_append,
          List.length_singleton, List.length_nil]
        omega
  · simp only [step] at hs
    split at hs
    · cases hs
    · rw [if_pos ⟨hopen.consumer, trivial⟩] at hs
      split at hs
      · cases hs
      · next item queue hqueue =>
          cases hs
          simp [State.left, receiveItem, hqueue]

/-- Nothing is left to do inside. -/
structure Settled (cap : ℕ) (s : State) : Prop where
  producer : s.producer.item = none ∨ s.queue.length = cap
  consumer : (∃ item, s.consumer.item = some item) ∨ s.queue = []

theorem settled_of_blocked (hopen : Open cap s)
    (hblocked : ∀ a, Going a → keptStep cap s a = none) : Settled cap s where
  producer := by
    cases hitem : s.producer.item with
    | none => exact .inl rfl
    | some item =>
        have hnone := hblocked (.send true) (.inl rfl)
        simp only [keptStep, step, hitem, if_true, ite_eq_right_iff, reduceCtorEq, imp_false] at hnone
        exact .inr (le_antisymm hopen.queue (not_lt.mp hnone))
  consumer := by
    cases hitem : s.consumer.item with
    | some item => exact .inl ⟨item, rfl⟩
    | none =>
        have hnone := hblocked (.receive true) (.inr rfl)
        cases hqueue : s.queue with
        | nil => exact .inr rfl
        | cons item queue => simp [keptStep, step, hitem, hqueue, hopen.consumer] at hnone

/-- A settled pipeline with room is one whose producer cooks next. -/
theorem producer_of_room (hs : Settled cap s) (hcap : 0 < cap)
    (hroom : (onTheWay s).length < cap + 2) : s.producer.item = none := by
  rcases hs.producer with hnone | hfull
  · exact hnone
  rcases hs.consumer with ⟨item, hitem⟩ | hempty
  · cases hproducer : s.producer.item with
    | none => rfl
    | some item' =>
        simp only [onTheWay, hitem, hproducer, Option.toList_some, List.length_append,
          List.length_singleton] at hroom
        omega
  · rw [hempty] at hfull
    exact absurd hfull (Nat.ne_of_lt hcap)

/-- A settled pipeline with an item is one whose consumer consumes next. -/
theorem consumer_of_ne_nil (hs : Settled cap s) (hcap : 0 < cap) (hne : onTheWay s ≠ []) :
    ∃ item, s.consumer.item = some item := by
  rcases hs.consumer with hitem | hempty
  · exact hitem
  cases hitem : s.consumer.item with
  | some item => exact ⟨item, rfl⟩
  | none =>
      rcases hs.producer with hnone | hfull
      · exact absurd (by simp [onTheWay, hitem, hempty, hnone]) hne
      · rw [hempty] at hfull
        exact absurd hfull (Nat.ne_of_lt hcap)

/-! ### The line -/

/-- The pipeline carries what its producer cooks over the two local variables and the queue. -/
def carries (id : ℕ) {cap : ℕ} (hcap : 0 < cap) :
    Line.Carries (reliable id cap) observe (Cookable id) (cap + 2) where
  put s := s.cooked.map WorkItem.seen
  got s := s.consumed.map WorkItem.seen
  inside s := (onTheWay s).map WorkItem.seen
  settled := Settled cap
  nonempty := ⟨_, rfl⟩
  start := by
    rintro s rfl
    exact ⟨rfl, rfl⟩
  split := by
    intro s h
    obtain ⟨hr, hopen⟩ := kept_of_reachable h
    rw [← List.map_append, cooked_eq hr hopen.consumer]
  put_step := fun _ _ _ hs => (step_logs (keptStep_eq_some hs).2).1
  got_step := fun _ _ _ hs => (step_logs (keptStep_eq_some hs).2).2
  shown := by
    intro s a s' h hs
    simpa only [List.length_map] using observe_cases (a := a) h
  settle := by
    intro s h
    obtain ⟨acts, s', he, halong, hblocked⟩ := Lts.exists_blocked (M := reliable id cap)
      (fun _ _ _ hr _ hs => Lts.Reachable.next hr hs)
      (fun _ _ _ hr ha hs =>
        left_of_going (kept_of_reachable hr).2 ha (keptStep_eq_some hs).2) _ s h rfl
    exact ⟨acts, s', he, halong.trace_eq_nil fun s a (ha : Going a) => observe_of_going s ha,
      settled_of_blocked (kept_of_reachable (h.exec he)).2 hblocked⟩
  canPut := by
    intro s x h hsettled hroom hx
    obtain ⟨hr, hopen⟩ := kept_of_reachable h
    rw [List.length_map] at hroom hx
    have hitem := producer_of_room hsettled hcap hroom
    obtain ⟨rand, hrand⟩ := (counted_of_reachable hr.reachable).exists_cook hx
    refine ⟨.work rand ⟨0, fun _ => 'z'⟩, _, by
      simp only [reliable, keptStep, step, hitem, hopen.producer, if_true]; rfl, ?_⟩
    simp only [observe, hitem, hopen.producer, if_true, hrand]
  canGet := by
    intro s h hsettled hne
    obtain ⟨item, hitem⟩ := consumer_of_ne_nil hsettled hcap
      fun hnil => hne (by rw [hnil, List.map_nil])
    refine ⟨.consume, _, item.seen, by simp only [reliable, keptStep, step, hitem]; rfl, ?_⟩
    simp only [observe, hitem]

/-- **The two implementations agree.**  Over queues of the same size, what is seen of the
pipeline through shared memory, whatever calls time out, and what is seen of the pipeline through
a message queue, as long as no send fails, are the same: the runs of a line of two more places
than the queue, into which the producer puts any text under the next of its ids. -/
theorem pipelines_agree {id size : ℕ} (hsize : 0 < size) (tr : List (Fifo.Op (ℕ × List Char))) :
    ((SharedMemory.Delivery.system id size).Shows SharedMemory.Delivery.observe tr ↔
      ∃ t, (Line.system (Cookable id) (size + 2)).exec ⟨0, []⟩ tr = some t) ∧
    ((reliable id size).Shows observe tr ↔
      ∃ t, (Line.system (Cookable id) (size + 2)).exec ⟨0, []⟩ tr = some t) :=
  ⟨(SharedMemory.Delivery.carries id hsize).shows_iff, (carries id hsize).shows_iff⟩

/-- Over a queue of one item three items can be cooked before the first is consumed. -/
theorem pipelines_agree_oneItem :
    (SharedMemory.Delivery.system 0 1).Shows SharedMemory.Delivery.observe
      [.enq (0, []), .enq (1, ['a']), .enq (2, ['z']), .deq (0, [])] ∧
    (reliable 0 1).Shows observe
      [.enq (0, []), .enq (1, ['a']), .enq (2, ['z']), .deq (0, [])] := by
  obtain ⟨hshared, hqueue⟩ := @pipelines_agree 0 1 (by decide)
    [.enq (0, []), .enq (1, ['a']), .enq (2, ['z']), .deq (0, [])]
  have hrun : ∃ t, (Line.system (Cookable 0) 3).exec ⟨0, []⟩
      [.enq (0, []), .enq (1, ['a']), .enq (2, ['z']), .deq (0, [])] = some t := by
    have hfirst : Cookable 0 0 (0, []) := ⟨rfl, by decide, by simp⟩
    have hsecond : Cookable 0 1 (1, ['a']) :=
      ⟨rfl, by decide, by simp only [List.mem_singleton, forall_eq]; decide⟩
    have hthird : Cookable 0 2 (2, ['z']) :=
      ⟨rfl, by decide, by simp only [List.mem_singleton, forall_eq]; decide⟩
    refine ⟨⟨3, [(1, ['a']), (2, ['z'])]⟩, ?_⟩
    rw [Lts.exec_cons_of_step _ _ (Line.step_enq (by decide) hfirst),
      Lts.exec_cons_of_step _ _ (Line.step_enq (by decide) hsecond),
      Lts.exec_cons_of_step _ _ (Line.step_enq (by decide) hthird)]
    exact Lts.exec_cons_of_step _ _ (Line.step_deq _ _ _)
  exact ⟨hshared.mpr hrun, hqueue.mpr hrun⟩

end LinuxProgramming.MessageQueue.Delivery
