import LinuxProgramming.Lts
import LinuxProgramming.Items.WorkItem

/-! # Delivery through a message queue

The pipeline of `Chapter14/MessageQueue`: a producer and a consumer repeat their `work()` on one
kernel queue, a bounded FIFO on which `mq_timedsend` either appends its message or fails without
effect.  Every item has the same priority.

The producer keeps its item in a local variable of `work()` and drops it when `mq_timedsend`
fails.  So nothing is ever delivered twice or out of order (`inOrder`), and nothing is lost as
long as no call of `mq_timedsend` fails; the first item dropped shows as a gap in what a
consumer goes on to receive (`delivery`). -/

namespace LinuxProgramming.MessageQueue.Delivery

open Items

/-- `class Producer`; `mqd` says that `mq_open` has succeeded, and `item` is the local variable
of a call of `work()` that is about to send. -/
structure Producer where
  mqd : Bool
  nextItemId : ℕ
  producedCount : ℕ
  item : Option WorkItem

/-- `class Consumer`; `item` is the local variable of a call that has received. -/
structure Consumer where
  mqd : Bool
  consumedCount : ℕ
  item : Option WorkItem

/-- The kernel queue and its two parties; `cooked` and `consumed` are the items that `cook_item`
has made and that `consume_item` was given, in order. -/
structure State where
  queue : List WorkItem
  producer : Producer
  consumer : Consumer
  cooked : List WorkItem
  consumed : List WorkItem

/-- The label of a call on the queue says whether it succeeds; `memory` is what the local
variable `item` holds before it is cooked. -/
inductive Act where
  | work (rand : ℕ → ℕ) (memory : WorkItem)
  | send (ok : Bool)
  | receive (ok : Bool)
  | consume

/-- `mq_timedreceive` takes the oldest message. -/
def receiveItem (s : State) (item : WorkItem) (queue : List WorkItem) : State :=
  { s with queue := queue, consumer := { s.consumer with item := some item } }

/-- `consume_item`. -/
def consumeItem (s : State) (item : WorkItem) : State :=
  { s with
    consumer := { s.consumer with
      consumedCount := (s.consumer.consumedCount + 1) % 2 ^ 32, item := none }
    consumed := s.consumed ++ [item] }

def step (cap : ℕ) (s : State) : Act → Option State
  | .work rand memory =>
      match s.producer.item with
      | some _ => none
      | none =>
          if s.producer.mqd then
            let r := cookItem s.producer.nextItemId rand memory
            some { s with
              producer := { s.producer with nextItemId := r.2, item := some r.1 }
              cooked := s.cooked ++ [r.1] }
          else some s
  | .send ok =>
      match s.producer.item with
      | none => none
      | some item =>
          if ok then
            if s.queue.length < cap then
              some { s with
                queue := s.queue ++ [item]
                producer := { s.producer with
                  producedCount := (s.producer.producedCount + 1) % 2 ^ 32, item := none } }
            else none
          else some { s with producer := { s.producer with item := none } }
  | .receive ok =>
      match s.consumer.item with
      | some _ => none
      | none =>
          if s.consumer.mqd ∧ ok then
            match s.queue with
            | [] => none
            | item :: queue => some (receiveItem s item queue)
          else some s
  | .consume =>
      match s.consumer.item with
      | none => none
      | some item => some (consumeItem s item)

/-- Producer `id` and a consumer on a new queue, before their first `work()`. -/
def start (id : ℕ) (sends receives : Bool) : State where
  queue := []
  producer := ⟨sends, startingId id, 0, none⟩
  consumer := ⟨receives, 0, none⟩
  cooked := []
  consumed := []

/-- The pipeline over a queue of `cap` messages, under every interleaving of its parties. -/
def system (id cap : ℕ) : Lts State Act where
  init s := ∃ sends receives, s = start id sends receives
  step := step cap

/-- The items on their way, oldest first. -/
def onTheWay (s : State) : List WorkItem :=
  s.consumer.item.toList ++ s.queue ++ s.producer.item.toList

/-- Nothing is lost: the items consumed are the first of those cooked. -/
structure Lossless (id : ℕ) (s : State) : Prop where
  order : s.consumed <+: s.cooked
  ids : s.consumed.map WorkItem.id = itemIds id s.consumed.length

/-- A step in which no item is dropped where a consumer could miss it. -/
def Kept (s : State) (a : Act) : Prop := a = .send false → s.consumer.mqd = false

/-! ### What a step does -/

/-- The steps by program point. -/
inductive Step (cap : ℕ) (s : State) : Act → State → Prop
  | noQueue (rand : ℕ → ℕ) (memory : WorkItem) : Step cap s (.work rand memory) s
  | cook (rand : ℕ → ℕ) (memory : WorkItem) (hmqd : s.producer.mqd = true)
      (h : s.producer.item = none) :
      Step cap s (.work rand memory) { s with
        producer := { s.producer with
          nextItemId := (cookItem s.producer.nextItemId rand memory).2
          item := some (cookItem s.producer.nextItemId rand memory).1 }
        cooked := s.cooked ++ [(cookItem s.producer.nextItemId rand memory).1] }
  | sent (item : WorkItem) (h : s.producer.item = some item) (hroom : s.queue.length < cap) :
      Step cap s (.send true) { s with
        queue := s.queue ++ [item]
        producer := { s.producer with
          producedCount := (s.producer.producedCount + 1) % 2 ^ 32, item := none } }
  | dropped (item : WorkItem) (h : s.producer.item = some item) :
      Step cap s (.send false) { s with producer := { s.producer with item := none } }
  | nothing (ok : Bool) : Step cap s (.receive ok) s
  | received (ok : Bool) (item : WorkItem) (queue : List WorkItem) (hmqd : s.consumer.mqd = true)
      (h : s.consumer.item = none) (hqueue : s.queue = item :: queue) :
      Step cap s (.receive ok) (receiveItem s item queue)
  | consume (item : WorkItem) (h : s.consumer.item = some item) :
      Step cap s .consume (consumeItem s item)

theorem step_cases {cap : ℕ} {s s' : State} {a : Act} (hs : step cap s a = some s') :
    Step cap s a s' := by
  cases a with
  | work rand memory =>
      simp only [step] at hs
      split at hs
      · cases hs
      · next hitem =>
          split at hs
          · next hmqd =>
              cases hs
              exact .cook rand memory hmqd hitem
          · cases hs
            exact .noQueue rand memory
  | send ok =>
      simp only [step] at hs
      split at hs
      · cases hs
      · next item hitem =>
          cases ok with
          | true =>
              rw [if_pos rfl] at hs
              split at hs
              · next hroom =>
                  cases hs
                  exact .sent item hitem hroom
              · cases hs
          | false =>
              cases hs
              exact .dropped item hitem
  | receive ok =>
      simp only [step] at hs
      split at hs
      · cases hs
      · next hitem =>
          split at hs
          · next hok =>
              split at hs
              · cases hs
              · next item queue hqueue =>
                  cases hs
                  exact .received ok item queue hok.1 hitem hqueue
          · cases hs
            exact .nothing ok
  | consume =>
      simp only [step] at hs
      split at hs
      · cases hs
      · next item hitem =>
          cases hs
          exact .consume item hitem

/-! ### What holds of every run -/

section invariants
variable {id cap : ℕ} {s : State}

theorem counted_of_reachable (h : (system id cap).Reachable s) :
    Counted id s.producer.nextItemId s.cooked := by
  apply h.invariant
  · rintro s ⟨sends, receives, rfl⟩
    exact .start id
  · intro s a s' hI hs
    cases step_cases hs with
    | cook rand memory hmqd hitem => exact hI.cook rand memory
    | noQueue | sent | dropped | nothing | received | consume => exact hI

/-- Whatever is dropped, what is left arrives in order and only once. -/
theorem inOrder (h : (system id cap).Reachable s) :
    (s.consumed ++ onTheWay s).Sublist s.cooked := by
  apply h.invariant
  · rintro s ⟨sends, receives, rfl⟩
    exact List.Sublist.refl []
  · intro s a s' hI hs
    unfold onTheWay at *
    cases step_cases hs with
    | noQueue | nothing => exact hI
    | cook rand memory hmqd hitem =>
        simp only [hitem, Option.toList_none, List.append_nil] at hI
        have hcook := hI.append_right [(cookItem s.producer.nextItemId rand memory).1]
        simpa [← List.append_assoc] using hcook
    | sent item hitem hroom => simpa [hitem] using hI
    | dropped item hitem =>
        apply List.Sublist.trans _ hI
        simp [hitem, ← List.append_assoc]
    | received ok item queue hmqd hitem hqueue => simpa [receiveItem, hitem, hqueue] using hI
    | consume item hitem => simpa [consumeItem, hitem] using hI

/-- A consumer whose `mq_open` has failed consumes nothing. -/
theorem consumed_of_noQueue (h : (system id cap).Reachable s) (hmqd : s.consumer.mqd = false) :
    s.consumed = [] := by
  have hidle : s.consumer.mqd = false → s.consumed = [] ∧ s.consumer.item = none := by
    apply h.invariant
    · rintro s ⟨sends, receives, rfl⟩ -
      exact ⟨rfl, rfl⟩
    · intro s a s' hI hs hmqd'
      cases step_cases hs with
      | received ok item queue hmqd hitem hqueue =>
          have hclosed : s.consumer.mqd = false := hmqd'
          rw [hmqd] at hclosed
          cases hclosed
      | consume item hitem =>
          rw [(hI hmqd').2] at hitem
          cases hitem
      | noQueue | cook | sent | dropped | nothing => exact hI hmqd'
  exact (hidle hmqd).1

/-- As long as everything is kept, everything cooked is consumed or on its way. -/
theorem cooked_eq (h : (system id cap).ReachableBy Kept s) (hmqd : s.consumer.mqd = true) :
    s.cooked = s.consumed ++ onTheWay s := by
  revert hmqd
  apply h.invariant
  · rintro s ⟨sends, receives, rfl⟩ -
    rfl
  · intro s a s' _ hI hkept hs hmqd'
    unfold onTheWay at *
    cases step_cases hs with
    | noQueue | nothing => exact hI hmqd'
    | cook _ _ _ hitem | sent _ hitem =>
        have hcooked := hI hmqd'
        rw [hcooked]
        simp [hitem]
    | dropped item hitem =>
        rw [hkept rfl] at hmqd'
        cases hmqd'
    | received ok item queue hmqd hitem hqueue =>
        have hcooked := hI hmqd
        simp [receiveItem, hcooked, hitem, hqueue]
    | consume item hitem =>
        have hcooked := hI hmqd'
        simp [consumeItem, hcooked, hitem]

theorem lossless_of_kept (h : (system id cap).ReachableBy Kept s) : Lossless id s := by
  have hcounted := counted_of_reachable h.reachable
  have hfirst : s.consumed <+: s.cooked := by
    cases hmqd : s.consumer.mqd with
    | true =>
        rw [cooked_eq h hmqd]
        exact List.prefix_append _ _
    | false =>
        rw [consumed_of_noQueue h.reachable hmqd]
        exact List.nil_prefix
  exact ⟨hfirst, hcounted.ids_of_prefix hfirst⟩

end invariants

/-! ### A dropped item -/

section dropped
variable {id cap : ℕ} {s : State}

/-- The consumer has caught up: it has consumed what it had in hand and what was in the queue,
while the producer stood still. -/
structure CaughtUp (s s' : State) : Prop where
  queue : s'.queue = []
  item : s'.consumer.item = none
  mqd : s'.consumer.mqd = true
  producer : s'.producer = s.producer
  cooked : s'.cooked = s.cooked
  consumed : s'.consumed = s.consumed ++ s.consumer.item.toList ++ s.queue

theorem catchUp_of_idle (hmqd : s.consumer.mqd = true) (hitem : s.consumer.item = none) :
    (system id cap).CanReach (CaughtUp s) s := by
  obtain ⟨queue, hqueue⟩ : ∃ queue, s.queue = queue := ⟨_, rfl⟩
  induction queue generalizing s with
  | nil => exact .now ⟨hqueue, hitem, hmqd, rfl, rfl, by simp [hitem, hqueue]⟩
  | cons item queue ih =>
      have hreceive : (system id cap).step s (.receive true) =
          some (receiveItem s item queue) := by
        simp [system, step, hmqd, hitem, hqueue]
      apply Lts.CanReach.of_step hreceive
      have hconsume : (system id cap).step (receiveItem s item queue) .consume =
          some (consumeItem (receiveItem s item queue) item) := rfl
      apply Lts.CanReach.of_step hconsume
      apply (ih (s := consumeItem (receiveItem s item queue) item) hmqd rfl rfl).trans
      intro s' h
      refine .now ⟨h.queue, h.item, h.mqd, h.producer, h.cooked, ?_⟩
      rw [h.consumed]
      simp [consumeItem, receiveItem, hitem, hqueue]

theorem catchUp (hmqd : s.consumer.mqd = true) : (system id cap).CanReach (CaughtUp s) s := by
  cases hitem : s.consumer.item with
  | none => exact catchUp_of_idle hmqd hitem
  | some item =>
      have hconsume : (system id cap).step s .consume = some (consumeItem s item) := by
        simp [system, step, hitem]
      apply Lts.CanReach.of_step hconsume
      apply (catchUp_of_idle (s := consumeItem s item) hmqd rfl).trans
      intro s' h
      refine .now ⟨h.queue, h.item, h.mqd, h.producer, h.cooked, ?_⟩
      rw [h.consumed]
      simp [consumeItem, hitem]

theorem mqd_of_item (h : (system id cap).Reachable s) (hitem : s.producer.item.isSome) :
    s.producer.mqd = true := by
  revert hitem
  apply h.invariant
  · rintro s ⟨sends, receives, rfl⟩ hitem
    cases hitem
  · intro s a s' hI hs hitem
    cases step_cases hs with
    | cook rand memory hmqd hnone => exact hmqd
    | sent item hsome hroom => cases hitem
    | dropped item hsome => cases hitem
    | noQueue | nothing | received | consume => exact hI hitem

/-- An item was dropped, and the consumer has caught up. -/
structure Dropped (id : ℕ) (item : WorkItem) (s : State) : Prop where
  counted : Counted id s.producer.nextItemId s.cooked
  sends : s.producer.mqd = true
  idle : s.producer.item = none
  receives : s.consumer.mqd = true
  waits : s.consumer.item = none
  queue : s.queue = []
  cooked : s.cooked = s.consumed ++ [item]

/-- The next item that is cooked and sent shows the gap. -/
theorem gap_of_dropped {item : WorkItem} (hcap : 0 < cap) (h : Dropped id item s) :
    (system id cap).CanReach (fun s => ¬ Lossless id s) s := by
  obtain ⟨next, hnext⟩ : ∃ next, next =
      (cookItem s.producer.nextItemId (fun _ => 0) item).1 := ⟨_, rfl⟩
  have hrun : ∃ s', (system id cap).exec s
      [.work (fun _ => 0) item, .send true, .receive true, .consume] = some s' ∧
      s'.consumed = s.consumed ++ [next] ∧ s'.cooked = s.cooked ++ [next] := by
    simp [Lts.exec, system, step, receiveItem, consumeItem, h.sends, h.idle, h.receives,
      h.waits, h.queue, hcap, hnext]
  obtain ⟨s', hs', hconsumed, hcooked⟩ := hrun
  refine ⟨_, s', hs', fun hl => ?_⟩
  have hfirst := hl.order
  rw [hconsumed, hcooked, h.cooked, List.append_assoc, List.prefix_append_right_inj] at hfirst
  have hsame : next = item := by simpa using hfirst
  -- the item that was dropped and the one after it have different numbers
  have hitem : item.id = itemId id s.consumed.length := by
    apply (h.counted.getElem _).2
    rw [h.cooked, List.getElem?_append_right (Nat.le_refl _), Nat.sub_self]
    rfl
  have hid : next.id = itemId id (s.consumed.length + 1) := by
    rw [hnext, cookItem_id, h.counted.next, h.cooked, List.length_append, List.length_singleton]
  rw [hsame, hitem] at hid
  exact itemId_succ_ne id _ hid.symm

/-- **Converse.**  If an item is dropped that a consumer could miss, some continuation of the run
shows it. -/
theorem lossy_of_not_kept (hcap : 0 < cap) (h : (system id cap).ReachableBy Kept s) {a : Act}
    {s' : State} (hs : step cap s a = some s') (hkept : ¬ Kept s a) :
    (system id cap).CanReach (fun s => ¬ Lossless id s) s' := by
  obtain ⟨rfl, hmqd⟩ : a = .send false ∧ ¬ s.consumer.mqd = false := Classical.not_imp.mp hkept
  rw [Bool.not_eq_false] at hmqd
  have hcounted := counted_of_reachable h.reachable
  have hcooked := cooked_eq h hmqd
  cases step_cases hs with
  | dropped item hitem =>
      have hsends := mqd_of_item h.reachable (by rw [hitem]; rfl)
      apply Lts.CanReach.trans (P := Dropped id item)
      · apply (catchUp (s := { s with producer := { s.producer with item := none } }) hmqd).trans
        intro s' h'
        apply Lts.CanReach.now
        constructor
        · rw [h'.producer, h'.cooked]
          exact hcounted
        · rw [h'.producer]
          exact hsends
        · rw [h'.producer]
        · exact h'.mqd
        · exact h'.item
        · exact h'.queue
        · rw [h'.cooked, h'.consumed]
          unfold onTheWay at hcooked
          simpa [hitem] using hcooked
      · intro s' h'
        exact gap_of_dropped hcap h'

end dropped

/-- **Delivery.**  In every run in which `mq_timedsend` fails only where there is no consumer to
miss the item, nothing is lost; any other failure of `mq_timedsend` leads to a run in which the
consumer misses an item. -/
theorem delivery (id : ℕ) :
    (∀ cap s, (system id cap).ReachableBy Kept s → Lossless id s) ∧
    ∀ cap s a s', 0 < cap → (system id cap).ReachableBy Kept s → step cap s a = some s' →
      ¬ Kept s a → (system id cap).CanReach (fun s => ¬ Lossless id s) s' :=
  ⟨fun _ _ h => lossless_of_kept h, fun _ _ _ _ hcap h hs hk => lossy_of_not_kept hcap h hs hk⟩

/-- The queue of one message is full when the second item is sent, and has room again for the
third. -/
def fullQueue : List Act :=
  [.work id ⟨0, fun _ => 'z'⟩, .send true, .work id ⟨0, fun _ => 'z'⟩, .send false,
    .receive true, .consume, .work id ⟨0, fun _ => 'z'⟩, .send true, .receive true, .consume]

theorem itemLost : ∃ s, (system 1 1).exec (start 1 true true) fullQueue = some s ∧
    s.cooked.map WorkItem.id = [300000, 300001, 300002] ∧
    s.consumed.map WorkItem.id = [300000, 300002] ∧ ¬ Lossless 1 s := by
  have hrun : ∃ s, (system 1 1).exec (start 1 true true) fullQueue = some s ∧
      s.cooked.map WorkItem.id = [300000, 300001, 300002] ∧
      s.consumed.map WorkItem.id = [300000, 300002] := ⟨_, rfl, rfl, rfl⟩
  obtain ⟨s, hs, hcooked, hconsumed⟩ := hrun
  refine ⟨s, hs, hcooked, hconsumed, fun h => ?_⟩
  have hfirst := h.order.map WorkItem.id
  rw [hcooked, hconsumed] at hfirst
  revert hfirst
  decide

end LinuxProgramming.MessageQueue.Delivery
