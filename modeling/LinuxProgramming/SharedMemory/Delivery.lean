import LinuxProgramming.Items.WorkItem
import LinuxProgramming.RingQueue.Refinement

/-! # Exactly-once delivery through shared memory

The pipeline of `Chapter14/SharedMemory`: a producer and a consumer repeat their `work()` on one
queue.  An item that `push` refuses stays in `m_saved_work_item`, and the next call of `work()`
tries it again.

Every step is one of the ring queue or leaves it alone, so what `RingQueue.Refinement` says of
one producer and one consumer holds here.  `Inv` relates the two parties to it: what has been
cooked is what the queue has accepted and the pending item, and what has been consumed is what
the queue has returned, up to the item in the consumer's hands. -/

namespace LinuxProgramming.SharedMemory.Delivery

open Items
open RingQueue (only)

/-- Where the producer stands: between calls of `work()`, in `push`, or behind it. -/
inductive ProducerPc where
  | outside
  | pushing
  | returned (ok : Bool)

/-- Where the consumer stands: between calls of `work()`, in `pop`, or with an item. -/
inductive ConsumerPc where
  | outside
  | popping
  | popped (item : WorkItem)

/-- `class Producer`, as far as `work()` uses it. -/
structure Producer where
  nextItemId : ℕ
  savedWorkItem : WorkItem
  validSavedWorkItem : Bool
  pc : ProducerPc

/-- The queue and its two parties; `cooked` and `consumed` are the items that `cook_item` has
made and that `consume_item` was given, in order. -/
structure State where
  ring : RingQueue.State WorkItem 1 1
  producer : Producer
  consumer : ConsumerPc
  cooked : List WorkItem
  consumed : List WorkItem

inductive Act where
  | work (rand : ℕ → ℕ)
  | push (a : RingQueue.PushAct Unit)
  | test
  | receive
  | pop (a : RingQueue.PopAct)
  | consume

/-- A step of `push(item)`. -/
def pushOf (item : WorkItem) : RingQueue.PushAct Unit → RingQueue.PushAct WorkItem
  | .timeout _ => .timeout item
  | .take _ => .take item
  | .lock => .lock
  | .reserve => .reserve
  | .unlock => .unlock
  | .copy => .copy
  | .post => .post

/-- Where a step of `push` leaves the producer. -/
def afterPush : RingQueue.PushAct Unit → ProducerPc
  | .timeout _ => .returned false
  | .post => .returned true
  | _ => .pushing

/-- Where a step of `pop` leaves the consumer, `pc` being its place in `pop` before the step. -/
def afterPop (pc : RingQueue.PopPc WorkItem) : RingQueue.PopAct → ConsumerPc
  | .timeout => .outside
  | .post =>
      match pc with
      | .copied target _ => .popped target
      | _ => .popping
  | _ => .popping

def step (s : State) : Act → Option State
  | .work rand =>
      match s.producer.pc with
      | .outside =>
          if s.producer.validSavedWorkItem then
            some { s with producer := { s.producer with pc := .pushing } }
          else
            let r := cookItem s.producer.nextItemId rand s.producer.savedWorkItem
            some { s with
              producer :=
                { nextItemId := r.2, savedWorkItem := r.1, validSavedWorkItem := true,
                  pc := .pushing }
              cooked := s.cooked ++ [r.1] }
      | _ => none
  | .push a =>
      match s.producer.pc with
      | .pushing =>
          (RingQueue.pushStep s.ring only (pushOf s.producer.savedWorkItem a)).map fun ring =>
            { s with ring := ring, producer := { s.producer with pc := afterPush a } }
      | _ => none
  | .test =>
      match s.producer.pc with
      | .returned true =>
          some { s with
            producer := { s.producer with validSavedWorkItem := false, pc := .outside } }
      | .returned false => some { s with producer := { s.producer with pc := .outside } }
      | _ => none
  | .receive =>
      match s.consumer with
      | .outside => some { s with consumer := .popping }
      | _ => none
  | .pop a =>
      match s.consumer with
      | .popping =>
          (RingQueue.popStep s.ring only a).map fun ring =>
            { s with ring := ring, consumer := afterPop (s.ring.pop only) a }
      | _ => none
  | .consume =>
      match s.consumer with
      | .popped item => some { s with consumer := .outside, consumed := s.consumed ++ [item] }
      | _ => none

/-- Producer `id` and a consumer on a queue of the given size, before their first `work()`. -/
def start (id size : ℕ) (raw : ℤ → WorkItem) (uninit : WorkItem) : State where
  ring := RingQueue.start size raw
  producer := ⟨startingId id, uninit, false, .outside⟩
  consumer := .outside
  cooked := []
  consumed := []

/-- The pipeline under every interleaving of its two parties. -/
def system (id size : ℕ) : Lts State Act where
  init s := ∃ raw uninit, s = start id size raw uninit
  step := step

/-! ### The invariant -/

/-- The item that is cooked and not yet accepted by the queue. -/
def pending (s : State) : List WorkItem :=
  match s.producer.pc with
  | .outside => if s.producer.validSavedWorkItem then [s.producer.savedWorkItem] else []
  | .pushing =>
      match s.ring.push only with
      | .idle => [s.producer.savedWorkItem]
      | _ => []
  | .returned ok => if ok then [] else [s.producer.savedWorkItem]

/-- The item that is popped and not yet consumed. -/
def ConsumerPc.inHand : ConsumerPc → List WorkItem
  | popped item => [item]
  | _ => []

/-- The producer is in the queue's `push` only inside its own call, with its item saved. -/
def Producer.Ok (p : Producer) (pc : RingQueue.PushPc WorkItem) : Prop :=
  match p.pc with
  | .outside => pc = .idle
  | .pushing => p.validSavedWorkItem = true
  | .returned _ => pc = .idle ∧ p.validSavedWorkItem = true

def ConsumerPc.Ok (pc : RingQueue.PopPc WorkItem) : ConsumerPc → Prop
  | popping => True
  | _ => pc = .idle

structure Inv (id size : ℕ) (s : State) : Prop where
  ring : (RingQueue.system WorkItem 1 1 size).Reachable s.ring
  counted : Counted id s.producer.nextItemId s.cooked
  producer : s.producer.Ok (s.ring.push 0)
  consumer : s.consumer.Ok (s.ring.pop 0)
  cooked : s.cooked = RingQueue.accepted s.ring ++ pending s
  consumed : s.ring.hist.returned = s.consumed ++ s.consumer.inHand

namespace Inv
variable {id size : ℕ} {s s' : State}

theorem start (raw : ℤ → WorkItem) (uninit : WorkItem) :
    Inv id size (Delivery.start id size raw uninit) where
  ring := .of_init ⟨raw, rfl⟩
  counted := .start id
  producer := rfl
  consumer := rfl
  cooked := rfl
  consumed := rfl

theorem work (h : Inv id size s) {rand : ℕ → ℕ} (hs : step s (.work rand) = some s') :
    Inv id size s' := by
  have hproducer := h.producer
  have hcooked := h.cooked
  simp only [step] at hs
  split at hs
  · next hpc =>
      unfold Producer.Ok at hproducer
      unfold pending at hcooked
      rw [hpc] at hproducer hcooked
      split at hs
      · next hvalid =>
          cases hs
          refine ⟨h.ring, h.counted, hvalid, h.consumer, ?_, h.consumed⟩
          simp only [hvalid, if_true] at hcooked
          unfold pending
          simp only [hproducer]
          exact hcooked
      · next hvalid =>
          cases hs
          refine ⟨h.ring, h.counted.cook _ _, rfl, h.consumer, ?_, h.consumed⟩
          simp only [hvalid, Bool.false_eq_true, if_false, List.append_nil] at hcooked
          unfold pending
          simp only [hproducer]
          rw [hcooked]
  · cases hs

theorem test (h : Inv id size s) (hs : step s .test = some s') : Inv id size s' := by
  have hproducer := h.producer
  have hcooked := h.cooked
  unfold Producer.Ok at hproducer
  unfold pending at hcooked
  simp only [step] at hs
  split at hs
  · next hpc =>
      cases hs
      rw [hpc] at hproducer hcooked
      exact ⟨h.ring, h.counted, hproducer.1, h.consumer, hcooked, h.consumed⟩
  · next hpc =>
      cases hs
      rw [hpc] at hproducer hcooked
      refine ⟨h.ring, h.counted, hproducer.1, h.consumer, ?_, h.consumed⟩
      unfold pending
      simp only [hproducer.2, if_true]
      exact hcooked
  · cases hs

theorem receive (h : Inv id size s) (hs : step s .receive = some s') : Inv id size s' := by
  have hconsumed := h.consumed
  simp only [step] at hs
  split at hs
  · next hpc =>
      cases hs
      rw [hpc] at hconsumed
      exact ⟨h.ring, h.counted, h.producer, trivial, h.cooked, hconsumed⟩
  · cases hs

theorem consume (h : Inv id size s) (hs : step s .consume = some s') : Inv id size s' := by
  have hconsumed := h.consumed
  have hconsumer := h.consumer
  simp only [step] at hs
  split at hs
  · next hpc =>
      cases hs
      rw [hpc] at hconsumed hconsumer
      refine ⟨h.ring, h.counted, h.producer, hconsumer, h.cooked, ?_⟩
      rw [hconsumed]
      exact (List.append_nil _).symm
  · cases hs

/-- A step of `push` moves the saved item into the queue when it takes the semaphore, and leaves
it with the producer when it times out. -/
theorem push (h : Inv id size s) {a : RingQueue.PushAct Unit}
    (hs : step s (.push a) = some s') : Inv id size s' := by
  have hproducer := h.producer
  have hcooked := h.cooked
  have hconsumer := h.consumer
  have hconsumed := h.consumed
  simp only [step] at hs
  split at hs
  · next hpc =>
      obtain ⟨ring, hring, rfl⟩ := Option.map_eq_some_iff.mp hs
      have hstep := RingQueue.pushStep_iff.mp hring
      have hreach : (RingQueue.system WorkItem 1 1 size).Reachable ring :=
        h.ring.next (l := RingQueue.Act.push 0 (pushOf s.producer.savedWorkItem a)) hring
      unfold Producer.Ok at hproducer
      unfold pending at hcooked
      rw [hpc] at hproducer hcooked
      cases a with
      | timeout =>
          cases hstep with
          | timeout _ hi =>
              simp only [hi] at hcooked
              exact ⟨hreach, h.counted, ⟨hi, hproducer⟩, hconsumer, hcooked, hconsumed⟩
      | take =>
          have hacc := RingQueue.step_accepted _ (.push 0 (.take _)) _ hring
          cases hstep with
          | take _ hi hsem =>
              simp only [hi] at hcooked
              refine ⟨hreach, h.counted, hproducer, hconsumer, ?_, hconsumed⟩
              rw [hacc, hcooked]
              simp [pending, afterPush, RingQueue.observe, Fifo.enqs]
      | lock | reserve | unlock | copy =>
          -- between the two semaphores the item is on its way into the queue
          have hacc := RingQueue.accepted_of_push hstep (fun t ht => by cases ht)
          cases hstep
          have hi := ‹s.ring.push 0 = _›
          simp only [hi] at hcooked
          refine ⟨hreach, h.counted, hproducer, hconsumer, ?_, hconsumed⟩
          rw [hacc.1, hcooked]
          simp [pending, afterPush]
      | post =>
          have hacc := RingQueue.accepted_of_push hstep (fun t ht => by cases ht)
          cases hstep with
          | post _ _ _ hi =>
              simp only [hi] at hcooked
              refine ⟨hreach, h.counted, ⟨by simp, hproducer⟩, hconsumer, ?_, hconsumed⟩
              rw [hacc.1, hcooked]
              simp [pending, afterPush]
  · cases hs

theorem pop (h : Inv id size s) {a : RingQueue.PopAct} (hs : step s (.pop a) = some s') :
    Inv id size s' := by
  have hconsumed := h.consumed
  simp only [step] at hs
  split at hs
  · next hpc =>
      obtain ⟨ring, hring, rfl⟩ := Option.map_eq_some_iff.mp hs
      have hstep := RingQueue.popStep_iff.mp hring
      have hreach : (RingQueue.system WorkItem 1 1 size).Reachable ring :=
        h.ring.next (l := RingQueue.Act.pop 0 a) hring
      rw [hpc] at hconsumed
      cases hstep with
      | timeout hi => exact ⟨hreach, h.counted, h.producer, hi, h.cooked, hconsumed⟩
      | take | lock | claim | unlock | copy =>
          exact ⟨hreach, h.counted, h.producer, trivial, h.cooked, hconsumed⟩
      | post target k hi =>
          have hafter : afterPop (s.ring.pop 0) .post = .popped target := by
            unfold afterPop
            rw [hi]
          refine ⟨hreach, h.counted, h.producer, ?_, h.cooked, ?_⟩
          · rw [hafter]
            simp [ConsumerPc.Ok]
          · rw [hafter, hconsumed]
            simp [ConsumerPc.inHand]
  · cases hs

theorem step (h : Inv id size s) {a : Act} (hs : Delivery.step s a = some s') :
    Inv id size s' := by
  cases a with
  | work rand => exact h.work hs
  | push a => exact h.push hs
  | test => exact h.test hs
  | receive => exact h.receive hs
  | pop a => exact h.pop hs
  | consume => exact h.consume hs

end Inv

theorem reachable_inv {id size : ℕ} {s : State} (h : (system id size).Reachable s) :
    Inv id size s := by
  apply h.invariant
  · rintro s ⟨raw, uninit, rfl⟩
    exact Inv.start raw uninit
  · intro s a s' hI hs
    exact hI.step hs

/-- At every moment the items cooked are those consumed, the one in the consumer's hands, those in
flight in the queue, and the pending one, in this order. -/
theorem cooked_eq {id size : ℕ} {s : State} (h : (system id size).Reachable s) :
    s.cooked = s.consumed ++ s.consumer.inHand ++ RingQueue.inFlight s.ring ++ pending s := by
  have hI := reachable_inv h
  rw [hI.cooked, RingQueue.accepted_eq hI.ring, hI.consumed]

/-! ### Delivery -/

/-- The items in the ring, from `m_front` on. -/
def queued (q : RingQueue.Queue WorkItem) : List WorkItem :=
  (List.range q.curCount.toNat).map fun i : ℕ => q.arr ((q.front + i) % q.size)

theorem queued_eq {size : ℕ} {ring : RingQueue.State WorkItem 1 1}
    (h : (RingQueue.system WorkItem 1 1 size).Reachable ring) (hpush : ring.push 0 = .idle)
    (hpop : ring.pop 0 = .idle) : queued ring.q = RingQueue.inFlight ring := by
  obtain ⟨hcount, hitems⟩ := RingQueue.ring_eq h hpush hpop
  unfold queued
  rw [hcount, Int.toNat_natCast]
  exact hitems

/-- **Exactly once.**  In every state that the pipeline reaches, whatever calls have timed out,
the items consumed are the first of those cooked, which are numbered without a gap; and between
calls of `work()` the items cooked are those consumed, those in the queue, and the saved one
while `m_valid_saved_work_item` is set. -/
theorem exactlyOnce {id size : ℕ} {s : State} (h : (system id size).Reachable s) :
    s.consumed <+: s.cooked ∧
    s.cooked.map WorkItem.id = itemIds id s.cooked.length ∧
    s.consumed.map WorkItem.id = itemIds id s.consumed.length ∧
    (s.producer.pc = .outside → s.consumer = .outside →
      s.cooked = s.consumed ++ queued s.ring.q ++
        if s.producer.validSavedWorkItem then [s.producer.savedWorkItem] else []) := by
  have hI := reachable_inv h
  have hcooked := cooked_eq h
  have hfirst : s.consumed <+: s.cooked := by
    rw [hcooked, List.append_assoc, List.append_assoc]
    exact List.prefix_append _ _
  refine ⟨hfirst, hI.counted.ids, hI.counted.ids_of_prefix hfirst, fun hproducer hconsumer => ?_⟩
  have hpush := hI.producer
  have hpop := hI.consumer
  unfold Producer.Ok at hpush
  rw [hproducer] at hpush
  rw [hconsumer] at hpop
  unfold pending at hcooked
  rw [hproducer, hconsumer, ← queued_eq hI.ring hpush hpop] at hcooked
  simpa [ConsumerPc.inHand] using hcooked

/-- The first `push` of producer 1 times out; the next `work()` delivers the same item. -/
theorem exactlyOnce_retry : ∃ s, (system 1 1).exec
    (start 1 1 (fun _ => ⟨0, fun _ => 'z'⟩) ⟨0, fun _ => 'z'⟩)
    [.work id, .push (.timeout ()), .test, .work id, .push (.take ()), .push .lock,
      .push .reserve, .push .unlock, .push .copy, .push .post, .test, .receive, .pop .take,
      .pop .lock, .pop .claim, .pop .unlock, .pop .copy, .pop .post, .consume] = some s ∧
    s.cooked.length = 1 ∧ s.consumed.map WorkItem.id = [300000] ∧ s.consumed <+: s.cooked ∧
    s.cooked = s.consumed ++ queued s.ring.q ++ [] := by
  have hrun : ∃ s, (system 1 1).exec
      (start 1 1 (fun _ => ⟨0, fun _ => 'z'⟩) ⟨0, fun _ => 'z'⟩)
      [.work id, .push (.timeout ()), .test, .work id, .push (.take ()), .push .lock,
        .push .reserve, .push .unlock, .push .copy, .push .post, .test, .receive, .pop .take,
        .pop .lock, .pop .claim, .pop .unlock, .pop .copy, .pop .post, .consume] = some s ∧
      s.cooked.length = 1 ∧ s.consumed.map WorkItem.id = [300000] ∧
      s.producer.pc = .outside ∧ s.consumer = .outside ∧
      s.producer.validSavedWorkItem = false := ⟨_, rfl, rfl, rfl, rfl, rfl, rfl⟩
  obtain ⟨s, hs, hlen, hids, hproducer, hconsumer, hvalid⟩ := hrun
  have hdelivery := exactlyOnce (Lts.Reachable.exec (.of_init ⟨_, _, rfl⟩) hs)
  have hbetween := hdelivery.2.2.2 hproducer hconsumer
  rw [hvalid] at hbetween
  exact ⟨s, hs, hlen, hids, hdelivery.1, hbetween⟩

end LinuxProgramming.SharedMemory.Delivery
