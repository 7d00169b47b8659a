import LinuxProgramming.TaggedLog
import LinuxProgramming.RingQueue.Completion
import LinuxProgramming.RingQueue.Linearization
import LinuxProgramming.SharedMemory.Delivery

/-! # The threads and the queue of one core

On each core of Chapter 12 some producers and some consumers repeat their `work()` on one queue.
The two functions are those of `Chapter14/SharedMemory`, word for word, and so are the parties
here; what is new is that there are any number of them on either side.

* The steps of the queue are those of `RingQueue`; `Inv` relates the parties to it: what a producer
  has cooked is what it has entered, the item in the hands of its `push` and the item it still owes.
* `entered` and `delivered` are auxiliary: the items of the queue with the thread that pushed or
  popped each.
* `left` counts the steps of the calls in progress, which can always be completed. -/

namespace LinuxProgramming.CoreSimulation

open Items
open SharedMemory.Delivery (Producer ProducerPc ConsumerPc pushOf afterPush afterPop)

/-- The queue of a core and its threads. -/
structure Pipeline (P C : ℕ) where
  ring : RingQueue.State WorkItem P C
  producer : Fin P → Producer
  consumer : Fin C → ConsumerPc
  /-- what `cook_item` has made and `consume_item` was given, in order -/
  cooked : Fin P → List WorkItem
  consumed : Fin C → List WorkItem
  entered : List (Fin P × WorkItem)
  delivered : List (Fin C × WorkItem)

inductive PipelineAct (P C : ℕ) where
  | work (i : Fin P) (rand : ℕ → ℕ)
  | push (i : Fin P) (a : RingQueue.PushAct Unit)
  | test (i : Fin P)
  | receive (j : Fin C)
  | pop (j : Fin C) (a : RingQueue.PopAct)
  | consume (j : Fin C)

/-- The item that a step of `push` enters. -/
def enters (pc : RingQueue.PushPc WorkItem) : RingQueue.PushAct Unit → List WorkItem
  | .reserve => pc.inHand
  | _ => []

/-- The item that a step of `pop` delivers. -/
def delivers (pc : RingQueue.PopPc WorkItem) : RingQueue.PopAct → List WorkItem
  | .post =>
      match pc with
      | .copied target _ => [target]
      | _ => []
  | _ => []

namespace Pipeline
variable {P C : ℕ}

/-- `Producer::work` and `Consumer::work`, one step at a time. -/
def step (s : Pipeline P C) : PipelineAct P C → Option (Pipeline P C)
  | .work i rand =>
      match (s.producer i).pc with
      | .outside =>
          if (s.producer i).validSavedWorkItem then
            some { s with
              producer := Function.update s.producer i { s.producer i with pc := .pushing } }
          else
            let r := cookItem (s.producer i).nextItemId rand (s.producer i).savedWorkItem
            some { s with
              producer := Function.update s.producer i
                { nextItemId := r.2, savedWorkItem := r.1, validSavedWorkItem := true,
                  pc := .pushing }
              cooked := Function.update s.cooked i (s.cooked i ++ [r.1]) }
      | _ => none
  | .push i a =>
      match (s.producer i).pc with
      | .pushing =>
          (RingQueue.pushStep s.ring i (pushOf (s.producer i).savedWorkItem a)).map fun ring =>
            { s with
              ring := ring
              producer := Function.update s.producer i { s.producer i with pc := afterPush a }
              entered := s.entered ++ (enters (s.ring.push i) a).map (i, ·) }
      | _ => none
  | .test i =>
      match (s.producer i).pc with
      | .returned ok =>
          some { s with
            producer := Function.update s.producer i
              { s.producer i with
                validSavedWorkItem := if ok then false else (s.producer i).validSavedWorkItem
                pc := .outside } }
      | _ => none
  | .receive j =>
      match s.consumer j with
      | .outside => some { s with consumer := Function.update s.consumer j .popping }
      | _ => none
  | .pop j a =>
      match s.consumer j with
      | .popping =>
          (RingQueue.popStep s.ring j a).map fun ring =>
            { s with
              ring := ring
              consumer := Function.update s.consumer j (afterPop (s.ring.pop j) a)
              delivered := s.delivered ++ (delivers (s.ring.pop j) a).map (j, ·) }
      | _ => none
  | .consume j =>
      match s.consumer j with
      | .popped item =>
          some { s with
            consumer := Function.update s.consumer j .outside
            consumed := Function.update s.consumed j (s.consumed j ++ [item]) }
      | _ => none

/-- The core before any thread has called `work()`, with the ids of its producers. -/
def start (ids : Fin P → ℕ) (size : ℕ) (raw : ℤ → WorkItem) (uninit : Fin P → WorkItem) :
    Pipeline P C where
  ring := RingQueue.start size raw
  producer i := ⟨startingId (ids i), uninit i, false, .outside⟩
  consumer _ := .outside
  cooked _ := []
  consumed _ := []
  entered := []
  delivered := []

/-- A core under every interleaving of its threads. -/
def system (C : ℕ) (ids : Fin P → ℕ) (size : ℕ) : Lts (Pipeline P C) (PipelineAct P C) where
  init s := ∃ raw uninit, s = start ids size raw uninit
  step := step

/-- The steps, by what they do. -/
inductive Step (s : Pipeline P C) : PipelineAct P C → Pipeline P C → Prop
  | retry (i : Fin P) (rand : ℕ → ℕ) (hpc : (s.producer i).pc = .outside)
      (hvalid : (s.producer i).validSavedWorkItem = true) :
      Step s (.work i rand) { s with
        producer := Function.update s.producer i { s.producer i with pc := .pushing } }
  | cook (i : Fin P) (rand : ℕ → ℕ) (hpc : (s.producer i).pc = .outside)
      (hvalid : (s.producer i).validSavedWorkItem = false) :
      Step s (.work i rand) { s with
        producer := Function.update s.producer i
          { nextItemId :=
              (cookItem (s.producer i).nextItemId rand (s.producer i).savedWorkItem).2
            savedWorkItem :=
              (cookItem (s.producer i).nextItemId rand (s.producer i).savedWorkItem).1
            validSavedWorkItem := true
            pc := .pushing }
        cooked := Function.update s.cooked i (s.cooked i ++
          [(cookItem (s.producer i).nextItemId rand (s.producer i).savedWorkItem).1]) }
  | push (i : Fin P) (a : RingQueue.PushAct Unit) (ring : RingQueue.State WorkItem P C)
      (hpc : (s.producer i).pc = .pushing)
      (hring : RingQueue.PushStep s.ring i (pushOf (s.producer i).savedWorkItem a) ring) :
      Step s (.push i a) { s with
        ring := ring
        producer := Function.update s.producer i { s.producer i with pc := afterPush a }
        entered := s.entered ++ (enters (s.ring.push i) a).map (i, ·) }
  | test (i : Fin P) (ok : Bool) (hpc : (s.producer i).pc = .returned ok) :
      Step s (.test i) { s with
        producer := Function.update s.producer i
          { s.producer i with
            validSavedWorkItem := if ok then false else (s.producer i).validSavedWorkItem
            pc := .outside } }
  | receive (j : Fin C) (hpc : s.consumer j = .outside) :
      Step s (.receive j) { s with consumer := Function.update s.consumer j .popping }
  | pop (j : Fin C) (a : RingQueue.PopAct) (ring : RingQueue.State WorkItem P C)
      (hpc : s.consumer j = .popping) (hring : RingQueue.PopStep s.ring j a ring) :
      Step s (.pop j a) { s with
        ring := ring
        consumer := Function.update s.consumer j (afterPop (s.ring.pop j) a)
        delivered := s.delivered ++ (delivers (s.ring.pop j) a).map (j, ·) }
  | consume (j : Fin C) (item : WorkItem) (hpc : s.consumer j = .popped item) :
      Step s (.consume j) { s with
        consumer := Function.update s.consumer j .outside
        consumed := Function.update s.consumed j (s.consumed j ++ [item]) }

theorem step_iff {s s' : Pipeline P C} {a : PipelineAct P C} :
    step s a = some s' ↔ Step s a s' := by
  constructor
  · intro h
    cases a with
    | work i rand =>
        simp only [step] at h
        split at h
        · split at h
          · cases h; exact .retry i rand ‹_› ‹_›
          · next hvalid => cases h; exact .cook i rand ‹_› (Bool.eq_false_of_not_eq_true hvalid)
        · cases h
    | push i a =>
        simp only [step] at h
        split at h
        · obtain ⟨ring, hring, rfl⟩ := Option.map_eq_some_iff.mp h
          exact .push i a ring ‹_› (RingQueue.pushStep_iff.mp hring)
        · cases h
    | test i =>
        simp only [step] at h
        split at h
        · cases h; exact .test i _ ‹_›
        · cases h
    | receive j =>
        simp only [step] at h
        split at h
        · cases h; exact .receive j ‹_›
        · cases h
    | pop j a =>
        simp only [step] at h
        split at h
        · obtain ⟨ring, hring, rfl⟩ := Option.map_eq_some_iff.mp h
          exact .pop j a ring ‹_› (RingQueue.popStep_iff.mp hring)
        · cases h
    | consume j =>
        simp only [step] at h
        split at h
        · cases h; exact .consume j _ ‹_›
        · cases h
  · intro h
    cases h with
    | retry i rand hpc hvalid => simp [step, hpc, hvalid]
    | cook i rand hpc hvalid => simp [step, hpc, hvalid]
    | push i a ring hpc hring => simp [step, hpc, RingQueue.pushStep_iff.mpr hring]
    | test i ok hpc => simp [step, hpc]
    | receive j hpc => simp [step, hpc]
    | pop j a ring hpc hring => simp [step, hpc, RingQueue.popStep_iff.mpr hring]
    | consume j item hpc => simp [step, hpc]

/-! ### What a step of the queue does to the parties -/

section queue
variable {ring ring' : RingQueue.State WorkItem P C}

theorem push_frame {i : Fin P} {a : RingQueue.PushAct WorkItem}
    (h : RingQueue.PushStep ring i a ring') :
    (∀ i' ≠ i, ring'.push i' = ring.push i') ∧ ring'.pop = ring.pop ∧
      ring'.hist.returned = ring.hist.returned := by
  cases h with
  | timeout => exact ⟨fun _ _ => rfl, rfl, rfl⟩
  | _ => exact ⟨fun i' hi' => Function.update_of_ne hi' _ _, rfl, rfl⟩

theorem pop_frame {j : Fin C} {a : RingQueue.PopAct} (h : RingQueue.PopStep ring j a ring') :
    (∀ j' ≠ j, ring'.pop j' = ring.pop j') ∧ ring'.push = ring.push ∧
      ring'.hist.items = ring.hist.items := by
  cases h with
  | timeout => exact ⟨fun _ _ => rfl, rfl, rfl⟩
  | _ => exact ⟨fun j' hj' => Function.update_of_ne hj' _ _, rfl, rfl⟩

theorem items_push {i : Fin P} {item : WorkItem} {a : RingQueue.PushAct Unit}
    (h : RingQueue.PushStep ring i (pushOf item a) ring') :
    ring'.hist.items = ring.hist.items ++ enters (ring.push i) a := by
  cases a with
  | reserve =>
      cases h with
      | reserve t hi => simp [enters, hi, RingQueue.PushPc.inHand]
  | timeout | take | lock | unlock | copy | post =>
      cases h
      simp [enters]

theorem returned_pop {j : Fin C} {a : RingQueue.PopAct} (h : RingQueue.PopStep ring j a ring') :
    ring'.hist.returned = ring.hist.returned ++ delivers (ring.pop j) a := by
  cases h with
  | post target k hi => simp [delivers, hi]
  | _ => simp [delivers]

end queue

/-! ### The invariant -/

/-- The item that a producer has cooked and no `push` has taken. -/
def owed (p : Producer) (pc : RingQueue.PushPc WorkItem) : List WorkItem :=
  match p.pc with
  | .outside => if p.validSavedWorkItem then [p.savedWorkItem] else []
  | .pushing =>
      match pc with
      | .idle => [p.savedWorkItem]
      | _ => []
  | .returned ok => if ok then [] else [p.savedWorkItem]

/-- A producer, its place in `push`, and what it has cooked and entered. -/
structure ProducerInv (id : ℕ) (p : Producer) (pc : RingQueue.PushPc WorkItem)
    (cooked entered : List WorkItem) : Prop where
  counted : Counted id p.nextItemId cooked
  ok : p.Ok pc
  cooked : cooked = entered ++ pc.inHand ++ owed p pc

structure ConsumerInv (c : ConsumerPc) (pc : RingQueue.PopPc WorkItem)
    (consumed delivered : List WorkItem) : Prop where
  ok : c.Ok pc
  delivered : delivered = consumed ++ c.inHand

theorem ProducerInv.cook {id : ℕ} {p : Producer} {pc : RingQueue.PushPc WorkItem}
    {cooked entered : List WorkItem} (h : ProducerInv id p pc cooked entered)
    (hpc : p.pc = .outside) (hvalid : p.validSavedWorkItem = false) (rand : ℕ → ℕ) :
    ProducerInv id
      { nextItemId := (cookItem p.nextItemId rand p.savedWorkItem).2
        savedWorkItem := (cookItem p.nextItemId rand p.savedWorkItem).1
        validSavedWorkItem := true
        pc := .pushing } pc
      (cooked ++ [(cookItem p.nextItemId rand p.savedWorkItem).1]) entered := by
  have hidle : pc = .idle := by
    have hok := h.ok
    unfold Producer.Ok at hok
    rw [hpc] at hok
    exact hok
  have hcooked := h.cooked
  simp only [owed, hpc, hvalid, Bool.false_eq_true, if_false, List.append_nil] at hcooked
  refine ⟨h.counted.cook rand p.savedWorkItem, rfl, ?_⟩
  rw [hcooked, hidle]
  rfl

theorem ProducerInv.retry {id : ℕ} {p : Producer} {pc : RingQueue.PushPc WorkItem}
    {cooked entered : List WorkItem} (h : ProducerInv id p pc cooked entered)
    (hpc : p.pc = .outside) (hvalid : p.validSavedWorkItem = true) :
    ProducerInv id { p with pc := .pushing } pc cooked entered := by
  have hidle : pc = .idle := by
    have hok := h.ok
    unfold Producer.Ok at hok
    rw [hpc] at hok
    exact hok
  have hcooked := h.cooked
  simp only [owed, hpc, hvalid, if_true] at hcooked
  refine ⟨h.counted, hvalid, ?_⟩
  rw [hcooked, hidle]
  rfl

theorem ProducerInv.test {id : ℕ} {p : Producer} {pc : RingQueue.PushPc WorkItem}
    {cooked entered : List WorkItem} (h : ProducerInv id p pc cooked entered) {ok : Bool}
    (hpc : p.pc = .returned ok) :
    ProducerInv id { p with
      validSavedWorkItem := if ok then false else p.validSavedWorkItem
      pc := .outside } pc cooked entered := by
  obtain ⟨hidle, hvalid⟩ : pc = .idle ∧ p.validSavedWorkItem = true := by
    have hok := h.ok
    unfold Producer.Ok at hok
    rw [hpc] at hok
    exact hok
  have hcooked := h.cooked
  simp only [owed, hpc] at hcooked
  refine ⟨h.counted, hidle, ?_⟩
  rw [hcooked]
  cases ok <;> simp [owed, hvalid]

/-- A step of `push` moves the saved item into its hands when it takes the semaphore, and leaves
it with the producer when it times out. -/
theorem ProducerInv.push {id : ℕ} {p : Producer} {cooked entered : List WorkItem}
    {ring ring' : RingQueue.State WorkItem P C} {i : Fin P} {a : RingQueue.PushAct Unit}
    (h : ProducerInv id p (ring.push i) cooked entered) (hpc : p.pc = .pushing)
    (hring : RingQueue.PushStep ring i (pushOf p.savedWorkItem a) ring') :
    ProducerInv id { p with pc := afterPush a } (ring'.push i) cooked
      (entered ++ enters (ring.push i) a) := by
  have hvalid : p.validSavedWorkItem = true := by
    have hok := h.ok
    unfold Producer.Ok at hok
    rw [hpc] at hok
    exact hok
  have hcooked := h.cooked
  simp only [owed, hpc] at hcooked
  cases a with
  | timeout =>
      cases hring with
      | timeout _ hi =>
          rw [hi] at hcooked
          exact ⟨h.counted, ⟨hi, hvalid⟩, by rw [hcooked]; simp [owed, afterPush, enters, hi]⟩
  | take =>
      cases hring with
      | take _ hi hsem =>
          rw [hi] at hcooked
          refine ⟨h.counted, hvalid, ?_⟩
          rw [hcooked]
          simp [owed, afterPush, enters, RingQueue.PushPc.inHand]
  | lock | reserve | unlock | copy =>
      cases hring
      have hi := ‹ring.push i = _›
      rw [hi] at hcooked
      refine ⟨h.counted, hvalid, ?_⟩
      rw [hcooked]
      simp [owed, afterPush, enters, hi, RingQueue.PushPc.inHand]
  | post =>
      cases hring with
      | post _ _ _ hi =>
          rw [hi] at hcooked
          refine ⟨h.counted, ⟨Function.update_self .., hvalid⟩, ?_⟩
          rw [hcooked]
          simp [owed, afterPush, enters, RingQueue.PushPc.inHand]

theorem ConsumerInv.pop {c : ConsumerPc} {consumed delivered : List WorkItem}
    {ring ring' : RingQueue.State WorkItem P C} {j : Fin C} {a : RingQueue.PopAct}
    (h : ConsumerInv c (ring.pop j) consumed delivered) (hpc : c = .popping)
    (hring : RingQueue.PopStep ring j a ring') :
    ConsumerInv (afterPop (ring.pop j) a) (ring'.pop j) consumed
      (delivered ++ delivers (ring.pop j) a) := by
  have hdelivered := h.delivered
  rw [hpc] at hdelivered
  cases hring with
  | timeout hi => exact ⟨hi, by rw [hdelivered]; simp [delivers, afterPop, ConsumerPc.inHand]⟩
  | post target k hi =>
      rw [hi]
      exact ⟨Function.update_self .., by rw [hdelivered]; simp [delivers, afterPop, ConsumerPc.inHand]⟩
  | take | lock | claim | unlock | copy =>
      exact ⟨trivial, by rw [hdelivered]; simp [delivers, afterPop, ConsumerPc.inHand]⟩

/-- What holds of a core in every state. -/
structure Inv (ids : Fin P → ℕ) (size : ℕ) (s : Pipeline P C) : Prop where
  ring : (RingQueue.system WorkItem P C size).Reachable s.ring
  items : s.ring.hist.items = s.entered.map Prod.snd
  returned : s.ring.hist.returned = s.delivered.map Prod.snd
  producer : ∀ i, ProducerInv (ids i) (s.producer i) (s.ring.push i) (s.cooked i)
    (part s.entered i)
  consumer : ∀ j, ConsumerInv (s.consumer j) (s.ring.pop j) (s.consumed j) (part s.delivered j)

namespace Inv
variable {ids : Fin P → ℕ} {size : ℕ} {s s' : Pipeline P C}

theorem start (raw : ℤ → WorkItem) (uninit : Fin P → WorkItem) :
    Inv ids size (Pipeline.start ids size raw uninit : Pipeline P C) where
  ring := .of_init ⟨raw, rfl⟩
  items := rfl
  returned := rfl
  producer := fun i => ⟨.start (ids i), rfl, rfl⟩
  consumer := fun _ => ⟨rfl, rfl⟩

/-- A producer moves outside the queue. -/
theorem of_producer (h : Inv ids size s) (i : Fin P) {p : Producer} {cooked : List WorkItem}
    (hp : ProducerInv (ids i) p (s.ring.push i) cooked (part s.entered i)) :
    Inv ids size { s with
      producer := Function.update s.producer i p
      cooked := Function.update s.cooked i cooked } where
  ring := h.ring
  items := h.items
  returned := h.returned
  producer := by
    intro i'
    by_cases hi : i' = i
    · subst hi
      simpa only [Function.update_self] using hp
    · simp only [Function.update_of_ne hi]
      exact h.producer i'
  consumer := h.consumer

theorem of_consumer (h : Inv ids size s) (j : Fin C) {c : ConsumerPc} {consumed : List WorkItem}
    (hc : ConsumerInv c (s.ring.pop j) consumed (part s.delivered j)) :
    Inv ids size { s with
      consumer := Function.update s.consumer j c
      consumed := Function.update s.consumed j consumed } where
  ring := h.ring
  items := h.items
  returned := h.returned
  producer := h.producer
  consumer := by
    intro j'
    by_cases hj : j' = j
    · subst hj
      simpa only [Function.update_self] using hc
    · simp only [Function.update_of_ne hj]
      exact h.consumer j'

theorem push (h : Inv ids size s) {i : Fin P} {a : RingQueue.PushAct Unit}
    {ring : RingQueue.State WorkItem P C} (hpc : (s.producer i).pc = .pushing)
    (hring : RingQueue.PushStep s.ring i (pushOf (s.producer i).savedWorkItem a) ring) :
    Inv ids size { s with
      ring := ring
      producer := Function.update s.producer i { s.producer i with pc := afterPush a }
      entered := s.entered ++ (enters (s.ring.push i) a).map (i, ·) } := by
  obtain ⟨hothers, hpop, hreturned⟩ := push_frame hring
  refine ⟨RingQueue.reachable_push h.ring hring, ?_, hreturned.trans h.returned, fun i' => ?_,
    fun j => ?_⟩
  · rw [items_push hring, h.items, List.map_append, List.map_map]
    simp [Function.comp_def]
  · by_cases hi : i' = i
    · subst hi
      simpa only [Function.update_self, part_append, part_map_self] using (h.producer i').push hpc hring
    · simpa only [Function.update_of_ne hi, part_append, part_map_ne (Ne.symm hi),
        List.append_nil, hothers i' hi] using h.producer i'
  · simpa only [hpop] using h.consumer j

theorem pop (h : Inv ids size s) {j : Fin C} {a : RingQueue.PopAct}
    {ring : RingQueue.State WorkItem P C} (hpc : s.consumer j = .popping)
    (hring : RingQueue.PopStep s.ring j a ring) :
    Inv ids size { s with
      ring := ring
      consumer := Function.update s.consumer j (afterPop (s.ring.pop j) a)
      delivered := s.delivered ++ (delivers (s.ring.pop j) a).map (j, ·) } := by
  obtain ⟨hothers, hpush, hitems⟩ := pop_frame hring
  refine ⟨RingQueue.reachable_pop h.ring hring, hitems.trans h.items, ?_, fun i => ?_, fun j' => ?_⟩
  · rw [returned_pop hring, h.returned, List.map_append, List.map_map]
    simp [Function.comp_def]
  · simpa only [hpush] using h.producer i
  · by_cases hj : j' = j
    · subst hj
      simpa only [Function.update_self, part_append, part_map_self] using (h.consumer j').pop hpc hring
    · simpa only [Function.update_of_ne hj, part_append, part_map_ne (Ne.symm hj),
        List.append_nil, hothers j' hj] using h.consumer j'

theorem step (h : Inv ids size s) {a : PipelineAct P C} (hs : Step s a s') : Inv ids size s' := by
  cases hs with
  | retry i rand hpc hvalid =>
      have hnext := h.of_producer i ((h.producer i).retry hpc hvalid)
      rwa [Function.update_eq_self] at hnext
  | cook i rand hpc hvalid => exact h.of_producer i ((h.producer i).cook hpc hvalid rand)
  | push i a ring hpc hring => exact h.push hpc hring
  | test i ok hpc =>
      have hnext := h.of_producer i ((h.producer i).test hpc)
      rwa [Function.update_eq_self] at hnext
  | receive j hpc =>
      have hdelivered := (h.consumer j).delivered
      rw [hpc] at hdelivered
      have hconsumer : ConsumerInv .popping (s.ring.pop j) (s.consumed j) (part s.delivered j) :=
        ⟨trivial, hdelivered⟩
      have hnext := h.of_consumer j hconsumer
      rwa [Function.update_eq_self] at hnext
  | pop j a ring hpc hring => exact h.pop hpc hring
  | consume j item hpc =>
      have hconsumer := h.consumer j
      rw [hpc] at hconsumer
      refine h.of_consumer j ⟨hconsumer.ok, ?_⟩
      rw [hconsumer.delivered]
      exact (List.append_nil _).symm

end Inv

theorem reachable_inv {ids : Fin P → ℕ} {size : ℕ} {s : Pipeline P C}
    (h : (system C ids size).Reachable s) : Inv ids size s := by
  apply h.invariant
  · rintro s ⟨raw, uninit, rfl⟩
    exact Inv.start raw uninit
  · intro s a s' hI hs
    exact hI.step (step_iff.mp hs)

/-! ### Calls that have begun can be completed -/

/-- The steps that a producer has left until its `work()` returns. -/
def producerLeft (p : Producer) (pc : RingQueue.PushPc WorkItem) : ℕ :=
  match p.pc with
  | .outside => 0
  | .pushing =>
      match pc with
      | .idle => 2
      | pc => pc.left + 1
  | .returned _ => 1

def consumerLeft (c : ConsumerPc) (pc : RingQueue.PopPc WorkItem) : ℕ :=
  match c with
  | .outside => 0
  | .popping =>
      match pc with
      | .idle => 1
      | pc => pc.left + 1
  | .popped _ => 1

/-- A step that neither begins a `work()` nor takes a unit of a semaphore. -/
def Completing : PipelineAct P C → Prop
  | .work _ _ => False
  | .push _ (.take _) => False
  | .receive _ => False
  | .pop _ .take => False
  | _ => True

/-- The steps that the calls of `work()` have left. -/
def left (s : Pipeline P C) : ℕ :=
  tally id (fun i => producerLeft (s.producer i) (s.ring.push i)) +
    tally id (fun j => consumerLeft (s.consumer j) (s.ring.pop j))

/-- No thread is in a call of `work()`. -/
def Outside (s : Pipeline P C) : Prop :=
  (∀ i, (s.producer i).pc = .outside) ∧ ∀ j, s.consumer j = .outside

theorem producerLeft_eq_zero {p : Producer} {pc : RingQueue.PushPc WorkItem} :
    producerLeft p pc = 0 ↔ p.pc = .outside := by
  unfold producerLeft
  cases p.pc <;> cases pc <;> simp

theorem consumerLeft_eq_zero {c : ConsumerPc} {pc : RingQueue.PopPc WorkItem} :
    consumerLeft c pc = 0 ↔ c = .outside := by
  unfold consumerLeft
  cases c <;> cases pc <;> simp

theorem left_eq_zero {s : Pipeline P C} : left s = 0 ↔ Outside s := by
  simp [left, tally, Outside, Finset.sum_eq_zero_iff, producerLeft_eq_zero, consumerLeft_eq_zero]

/-- A family of numbers changes in one place. -/
theorem tally_of_frame {n : ℕ} {f g : Fin n → ℕ} (i : Fin n) (h : ∀ i' ≠ i, g i' = f i') :
    tally id g + f i = tally id f + g i := by
  have hg : g = Function.update f i (g i) := by
    funext i'
    by_cases hi : i' = i
    · rw [hi, Function.update_self]
    · rw [Function.update_of_ne hi, h i' hi]
  have hu := tally_update id f i (g i)
  rw [← hg] at hu
  exact hu

theorem producerLeft_push {p : Producer} {ring ring' : RingQueue.State WorkItem P C} {i : Fin P}
    {a : RingQueue.PushAct Unit} (hpc : p.pc = .pushing)
    (hring : RingQueue.PushStep ring i (pushOf p.savedWorkItem a) ring')
    (ha : Completing (.push i a : PipelineAct P C)) :
    producerLeft { p with pc := afterPush a } (ring'.push i) + 1 = producerLeft p (ring.push i) := by
  unfold producerLeft
  rw [hpc]
  cases a with
  | take => exact ha.elim
  | timeout => cases hring with | timeout _ hi => simp [hi, afterPush]
  | lock | reserve | unlock | copy | post =>
      cases hring
      have hi := ‹ring.push i = _›
      simp [hi, afterPush, RingQueue.PushPc.left]

theorem consumerLeft_pop {ring ring' : RingQueue.State WorkItem P C} {j : Fin C}
    {a : RingQueue.PopAct} (hring : RingQueue.PopStep ring j a ring')
    (ha : Completing (.pop j a : PipelineAct P C)) :
    consumerLeft (afterPop (ring.pop j) a) (ring'.pop j) + 1 =
      consumerLeft .popping (ring.pop j) := by
  unfold consumerLeft
  cases hring with
  | take => exact ha.elim
  | timeout hi => simp [hi, afterPop]
  | lock hi | claim hi | unlock slot k hi | copy slot k hi | post target k hi =>
      simp [hi, afterPop, RingQueue.PopPc.left]

theorem step_left {s s' : Pipeline P C} {a : PipelineAct P C} (hs : Step s a s')
    (ha : Completing a) : left s' + 1 = left s := by
  unfold left
  cases hs with
  | retry | cook | receive => exact ha.elim
  | push i a ring hpc hring =>
      obtain ⟨hothers, hpop, -⟩ := push_frame hring
      have hleft := producerLeft_push hpc hring ha
      have hframe := tally_of_frame
        (f := fun i' => producerLeft (s.producer i') (s.ring.push i'))
        (g := fun i' => producerLeft (Function.update s.producer i
          { s.producer i with pc := afterPush a } i') (ring.push i')) i
        fun i' hi => by simp only [Function.update_of_ne hi, hothers i' hi]
      simp only [Function.update_self] at hframe
      simp only [hpop]
      omega
  | test i ok hpc =>
      have hframe := tally_of_frame
        (f := fun i' => producerLeft (s.producer i') (s.ring.push i'))
        (g := fun i' => producerLeft (Function.update s.producer i
          { s.producer i with
            validSavedWorkItem := if ok then false else (s.producer i).validSavedWorkItem
            pc := .outside } i') (s.ring.push i')) i
        fun i' hi => by simp only [Function.update_of_ne hi]
      simp only [Function.update_self, producerLeft, hpc] at hframe
      simp only [producerLeft] at hframe ⊢
      omega
  | pop j a ring hpc hring =>
      obtain ⟨hothers, hpush, -⟩ := pop_frame hring
      have hleft := consumerLeft_pop hring ha
      have hframe := tally_of_frame
        (f := fun j' => consumerLeft (s.consumer j') (s.ring.pop j'))
        (g := fun j' => consumerLeft (Function.update s.consumer j
          (afterPop (s.ring.pop j) a) j') (ring.pop j')) j
        fun j' hj => by simp only [Function.update_of_ne hj, hothers j' hj]
      simp only [Function.update_self, hpc] at hframe
      simp only [hpush]
      omega
  | consume j item hpc =>
      have hframe := tally_of_frame
        (f := fun j' => consumerLeft (s.consumer j') (s.ring.pop j'))
        (g := fun j' => consumerLeft (Function.update s.consumer j .outside j') (s.ring.pop j')) j
        fun j' hj => by simp only [Function.update_of_ne hj]
      simp only [Function.update_self, consumerLeft, hpc] at hframe
      simp only [consumerLeft] at hframe ⊢
      omega

/-- Some call can go on, unless there is none. -/
theorem Inv.moves {ids : Fin P → ℕ} {size : ℕ} {s : Pipeline P C} (h : Inv ids size s)
    (hbusy : ¬ Outside s) : ∃ a s', Completing a ∧ Pipeline.step s a = some s' := by
  by_cases hidle : RingQueue.Idle s.ring
  · rcases not_and_or.mp hbusy with hproducer | hconsumer
    · obtain ⟨i, hi⟩ := not_forall.mp hproducer
      cases hpc : (s.producer i).pc with
      | outside => exact absurd hpc hi
      | pushing =>
          exact ⟨.push i (.timeout ()), _, trivial,
            step_iff.mpr (.push i (.timeout ()) s.ring hpc (.timeout _ (hidle.1 i)))⟩
      | returned ok => exact ⟨.test i, _, trivial, step_iff.mpr (.test i ok hpc)⟩
    · obtain ⟨j, hj⟩ := not_forall.mp hconsumer
      cases hpc : s.consumer j with
      | outside => exact absurd hpc hj
      | popping =>
          exact ⟨.pop j .timeout, _, trivial,
            step_iff.mpr (.pop j .timeout s.ring hpc (.timeout (hidle.2 j)))⟩
      | popped item => exact ⟨.consume j, _, trivial, step_iff.mpr (.consume j item hpc)⟩
  · obtain ⟨l, ring, hl, hring⟩ := (RingQueue.reachable_inv h.ring).moves hidle
    cases l with
    | push i a =>
        have hstep := RingQueue.pushStep_iff.mp hring
        have hin := hstep.busy hl
        have hpc : (s.producer i).pc = .pushing := by
          have hok := (h.producer i).ok
          unfold Producer.Ok at hok
          cases hp : (s.producer i).pc with
          | pushing => rfl
          | outside => rw [hp] at hok; exact absurd hok hin
          | returned ok => rw [hp] at hok; exact absurd hok.1 hin
        obtain ⟨a', ha', rfl⟩ : ∃ a' : RingQueue.PushAct Unit,
            Completing (.push i a' : PipelineAct P C) ∧ a = pushOf (s.producer i).savedWorkItem a' := by
          cases a with
          | timeout => exact hl.elim
          | take => exact hl.elim
          | lock => exact ⟨.lock, trivial, rfl⟩
          | reserve => exact ⟨.reserve, trivial, rfl⟩
          | unlock => exact ⟨.unlock, trivial, rfl⟩
          | copy => exact ⟨.copy, trivial, rfl⟩
          | post => exact ⟨.post, trivial, rfl⟩
        exact ⟨_, _, ha', step_iff.mpr (.push i a' ring hpc hstep)⟩
    | pop j a =>
        have hstep := RingQueue.popStep_iff.mp hring
        have hin := hstep.busy hl
        have hpc : s.consumer j = .popping := by
          have hok := (h.consumer j).ok
          cases hc : s.consumer j with
          | popping => rfl
          | outside => rw [hc] at hok; exact absurd hok hin
          | popped item => rw [hc] at hok; exact absurd hok hin
        have ha : Completing (.pop j a : PipelineAct P C) := by
          cases a with
          | timeout => exact hl.elim
          | take => exact hl.elim
          | lock | claim | unlock | copy | post => trivial
        exact ⟨_, _, ha, step_iff.mpr (.pop j a ring hpc hstep)⟩

theorem countsDown (C : ℕ) (ids : Fin P → ℕ) (size : ℕ) :
    (system C ids size).CountsDown (system C ids size).Reachable Completing left where
  keep := fun _ _ _ hs _ hstep => hs.next hstep
  lower := fun _ _ _ _ ha hstep => step_left (step_iff.mp hstep) ha
  enabled := by
    intro s hs hpos
    apply (reachable_inv hs).moves
    intro hout
    rw [left_eq_zero.mpr hout] at hpos
    exact absurd hpos (lt_irrefl 0)

/-! ### What is delivered -/

/-- The step that a party makes in the queue is in order. -/
def InOrder (s : Pipeline P C) : PipelineAct P C → Prop
  | .push i a =>
      RingQueue.InOrderBoth s.ring (.push i (pushOf (s.producer i).savedWorkItem a))
  | .pop j a => RingQueue.InOrderBoth s.ring (.pop j a)
  | _ => True

instance InOrder.decidable (s : Pipeline P C) : ∀ a, Decidable (InOrder s a)
  | .push i a => inferInstanceAs
      (Decidable (RingQueue.InOrderBoth s.ring (.push i (pushOf (s.producer i).savedWorkItem a))))
  | .pop j a => inferInstanceAs (Decidable (RingQueue.InOrderBoth s.ring (.pop j a)))
  | .work _ _ | .test _ | .receive _ | .consume _ => .isTrue trivial

theorem inOrder_step {ids : Fin P → ℕ} {size : ℕ} (hsmall : size ≤ 1 ∨ P ≤ 1 ∧ C ≤ 1)
    {s s' : Pipeline P C} {a : PipelineAct P C} (hI : Inv ids size s) (hs : Step s a s') :
    InOrder s a := by
  have hring := RingQueue.reachable_inv hI.ring
  have hboth : ∀ l ring', RingQueue.step s.ring l = some ring' → RingQueue.InOrderBoth s.ring l :=
    fun _ _ hstep => ⟨RingQueue.postsInOrder_step (hsmall.imp_right And.left) hring hstep,
      RingQueue.freesInOrder_step (hsmall.imp_right And.right) hring hstep⟩
  cases hs with
  | push i a ring hpc hstep => exact hboth (.push i _) ring (RingQueue.pushStep_iff.mpr hstep)
  | pop j a ring hpc hstep => exact hboth (.pop j a) ring (RingQueue.popStep_iff.mpr hstep)
  | _ => trivial

/-- The items in the ring, from `m_front` on. -/
def queued (s : Pipeline P C) : List WorkItem := SharedMemory.Delivery.queued s.ring.q

/-- The item of a producer that `push` has refused. -/
def saved (s : Pipeline P C) (i : Fin P) : List WorkItem :=
  if (s.producer i).validSavedWorkItem then [(s.producer i).savedWorkItem] else []

/-- What the consumers of a core have got of what its producers have cooked. -/
structure Delivered (s : Pipeline P C) : Prop where
  /-- nothing that was not cooked, and nothing twice -/
  once : ∑ j, (s.consumed j : Multiset WorkItem) ≤ ∑ i, (s.cooked i : Multiset WorkItem)
  /-- between calls of `work()` every item is in one place -/
  placed : Outside s → ∑ i, (s.cooked i : Multiset WorkItem) =
    ∑ j, (s.consumed j : Multiset WorkItem) + (queued s : Multiset WorkItem) +
      ∑ i, (saved s i : Multiset WorkItem)
  /-- a single consumer gets the items of each producer in the order in which they were cooked -/
  ordered : C ≤ 1 → ∀ j, ∃ log : List (Fin P × WorkItem),
    s.consumed j = log.map Prod.snd ∧ ∀ i, part log i <+: s.cooked i

section delivered
variable {ids : Fin P → ℕ} {size : ℕ} {s : Pipeline P C}

theorem Inv.entered_prefix (h : Inv ids size s) (i : Fin P) : part s.entered i <+: s.cooked i := by
  rw [(h.producer i).cooked, List.append_assoc]
  exact List.prefix_append _ _

theorem Inv.consumed_prefix (h : Inv ids size s) (j : Fin C) :
    s.consumed j <+: part s.delivered j := by
  rw [(h.consumer j).delivered]
  exact List.prefix_append _ _

theorem Inv.ring_idle (h : Inv ids size s) (hout : Outside s) :
    (∀ i, s.ring.push i = .idle) ∧ ∀ j, s.ring.pop j = .idle := by
  constructor
  · intro i
    have hok := (h.producer i).ok
    unfold Producer.Ok at hok
    rw [hout.1 i] at hok
    exact hok
  · intro j
    have hok := (h.consumer j).ok
    rw [hout.2 j] at hok
    exact hok

theorem Inv.once (h : Inv ids size s) (hD : RingQueue.Delivers s.ring) :
    ∑ j, (s.consumed j : Multiset WorkItem) ≤ ∑ i, (s.cooked i : Multiset WorkItem) := by
  have hsub := hD.subperm (RingQueue.reachable_inv h.ring)
  rw [h.returned, h.items] at hsub
  calc ∑ j, (s.consumed j : Multiset WorkItem)
      ≤ ∑ j, (part s.delivered j : Multiset WorkItem) :=
        Finset.sum_le_sum fun j _ => (h.consumed_prefix j).sublist.subperm
    _ = (s.delivered.map Prod.snd : List WorkItem) := sum_part _
    _ ≤ (s.entered.map Prod.snd : List WorkItem) := hsub
    _ = ∑ i, (part s.entered i : Multiset WorkItem) := (sum_part _).symm
    _ ≤ ∑ i, (s.cooked i : Multiset WorkItem) :=
        Finset.sum_le_sum fun i _ => (h.entered_prefix i).sublist.subperm

theorem Inv.placed (h : Inv ids size s) (hD : RingQueue.Delivers s.ring)
    (hO : RingQueue.OrderedInv size s.ring) (hout : Outside s) :
    ∑ i, (s.cooked i : Multiset WorkItem) =
      ∑ j, (s.consumed j : Multiset WorkItem) + (queued s : Multiset WorkItem) +
        ∑ i, (saved s i : Multiset WorkItem) := by
  obtain ⟨hpush, hpop⟩ := h.ring_idle hout
  have hring := RingQueue.reachable_inv h.ring
  have hqueued : queued s = RingQueue.unclaimed s.ring :=
    RingQueue.ring_unclaimed hring hO (RingQueue.reachable_writerSound h.ring) hpush hpop
  have hcooked : ∀ i, s.cooked i = part s.entered i ++ saved s i := by
    intro i
    rw [(h.producer i).cooked, hpush i]
    simp [RingQueue.PushPc.inHand, owed, hout.1 i, saved]
  have hconsumed : ∀ j, s.consumed j = part s.delivered j := by
    intro j
    rw [(h.consumer j).delivered, hout.2 j]
    exact (List.append_nil _).symm
  have hsplit : (s.entered.map Prod.snd : Multiset WorkItem) =
      (s.delivered.map Prod.snd : Multiset WorkItem) + (queued s : Multiset WorkItem) := by
    rw [← h.items, ← h.returned, hqueued, Multiset.coe_add]
    refine Multiset.coe_eq_coe.mpr ?_
    conv_lhs => rw [← List.take_append_drop s.ring.hist.claims s.ring.hist.items]
    exact (hD.perm hring hpop).symm.append_right _
  calc ∑ i, (s.cooked i : Multiset WorkItem)
      = ∑ i, ((part s.entered i : Multiset WorkItem) + (saved s i : Multiset WorkItem)) :=
        Finset.sum_congr rfl fun i _ => by rw [hcooked i, Multiset.coe_add]
    _ = (s.entered.map Prod.snd : Multiset WorkItem) + ∑ i, (saved s i : Multiset WorkItem) := by
        rw [Finset.sum_add_distrib, sum_part]
    _ = ∑ j, (s.consumed j : Multiset WorkItem) + (queued s : Multiset WorkItem) +
          ∑ i, (saved s i : Multiset WorkItem) := by
        rw [hsplit, ← sum_part, Finset.sum_congr rfl fun j _ => by rw [← hconsumed j]]

theorem Inv.ordered (h : Inv ids size s)
    (hring : (RingQueue.system WorkItem P C size).ReachableBy RingQueue.InOrderBoth s.ring)
    (hC : C ≤ 1) (j : Fin C) : ∃ log : List (Fin P × WorkItem),
      s.consumed j = log.map Prod.snd ∧ ∀ i, part log i <+: s.cooked i := by
  have : Subsingleton (Fin C) := Fin.subsingleton_iff_le_one.mpr hC
  have hfirst : s.consumed j <+: s.entered.map Prod.snd := by
    refine (h.consumed_prefix j).trans ?_
    rw [part_eq_of_subsingleton, ← h.returned, ← h.items]
    exact RingQueue.returned_prefix_of_single hC hring
  refine ⟨s.entered.take (s.consumed j).length, ?_, fun i => ?_⟩
  · rw [List.map_take]
    exact List.prefix_iff_eq_take.mp hfirst
  · exact (part_isPrefix (List.take_prefix _ _) i).trans (h.entered_prefix i)

end delivered

end Pipeline

end LinuxProgramming.CoreSimulation
