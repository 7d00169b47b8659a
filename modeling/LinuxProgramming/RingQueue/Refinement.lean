import LinuxProgramming.Fifo
import LinuxProgramming.RingQueue.Order

/-! # One producer and one consumer: the ring queue is a bounded FIFO

With one thread on either side nobody overtakes, so in every run a pop reads exactly the item of
its position (`writer_of_inOrder`).  `toFifo` is the resulting simulation by the bounded FIFO: an
item enters when its push takes `m_push_sem` and leaves when its pop posts it again. -/

namespace LinuxProgramming.RingQueue

variable {T : Type*} {size : ℕ}

/-- The item of a push that has taken `m_push_sem` and has no position yet. -/
def PushPc.inHand : PushPc T → List T
  | took t => [t]
  | locked t => [t]
  | _ => []

/-- A thread that is alone on its side of the queue. -/
abbrev only : Fin 1 := 0

/-- The items given to pushes that have succeeded or hold a unit of `m_push_sem`, in order. -/
def accepted (s : State T 1 1) : List T := s.hist.items ++ (s.push only).inHand

theorem accepted_def (s : State T 1 1) : accepted s = s.hist.items ++ (s.push 0).inHand := rfl

/-- The items between their push taking `m_push_sem` and their pop posting it again. -/
def inFlight (s : State T 1 1) : List T := (accepted s).drop s.hist.returned.length

/-- The operation of the abstract queue that a step performs. -/
def observe (s : State T 1 1) : Act T 1 1 → List (Fifo.Op T)
  | .push _ (.take t) => [.enq t]
  | .pop i .post =>
      match s.pop i with
      | .copied target _ => [.deq target]
      | _ => []
  | _ => []

/-! ### The invariant of the two parties -/

/-- The consumer returns the items in order: it holds at most the position after the last one
it returned. -/
structure FifoInv (s : State T 1 1) : Prop where
  freed : s.hist.freed.card = s.hist.returned.length
  pos : ∀ k, (s.pop 0).pos = some k → k = s.hist.returned.length
  returned : s.hist.returned <+: s.hist.items
  target : ∀ v k, s.pop 0 = .copied v k → s.hist.items[k]? = some v

namespace FifoInv
variable {s : State T 1 1}

theorem start (raw : ℤ → T) : FifoInv (RingQueue.start size raw : State T 1 1) where
  freed := rfl
  pos := by
    intro k hk
    cases hk
  returned := List.nil_prefix
  target := by
    intro v k hk
    cases hk

theorem push (h : FifoInv s) {i : Fin 1} {a : PushAct T} {s' : State T 1 1}
    (hs : PushStep s i a s') : FifoInv s' := by
  cases hs with
  | timeout | take | lock | unlock | copy | post => exact ⟨h.freed, h.pos, h.returned, h.target⟩
  | reserve t hi =>
      refine ⟨h.freed, h.pos, h.returned.trans (List.prefix_append _ _), fun v k hk => ?_⟩
      have hitem := h.target v k hk
      obtain ⟨hlt, _⟩ := List.getElem?_eq_some_iff.mp hitem
      simp only [List.getElem?_append_left hlt, hitem]

theorem pop (h : FifoInv s) (hI : Inv size s)
    (hslot : ∀ i slot k, s.pop i = .unlocked slot k → s.hist.items[k]? = some (s.q.arr slot))
    {i : Fin 1} {a : PopAct} {s' : State T 1 1} (hs : PopStep s i a s') : FifoInv s' := by
  obtain rfl : i = 0 := Subsingleton.elim _ _
  cases hs with
  | timeout hi => exact h
  | take hi hsem =>
      exact ⟨h.freed, by simp [PopPc.pos], h.returned, by simp⟩
  | lock hi hsem =>
      exact ⟨h.freed, by simp [PopPc.pos], h.returned, by simp⟩
  | claim hi =>
      refine ⟨h.freed, fun k hk => ?_, h.returned, by simp⟩
      have hcard := hI.popTickets.card
      simp only [tally, Finset.univ_unique, Fin.default_eq_zero, Finset.sum_singleton, hi,
        PopPc.pos, holding_none] at hcard
      simp only [Function.update_self, PopPc.pos, Option.some.injEq] at hk
      have hfreed := h.freed
      show k = s.hist.returned.length
      omega
  | unlock slot k hi =>
      refine ⟨h.freed, fun k' hk' => h.pos k' ?_, h.returned, by simp⟩
      simpa [hi, PopPc.pos] using hk'
  | copy slot k hi =>
      refine ⟨h.freed, fun k' hk' => h.pos k' ?_, h.returned, fun v k' hk' => ?_⟩
      · simpa [hi, PopPc.pos] using hk'
      · simp only [Function.update_self, PopPc.copied.injEq] at hk'
        obtain ⟨rfl, rfl⟩ := hk'
        exact hslot 0 slot _ hi
  | post target k hi =>
      have hpos : (s.pop 0).pos = some k := by rw [hi]; rfl
      have hk := h.pos k hpos
      have hitem := h.target target k hi
      refine ⟨?_, by simp [PopPc.pos], ?_, by simp⟩
      · rw [Finset.card_insert_of_notMem (hI.popTickets.held_notMem 0 k hpos), h.freed,
          List.length_append, List.length_singleton]
      · obtain ⟨rest, hrest⟩ := h.returned
        rw [← hrest, hk, List.getElem?_append_right le_rfl, Nat.sub_self] at hitem
        rw [← hrest]
        cases rest with
        | nil => cases hitem
        | cons x rest =>
            cases hitem
            exact ⟨rest, by simp⟩

end FifoInv

section reachable
variable {s : State T 1 1}

theorem inOrder_of_single (h : (system T 1 1 size).Reachable s) :
    (system T 1 1 size).ReachableBy InOrderBoth s :=
  inOrder_of_small (.inr ⟨le_rfl, le_rfl⟩) h

theorem reachable_fifoInv (h : (system T 1 1 size).Reachable s) : FifoInv s := by
  apply h.invariant'
  · rintro s ⟨raw, rfl⟩
    exact FifoInv.start raw
  · rintro s (⟨i, a⟩ | ⟨i, a⟩) s' hr hF hs
    · exact hF.push (pushStep_iff.mp hs)
    · exact hF.pop (reachable_inv hr)
        (fun _ _ _ hi => (writer_of_inOrder (inOrder_of_single hr) hi).2) (popStep_iff.mp hs)

theorem returned_prefix_accepted (h : (system T 1 1 size).Reachable s) :
    s.hist.returned <+: accepted s :=
  (reachable_fifoInv h).returned.trans (List.prefix_append _ _)

theorem accepted_eq (h : (system T 1 1 size).Reachable s) :
    accepted s = s.hist.returned ++ inFlight s := by
  obtain ⟨rest, hrest⟩ := returned_prefix_accepted h
  rw [inFlight, ← hrest, List.drop_left]

/-- The units of `m_push_sem` that are left, and the items in flight, add up to the size. -/
theorem pushSem_add_inFlight (h : (system T 1 1 size).Reachable s) :
    s.q.pushSem + (inFlight s).length = size := by
  have hI := reachable_inv h
  have hF := reachable_fifoInv h
  have hsem := hI.sem
  have hav := hI.avail
  have hpt := hI.pushTickets.card
  have hct := hI.popTickets.card
  have hfr := hF.freed
  have hlen := hF.returned.length_le
  have hbusy := (s.pop 0).busy_eq
  simp only [tally, Finset.univ_unique, Fin.default_eq_zero, Finset.sum_singleton] at *
  have hpush : (s.push 0).busy = (s.push 0).inHand.length + holding (s.push 0).pos := by
    cases s.push 0 <;> rfl
  rw [inFlight, accepted_def, List.length_drop, List.length_append]
  omega

/-- With both parties outside, the ring holds the items not yet returned, in order. -/
theorem ring_eq (h : (system T 1 1 size).Reachable s) (hpush : s.push 0 = .idle)
    (hpop : s.pop 0 = .idle) :
    s.q.curCount = (inFlight s).length ∧
    (List.range (inFlight s).length).map (fun i : ℕ => s.q.arr ((s.q.front + i) % s.q.size)) =
      inFlight s := by
  have hI := reachable_inv h
  have hF := reachable_fifoInv h
  have hO := orderedInv_of_inOrder ((inOrder_of_single h).mono fun _ _ hl => hl.1)
  have hW := reachable_writerSound h
  have hflight : inFlight s = s.hist.items.drop s.hist.returned.length := by
    simp [inFlight, accepted, hpush, PushPc.inHand]
  have hclaims : s.hist.claims = s.hist.returned.length := by
    have hcard := hI.popTickets.card
    simp only [tally, Finset.univ_unique, Fin.default_eq_zero, Finset.sum_singleton, hpop,
      PopPc.pos, holding_none] at hcard
    have := hF.freed
    omega
  have hcount := hI.count
  have hlen := hF.returned.length_le
  refine ⟨?_, List.ext_getElem? fun i => ?_⟩
  · rw [hflight, List.length_drop]
    omega
  · rw [hflight, List.length_drop, List.getElem?_map, List.getElem?_drop]
    by_cases hi : i < s.hist.items.length - s.hist.returned.length
    · have hpub : Published s (s.hist.returned.length + i) := by
        refine ⟨by omega, fun j => ?_⟩
        rw [Subsingleton.elim j 0, hpush]
        simp [PushPc.pending]
      rw [List.getElem?_range hi, hO.slot_eq hI hW hpub (by rw [hF.freed]; omega), Option.map_some,
        hI.front, hI.size_eq, hclaims]
      norm_cast
      rw [Nat.mod_add_mod]
    · rw [List.getElem?_eq_none (by simpa using hi), List.getElem?_eq_none (by omega)]
      rfl

end reachable

/-! ### The simulation -/

/-- A step that takes no unit of `m_push_sem` accepts nothing. -/
theorem accepted_of_push {s s' : State T 1 1} {i : Fin 1} {a : PushAct T}
    (hs : PushStep s i a s') (ha : ∀ t, a ≠ .take t) :
    accepted s' = accepted s ∧ s'.hist.returned = s.hist.returned := by
  obtain rfl : i = 0 := Subsingleton.elim _ _
  cases hs with
  | take t => exact absurd rfl (ha t)
  | timeout => exact ⟨rfl, rfl⟩
  | lock t hi => simp [accepted, hi, PushPc.inHand]
  | reserve t hi => simp [accepted, hi, PushPc.inHand]
  | unlock t slot k hi => simp [accepted, hi, PushPc.inHand]
  | copy t slot k hi => simp [accepted, hi, PushPc.inHand]
  | post t slot k hi => simp [accepted, hi, PushPc.inHand]

theorem step_accepted (s : State T 1 1) (l : Act T 1 1) (s' : State T 1 1)
    (h : step s l = some s') : accepted s' = accepted s ++ Fifo.enqs (observe s l) := by
  rcases l with ⟨i, a⟩ | ⟨i, a⟩
  · have hstep : PushStep s i a s' := pushStep_iff.mp h
    cases a with
    | take t =>
        obtain rfl : i = 0 := Subsingleton.elim _ _
        cases hstep with
        | take _ hi hsem => simp [accepted, observe, Fifo.enqs, hi, PushPc.inHand]
    | _ => simp [accepted_of_push hstep (by simp), observe, Fifo.enqs]
  · have hstep : PopStep s i a s' := popStep_iff.mp h
    cases hstep with
    | post target k hi => simp [accepted, observe, Fifo.enqs, hi]
    | _ => simp [accepted, observe, Fifo.enqs]

theorem step_returned (s : State T 1 1) (l : Act T 1 1) (s' : State T 1 1)
    (h : step s l = some s') :
    s'.hist.returned = s.hist.returned ++ Fifo.deqs (observe s l) := by
  rcases l with ⟨i, a⟩ | ⟨i, a⟩
  · have hstep : PushStep s i a s' := pushStep_iff.mp h
    cases hstep <;> simp [observe, Fifo.deqs]
  · have hstep : PopStep s i a s' := popStep_iff.mp h
    cases hstep with
    | post target k hi => simp [observe, Fifo.deqs, hi]
    | _ => simp [observe, Fifo.deqs]

/-- The ring queue between one producer and one consumer is simulated by the bounded FIFO of
its size, whose contents are the items in flight. -/
noncomputable def toFifo (T : Type*) (size : ℕ) :
    (system T 1 1 size).Simulation (Fifo.system T size) where
  rel s l := l = inFlight s
  obs := observe
  init := by
    rintro s ⟨raw, rfl⟩
    exact ⟨[], rfl, rfl⟩
  step := by
    rintro s (⟨i, a⟩ | ⟨i, a⟩) s' l hr rfl hs
    · obtain rfl : i = 0 := Subsingleton.elim _ _
      have hstep : PushStep s 0 a s' := pushStep_iff.mp hs
      by_cases ha : ∃ t, a = .take t
      · obtain ⟨t, rfl⟩ := ha
        have hroom := pushSem_add_inFlight hr
        have hfit := (returned_prefix_accepted hr).length_le
        cases hstep with
        | take _ hi hsem =>
            refine ⟨inFlight s ++ [t], Fifo.exec_single (Fifo.step_enq (by omega)), ?_⟩
            simp only [inFlight, accepted, hi, PushPc.inHand, List.append_nil,
              Function.update_self] at hfit ⊢
            rw [List.drop_append_of_le_length hfit]
      · have hkeep := accepted_of_push hstep fun t ht => ha ⟨t, ht⟩
        have hobs : observe s (.push 0 a) = [] := by
          cases a with
          | take t => exact absurd ⟨t, rfl⟩ ha
          | _ => rfl
        rw [hobs]
        exact ⟨_, rfl, by rw [inFlight, inFlight, hkeep.1, hkeep.2]⟩
    · obtain rfl : i = 0 := Subsingleton.elim _ _
      have hstep : PopStep s 0 a s' := popStep_iff.mp hs
      cases hstep with
      | timeout | take | lock | claim | unlock | copy => exact ⟨_, rfl, rfl⟩
      | post target k hi =>
          have hF := reachable_fifoInv hr
          have hk := hF.pos k (by rw [hi]; rfl)
          have hitem := hF.target target k hi
          obtain ⟨hlt, hget⟩ := List.getElem?_eq_some_iff.mp hitem
          have hcons : inFlight s = target :: (accepted s).drop (s.hist.returned.length + 1) := by
            have hlt' : s.hist.returned.length < (accepted s).length := by
              rw [accepted, List.length_append]
              omega
            rw [inFlight, List.drop_eq_getElem_cons hlt']
            congr 1
            rw [← hget]
            simp only [accepted, ← hk]
            exact List.getElem_append_left hlt
          have hobs : observe s (.pop 0 .post) = [.deq target] := by simp [observe, hi]
          rw [hobs, hcons]
          refine ⟨_, Fifo.exec_single (Fifo.step_deq _ _), ?_⟩
          simp [inFlight, accepted]

/-- **Refinement.**  Every run of the ring queue between one producer and one consumer performs
a run of the bounded FIFO: what the pops returned is a prefix of what the pushes accepted, with
at most `size` items in between; calls that fail change nothing; and with both parties outside
the ring holds the items in between, in order. -/
theorem refines_fifo (T : Type*) (size : ℕ) :
    (∀ (raw : ℤ → T) ls s, (system T 1 1 size).exec (start size raw) ls = some s →
      let ops := (system T 1 1 size).trace observe (start size raw) ls
      (Fifo.system T size).exec [] ops = some (inFlight s) ∧
      Fifo.enqs ops = accepted s ∧ Fifo.deqs ops = s.hist.returned ∧
      Fifo.deqs ops <+: Fifo.enqs ops ∧ (inFlight s).length ≤ size) ∧
    ∀ s, (system T 1 1 size).Reachable s →
      s.hist.returned <+: s.hist.items ++ (s.push 0).inHand ∧
      s.hist.items.length + (s.push 0).inHand.length ≤ s.hist.returned.length + size ∧
      (∀ t s', step s (.push 0 (.timeout t)) = some s' → s' = s) ∧
      (∀ s', step s (.pop 0 .timeout) = some s' → s' = s) ∧
      (s.push 0 = .idle → s.pop 0 = .idle →
        s.q.curCount = (s.hist.items.length - s.hist.returned.length : ℕ) ∧
        (List.range s.q.curCount.toNat).map
            (fun i : ℕ => s.q.arr ((s.q.front + i) % s.q.size)) =
          s.hist.items.drop s.hist.returned.length) := by
  constructor
  · intro raw ls s h
    obtain ⟨l, hl, rfl⟩ := (toFifo T size).exec_trace (.of_init ⟨raw, rfl⟩) rfl h
    have hin := Lts.log_eq_trace (M := system T 1 1 size) (f := Fifo.enqs) rfl Fifo.enqs_append
      step_accepted h
    have hout := Lts.log_eq_trace (M := system T 1 1 size) (f := Fifo.deqs) rfl Fifo.deqs_append
      step_returned h
    refine ⟨hl, hin.symm, hout.symm, ?_, Fifo.length_le (Nat.zero_le _) hl⟩
    exact ⟨_, (Fifo.enqs_eq hl).symm⟩
  · intro s hr
    have hlen := pushSem_add_inFlight hr
    have hacc := congrArg List.length (accepted_eq hr)
    rw [accepted_def, List.length_append, List.length_append] at hacc
    refine ⟨returned_prefix_accepted hr, by omega, ?_, ?_, ?_⟩
    · intro t s' hs
      have htimeout : PushStep s 0 (.timeout t) s' := pushStep_iff.mp hs
      cases htimeout
      rfl
    · intro s' hs
      have htimeout : PopStep s 0 .timeout s' := popStep_iff.mp hs
      cases htimeout
      rfl
    · intro hpush hpop
      have hflight : inFlight s = s.hist.items.drop s.hist.returned.length := by
        simp [inFlight, accepted, hpush, PushPc.inHand]
      have hring := ring_eq hr hpush hpop
      rw [hflight, List.length_drop] at hring
      refine ⟨hring.1, ?_⟩
      rw [hring.1, Int.toNat_natCast]
      exact hring.2

end LinuxProgramming.RingQueue
