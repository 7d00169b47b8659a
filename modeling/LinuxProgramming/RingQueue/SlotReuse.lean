import LinuxProgramming.RingQueue.Publication

/-! # Slot reuse: does a push write over an item that a pop has still to read?

`pop` advances `m_front` before it reads its slot, and `m_push_sem` counts the finished pops
without saying which slots they freed: a push of the next lap can come too early.  And a push
that has been overtaken can come too late, when its slot holds an item of the next lap that a
pop has claimed.  Both are excluded exactly as far as nobody overtakes. -/

namespace LinuxProgramming.RingQueue

variable {T : Type*} {P C size : ℕ}

/-- A push at its copy finds no pop that has still to read an occupant of the slot other than the
one being copied, be it of an earlier or of a later lap; and a pop at its copy finds the item of
its position, once it has been copied, still there. -/
structure SlotReuseSafe (s : State T P C) : Prop where
  vacated : ∀ i t slot k, s.push i = .unlocked t slot k →
    ∀ j k', (s.pop j = .claimed slot k' ∨ s.pop j = .unlocked slot k') → k' = k
  intact : ∀ i slot k, s.pop i = .unlocked slot k → Published s k →
    s.hist.writer slot = some k

/-- In a run in which nobody overtakes no push fills a slot that is still to be read. -/
theorem slotReuseSafe_of_inOrder {s : State T P C}
    (h : (system T P C size).ReachableBy InOrderBoth s) : SlotReuseSafe s where
  vacated := by
    intro i t slot k hi j k' hj
    have hI := reachable_inv h.reachable
    have hO := orderedInv_of_inOrder (h.mono fun _ _ hl => hl.1)
    have hV := vacatedInv_of_inOrder (h.mono fun _ _ hl => hl.2)
    have hpend : (s.pop j).pending = some k' := by rcases hj with hj | hj <;> rw [hj] <;> rfl
    have hle := hV.le_of_pending hI hi hj
    have hlt := hO.lt_of_pending hI (i := i) (by rw [hi]; rfl) hpend
    omega
  intact := fun _ _ _ hi _ => (writer_of_inOrder h hi).1

/-! ### Which queues are safe in every run -/

theorem not_slotReuseSafe {s : State T P C} {i : Fin P} {j : Fin C} {t : T} {slot : ℤ}
    {k k' : ℕ} (hi : s.push i = .unlocked t slot k) (hj : s.pop j = .unlocked slot k')
    (hne : k' ≠ k) : ¬ SlotReuseSafe s :=
  fun hs => hne (hs.vacated i t slot k hi j k' (.inr hj))

/-- **Slot reuse.**  In a run in which nobody overtakes, no push writes over an item that a pop
has claimed and not read, and what has been returned are the items of the positions freed, each
once; and all runs of a queue are free of such writes exactly when it has one slot, or one thread
at most on either side, or nobody on one side. -/
theorem slot_reuse_safety [Inhabited T] (P C size : ℕ) :
    (∀ s : State T P C, (system T P C size).ReachableBy InOrderBoth s →
      SlotReuseSafe s ∧ Delivers s) ∧
    ((∀ s : State T P C, (system T P C size).Reachable s → SlotReuseSafe s) ↔
      size ≤ 1 ∨ (P ≤ 1 ∧ C ≤ 1) ∨ P = 0 ∨ C = 0) := by
  refine ⟨fun s h => ⟨slotReuseSafe_of_inOrder h, delivers_of_inOrder h⟩,
    forall_reachable_iff (fun s h => slotReuseSafe_of_inOrder h) ?_ ?_ ?_ ?_⟩
  · rintro rfl s h
    exact ⟨fun i => i.elim0, fun i slot k hi =>
      absurd (by rw [hi]; rfl) (pos_of_noProducer h i k)⟩
  · rintro rfl s h
    exact ⟨fun _ _ _ _ _ j => j.elim0, fun i => i.elim0⟩
  · intro hsize hP hC
    obtain ⟨s, p, c, hs, hp, hc, -⟩ := @exists_ahead T P C size hsize hP hC default default
    exact ⟨s, hs, not_slotReuseSafe hp hc (by omega)⟩
  · intro hsize hP hC
    obtain ⟨s, p, c, hs, hp, hc⟩ := @exists_behind T P C size hsize hP hC default
    exact ⟨s, hs, not_slotReuseSafe hp hc (by omega)⟩

/-- One producer and two consumers on a ring of two slots: the second pop frees its slot while
the first has yet to read slot 0, and the third push writes there.  The first pop returns the
third item and the first item is lost. -/
def overtakingPops (p : Fin P) (c d : Fin C) : List (Act ℕ P C) :=
  [.push p (.take 7), .push p .lock, .push p .reserve, .push p .unlock, .push p .copy,
   .push p .post,
   .push p (.take 8), .push p .lock, .push p .reserve, .push p .unlock, .push p .copy,
   .push p .post,
   .pop c .take, .pop c .lock, .pop c .claim, .pop c .unlock,
   .pop d .take, .pop d .lock, .pop d .claim, .pop d .unlock, .pop d .copy, .pop d .post,
   .push p (.take 9), .push p .lock, .push p .reserve, .push p .unlock]

theorem slot_overwritten :
    (∃ s s', (system ℕ 1 2 2).exec (start 2 fun _ => 0) (overtakingPops 0 0 1) = some s ∧
      ¬ SlotReuseSafe s ∧
      (system ℕ 1 2 2).exec s [.push 0 .copy, .push 0 .post, .pop 0 .copy, .pop 0 .post] =
        some s' ∧
      s'.hist.items = [7, 8, 9] ∧ s'.hist.returned = [8, 9]) ∧
    ¬ ∀ s, (system ℕ 1 2 2).Reachable s → SlotReuseSafe s := by
  have hrun : ∃ s s', (system ℕ 1 2 2).exec (start 2 fun _ => 0) (overtakingPops 0 0 1) = some s ∧
      ¬ SlotReuseSafe s ∧
      (system ℕ 1 2 2).exec s [.push 0 .copy, .push 0 .post, .pop 0 .copy, .pop 0 .post] =
        some s' ∧
      s'.hist.items = [7, 8, 9] ∧ s'.hist.returned = [8, 9] :=
    ⟨_, _, rfl,
      not_slotReuseSafe (i := 0) (j := 0) rfl rfl (by decide), rfl, rfl, rfl⟩
  refine ⟨hrun, fun hall => ?_⟩
  obtain ⟨s, _, hs, hbad, _⟩ := hrun
  exact hbad (hall s (Lts.Reachable.exec (.of_init ⟨_, rfl⟩) hs))

end LinuxProgramming.RingQueue
