import LinuxProgramming.Tally

/-! # Tickets

A family of threads draws consecutive tickets `0, 1, 2, …` and hands them back.  `next` is the
ticket drawn next, `held i` the ticket that thread `i` holds and `done` the set of tickets
handed back.  `Tickets` says that this bookkeeping is sound; `Tickets.issue` and
`Tickets.finish` are its two moves.

Counting tells how many tickets were handed back, not which ones.  `InOrder pending done` closes
that gap: as long as every ticket handed back is below every pending one, the number of tickets
handed back bounds the pending tickets from below (`InOrder.card_le`). -/

namespace LinuxProgramming

variable {ι : Type*}

/-- Weight one for a thread that holds a ticket. -/
def holding (t : Option ℕ) : ℕ := if t.isSome then 1 else 0

@[simp] theorem holding_none : holding none = 0 := rfl
@[simp] theorem holding_some (k : ℕ) : holding (some k) = 1 := rfl

/-- Sound bookkeeping of the tickets below `next`. -/
structure Tickets [Fintype ι] (next : ℕ) (held : ι → Option ℕ) (done : Finset ℕ) : Prop where
  held_lt : ∀ i k, held i = some k → k < next
  held_inj : ∀ i j k, held i = some k → held j = some k → i = j
  held_notMem : ∀ i k, held i = some k → k ∉ done
  done_lt : ∀ k ∈ done, k < next
  card : done.card + tally holding held = next

/-- Every ticket handed back is below every pending one. -/
def InOrder (pending : ι → Option ℕ) (done : Finset ℕ) : Prop :=
  ∀ k ∈ done, ∀ i k', pending i = some k' → k < k'

namespace Tickets
variable [Fintype ι] {next : ℕ} {held : ι → Option ℕ} {done : Finset ℕ}

theorem start : Tickets 0 (fun _ : ι => none) ∅ where
  held_lt := by simp
  held_inj := by simp
  held_notMem := by simp
  done_lt := by simp
  card := by simp [tally]

/-- An idle thread draws the next ticket. -/
theorem issue [DecidableEq ι] (h : Tickets next held done) {i : ι} (hi : held i = none) :
    Tickets (next + 1) (Function.update held i (some next)) done where
  held_lt := by
    intro j k hk
    rcases eq_or_ne j i with rfl | hj
    · simp at hk; omega
    · rw [Function.update_of_ne hj] at hk
      exact Nat.lt_succ_of_lt (h.held_lt j k hk)
  held_inj := by
    intro j j' k hk hk'
    by_cases hj : j = i <;> by_cases hj' : j' = i
    · rw [hj, hj']
    · rw [hj, Function.update_self] at hk
      rw [Function.update_of_ne hj'] at hk'
      have := h.held_lt j' k hk'
      cases hk; omega
    · rw [Function.update_of_ne hj] at hk
      rw [hj', Function.update_self] at hk'
      have := h.held_lt j k hk
      cases hk'; omega
    · rw [Function.update_of_ne hj] at hk
      rw [Function.update_of_ne hj'] at hk'
      exact h.held_inj j j' k hk hk'
  held_notMem := by
    intro j k hk hd
    rcases eq_or_ne j i with rfl | hj
    · have := h.done_lt k hd
      simp at hk; omega
    · rw [Function.update_of_ne hj] at hk
      exact h.held_notMem j k hk hd
  done_lt := fun k hk => Nat.lt_succ_of_lt (h.done_lt k hk)
  card := by
    have hc := h.card
    have hu := tally_update holding held i (some next)
    rw [hi, holding_none, holding_some] at hu
    omega

/-- A thread hands its ticket back. -/
theorem finish [DecidableEq ι] (h : Tickets next held done) {i : ι} {k : ℕ} (hi : held i = some k) :
    Tickets next (Function.update held i none) (insert k done) where
  held_lt := by
    intro j k' hk
    rcases eq_or_ne j i with rfl | hj
    · simp at hk
    · rw [Function.update_of_ne hj] at hk
      exact h.held_lt j k' hk
  held_inj := by
    intro j j' k' hk hk'
    rcases eq_or_ne j i with rfl | hj
    · simp at hk
    · rcases eq_or_ne j' i with rfl | hj'
      · simp at hk'
      · rw [Function.update_of_ne hj] at hk
        rw [Function.update_of_ne hj'] at hk'
        exact h.held_inj j j' k' hk hk'
  held_notMem := by
    intro j k' hk hd
    rcases eq_or_ne j i with rfl | hj
    · simp at hk
    · rw [Function.update_of_ne hj] at hk
      rcases Finset.mem_insert.mp hd with rfl | hd
      · exact hj (h.held_inj j i k' hk hi)
      · exact h.held_notMem j k' hk hd
  done_lt := by
    intro k' hk'
    rcases Finset.mem_insert.mp hk' with rfl | hk'
    · exact h.held_lt i k' hi
    · exact h.done_lt k' hk'
  card := by
    have hc := h.card
    have hu := tally_update holding held i none
    rw [hi, holding_none, holding_some] at hu
    rw [Finset.card_insert_of_notMem (h.held_notMem i k hi)]
    omega

theorem card_le (h : Tickets next held done) : done.card ≤ next := by
  have := h.card
  omega

/-- A ticket that is not pending any more is not among the pending ones. -/
theorem lt_of_le (h : Tickets next held done) {pending : ι → Option ℕ}
    (hheld : ∀ j k, pending j = some k → held j = some k) {i : ι} {k : ℕ} (hi : held i = some k)
    (hnone : pending i = none) (hle : ∀ j k', pending j = some k' → k ≤ k') :
    ∀ j k', pending j = some k' → k < k' := by
  intro j k' hj
  apply lt_of_le_of_ne (hle j k' hj)
  rintro rfl
  rw [h.held_inj j i k (hheld j k hj) hi, hnone] at hj
  cases hj

end Tickets

namespace InOrder
variable {pending : ι → Option ℕ} {done : Finset ℕ}

theorem start (pending : ι → Option ℕ) : InOrder pending ∅ := by simp [InOrder]

/-- The number of tickets handed back does not pass a pending ticket. -/
theorem card_le (h : InOrder pending done) {i : ι} {k : ℕ} (hi : pending i = some k) :
    done.card ≤ k := by
  have hsub : done ⊆ Finset.range k := fun p hp => Finset.mem_range.mpr (h p hp i k hi)
  simpa using Finset.card_le_card hsub

/-- A fresh ticket becomes pending. -/
theorem issue [Fintype ι] [DecidableEq ι] {next : ℕ} {held : ι → Option ℕ} (h : InOrder pending done)
    (ht : Tickets next held done) (i : ι) :
    InOrder (Function.update pending i (some next)) done := by
  intro p hp j k hk
  rcases eq_or_ne j i with rfl | hj
  · have := ht.done_lt p hp
    simp at hk; omega
  · rw [Function.update_of_ne hj] at hk
    exact h p hp j k hk

/-- A ticket is no longer pending. -/
theorem drop [DecidableEq ι] (h : InOrder pending done) (i : ι) :
    InOrder (Function.update pending i none) done := by
  intro p hp j k hk
  rcases eq_or_ne j i with rfl | hj
  · simp at hk
  · rw [Function.update_of_ne hj] at hk
    exact h p hp j k hk

/-- A ticket below all pending ones is handed back. -/
theorem finish (h : InOrder pending done) {k : ℕ} (hk : ∀ i k', pending i = some k' → k < k') :
    InOrder pending (insert k done) := by
  intro p hp j k' hk'
  rcases Finset.mem_insert.mp hp with rfl | hp
  · exact hk j k' hk'
  · exact h p hp j k' hk'

end InOrder

end LinuxProgramming
