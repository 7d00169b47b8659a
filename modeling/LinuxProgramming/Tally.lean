import Mathlib.Data.Fintype.BigOperators
import Mathlib.Algebra.Order.BigOperators.Group.Finset

/-! # Tallies over a family of threads

`tally w f` adds a weight over a finite family of thread states.  A step of one thread is a
`Function.update` of the family, and `tally_update` is the only fact about it that the
invariants need: it is an equation without subtraction, ready for linear arithmetic. -/

namespace LinuxProgramming

variable {ι α β : Type*}

/-- The total weight of a family. -/
def tally [Fintype ι] (w : α → ℕ) (f : ι → α) : ℕ := ∑ i, w (f i)

section tally
variable [Fintype ι] (w : α → ℕ)

theorem tally_const_zero {a : α} (h : w a = 0) : tally w (fun _ : ι => a) = 0 := by
  simp [tally, h]

theorem tally_eq_zero {f : ι → α} (h : ∀ i, w (f i) = 0) : tally w f = 0 :=
  Finset.sum_eq_zero fun i _ => h i

/-- A thread with weight makes the tally positive. -/
theorem tally_pos {f : ι → α} {i : ι} (h : 0 < w (f i)) : 0 < tally w f :=
  Finset.sum_pos' (fun _ _ => Nat.zero_le _) ⟨i, Finset.mem_univ i, h⟩

theorem add_le_tally [DecidableEq ι] (f : ι → α) {i j : ι} (h : i ≠ j) :
    w (f i) + w (f j) ≤ tally w f := by
  have hsub : ({i, j} : Finset ι) ⊆ Finset.univ := Finset.subset_univ _
  have := Finset.sum_le_sum_of_subset (f := fun i => w (f i)) hsub
  rwa [Finset.sum_pair h] at this

theorem tally_update [DecidableEq ι] (f : ι → α) (i : ι) (a : α) :
    tally w (Function.update f i a) + w (f i) = tally w f + w a := by
  have hne : ∀ j ∈ Finset.univ.erase i, w (Function.update f i a j) = w (f j) := by
    intro j hj
    rw [Function.update_of_ne (Finset.ne_of_mem_erase hj)]
  unfold tally
  rw [← Finset.add_sum_erase _ _ (Finset.mem_univ i),
    ← Finset.add_sum_erase _ (fun j => w (f j)) (Finset.mem_univ i),
    Finset.sum_congr rfl hne, Function.update_self]
  omega

theorem tally_update_of_eq [DecidableEq ι] {f : ι → α} {i : ι} {a : α} (h : w a = w (f i)) :
    tally w (Function.update f i a) = tally w f := by
  have hu := tally_update w f i a
  omega

/-- A weight that is bounded thread by thread is bounded in total. -/
theorem tally_le_tally {w : α → ℕ} {w' : β → ℕ} {f : ι → α} {g : ι → β}
    (h : ∀ i, w (f i) ≤ w' (g i)) : tally w f ≤ tally w' g :=
  Finset.sum_le_sum fun i _ => h i

/-- It is smaller in total when it is smaller for some thread. -/
theorem tally_lt_tally {w : α → ℕ} {w' : β → ℕ} {f : ι → α} {g : ι → β}
    (h : ∀ i, w (f i) ≤ w' (g i)) {i : ι} (hlt : w (f i) < w' (g i)) : tally w f < tally w' g :=
  Finset.sum_lt_sum (fun i _ => h i) ⟨i, Finset.mem_univ i, hlt⟩

/-- A weight that splits thread by thread splits in total. -/
theorem tally_eq_add {w w' : α → ℕ} {u : β → ℕ} {f : ι → α} {g : ι → β}
    (h : ∀ i, w (f i) = w' (f i) + u (g i)) : tally w f = tally w' f + tally u g := by
  unfold tally
  rw [← Finset.sum_add_distrib]
  exact Finset.sum_congr rfl fun i _ => h i

end tally

/-- Reading a family through a projection commutes with updating it. -/
theorem comp_update [DecidableEq ι] (g : α → β) (f : ι → α) (i : ι) (a : α) :
    (fun j => g (Function.update f i a j)) = Function.update (fun j => g (f j)) i (g a) := by
  funext j
  by_cases h : j = i
  · subst h; simp
  · simp [h]

/-- A step that does not change the projection of its thread changes none. -/
theorem comp_update_of_eq [DecidableEq ι] (g : α → β) (f : ι → α) {i : ι} {a : α}
    (h : g a = g (f i)) : (fun j => g (Function.update f i a j)) = fun j => g (f j) := by
  rw [comp_update, h]
  exact Function.update_eq_self i _

end LinuxProgramming
