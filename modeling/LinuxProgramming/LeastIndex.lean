import Mathlib.Data.Nat.Notation
import Mathlib.Order.Lattice

/-! # The first place of a minimum

`LeastIndex f a b k` says that `k` is the lowest index from `a` up to `b` at which `f` has its
minimum over these indices.  A search extends the range by one index at a time; a minimum over a
range is one over each part of the range that contains it.

A `Search` is made again and again over one stream of values, and what the last one has found
(`Finds`) is known from the number of values so far (`finished`). -/

namespace LinuxProgramming

variable {α : Type*} [LinearOrder α] {f : ℕ → α} {a b k : ℕ}

structure LeastIndex (f : ℕ → α) (a b k : ℕ) : Prop where
  low : a ≤ k
  lt : k < b
  least : ∀ i, a ≤ i → i < b → f k ≤ f i
  first : ∀ i, a ≤ i → i < k → f k < f i

namespace LeastIndex

theorem single (f : ℕ → α) (a : ℕ) : LeastIndex f a (a + 1) a where
  low := Nat.le_refl a
  lt := Nat.lt_succ_self a
  least i h1 h2 := by
    obtain rfl : i = a := Nat.le_antisymm (Nat.le_of_lt_succ h2) h1
    exact le_refl _
  first i h1 h2 := absurd h1 (Nat.not_le_of_lt h2)

/-- The next index has a smaller value. -/
theorem next_of_lt (h : LeastIndex f a b k) (hlt : f b < f k) : LeastIndex f a (b + 1) b where
  low := Nat.le_trans h.low (Nat.le_of_lt h.lt)
  lt := Nat.lt_succ_self b
  least i h1 h2 := by
    rcases Nat.lt_succ_iff_lt_or_eq.mp h2 with hi | rfl
    · exact le_of_lt (lt_of_lt_of_le hlt (h.least i h1 hi))
    · exact le_refl _
  first i h1 h2 := lt_of_lt_of_le hlt (h.least i h1 h2)

/-- The next index has a value that is no smaller. -/
theorem next_of_not_lt (h : LeastIndex f a b k) (hge : ¬ f b < f k) :
    LeastIndex f a (b + 1) k where
  low := h.low
  lt := Nat.lt_succ_of_lt h.lt
  least i h1 h2 := by
    rcases Nat.lt_succ_iff_lt_or_eq.mp h2 with hi | rfl
    · exact h.least i h1 hi
    · exact not_lt.mp hge
  first := h.first

/-- A part of the range that contains the index. -/
theorem part (h : LeastIndex f a b k) {a' b' : ℕ} (ha : a ≤ a') (hb : b' ≤ b) (h1 : a' ≤ k)
    (h2 : k < b') : LeastIndex f a' b' k where
  low := h1
  lt := h2
  least i hi hi' := h.least i (Nat.le_trans ha hi) (Nat.lt_of_lt_of_le hi' hb)
  first i hi hi' := h.first i (Nat.le_trans ha hi) hi'

theorem unique {k' : ℕ} (h : LeastIndex f a b k) (h' : LeastIndex f a b k') : k = k' := by
  rcases Nat.lt_trichotomy k k' with hlt | heq | hgt
  · exact absurd (h.least k' h'.low h'.lt) (not_le.mpr (h'.first k h.low hlt))
  · exact heq
  · exact absurd (h'.least k h.low h.lt) (not_le.mpr (h.first k' h'.low hgt))

/-- A minimum of values is nearly one of the numbers that the values are near to. -/
theorem le_add_of_near {f g : ℕ → ℕ} {d i : ℕ} (h : LeastIndex f a b k)
    (hnear : ∀ i, a ≤ i → i < b → g i ≤ f i + d ∧ f i ≤ g i + d) (ha : a ≤ i) (hb : i < b) :
    g k ≤ g i + 2 * d := by
  have hleast := h.least i ha hb
  have hk := (hnear k h.low h.lt).1
  have hi := (hnear i ha hb).2
  omega

end LeastIndex

/-! ### Repeated searches -/

/-- In every `period` values of a stream there are `before` others first, then one for each of the
`count` indices from `first` on, and at the next value the search is over. -/
structure Search where
  period : ℕ
  before : ℕ
  first : ℕ
  count : ℕ

namespace Search

variable {σ : Search}

/-- The value for index `i` in search number `j`. -/
def value (σ : Search) (a : ℕ → α) (j i : ℕ) : α := a (j * σ.period + σ.before + (i - σ.first))

/-- The number of searches that are over after `t` values. -/
def finished (σ : Search) (t : ℕ) : ℕ := (t + (σ.period - (σ.before + σ.count + 1))) / σ.period

/-- `k` is what the last of `m` searches has found; before the first one it is the first index. -/
def Finds (σ : Search) (a : ℕ → α) (m k : ℕ) : Prop :=
  match m with
  | 0 => k = σ.first
  | j + 1 => LeastIndex (σ.value a j) σ.first (σ.first + σ.count) k

theorem finished_of_le {j r : ℕ} (hperiod : σ.before + σ.count < σ.period)
    (hr : r ≤ σ.before + σ.count) : σ.finished (j * σ.period + r) = j := by
  unfold finished
  refine Nat.div_eq_of_lt_le ?_ ?_
  · omega
  · rw [Nat.succ_mul]
    omega

theorem finished_of_lt {j r : ℕ} (hr : σ.before + σ.count < r) (hlt : r < σ.period) :
    σ.finished (j * σ.period + r) = j + 1 := by
  unfold finished
  refine Nat.div_eq_of_lt_le ?_ ?_
  · rw [Nat.succ_mul]
    omega
  · rw [Nat.succ_mul, Nat.succ_mul]
    omega

end Search

end LinuxProgramming
