import Mathlib.Algebra.Group.Int.Defs
import Mathlib.Algebra.Group.Nat.Defs
import Mathlib.Data.Int.Notation
import Mathlib.Data.Nat.Notation
import Mathlib.Data.List.TakeWhile

/-! # Decimal texts in C

`decimal` is what `printf` makes of an `int` under `%d`, and `strtol` reads a number back from
the front of a text, held between the least and the greatest `long`.  How many characters a number
takes, and that no two numbers have the same text, is what a fixed buffer and a name depend
on. -/

namespace LinuxProgramming

/-! ### Printing -/

/-- `%d`. -/
def decimal (z : ℤ) : List Char :=
  if z < 0 then '-' :: Nat.toDigits 10 z.natAbs else Nat.toDigits 10 z.natAbs

theorem decimal_natCast (n : ℕ) : decimal n = Nat.toDigits 10 n := by
  unfold decimal
  rw [if_neg (by omega), Int.natAbs_natCast]

theorem decimal_of_neg {z : ℤ} (hz : z < 0) : decimal z = '-' :: Nat.toDigits 10 z.natAbs :=
  if_pos hz

theorem isDigit_of_mem_toDigits {n : ℕ} {c : Char} (hc : c ∈ Nat.toDigits 10 n) :
    c.isDigit = true :=
  Nat.isDigit_of_mem_toDigits (by decide) (by decide) hc

theorem mem_decimal {z : ℤ} {c : Char} (hc : c ∈ decimal z) : c = '-' ∨ c.isDigit = true := by
  unfold decimal at hc
  split at hc
  · rcases List.mem_cons.mp hc with rfl | hc
    · exact .inl rfl
    · exact .inr (isDigit_of_mem_toDigits hc)
  · exact .inr (isDigit_of_mem_toDigits hc)

theorem toDigits_inj {m n : ℕ} (h : Nat.toDigits 10 m = Nat.toDigits 10 n) : m = n := by
  have hvalue := congrArg (Nat.ofDigitChars 10 · 0) h
  rwa [Nat.ofDigitChars_ten_toDigits, Nat.ofDigitChars_ten_toDigits] at hvalue

theorem minus_ne_digits {n : ℕ} {text : List Char} : '-' :: text ≠ Nat.toDigits 10 n := by
  intro h
  have hdigit := isDigit_of_mem_toDigits (n := n) (h ▸ List.mem_cons_self)
  exact absurd hdigit (by decide)

theorem decimal_inj {y z : ℤ} (h : decimal y = decimal z) : y = z := by
  unfold decimal at h
  split at h <;> split at h
  · have habs := toDigits_inj (List.cons.inj h).2
    omega
  · exact absurd h minus_ne_digits
  · exact absurd h.symm minus_ne_digits
  · have habs := toDigits_inj h
    omega

/-- The sign takes a character away from the digits. -/
theorem length_decimal_le_iff {k : ℕ} (hk : 0 < k) (z : ℤ) :
    (decimal z).length ≤ k + 1 ↔ -10 ^ k < z ∧ z < 10 ^ (k + 1) := by
  have hle : 10 ^ k ≤ 10 ^ (k + 1) := Nat.pow_le_pow_right (by decide) (Nat.le_succ k)
  have hcast : ∀ j, (10 : ℤ) ^ j = ((10 ^ j : ℕ) : ℤ) := fun j => (Int.natCast_pow 10 j).symm
  rw [hcast, hcast]
  unfold decimal
  split
  · rw [List.length_cons, Nat.succ_le_succ_iff, Nat.length_toDigits_le_iff (by decide) hk]
    omega
  · rw [Nat.length_toDigits_le_iff (by decide) (Nat.succ_pos k)]
    omega

/-! ### Scanning -/

def isspace (c : Char) : Bool := c = ' ' || ('\t' ≤ c && c ≤ '\r')

/-- The value of the digits in front. -/
def leadingDigits (text : List Char) : ℕ := Nat.ofDigitChars 10 (text.takeWhile Char.isDigit) 0

/-- `strtol` in base 10, with a `long` of `bits` bits: blanks, a sign, digits. -/
def strtol (bits : ℕ) (text : List Char) : ℤ :=
  match text.dropWhile isspace with
  | '-' :: rest => max (-2 ^ (bits - 1)) (-leadingDigits rest)
  | '+' :: rest => min (2 ^ (bits - 1) - 1) (leadingDigits rest)
  | rest => min (2 ^ (bits - 1) - 1) (leadingDigits rest)

theorem leadingDigits_of_isDigit {text : List Char} (h : ∀ c ∈ text, c.isDigit = true) :
    leadingDigits text = Nat.ofDigitChars 10 text 0 := by
  unfold leadingDigits
  rw [List.takeWhile_eq_self_iff.mpr h]

theorem leadingDigits_toDigits (n : ℕ) : leadingDigits (Nat.toDigits 10 n) = n := by
  rw [leadingDigits_of_isDigit fun c => isDigit_of_mem_toDigits, Nat.ofDigitChars_ten_toDigits]

theorem isspace_of_isDigit {c : Char} (hc : c.isDigit = true) : isspace c = false := by
  unfold isspace
  unfold Char.isDigit at hc
  rw [Bool.and_eq_true, decide_eq_true_iff, decide_eq_true_iff] at hc
  rw [Bool.or_eq_false_iff, Bool.and_eq_false_iff, decide_eq_false_iff_not,
    decide_eq_false_iff_not, decide_eq_false_iff_not]
  refine ⟨?_, .inr ?_⟩
  · rintro rfl
    exact absurd hc (by decide)
  · intro hle
    exact absurd (Char.le_trans hc.1 hle) (by decide)

theorem strtol_toDigits (bits n : ℕ) :
    strtol bits (Nat.toDigits 10 n) = min (2 ^ (bits - 1) - 1) (n : ℤ) := by
  have hvalue := leadingDigits_toDigits n
  rcases htext : Nat.toDigits 10 n with _ | ⟨c, rest⟩
  · exact absurd htext Nat.toDigits_ne_nil
  · have hc : c.isDigit = true := isDigit_of_mem_toDigits (htext ▸ List.mem_cons_self)
    rw [htext] at hvalue
    unfold strtol
    rw [List.dropWhile_cons_of_neg (by rw [isspace_of_isDigit hc]; decide)]
    -- a digit is no sign
    split
    · next heq =>
        rw [(List.cons.inj heq).1] at hc
        exact absurd hc (by decide)
    · next heq =>
        rw [(List.cons.inj heq).1] at hc
        exact absurd hc (by decide)
    · rw [hvalue]

theorem strtol_decimal (bits : ℕ) {z : ℤ} (hlow : -2 ^ (bits - 1) ≤ z)
    (hhigh : z < 2 ^ (bits - 1)) : strtol bits (decimal z) = z := by
  by_cases hz : z < 0
  · rw [decimal_of_neg hz]
    show max (-2 ^ (bits - 1)) (-(leadingDigits (Nat.toDigits 10 z.natAbs) : ℤ)) = z
    rw [leadingDigits_toDigits]
    omega
  · obtain ⟨n, rfl⟩ := Int.eq_ofNat_of_zero_le (Int.not_lt.mp hz)
    rw [decimal_natCast, strtol_toDigits]
    omega

end LinuxProgramming
