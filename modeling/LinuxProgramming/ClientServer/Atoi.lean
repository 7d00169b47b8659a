import LinuxProgramming.ClientServer.WorkItem
import Mathlib.Data.List.TakeWhile

/-! # The client's own `atoi`

`Client.cpp` of Chapter 15 reads the client id from its argument with an `atoi` of its own: a loop
over the characters that gives the number up for the default when one is no digit.  The sum is an
`int`, which nothing keeps in its range, and an empty text has no character to give up at.
`atoi_parses_iff` says which texts are read as they should be. -/

namespace LinuxProgramming.ClientServer

/-! ### The loop -/

/-- A sum that an `int` cannot hold, or a read past the end of what is known of the memory. -/
inductive Fault where
  | overflow | outside
  deriving DecidableEq

/-- `INT_MAX`. -/
def intMax : ℤ := 2147483647

/-- `SECONDS_TO_RUN_CLIENT_DEFAULT`. -/
def secondsToRunClientDefault : ℤ := 10

/-- The result of an operation on `int`s. -/
def int (z : ℤ) : Except Fault ℤ :=
  if -intMax - 1 ≤ z ∧ z ≤ intMax then .ok z else .error .overflow

/-- The loop of `atoi`, on the bytes from `s` on.  A `char` is signed. -/
def atoiLoop : List Byte → ℤ → Except Fault ℤ
  | [], _ => .error .outside
  | s :: rest, result =>
      if s = 0#8 then .ok result
      else if s.toInt < 48 ∨ s.toInt > 57 then .ok secondsToRunClientDefault
      else do
        let r := s.toInt - 48
        let product ← int (10 * result)
        let sum ← int (product + r)
        atoiLoop rest sum

def atoi (s : List Byte) : Except Fault ℤ := atoiLoop s 0

/-! ### What is to be read -/

/-- The bytes of a text before its terminator. -/
structure CString where
  bytes : List Byte
  ne_zero : ∀ b ∈ bytes, b ≠ 0#8

def isDigit (b : Byte) : Bool := 48 ≤ b.toInt && b.toInt ≤ 57

/-- Horner's rule, from `n` on. -/
def valueFrom (n : ℤ) (digits : List Byte) : ℤ :=
  digits.foldl (fun n d => 10 * n + (d.toInt - 48)) n

/-- The value of a text of digits that is an `int`, and otherwise the default. -/
def parsed (s : CString) : ℤ :=
  if s.bytes ≠ [] ∧ s.bytes.all isDigit ∧ valueFrom 0 s.bytes ≤ intMax then valueFrom 0 s.bytes
  else secondsToRunClientDefault

/-- The digits in front of the first other character. -/
def CString.leading (s : CString) : List Byte := s.bytes.takeWhile isDigit

/-! ### Digits -/

theorem isDigit_iff (b : Byte) : isDigit b = true ↔ ¬ (b.toInt < 48 ∨ b.toInt > 57) := by
  unfold isDigit
  rw [Bool.and_eq_true, decide_eq_true_iff, decide_eq_true_iff]
  omega

theorem ne_zero_of_isDigit {b : Byte} (h : isDigit b = true) : b ≠ 0#8 := by
  rintro rfl
  exact absurd h (by decide)

theorem le_valueFrom {digits : List Byte} (h : ∀ d ∈ digits, isDigit d = true) {n : ℤ}
    (hn : 0 ≤ n) : n ≤ valueFrom n digits := by
  induction digits generalizing n with
  | nil => exact le_refl n
  | cons d digits ih =>
      have hd := (isDigit_iff d).mp (h d List.mem_cons_self)
      have hstep := ih (fun d' hd' => h d' (List.mem_cons_of_mem d hd'))
        (n := 10 * n + (d.toInt - 48)) (by omega)
      exact le_trans (by omega) hstep

theorem int_of_le {z : ℤ} (hz : 0 ≤ z) (hmax : z ≤ intMax) : int z = .ok z := by
  have hmin : -intMax - 1 ≤ z := le_trans (by decide) hz
  exact if_pos ⟨hmin, hmax⟩

theorem int_of_gt {z : ℤ} (hmax : intMax < z) : int z = .error .overflow :=
  if_neg fun h => absurd h.2 (not_le_of_gt hmax)

/-- One digit more. -/
theorem atoiLoop_cons {d : Byte} (h : isDigit d = true) (rest : List Byte) {n : ℤ} (hn : 0 ≤ n) :
    atoiLoop (d :: rest) n =
      if 10 * n + (d.toInt - 48) ≤ intMax then atoiLoop rest (10 * n + (d.toInt - 48))
      else .error .overflow := by
  have hd := (isDigit_iff d).mp h
  have hunfold : atoiLoop (d :: rest) n = int (10 * n) >>= fun product =>
      int (product + (d.toInt - 48)) >>= fun sum => atoiLoop rest sum := by
    conv_lhs => unfold atoiLoop
    rw [if_neg (ne_zero_of_isDigit h), if_neg hd]
  rw [hunfold]
  by_cases hproduct : 10 * n ≤ intMax
  · rw [int_of_le (by omega) hproduct]
    by_cases hsum : 10 * n + (d.toInt - 48) ≤ intMax
    · rw [if_pos hsum]
      show (int (10 * n + (d.toInt - 48)) >>= fun sum => atoiLoop rest sum) = _
      rw [int_of_le (by omega) hsum]
      rfl
    · rw [if_neg hsum]
      show (int (10 * n + (d.toInt - 48)) >>= fun sum => atoiLoop rest sum) = _
      rw [int_of_gt (not_le.mp hsum)]
      rfl
  · rw [int_of_gt (not_le.mp hproduct), if_neg (by omega)]
    rfl

theorem atoiLoop_digits {digits : List Byte} (h : ∀ d ∈ digits, isDigit d = true)
    (rest : List Byte) {n : ℤ} (hn : 0 ≤ n) (hmax : n ≤ intMax) :
    atoiLoop (digits ++ rest) n =
      if valueFrom n digits ≤ intMax then atoiLoop rest (valueFrom n digits)
      else .error .overflow := by
  induction digits generalizing n with
  | nil => exact (if_pos hmax).symm
  | cons d digits ih =>
      have hd := h d List.mem_cons_self
      have hdigits := fun d' hd' => h d' (List.mem_cons_of_mem d hd')
      have hpos : 0 ≤ 10 * n + (d.toInt - 48) := by
        have hrange := (isDigit_iff d).mp hd
        omega
      rw [List.cons_append, atoiLoop_cons hd _ hn]
      split
      · next hle => exact ih hdigits hpos hle
      · next hgt =>
          -- the sum does not come down again
          have hle := le_valueFrom hdigits hpos
          exact (if_neg fun hvalue => hgt (le_trans hle hvalue)).symm

theorem CString.isDigit_leading (s : CString) : ∀ d ∈ s.leading, isDigit d = true :=
  fun _ hd => List.mem_takeWhile_imp hd

/-- Behind the digits there is the terminator or a character that ends the loop. -/
theorem atoi_eq (s : CString) (beyond : List Byte) :
    atoi (s.bytes ++ 0#8 :: beyond) =
      if valueFrom 0 s.leading ≤ intMax then
        .ok (if s.bytes.all isDigit then valueFrom 0 s.leading else secondsToRunClientDefault)
      else .error .overflow := by
  have hsplit : s.leading ++ s.bytes.dropWhile isDigit = s.bytes := List.takeWhile_append_dropWhile
  unfold atoi
  conv_lhs => rw [← hsplit, List.append_assoc]
  rw [atoiLoop_digits s.isDigit_leading _ (le_refl 0) (by decide)]
  congr 1
  rcases htail : s.bytes.dropWhile isDigit with _ | ⟨b, tail⟩
  · have hall : s.bytes.all isDigit = true :=
      List.all_eq_true.mpr (List.dropWhile_eq_nil_iff.mp htail)
    rw [if_pos hall]
    rfl
  · have hb : ¬ isDigit b = true := by
      have hhead := List.head?_dropWhile_not isDigit s.bytes
      rw [htail] at hhead
      rw [show isDigit b = false from hhead]
      decide
    have hmem : b ∈ s.bytes :=
      (List.dropWhile_suffix isDigit).subset (htail ▸ List.mem_cons_self)
    have hall : ¬ s.bytes.all isDigit = true := fun hall => hb (List.all_eq_true.mp hall b hmem)
    rw [if_neg hall, List.cons_append]
    unfold atoiLoop
    rw [if_neg (s.ne_zero b hmem), if_pos (not_not.mp fun hrange => hb ((isDigit_iff b).mpr hrange))]

theorem atoi_range {s : CString} {beyond : List Byte} {z : ℤ}
    (h : atoi (s.bytes ++ 0#8 :: beyond) = .ok z) : 0 ≤ z ∧ z ≤ intMax := by
  have hpos := le_valueFrom s.isDigit_leading (le_refl 0)
  rw [atoi_eq] at h
  split at h
  · next hle =>
      rw [← Except.ok.inj h]
      split
      · exact ⟨hpos, hle⟩
      · decide
  · contradiction

theorem leading_of_all {s : CString} (h : s.bytes.all isDigit = true) : s.leading = s.bytes :=
  List.takeWhile_eq_self_iff.mpr (List.all_eq_true.mp h)

/-- **Parsing.**  A text is read as it should be exactly if it is not empty and the digits in front
are the digits of an `int`. -/
theorem atoi_parses_iff (s : CString) (beyond : List Byte) :
    atoi (s.bytes ++ 0#8 :: beyond) = .ok (parsed s) ↔
      s.bytes ≠ [] ∧ valueFrom 0 s.leading ≤ intMax := by
  rw [atoi_eq]
  by_cases hvalue : valueFrom 0 s.leading ≤ intMax
  · rw [if_pos hvalue]
    by_cases hempty : s.bytes = []
    · -- nothing is added up, and 0 is not the default
      have hleading : s.leading = [] := by
        unfold CString.leading
        rw [hempty]
        rfl
      have hparsed : parsed s = 10 := if_neg fun h => h.1 hempty
      rw [hparsed, hleading, hempty]
      exact ⟨fun h => absurd h (by decide), fun h => absurd rfl h.1⟩
    · refine ⟨fun _ => ⟨hempty, hvalue⟩, fun _ => ?_⟩
      unfold parsed
      by_cases hall : s.bytes.all isDigit = true
      · rw [leading_of_all hall] at hvalue ⊢
        rw [if_pos hall, if_pos ⟨hempty, hall, hvalue⟩]
      · rw [if_neg hall, if_neg fun h => hall h.2.1]
  · rw [if_neg hvalue]
    exact ⟨fun h => by contradiction, fun h => absurd h.2 hvalue⟩

def emptyText : CString := ⟨[], by decide⟩

/-- The digits of `INT_MAX + 1`. -/
def tooLarge : CString := ⟨[50#8, 49#8, 52#8, 55#8, 52#8, 56#8, 51#8, 54#8, 52#8, 56#8], by decide⟩

/-- The empty text is read as 0, and one more than the greatest `int` overflows. -/
theorem atoi_misreads :
    atoi (emptyText.bytes ++ [0#8]) = .ok 0 ∧ parsed emptyText = 10 ∧
    atoi (tooLarge.bytes ++ [0#8]) = .error .overflow ∧ parsed tooLarge = 10 := by
  decide +kernel

end LinuxProgramming.ClientServer
