import Mathlib.Data.Nat.Digits.Defs
import Mathlib.Data.Nat.Digits.Lemmas

/-! # How a simulation names its kernel object

`main` of both simulations of Chapter 14 makes the name of its kernel object out of its id, and
hands the id to its children as a text, from which they make the name again.  `nameOf_child` says
that they mean the same name, and `nameOf_inj` that simulations with different ids have
different names. -/

namespace LinuxProgramming.Simulation

def digitChar (r : ℕ) : Char :=
  if r < 10 then Char.ofNat (r + '0'.toNat) else Char.ofNat (r - 10 + 'A'.toNat)

/-- `itoa`: the loop writes the digits from the low end, and the second loop turns them round. -/
def itoa (n base : ℕ) : List Char :=
  if n = 0 then ['0'] else ((Nat.digits base n).map digitChar).reverse

/-- `atoi`, on a text of digits. -/
def atoi (str : List Char) : ℕ := str.foldl (fun n c => 10 * n + (c.toNat - '0'.toNat)) 0

theorem atoi_digitChar {r : ℕ} (h : r < 10) : (digitChar r).toNat - '0'.toNat = r := by
  interval_cases r <;> rfl

theorem atoi_reverse (ds : List ℕ) (h : ∀ d ∈ ds, d < 10) :
    atoi ((ds.map digitChar).reverse) = Nat.ofDigits 10 ds := by
  unfold atoi
  rw [List.foldl_reverse]
  induction ds with
  | nil => rfl
  | cons d ds ih =>
      have hd := atoi_digitChar (h d List.mem_cons_self)
      rw [List.map_cons, List.foldr_cons, ih fun d' hd' => h d' (List.mem_cons_of_mem d hd'), hd,
        Nat.ofDigits_cons, Nat.add_comm]

theorem atoi_itoa (n : ℕ) : atoi (itoa n 10) = n := by
  unfold itoa
  split
  · next hn =>
      rw [hn]
      rfl
  · rw [atoi_reverse _ fun d hd => Nat.digits_lt_base (by decide) hd, Nat.ofDigits_digits]

/-- `sprintf` of the pattern `stem` with `%d` for the id. -/
def nameOf (stem : List Char) (id : ℕ) : List Char := stem ++ itoa id 10

theorem nameOf_inj {stem : List Char} {id id' : ℕ} (h : nameOf stem id = nameOf stem id') :
    id = id' := by
  have htext := congrArg atoi (List.append_cancel_left h)
  rwa [atoi_itoa, atoi_itoa] at htext

/-- The name that a child makes out of its argument. -/
theorem nameOf_child (stem : List Char) (id : ℕ) :
    nameOf stem (atoi (itoa id 10)) = nameOf stem id := by
  rw [atoi_itoa]

end LinuxProgramming.Simulation
