import Mathlib.Data.List.Basic
import Mathlib.Data.Nat.Notation

/-! # Streams of records of one size

A stream is a concatenation of records that all encode to the same number of bytes, followed by
less than one more record.  Such a stream has only one reading: whole records taken from its
front are its records, in order (`isPrefix_of_flatMap_isPrefix`), each at a multiple of the
size (`slice_flatMap`). -/

namespace LinuxProgramming

variable {α β : Type*} {enc : α → List β} {size : ℕ}

theorem length_flatMap_of_size (hsize : ∀ a, (enc a).length = size) (as : List α) :
    (as.flatMap enc).length = size * as.length := by
  induction as with
  | nil => rfl
  | cons a as ih =>
      rw [List.flatMap_cons, List.length_append, hsize, ih, List.length_cons, Nat.mul_succ,
        Nat.add_comm]

/-- Whole records at the front of a stream are the records of the stream. -/
theorem isPrefix_of_flatMap_isPrefix (hsize : ∀ a, (enc a).length = size)
    (hinj : Function.Injective enc) {as bs : List α} {tail : List β} (htail : tail.length < size)
    (h : as.flatMap enc <+: bs.flatMap enc ++ tail) : as <+: bs := by
  induction as generalizing bs with
  | nil => exact List.nil_prefix
  | cons a as ih =>
      cases bs with
      | nil =>
          -- a whole record does not fit into the tail
          have hlen := h.length_le
          rw [List.flatMap_cons, List.length_append, hsize, List.flatMap_nil,
            List.nil_append] at hlen
          omega
      | cons b bs =>
          rw [List.flatMap_cons, List.flatMap_cons, List.append_assoc] at h
          have hhead : enc a = enc b := by
            have hlen : (enc a).length = (enc b).length := by rw [hsize, hsize]
            have ha := (List.prefix_append (enc a) (as.flatMap enc)).trans h
            have hb := List.prefix_append (enc b) (bs.flatMap enc ++ tail)
            exact (List.prefix_of_prefix_length_le ha hb (Nat.le_of_eq hlen)).eq_of_length hlen
          rw [hhead] at h
          rw [hinj hhead]
          exact List.cons_prefix_cons.mpr
            ⟨rfl, ih ((List.prefix_append_right_inj (enc b)).mp h)⟩

/-- The record of index `i` stands at `size * i`. -/
theorem slice_flatMap (hsize : ∀ a, (enc a).length = size) {bs : List α} {tail : List β} {i : ℕ}
    {b : α} (hi : bs[i]? = some b) :
    ((bs.flatMap enc ++ tail).drop (size * i)).take size = enc b := by
  induction bs generalizing i with
  | nil => cases hi
  | cons b' bs ih =>
      rw [List.flatMap_cons, List.append_assoc]
      cases i with
      | zero =>
          cases hi
          rw [Nat.mul_zero, List.drop_zero, List.take_append_of_le_length (Nat.le_of_eq (hsize b).symm),
            List.take_of_length_le (Nat.le_of_eq (hsize b))]
      | succ i =>
          rw [Nat.mul_succ, Nat.add_comm, ← List.drop_drop, ← hsize b', List.drop_left, hsize b']
          exact ih hi

/-- The records of a stream without a tail are determined by its bytes. -/
theorem eq_of_flatMap_eq (hsize : ∀ a, (enc a).length = size) (hinj : Function.Injective enc)
    (hpos : 0 < size) {as bs : List α} (h : as.flatMap enc = bs.flatMap enc) : as = bs := by
  have hbytes : as.flatMap enc <+: bs.flatMap enc ++ [] :=
    ⟨[], by rw [List.append_nil, List.append_nil, h]⟩
  have hpre := isPrefix_of_flatMap_isPrefix hsize hinj (by rwa [List.length_nil]) hbytes
  apply hpre.eq_of_length
  have hlen := congrArg List.length h
  rw [length_flatMap_of_size hsize, length_flatMap_of_size hsize] at hlen
  exact Nat.eq_of_mul_eq_mul_left hpos hlen

end LinuxProgramming
