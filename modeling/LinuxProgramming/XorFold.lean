import Mathlib.Algebra.BigOperators.Intervals
import Mathlib.Data.BitVec
import Mathlib.Tactic.Ring

/-! # Exclusive-or sums of words

Words of any width are folded with exclusive or.  The facts that a check sum built on such a
fold needs are all of one kind: the fold is linear, and it commutes with what is done to the
words.

* `xorAll` folds a list of words; `pairs` reads a list of words as words of twice the width,
  the first of two as the low half; `foldHalves` folds the two halves of a word together.
* `foldHalves_xorAll_pairs`: folding the wide words and then their halves folds the narrow ones.
* `foldHalves_rotateLeft`: a rotation of the wide word becomes a rotation of the narrow one.
* `ones` counts bits; modulo two it is additive, so it does not see how words are folded.
* `flipped` is the set of bit positions in which two buffers differ, numbered from the low bit
  of the first word. -/

namespace LinuxProgramming

variable {w : ℕ}

/-! ### The fold -/

/-- The exclusive or of all words of a list. -/
def xorAll (l : List (BitVec w)) : BitVec w := l.foldl (· ^^^ ·) 0#w

@[simp] theorem xorAll_nil : xorAll ([] : List (BitVec w)) = 0#w := rfl

theorem foldl_xor (l : List (BitVec w)) (x : BitVec w) :
    l.foldl (· ^^^ ·) x = x ^^^ xorAll l := by
  unfold xorAll
  induction l generalizing x with
  | nil => simp
  | cons y l ih =>
      rw [List.foldl_cons, List.foldl_cons, ih, ih (0#w ^^^ y), BitVec.zero_xor, BitVec.xor_assoc]

@[simp] theorem xorAll_cons (x : BitVec w) (l : List (BitVec w)) :
    xorAll (x :: l) = x ^^^ xorAll l := by
  rw [xorAll, List.foldl_cons, foldl_xor, BitVec.zero_xor]

theorem xorAll_append (l l' : List (BitVec w)) : xorAll (l ++ l') = xorAll l ^^^ xorAll l' := by
  unfold xorAll
  rw [List.foldl_append, foldl_xor]
  rfl

theorem xor_xor_comm (a b c d : BitVec w) : a ^^^ b ^^^ (c ^^^ d) = a ^^^ c ^^^ (b ^^^ d) := by
  ac_rfl

/-- The fold is linear. -/
theorem xorAll_zipWith {l l' : List (BitVec w)} (h : l.length = l'.length) :
    xorAll (List.zipWith (· ^^^ ·) l l') = xorAll l ^^^ xorAll l' := by
  induction l generalizing l' with
  | nil =>
      cases l' with
      | nil => simp
      | cons y l' => cases h
  | cons x l ih =>
      cases l' with
      | nil => cases h
      | cons y l' =>
          rw [List.zipWith_cons_cons, xorAll_cons, xorAll_cons, xorAll_cons,
            ih (Nat.succ.inj h), xor_xor_comm]

/-- The fold does not see the order of the words. -/
theorem xorAll_perm {l l' : List (BitVec w)} (h : l.Perm l') : xorAll l = xorAll l' :=
  h.foldl_op_eq

/-! ### Words of twice the width -/

/-- Two neighbours as one word, the first in the low half. -/
def pairs : List (BitVec w) → List (BitVec (w + w))
  | a :: b :: l => (b ++ a) :: pairs l
  | _ => []

/-- The two halves of a word folded together. -/
def foldHalves (x : BitVec (w + w)) : BitVec w := x.extractLsb' w w ^^^ x.extractLsb' 0 w

theorem foldHalves_append (a b : BitVec w) : foldHalves (b ++ a) = b ^^^ a := by
  unfold foldHalves
  rw [BitVec.extractLsb'_append_eq_left, BitVec.extractLsb'_append_eq_right]

theorem foldHalves_xor (x y : BitVec (w + w)) :
    foldHalves (x ^^^ y) = foldHalves x ^^^ foldHalves y := by
  unfold foldHalves
  rw [BitVec.extractLsb'_xor, BitVec.extractLsb'_xor, xor_xor_comm]

theorem foldHalves_zero : foldHalves 0#(w + w) = 0#w := by
  unfold foldHalves
  simp

theorem length_pairs : ∀ l : List (BitVec w), (pairs l).length = l.length / 2
  | [] => by simp [pairs]
  | [_] => by simp [pairs]
  | a :: b :: l => by
      rw [pairs, List.length_cons, List.length_cons, List.length_cons, length_pairs l]
      omega

theorem pairs_append : ∀ {l : List (BitVec w)} (l' : List (BitVec w)), 2 ∣ l.length →
    pairs (l ++ l') = pairs l ++ pairs l'
  | [], _, _ => rfl
  | [_], _, h => absurd h (by rw [List.length_singleton]; decide)
  | a :: b :: l, l', h => by
      rw [List.length_cons, List.length_cons] at h
      rw [List.cons_append, List.cons_append, pairs, pairs, pairs_append (l := l) l' (by omega),
        List.cons_append]

/-- Words that are given by their places. -/
theorem pairs_map_range (f : ℕ → BitVec w) (n : ℕ) :
    pairs ((List.range (2 * n)).map f) =
      (List.range n).map fun k => f (2 * k + 1) ++ f (2 * k) := by
  induction n with
  | zero => rfl
  | succ n ih =>
      have heven : 2 ∣ ((List.range (2 * n)).map f).length := by
        rw [List.length_map, List.length_range]
        exact Nat.dvd_mul_right 2 n
      have hlast : pairs (([2 * n] ++ [2 * n + 1]).map f) = [f (2 * n + 1) ++ f (2 * n)] := rfl
      rw [Nat.mul_succ, List.range_succ, List.range_succ, List.append_assoc, List.map_append,
        pairs_append _ heven, ih, hlast, List.range_succ (n := n), List.map_append,
        List.map_singleton]

/-- Folding the wide words and then their halves folds the narrow words. -/
theorem foldHalves_xorAll_pairs : ∀ {l : List (BitVec w)}, 2 ∣ l.length →
    foldHalves (xorAll (pairs l)) = xorAll l
  | [], _ => foldHalves_zero
  | [_], h => absurd h (by rw [List.length_singleton]; decide)
  | a :: b :: l, h => by
      rw [List.length_cons, List.length_cons] at h
      rw [pairs, xorAll_cons, foldHalves_xor, foldHalves_append,
        foldHalves_xorAll_pairs (l := l) (by omega), xorAll_cons, xorAll_cons]
      ac_rfl

theorem pairs_zipWith : ∀ {l l' : List (BitVec w)}, l.length = l'.length →
    pairs (List.zipWith (· ^^^ ·) l l') = List.zipWith (· ^^^ ·) (pairs l) (pairs l')
  | [], [], _ => rfl
  | [_], [_], _ => rfl
  | a :: b :: l, a' :: b' :: l', h => by
      simp only [List.zipWith_cons_cons, pairs, BitVec.xor_append,
        pairs_zipWith (Nat.succ.inj (Nat.succ.inj h))]

/-! ### Rotations -/

theorem getLsbD_foldHalves (x : BitVec (w + w)) {i : ℕ} (hi : i < w) :
    (foldHalves x).getLsbD i = (x.getLsbD (w + i) ^^ x.getLsbD i) := by
  unfold foldHalves
  simp [hi]

theorem getLsbD_rotateLeft_one (x : BitVec w) {i : ℕ} (hi : i < w) :
    (x.rotateLeft 1).getLsbD i = if i = 0 then x.getLsbD (w - 1) else x.getLsbD (i - 1) := by
  rcases Nat.lt_or_ge 1 w with hw | hw
  · rw [BitVec.getLsbD_rotateLeft_of_le hw]
    cases i with
    | zero => simp
    | succ i => simp [hi]
  · obtain rfl : i = 0 := by omega
    obtain rfl : w = 1 := by omega
    simp

/-- Folding the halves turns a rotation of the wide word into one of the narrow word. -/
theorem foldHalves_rotateLeft (x : BitVec (w + w)) :
    foldHalves (x.rotateLeft 1) = (foldHalves x).rotateLeft 1 := by
  apply BitVec.eq_of_getLsbD_eq
  intro i hi
  rw [getLsbD_foldHalves _ hi, getLsbD_rotateLeft_one _ (by omega),
    getLsbD_rotateLeft_one _ (by omega), getLsbD_rotateLeft_one _ hi]
  cases i with
  | zero =>
      have hw : w + 0 ≠ 0 := by omega
      rw [if_neg hw, if_pos rfl, if_pos rfl, getLsbD_foldHalves _ (by omega), Bool.xor_comm]
      congr 2
      omega
  | succ i =>
      rw [if_neg (by omega), if_neg (by omega), if_neg (by omega),
        getLsbD_foldHalves _ (by omega)]
      rfl

theorem rotateLeft_one_xor (x y : BitVec w) :
    (x ^^^ y).rotateLeft 1 = x.rotateLeft 1 ^^^ y.rotateLeft 1 := by
  apply BitVec.eq_of_getLsbD_eq
  intro i hi
  rw [BitVec.getLsbD_xor, getLsbD_rotateLeft_one _ hi, getLsbD_rotateLeft_one _ hi,
    getLsbD_rotateLeft_one _ hi]
  split <;> rw [BitVec.getLsbD_xor]

/-- A rotation loses nothing: a bit of the word is a bit of the rotated word. -/
theorem rotateLeft_one_injective : Function.Injective fun x : BitVec w => x.rotateLeft 1 := by
  intro x y h
  apply BitVec.eq_of_getLsbD_eq
  intro i hi
  rcases Nat.lt_or_ge (i + 1) w with hlt | hge
  · have hbit := congrArg (fun z => z.getLsbD (i + 1)) h
    simpa only [getLsbD_rotateLeft_one _ hlt, Nat.succ_ne_zero, if_false,
      Nat.add_sub_cancel] using hbit
  · have hbit := congrArg (fun z => z.getLsbD 0) h
    simp only [getLsbD_rotateLeft_one _ (show 0 < w by omega), if_true] at hbit
    rwa [show w - 1 = i by omega] at hbit

/-! ### Counting bits -/

/-- The number of bits set in a word. -/
def ones (x : BitVec w) : ℕ := ∑ i ∈ Finset.range w, (x.getLsbD i).toNat

theorem ones_xor (x y : BitVec w) : ones (x ^^^ y) % 2 = (ones x + ones y) % 2 := by
  unfold ones
  rw [← Finset.sum_add_distrib, Finset.sum_nat_mod, Finset.sum_nat_mod _ _ fun i => _ + _]
  congr 1
  apply Finset.sum_congr rfl
  intro i _
  rw [BitVec.getLsbD_xor]
  cases x.getLsbD i <;> cases y.getLsbD i <;> rfl

theorem ones_rotateLeft (x : BitVec w) : ones (x.rotateLeft 1) = ones x := by
  unfold ones
  cases w with
  | zero => rfl
  | succ w =>
      rw [Finset.sum_range_succ', Finset.sum_range_succ, getLsbD_rotateLeft_one _ (by omega),
        if_pos rfl]
      congr 1
      apply Finset.sum_congr rfl
      intro i hi
      have hlt := Finset.mem_range.mp hi
      rw [getLsbD_rotateLeft_one _ (by omega), if_neg (by omega), Nat.add_sub_cancel]

/-- Modulo two, folding words keeps the number of bits. -/
theorem ones_xorAll (l : List (BitVec w)) : ones (xorAll l) % 2 = (l.map ones).sum % 2 := by
  induction l with
  | nil =>
      unfold ones
      simp
  | cons x l ih =>
      rw [xorAll_cons, ones_xor, List.map_cons, List.sum_cons]
      omega

/-! ### Positions of flipped bits -/

/-- The bit of a buffer at a position counted from the low bit of its first word. -/
def bitAt (l : List (BitVec w)) (p : ℕ) : Bool := (l.getD (p / w) 0#w).getLsbD (p % w)

/-- The positions at which two buffers differ. -/
def flipped (l l' : List (BitVec w)) : Finset ℕ :=
  {p ∈ Finset.range (w * l.length) | bitAt l p ≠ bitAt l' p}

theorem bitAt_cons_of_lt (a : BitVec w) (l : List (BitVec w)) {p : ℕ} (hp : p < w) :
    bitAt (a :: l) p = a.getLsbD p := by
  unfold bitAt
  rw [Nat.div_eq_of_lt hp, Nat.mod_eq_of_lt hp, List.getD_cons_zero]

theorem bitAt_cons_add (a : BitVec w) (l : List (BitVec w)) (hw : 0 < w) (p : ℕ) :
    bitAt (a :: l) (w + p) = bitAt l p := by
  unfold bitAt
  rw [Nat.add_div_left _ hw, Nat.add_mod_left, List.getD_cons_succ]

/-- The number of flipped bits, word by word. -/
theorem card_flipped : ∀ {l l' : List (BitVec w)}, l.length = l'.length →
    (flipped l l').card = ((List.zipWith (· ^^^ ·) l l').map ones).sum
  | [], [], _ => rfl
  | a :: l, a' :: l', h => by
      have ih := card_flipped (Nat.succ.inj h)
      unfold flipped at ih ⊢
      rw [Finset.card_filter] at ih ⊢
      rw [List.length_cons, Nat.mul_succ, Nat.add_comm, Finset.sum_range_add,
        List.zipWith_cons_cons, List.map_cons, List.sum_cons, ← ih]
      congr 1
      · apply Finset.sum_congr rfl
        intro i hi
        have hlt := Finset.mem_range.mp hi
        rw [bitAt_cons_of_lt _ _ hlt, bitAt_cons_of_lt _ _ hlt, BitVec.getLsbD_xor]
        cases a.getLsbD i <;> cases a'.getLsbD i <;> rfl
      · apply Finset.sum_congr rfl
        intro i hi
        have hw : 0 < w := by
          by_contra hw
          obtain rfl : w = 0 := by omega
          simp at hi
        rw [bitAt_cons_add _ _ hw, bitAt_cons_add _ _ hw]

theorem bitAt_pairs : ∀ (l : List (BitVec w)), 2 ∣ l.length → 0 < w → ∀ p,
    bitAt (pairs l) p = bitAt l p
  | [], _, _, p => by simp [pairs, bitAt]
  | [_], h, _, _ => absurd h (by rw [List.length_singleton]; decide)
  | a :: b :: l, h, hw, p => by
      rw [pairs]
      rcases Nat.lt_or_ge p (w + w) with hp | hp
      · rw [bitAt_cons_of_lt _ _ hp, BitVec.getLsbD_append]
        split
        · next hlt => rw [bitAt_cons_of_lt _ _ hlt]
        · next hge =>
            obtain ⟨q, rfl⟩ := Nat.exists_eq_add_of_le (Nat.le_of_not_lt hge)
            rw [bitAt_cons_add _ _ hw, bitAt_cons_of_lt _ _ (by omega), Nat.add_sub_cancel_left]
      · obtain ⟨q, rfl⟩ := Nat.exists_eq_add_of_le hp
        rw [bitAt_cons_add _ _ (by omega), Nat.add_assoc, bitAt_cons_add _ _ hw,
          bitAt_cons_add _ _ hw]
        rw [List.length_cons, List.length_cons] at h
        exact bitAt_pairs l (by omega) hw q

/-- The positions do not depend on the width at which a buffer is read. -/
theorem flipped_pairs {l l' : List (BitVec w)} (h : l.length = l'.length) (heven : 2 ∣ l.length)
    (hw : 0 < w) : flipped (pairs l) (pairs l') = flipped l l' := by
  unfold flipped
  have hlen : (w + w) * (pairs l).length = w * l.length := by
    rw [length_pairs, ← Nat.two_mul, Nat.mul_assoc, Nat.mul_left_comm,
      Nat.mul_div_cancel' heven]
  rw [hlen]
  apply Finset.filter_congr
  intro p _
  rw [bitAt_pairs l heven hw, bitAt_pairs l' (h ▸ heven) hw]

/-- Modulo two, the folds of two buffers differ in as many bits as the buffers. -/
theorem ones_xorAll_xor {l l' : List (BitVec w)} (h : l.length = l'.length) :
    ones (xorAll l ^^^ xorAll l') % 2 = (flipped l l').card % 2 := by
  rw [← xorAll_zipWith h, ones_xorAll, card_flipped h]

/-- A bit of the fold to which one word alone contributes. -/
theorem getLsbD_xorAll_of_unique {l : List (BitVec w)} {i k : ℕ}
    (h : ∀ j, j ≠ k → (l.getD j 0#w).getLsbD i = false) :
    (xorAll l).getLsbD i = (l.getD k 0#w).getLsbD i := by
  induction l generalizing k with
  | nil => simp
  | cons x l ih =>
      rw [xorAll_cons, BitVec.getLsbD_xor]
      cases k with
      | zero =>
          -- no word of the tail has the bit: the tail has its fold at an index beyond its end
          have hrest := ih (k := l.length) fun j _ => h (j + 1) (Nat.succ_ne_zero j)
          simp only [List.getD_cons_zero, hrest]
          simp
      | succ k =>
          have hx := h 0 (Nat.succ_ne_zero k).symm
          rw [List.getD_cons_zero] at hx
          rw [hx, Bool.false_xor, List.getD_cons_succ]
          exact ih fun j hj => h (j + 1) fun he => hj (Nat.succ.inj he)

/-- The bit at a position of the word-wise exclusive or of two buffers. -/
theorem getLsbD_getD_zipWith {l l' : List (BitVec w)} (h : l.length = l'.length) (j i : ℕ) :
    ((List.zipWith (· ^^^ ·) l l').getD j 0#w).getLsbD i =
      ((l.getD j 0#w).getLsbD i ^^ (l'.getD j 0#w).getLsbD i) := by
  rw [List.getD_eq_getElem?_getD, List.getD_eq_getElem?_getD, List.getD_eq_getElem?_getD,
    List.getElem?_zipWith]
  rcases Nat.lt_or_ge j l.length with hj | hj
  · rw [List.getElem?_eq_getElem hj, List.getElem?_eq_getElem (h ▸ hj)]
    simp
  · rw [List.getElem?_eq_none hj, List.getElem?_eq_none (h ▸ hj)]
    simp

/-- The bit `i` of word `j` stands at the position `w * j + i`. -/
theorem bitAt_mul_add (l : List (BitVec w)) {i : ℕ} (hi : i < w) (j : ℕ) :
    bitAt l (w * j + i) = (l.getD j 0#w).getLsbD i := by
  unfold bitAt
  rw [Nat.mul_add_div (by omega), Nat.div_eq_of_lt hi, Nat.add_zero, Nat.mul_add_mod,
    Nat.mod_eq_of_lt hi]

theorem mem_flipped {l l' : List (BitVec w)} (h : l.length = l'.length) {i : ℕ} (hi : i < w)
    (j : ℕ) : w * j + i ∈ flipped l l' ↔
      ((l.getD j 0#w).getLsbD i ^^ (l'.getD j 0#w).getLsbD i) = true := by
  unfold flipped
  rw [Finset.mem_filter, Finset.mem_range, bitAt_mul_add l hi, bitAt_mul_add l' hi, bne_iff_ne]
  refine ⟨fun hp => hp.2, fun hp => ⟨?_, hp⟩⟩
  by_contra hge
  have hj : l.length ≤ j := by
    by_contra hlt
    have := Nat.mul_le_mul_left w (show j + 1 ≤ l.length by omega)
    rw [Nat.mul_succ] at this
    omega
  rw [List.getD_eq_getElem?_getD, List.getD_eq_getElem?_getD, List.getElem?_eq_none hj,
    List.getElem?_eq_none (h ▸ hj)] at hp
  exact hp rfl

/-- What two buffers have in common at the front only shifts the positions of the flips. -/
theorem flipped_append (l a b : List (BitVec w)) :
    flipped (l ++ a) (l ++ b) = (flipped a b).image (w * l.length + ·) := by
  induction l with
  | nil => simp
  | cons x l ih =>
      rw [List.cons_append, List.cons_append]
      ext p
      rw [Finset.mem_image]
      rcases Nat.lt_or_ge p w with hp | hp
      · refine iff_of_false (fun hmem => ?_) ?_
        · have hne := (Finset.mem_filter.mp hmem).2
          rw [bitAt_cons_of_lt _ _ hp, bitAt_cons_of_lt _ _ hp] at hne
          exact hne rfl
        · rintro ⟨q, -, rfl⟩
          rw [List.length_cons, Nat.mul_succ] at hp
          omega
      · obtain ⟨q, rfl⟩ := Nat.exists_eq_add_of_le hp
        have htail : w + q ∈ flipped (x :: (l ++ a)) (x :: (l ++ b)) ↔
            q ∈ flipped (l ++ a) (l ++ b) := by
          unfold flipped
          rcases Nat.eq_zero_or_pos w with rfl | hw
          · simp
          · rw [Finset.mem_filter, Finset.mem_filter, Finset.mem_range, Finset.mem_range,
              bitAt_cons_add _ _ hw, bitAt_cons_add _ _ hw, List.length_cons, Nat.mul_succ,
              Nat.add_comm, Nat.add_lt_add_iff_right]
        rw [htail, ih, Finset.mem_image, List.length_cons, Nat.mul_succ]
        refine exists_congr fun r => and_congr_right fun _ => ?_
        omega

/-- **Bursts.**  Flips within one word's width of consecutive positions change the fold. -/
theorem xorAll_ne_of_burst {l l' : List (BitVec w)} (h : l.length = l'.length) {start : ℕ}
    (hburst : flipped l l' ⊆ Finset.Ico start (start + w)) (hne : (flipped l l').Nonempty) :
    xorAll l ≠ xorAll l' := by
  intro heq
  obtain ⟨p, hp⟩ := hne
  have hpos := Finset.mem_Ico.mp (hburst hp)
  have hi : p % w < w := Nat.mod_lt _ (by omega)
  have hsplit := Nat.div_add_mod p w
  rw [← hsplit, mem_flipped h hi] at hp
  -- no other word is flipped at the same bit, for it would be a word's width away
  have hbit := getLsbD_xorAll_of_unique (l := List.zipWith (· ^^^ ·) l l') (i := p % w)
    (k := p / w) fun j hj => by
      rw [getLsbD_getD_zipWith h, ← Bool.not_eq_true, ← mem_flipped h hi]
      intro hq
      have hpos' := Finset.mem_Ico.mp (hburst hq)
      rcases Nat.lt_or_gt_of_ne hj with hlt | hgt
      · have := Nat.mul_le_mul_left w (show j + 1 ≤ p / w from hlt)
        rw [Nat.mul_succ] at this
        omega
      · have := Nat.mul_le_mul_left w (show p / w + 1 ≤ j from hgt)
        rw [Nat.mul_succ] at this
        omega
  rw [getLsbD_getD_zipWith h, hp, xorAll_zipWith h, heq, BitVec.xor_self] at hbit
  simp at hbit

end LinuxProgramming
