import LinuxProgramming.ClientServer.WorkItem

/-! # What the check sum detects

`validate` compares one halfword with a rotated sum of halfwords, so it accepts exactly the
corruptions whose halfwords add up to the rotated change of the check sum
(`validate_iff`).  Two kinds of corruption never do: those that flip an odd number of bits, and
those of the data alone that lie within sixteen consecutive bits. -/

namespace LinuxProgramming.ClientServer

theorem halfwords_zipWith {d d' : List Byte} (h : d.length = d'.length) :
    halfwords (List.zipWith (· ^^^ ·) d d') =
      List.zipWith (· ^^^ ·) (halfwords d) (halfwords d') := pairs_zipWith h

theorem length_halfwords (d : List Byte) : (halfwords d).length = d.length / 2 := length_pairs d

theorem flipped_halfwords {d d' : List Byte} (h : d.length = d'.length) (heven : 2 ∣ d.length) :
    flipped (halfwords d) (halfwords d') = flipped d d' := flipped_pairs h heven (by decide)

/-- The check sums of two buffers differ by the rotated sum of their differences. -/
theorem generateChecksum_xor {d d' : List Byte} (h : d.length = d'.length)
    (h4 : 4 ∣ d.length) :
    generateChecksum d ^^^ generateChecksum d' =
      (xorAll (halfwords (List.zipWith (· ^^^ ·) d d'))).rotateLeft 1 := by
  have hlen : (halfwords d).length = (halfwords d').length := by
    rw [length_halfwords, length_halfwords, h]
  rw [generateChecksum_eq h4, generateChecksum_eq (h ▸ h4), ← rotateLeft_one_xor, xor_xor_comm,
    BitVec.xor_self, BitVec.xor_zero, halfwords_zipWith h, xorAll_zipWith hlen]

section received
variable (sent received : WorkItem)

theorem length_data_eq : sent.data.length = received.data.length :=
  sent.data_length.trans received.data_length.symm

theorem four_dvd_length : 4 ∣ sent.data.length := by
  rw [sent.data_length]
  decide

theorem two_dvd_length : 2 ∣ sent.data.length :=
  Nat.dvd_trans (by decide) (four_dvd_length sent)

theorem length_halfwords_data_eq :
    (halfwords sent.data).length = (halfwords received.data).length := by
  rw [length_halfwords, length_halfwords, length_data_eq sent received]

/-- `validate` accepts exactly the changes of the check sum that the changes of the data
explain. -/
theorem validate_iff :
    received.validate = true ↔
      generateChecksum sent.data ^^^ received.checksum =
        (xorAll (halfwords (List.zipWith (· ^^^ ·) sent.data received.data))).rotateLeft 1 := by
  have hxor := generateChecksum_xor (length_data_eq sent received) (four_dvd_length sent)
  unfold WorkItem.validate
  rw [beq_iff_eq, ← hxor]
  constructor
  · intro h
    rw [h]
  · intro h
    exact (BitVec.xor_right_inj _).mp h.symm

/-- The data followed by the check sum, folded by halfwords. -/
theorem xorAll_checked (w : WorkItem) (c : BitVec 16) :
    xorAll (halfwords (w.data ++ WorkItem.checksumBytes c)) = xorAll (halfwords w.data) ^^^ c := by
  have happend := pairs_append (WorkItem.checksumBytes c) (two_dvd_length w)
  have hsum := WorkItem.halfwords_checksumBytes c
  unfold halfwords at hsum ⊢
  rw [happend, hsum, xorAll_append, xorAll_cons, xorAll_nil, BitVec.xor_zero]

/-- An accepted corruption flips an even number of bits of the data and the check sum. -/
theorem even_card_flipped (h : received.validate = true) :
    (flipped (sent.data ++ WorkItem.checksumBytes (generateChecksum sent.data))
      received.checked).card % 2 = 0 := by
  have hd := length_data_eq sent received
  have hlen : (sent.data ++ WorkItem.checksumBytes (generateChecksum sent.data)).length =
      received.checked.length := by
    rw [received.length_checked, List.length_append, sent.data_length]
    rfl
  have heven : 2 ∣ (sent.data ++ WorkItem.checksumBytes (generateChecksum sent.data)).length := by
    rw [hlen, received.length_checked]
    decide
  rw [validate_iff sent, halfwords_zipWith hd,
    xorAll_zipWith (length_halfwords_data_eq sent received)] at h
  rw [← flipped_halfwords hlen heven, ← ones_xorAll_xor (by
    rw [length_halfwords, length_halfwords, hlen])]
  unfold WorkItem.checked
  rw [xorAll_checked, xorAll_checked, xor_xor_comm, h, ones_xor, ones_rotateLeft]
  omega

/-- A burst of at most sixteen bits in the data changes the check sum. -/
theorem generateChecksum_ne_of_burst {start : ℕ} (hne : (flipped sent.data received.data).Nonempty)
    (hburst : flipped sent.data received.data ⊆ Finset.Ico start (start + 16)) :
    generateChecksum sent.data ≠ generateChecksum received.data := by
  rw [← flipped_halfwords (length_data_eq sent received) (two_dvd_length sent)] at hne hburst
  have hfold := xorAll_ne_of_burst (length_halfwords_data_eq sent received) hburst hne
  rw [generateChecksum_eq (four_dvd_length sent), generateChecksum_eq (four_dvd_length received)]
  intro heq
  exact hfold ((BitVec.xor_left_inj _).mp (rotateLeft_one_injective heq))

/-- **Error detection.**  `validate` accepts a received item exactly when the change of the
check sum is the rotated sum of the halfwords of the change of the data.  So it rejects every
corruption of an odd number of bits of the data and the check sum, and every corruption of the
data alone within sixteen consecutive bits. -/
theorem error_detection :
    (received.validate = true ↔
      generateChecksum sent.data ^^^ received.checksum =
        (xorAll (halfwords (List.zipWith (· ^^^ ·) sent.data received.data))).rotateLeft 1) ∧
    (Odd (flipped (sent.data ++ WorkItem.checksumBytes (generateChecksum sent.data))
      received.checked).card → received.validate = false) ∧
    ∀ start, received.checksum = generateChecksum sent.data →
      (flipped sent.data received.data).Nonempty →
      flipped sent.data received.data ⊆ Finset.Ico start (start + 16) →
      received.validate = false := by
  refine ⟨validate_iff sent received, fun hodd => ?_, fun start hsum hne hburst => ?_⟩
  · rw [← Bool.not_eq_true]
    intro h
    have heven := even_card_flipped sent received h
    rw [Nat.odd_iff] at hodd
    omega
  · have hfold := generateChecksum_ne_of_burst sent received hne hburst
    unfold WorkItem.validate
    rw [beq_eq_false_iff_ne, hsum]
    exact hfold.symm

end received

end LinuxProgramming.ClientServer
