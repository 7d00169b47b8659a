import LinuxProgramming.ClientServer.ErrorDetection
import Mathlib.Data.List.GetD

/-! # Bursts across the end of the data

The check sum follows the data, so a burst of flipped bits can begin in the last halfword of the
data and end in the check sum.  The sum of the halfwords is rotated by one: bit 15 of the last
halfword goes to bit 0 of the check sum, its neighbour in memory, and every other bit goes to a
place that a burst of sixteen bits does not reach as well.  So the flip of these two neighbours
is the one burst that goes unnoticed (`boundary_burst`). -/

namespace LinuxProgramming.ClientServer

/-- The first bit of `m_checksum`, among the bits of `m_data` and `m_checksum`. -/
def checksumStart : ℕ := 8 * dataLen

/-- Flips within sixteen consecutive bits, at least one of them in the data and at least one in
the check sum. -/
structure Straddles (sent received : WorkItem) (start : ℕ) : Prop where
  burst : flipped sent.checked received.checked ⊆ Finset.Ico start (start + 16)
  data : ∃ p ∈ flipped sent.checked received.checked, p < checksumStart
  checksum : ∃ p ∈ flipped sent.checked received.checked, checksumStart ≤ p

theorem halfwords_checked (w : WorkItem) :
    halfwords w.checked = halfwords w.data ++ [w.checksum] := by
  have happend := pairs_append (WorkItem.checksumBytes w.checksum) (two_dvd_length w)
  have hsum := WorkItem.halfwords_checksumBytes w.checksum
  unfold halfwords at hsum ⊢
  unfold WorkItem.checked
  rw [happend, hsum]

theorem length_halfwords_data (w : WorkItem) : (halfwords w.data).length = 256 := by
  rw [length_halfwords, w.data_length]
  rfl

section flips
variable (sent received : WorkItem)

theorem mem_flipped_checked {i : ℕ} (hi : i < 16) (j : ℕ) :
    16 * j + i ∈ flipped sent.checked received.checked ↔
      (((halfwords sent.checked).getD j 0#16).getLsbD i ^^
        ((halfwords received.checked).getD j 0#16).getLsbD i) = true := by
  have hlen : sent.checked.length = received.checked.length := by
    rw [sent.length_checked, received.length_checked]
  have heven : 2 ∣ sent.checked.length := by
    rw [sent.length_checked]
    decide
  rw [← flipped_halfwords hlen heven]
  exact mem_flipped (by rw [length_halfwords, length_halfwords, hlen]) hi j

/-- The flips in the check sum. -/
theorem mem_flipped_checksum {i : ℕ} (hi : i < 16) :
    checksumStart + i ∈ flipped sent.checked received.checked ↔
      (sent.checksum ^^^ received.checksum).getLsbD i = true := by
  have hsum : ∀ w : WorkItem, (halfwords w.checked).getD 256 0#16 = w.checksum := by
    intro w
    rw [halfwords_checked, List.getD_append_right _ _ _ _ (by rw [length_halfwords_data]),
      length_halfwords_data]
    rfl
  rw [show checksumStart = 16 * 256 from rfl, mem_flipped_checked sent received hi, hsum, hsum,
    BitVec.getLsbD_xor]

/-- The change of the data, folded by halfwords. -/
def dataChange : BitVec 16 :=
  xorAll (halfwords (List.zipWith (· ^^^ ·) sent.data received.data))

/-- If only the last halfword of the data has been flipped, it is the change of the data. -/
theorem mem_flipped_data {i : ℕ} (hi : i < 16)
    (hlast : ∀ p ∈ flipped sent.checked received.checked, 16 * 255 ≤ p) :
    16 * 255 + i ∈ flipped sent.checked received.checked ↔
      (dataChange sent received).getLsbD i = true := by
  have hlen := length_halfwords_data_eq sent received
  have hword : ∀ w : WorkItem, ∀ j < 256,
      (halfwords w.checked).getD j 0#16 = (halfwords w.data).getD j 0#16 := by
    intro w j hj
    rw [halfwords_checked, List.getD_append _ _ _ _ (by rw [length_halfwords_data]; exact hj)]
  have hbit := getLsbD_xorAll_of_unique (i := i) (k := 255)
    (l := List.zipWith (· ^^^ ·) (halfwords sent.data) (halfwords received.data)) fun j hj => by
      rcases Nat.lt_or_ge j 256 with hlt | hge
      · rw [getLsbD_getD_zipWith hlen, ← Bool.not_eq_true, ← hword sent j hlt,
          ← hword received j hlt, ← mem_flipped_checked sent received hi]
        intro hmem
        have hpos := hlast _ hmem
        omega
      · rw [List.getD_eq_default _ _ (by
          rw [List.length_zipWith, length_halfwords_data, length_halfwords_data]
          exact hge)]
        exact BitVec.getLsbD_zero
  unfold dataChange
  rw [halfwords_zipWith (length_data_eq sent received), hbit, getLsbD_getD_zipWith hlen,
    ← hword sent 255 (by decide), ← hword received 255 (by decide),
    mem_flipped_checked sent received hi]

end flips

section burst
variable {sent received : WorkItem} {start : ℕ}

theorem Straddles.start_mem (h : Straddles sent received start) :
    16 * 255 < start ∧ start < 16 * 256 := by
  obtain ⟨p, hp, hlt⟩ := h.data
  obtain ⟨q, hq, hge⟩ := h.checksum
  have hp' := Finset.mem_Ico.mp (h.burst hp)
  have hq' := Finset.mem_Ico.mp (h.burst hq)
  rw [show checksumStart = 16 * 256 from rfl] at hlt hge
  omega

theorem Straddles.last (h : Straddles sent received start) :
    ∀ p ∈ flipped sent.checked received.checked, 16 * 255 ≤ p := by
  intro p hp
  have hp' := Finset.mem_Ico.mp (h.burst hp)
  have hstart := h.start_mem
  omega

/-- The item is accepted if each flip of the last halfword has its rotated counterpart in the
check sum. -/
theorem Straddles.validate_iff (h : Straddles sent received start) (hvalid : sent.validate = true) :
    received.validate = true ↔ ∀ i < 16,
      (checksumStart + i ∈ flipped sent.checked received.checked ↔
        16 * 255 + (if i = 0 then 15 else i - 1) ∈ flipped sent.checked received.checked) := by
  have hsum : sent.checksum = generateChecksum sent.data := (beq_iff_eq.mp hvalid).symm
  rw [ClientServer.validate_iff sent, ← hsum]
  change sent.checksum ^^^ received.checksum = (dataChange sent received).rotateLeft 1 ↔ _
  have hbit : ∀ i < 16, ((dataChange sent received).rotateLeft 1).getLsbD i =
      (dataChange sent received).getLsbD (if i = 0 then 15 else i - 1) := by
    intro i hi
    rw [getLsbD_rotateLeft_one _ hi]
    split <;> rfl
  have hflip : ∀ i < 16, (checksumStart + i ∈ flipped sent.checked received.checked ↔
      16 * 255 + (if i = 0 then 15 else i - 1) ∈ flipped sent.checked received.checked) ↔
      (sent.checksum ^^^ received.checksum).getLsbD i =
        ((dataChange sent received).rotateLeft 1).getLsbD i := by
    intro i hi
    have hsource : (if i = 0 then 15 else i - 1) < 16 := by split <;> omega
    rw [hbit i hi, mem_flipped_checksum sent received hi,
      mem_flipped_data sent received hsource h.last, ← Bool.eq_iff_iff]
  constructor
  · intro heq i hi
    rw [hflip i hi, heq]
  · intro hall
    exact BitVec.eq_of_getLsbD_eq fun i hi => (hflip i hi).mp (hall i hi)

/-- A burst that is accepted has no flip but the two at the boundary. -/
theorem Straddles.flipped_eq (h : Straddles sent received start)
    (hall : ∀ i < 16, (checksumStart + i ∈ flipped sent.checked received.checked ↔
      16 * 255 + (if i = 0 then 15 else i - 1) ∈ flipped sent.checked received.checked)) :
    flipped sent.checked received.checked = {checksumStart - 1, checksumStart} := by
  have hstart := h.start_mem
  rw [show checksumStart = 16 * 256 from rfl] at hall ⊢
  -- two places that correspond to each other under the rotation are too far apart
  have hdata : ∀ i < 15, 16 * 255 + i ∉ flipped sent.checked received.checked := by
    intro i hi hmem
    have hnext := (hall (i + 1) (by omega)).mpr (by simpa using hmem)
    have hlow := Finset.mem_Ico.mp (h.burst hmem)
    have hhigh := Finset.mem_Ico.mp (h.burst hnext)
    omega
  have hsum : ∀ i < 15, 16 * 256 + (i + 1) ∉ flipped sent.checked received.checked := by
    intro i hi hmem
    have hsource := (hall (i + 1) (by omega)).mp hmem
    exact hdata i hi (by simpa using hsource)
  have hsub : ∀ p ∈ flipped sent.checked received.checked, p = 16 * 255 + 15 ∨ p = 16 * 256 := by
    intro p hp
    have hlast := h.last p hp
    have hlow := Finset.mem_Ico.mp (h.burst hp)
    by_contra hne
    rcases Nat.lt_or_ge p (16 * 256) with hlt | hge
    · exact hdata (p - 16 * 255) (by omega) (by rwa [show 16 * 255 + (p - 16 * 255) = p by omega])
    · exact hsum (p - 16 * 256 - 1) (by omega)
        (by rwa [show 16 * 256 + (p - 16 * 256 - 1 + 1) = p by omega])
  have hboth := hall 0 (by decide)
  simp only [if_pos, Nat.add_zero] at hboth
  obtain ⟨p, hp, hlt⟩ := h.data
  rw [show checksumStart = 16 * 256 from rfl] at hlt
  have hlast : 16 * 255 + 15 ∈ flipped sent.checked received.checked := by
    rcases hsub p hp with rfl | rfl
    · exact hp
    · omega
  ext q
  rw [Finset.mem_insert, Finset.mem_singleton]
  constructor
  · intro hq
    rcases hsub q hq with rfl | rfl
    · exact .inl rfl
    · exact .inr rfl
  · rintro (rfl | rfl)
    · exact hlast
    · exact hboth.mpr hlast

/-- **Boundary bursts.**  A corruption within sixteen consecutive bits of which some are in the
data and some in the check sum is rejected, except for the flip of the last bit of the data
together with the first bit of the check sum. -/
theorem boundary_burst (sent received : WorkItem) (start : ℕ) (hvalid : sent.validate = true)
    (h : Straddles sent received start) :
    received.validate = false ↔
      flipped sent.checked received.checked ≠ {checksumStart - 1, checksumStart} := by
  rw [← Bool.not_eq_true, not_iff_not]
  constructor
  · intro hr
    exact h.flipped_eq ((h.validate_iff hvalid).mp hr)
  · intro heq
    rw [h.validate_iff hvalid]
    intro i hi
    rw [heq]
    simp only [Finset.mem_insert, Finset.mem_singleton, show checksumStart = 16 * 256 from rfl]
    split <;> omega

end burst

/-- An item without data. -/
def blank : WorkItem := .new [] [] (Nat.zero_le _)

/-- What is left of it when the last byte of the data and the check sum are changed. -/
def changed (last : Byte) (checksum : BitVec 16) : WorkItem where
  data := List.replicate 511 0#8 ++ [last]
  checksum := checksum
  name := blank.name
  data_length := by
    rw [List.length_append, List.length_replicate]
    rfl
  name_length := blank.name_length

theorem flipped_changed (last : Byte) (checksum : BitVec 16) :
    flipped blank.checked (changed last checksum).checked =
      (flipped (0#8 :: WorkItem.checksumBytes 0x5EED#16)
        (last :: WorkItem.checksumBytes checksum)).image (8 * 511 + ·) := by
  have hblank : blank.checked =
      List.replicate 511 0#8 ++ (0#8 :: WorkItem.checksumBytes 0x5EED#16) := by decide +kernel
  have hchanged : (changed last checksum).checked =
      List.replicate 511 0#8 ++ (last :: WorkItem.checksumBytes checksum) := by
    unfold WorkItem.checked changed
    rw [List.append_assoc]
    rfl
  rw [hblank, hchanged, flipped_append, List.length_replicate]

/-- The last bit of the data and the first two of the check sum are flipped. -/
theorem boundary_burst_three : (changed 0x80#8 0x5EEE#16).validate = false := by
  have hflipped := flipped_changed 0x80#8 0x5EEE#16
  refine (boundary_burst blank _ 4095 (WorkItem.validate_new _ _ _) ?_).mpr ?_
  · constructor
    · rw [hflipped]
      decide
    · rw [hflipped]
      decide
    · rw [hflipped]
      decide
  · rw [hflipped]
    decide

/-- The two bits at the boundary are flipped, and the item is accepted. -/
theorem boundary_unnoticed : blank.validate = true ∧
    Straddles blank (changed 0x80#8 0x5EEC#16) 4095 ∧
    (changed 0x80#8 0x5EEC#16).validate = true := by
  have hflipped := flipped_changed 0x80#8 0x5EEC#16
  refine ⟨WorkItem.validate_new _ _ _, ?_, by decide +kernel⟩
  constructor
  · rw [hflipped]
    decide
  · rw [hflipped]
    decide
  · rw [hflipped]
    decide

end LinuxProgramming.ClientServer
