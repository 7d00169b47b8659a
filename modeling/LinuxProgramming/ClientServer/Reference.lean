import LinuxProgramming.ClientServer.WorkItem

/-! # The check sum and its reference

`generateChecksum` goes through `m_data` with a pointer to `unsigned int`, keeps a sum of 32 bits,
rotates it through a branch and folds it at the end.  `referenceChecksum` has no 32-bit number in
it: it adds up halfwords and rotates the sum.  `checksum_reference` says that the two agree for
every number of words and all contents of the memory, so the order of the halfwords does not
matter. -/

namespace LinuxProgramming.ClientServer

/-! ### The code, over the memory -/

/-- `*dataptr`: the `unsigned int` at an address, the low byte first. -/
def load (mem : ℕ → Byte) (dataptr : ℕ) : BitVec 32 :=
  (mem (dataptr + 3) ++ mem (dataptr + 2)) ++ (mem (dataptr + 1) ++ mem dataptr)

/-- The variables of the loop in `generateChecksum`. -/
structure XorLoop where
  result : BitVec 32
  dataptr : ℕ

/-- The body of the loop. -/
def XorLoop.body (mem : ℕ → Byte) (s : XorLoop) : XorLoop :=
  { result := s.result ^^^ load mem s.dataptr
    dataptr := s.dataptr + 4 }

/-- The loop after `i` turns. -/
def XorLoop.run (mem : ℕ → Byte) (s : XorLoop) : ℕ → XorLoop
  | 0 => s
  | i + 1 => (s.run mem i).body mem

/-- `DATA_SEG_COUNT`. -/
def dataSegCount : ℕ := dataLen / 4

/-- `generateChecksum`, for an `m_data` of `segCount` words at an address. -/
def generateChecksumAt (mem : ℕ → Byte) (mData segCount : ℕ) : BitVec 16 :=
  let result := (XorLoop.run mem ⟨0#32, mData⟩ segCount).result
  let result := result ^^^ checksumPattern
  let result :=
    if result &&& 0x80000000#32 ≠ 0#32 then (result <<< 1) ||| 1#32 else result <<< 1
  (0xFFFF#32 &&& ((result >>> 16) ^^^ result)).setWidth 16

/-! ### The reference -/

/-- The exclusive or of `0xAF76` and all halfwords, rotated to the left by one. -/
def referenceChecksum (halfwords : List (BitVec 16)) : BitVec 16 :=
  (0xAF76#16 ^^^ xorAll halfwords).rotateLeft 1

/-- The halfwords of `segCount` words at an address, the low byte first. -/
def halfwordsAt (mem : ℕ → Byte) (mData segCount : ℕ) : List (BitVec 16) :=
  (List.range (2 * segCount)).map fun j => mem (mData + (2 * j + 1)) ++ mem (mData + 2 * j)

/-! ### The loop and the list of words -/

/-- The bytes from an address on. -/
def bytesAt (mem : ℕ → Byte) (address n : ℕ) : List Byte :=
  (List.range n).map fun k => mem (address + k)

section memory
variable (mem : ℕ → Byte) (mData segCount : ℕ)

theorem halfwords_bytesAt :
    halfwords (bytesAt mem mData (4 * segCount)) = halfwordsAt mem mData segCount := by
  unfold halfwords bytesAt
  rw [show 4 * segCount = 2 * (2 * segCount) by omega, pairs_map_range]
  rfl

theorem words_bytesAt : words (bytesAt mem mData (4 * segCount)) =
    (List.range segCount).map fun i => load mem (mData + 4 * i) := by
  unfold words
  rw [halfwords_bytesAt]
  unfold halfwordsAt
  rw [pairs_map_range]
  apply List.map_congr_left
  intro i _
  unfold load
  rw [show mData + (2 * (2 * i + 1) + 1) = mData + 4 * i + 3 by omega,
    show mData + 2 * (2 * i + 1) = mData + 4 * i + 2 by omega,
    show mData + (2 * (2 * i) + 1) = mData + 4 * i + 1 by omega,
    show mData + 2 * (2 * i) = mData + 4 * i by omega]

/-- After `i` turns the pointer is `i` words further, and the words before it are in the sum. -/
theorem run_eq (i : ℕ) : XorLoop.run mem ⟨0#32, mData⟩ i =
    ⟨xorAll (words (bytesAt mem mData (4 * i))), mData + 4 * i⟩ := by
  induction i with
  | zero => rfl
  | succ i ih =>
      unfold XorLoop.run XorLoop.body
      rw [ih, words_bytesAt, words_bytesAt, List.range_succ, List.map_append, xorAll_append]
      simp only [List.map_singleton, xorAll_cons, xorAll_nil, BitVec.xor_zero]
      rfl

/-- The loop over the memory is the sum over the list. -/
theorem generateChecksumAt_eq : generateChecksumAt mem mData segCount =
    generateChecksum (bytesAt mem mData (4 * segCount)) := by
  unfold generateChecksumAt
  rw [run_eq]
  rfl

theorem length_bytesAt (n : ℕ) : (bytesAt mem mData n).length = n := by
  unfold bytesAt
  rw [List.length_map, List.length_range]

theorem generateChecksumAt_eq_reference : generateChecksumAt mem mData segCount =
    referenceChecksum (halfwordsAt mem mData segCount) := by
  have hlength : 4 ∣ (bytesAt mem mData (4 * segCount)).length := by
    rw [length_bytesAt]
    exact Nat.dvd_mul_right 4 segCount
  rw [generateChecksumAt_eq, generateChecksum_eq hlength, halfwords_bytesAt, BitVec.xor_comm]
  rfl

/-- The words that the loop reads in an item are those of its data. -/
theorem generateChecksumAt_object {w : WorkItem} {this : ℕ}
    (h : bytesAt mem this itemSize = w.toBytes) :
    generateChecksumAt mem this dataSegCount = generateChecksum w.data := by
  have hdata : bytesAt mem this dataLen = (bytesAt mem this itemSize).take dataLen := by
    unfold bytesAt
    rw [← List.map_take, List.take_range]
    rfl
  have hwords : 4 * dataSegCount = dataLen := rfl
  rw [generateChecksumAt_eq, hwords, hdata, h]
  unfold WorkItem.toBytes WorkItem.checked
  rw [List.append_assoc, List.take_left' w.data_length]

end memory

/-- Check sums agree exactly if the halfwords have the same sum. -/
theorem referenceChecksum_eq_iff {l l' : List (BitVec 16)} :
    referenceChecksum l = referenceChecksum l' ↔ xorAll l = xorAll l' := by
  unfold referenceChecksum
  rw [rotateLeft_one_injective.eq_iff, BitVec.xor_right_inj]

/-- **The reference.**  For every number of words and all contents of the memory the code computes
the reference, and the order of the halfwords does not matter. -/
theorem checksum_reference (mem : ℕ → Byte) (mData segCount : ℕ) :
    generateChecksumAt mem mData segCount =
      referenceChecksum (halfwordsAt mem mData segCount) ∧
    ∀ (mem' : ℕ → Byte) (mData' : ℕ),
      (halfwordsAt mem' mData' segCount).Perm (halfwordsAt mem mData segCount) →
        generateChecksumAt mem' mData' segCount = generateChecksumAt mem mData segCount := by
  refine ⟨generateChecksumAt_eq_reference mem mData segCount, fun mem' mData' hperm => ?_⟩
  rw [generateChecksumAt_eq_reference, generateChecksumAt_eq_reference, referenceChecksum_eq_iff]
  exact xorAll_perm hperm

/-- The two halfwords of one word, changed about. -/
theorem checksum_reference_swapped :
    halfwordsAt (fun k => [0x34#8, 0x12#8, 0x78#8, 0x56#8].getD k 0) 0 1 = [0x1234#16, 0x5678#16] ∧
    generateChecksumAt (fun k => [0x78#8, 0x56#8, 0x34#8, 0x12#8].getD k 0) 0 1 =
      generateChecksumAt (fun k => [0x34#8, 0x12#8, 0x78#8, 0x56#8].getD k 0) 0 1 :=
  ⟨by decide, (checksum_reference _ 0 1).2 _ 0 (by decide)⟩

end LinuxProgramming.ClientServer
