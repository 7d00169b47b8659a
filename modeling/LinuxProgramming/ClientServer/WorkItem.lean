import LinuxProgramming.XorFold

/-! # Work items and their check sum

`class WorkItem` of Chapter 15.  An item is a record of fixed size, sent over a stream as the
bytes of the object: 512 bytes of data, the check sum in two bytes, the low one first, and 30
bytes of name.

* `generateChecksum` is the loop over the 32-bit words of the data, with the rotation through a
  branch on the top bit; `generateChecksum_eq` reads it as one rotation of a sum of halfwords.
* `toBytes` and `ofBytes` are the object as bytes; `ofBytes_toBytes` and `toBytes_ofBytes` say
  that nothing is lost either way. -/

namespace LinuxProgramming.ClientServer

/-- A byte, its bits numbered from the low one. -/
abbrev Byte := BitVec 8

/-- `DATA_LEN`. -/
def dataLen : ℕ := 512

/-- The size of `m_name`. -/
def nameLen : ℕ := 30

/-- `sizeof(WorkItem)`. -/
def itemSize : ℕ := dataLen + 2 + nameLen

/-- `CHECKSUM_PATTERN`. -/
def checksumPattern : BitVec 32 := 0x0000AF76#32

/-! ### The check sum -/

/-- A buffer as 16-bit little-endian numbers. -/
def halfwords (data : List Byte) : List (BitVec 16) := pairs data

/-- A buffer as the `unsigned int`s that `dataptr` runs through. -/
def words (data : List Byte) : List (BitVec 32) := pairs (halfwords data)

/-- The rotation of `generateChecksum`, through a branch on the top bit. -/
def rotate (result : BitVec 32) : BitVec 32 :=
  if result &&& 0x80000000#32 ≠ 0#32 then (result <<< 1) ||| 1#32 else result <<< 1

/-- `generateChecksum`, over the bytes of `m_data`. -/
def generateChecksum (data : List Byte) : BitVec 16 :=
  let result := (words data).foldl (fun result dataptr => result ^^^ dataptr) 0#32
  let result := rotate (result ^^^ checksumPattern)
  (0xFFFF#32 &&& ((result >>> 16) ^^^ result)).setWidth 16

/-- The branch is a rotation by one. -/
theorem rotate_eq (result : BitVec 32) : rotate result = result.rotateLeft 1 := by
  have htop : result &&& 0x80000000#32 =
      if result.getLsbD 31 then BitVec.twoPow 32 31 else 0#32 := BitVec.and_twoPow result 31
  have hcarry : result >>> 31 = if result.getLsbD 31 then 1#32 else 0#32 := by
    apply BitVec.eq_of_getLsbD_eq
    intro i hi
    rw [BitVec.getLsbD_ushiftRight]
    cases i with
    | zero =>
        rw [Nat.add_zero]
        cases result.getLsbD 31 <;> rfl
    | succ i =>
        rw [BitVec.getLsbD_of_ge _ _ (by omega)]
        split <;> simp
  rw [BitVec.rotateLeft_def, show 32 - 1 % 32 = 31 from rfl, hcarry]
  unfold rotate
  rw [htop]
  cases result.getLsbD 31
  · simp
  · rw [if_pos rfl, if_pos (by decide), if_pos rfl]

/-- The last line of `generateChecksum` folds the two halves. -/
theorem setWidth_fold (result : BitVec 32) :
    (0xFFFF#32 &&& ((result >>> 16) ^^^ result)).setWidth 16 = foldHalves result := by
  have hmask : ∀ i, i < 16 → (0xFFFF#32).getLsbD i = true := by decide
  apply BitVec.eq_of_getLsbD_eq
  intro i hi
  rw [getLsbD_foldHalves _ hi, BitVec.getLsbD_setWidth, BitVec.getLsbD_and, hmask i hi,
    BitVec.getLsbD_xor, BitVec.getLsbD_ushiftRight]
  simp [hi]

/-- The check sum is the sum of the halfwords of the data and of a constant, rotated by one. -/
theorem generateChecksum_eq {data : List Byte} (h : 4 ∣ data.length) :
    generateChecksum data = (xorAll (halfwords data) ^^^ 0xAF76#16).rotateLeft 1 := by
  have hhalves : 2 ∣ (halfwords data).length := by
    unfold halfwords
    rw [length_pairs]
    omega
  have hloop : (words data).foldl (fun result dataptr => result ^^^ dataptr) 0#32 =
      xorAll (words data) := rfl
  have hpattern : foldHalves checksumPattern = 0xAF76#16 := by decide
  unfold generateChecksum
  rw [hloop, setWidth_fold, rotate_eq, foldHalves_rotateLeft, foldHalves_xor, hpattern]
  unfold words
  rw [foldHalves_xorAll_pairs hhalves]

/-! ### The object -/

/-- The data members of `class WorkItem`. -/
@[ext] structure WorkItem where
  data : List Byte
  checksum : BitVec 16
  name : List Byte
  data_length : data.length = dataLen
  name_length : name.length = nameLen
deriving DecidableEq

/-- `strncpy(dst, src, n)`: the characters before the first NUL, at most `n`, and zeros. -/
def strncpy (src : List Byte) (n : ℕ) : List Byte :=
  let s := (src.takeWhile (· ≠ 0)).take n
  s ++ List.replicate (n - s.length) 0

theorem length_strncpy (src : List Byte) (n : ℕ) : (strncpy src n).length = n := by
  unfold strncpy
  rw [List.length_append, List.length_replicate, List.length_take]
  omega

namespace WorkItem

/-- The constructor, for a caller that passes at most `DATA_LEN` bytes of data. -/
def new (name data : List Byte) (h : data.length ≤ dataLen) : WorkItem where
  data := data ++ List.replicate (dataLen - data.length) 0
  checksum := generateChecksum (data ++ List.replicate (dataLen - data.length) 0)
  name := strncpy name nameLen
  data_length := by
    rw [List.length_append, List.length_replicate]
    omega
  name_length := length_strncpy name nameLen

/-- `validate`. -/
def validate (w : WorkItem) : Bool :=
  let targetChecksum := generateChecksum w.data
  targetChecksum == w.checksum

/-- `getName`: the characters that a reader of the returned pointer finds before the first NUL of
`m_name`.  Where `m_name` has none, it reads on behind the array (`nameFrom`). -/
def getName (w : WorkItem) : List Byte := w.name.takeWhile (· ≠ 0)

theorem validate_new (name data : List Byte) (h : data.length ≤ dataLen) :
    (new name data h).validate = true := by
  unfold validate new
  exact beq_self_eq_true _

/-! ### The object as bytes -/

/-- The two bytes of `m_checksum`. -/
def checksumBytes (c : BitVec 16) : List Byte := [c.setWidth 8, (c >>> 8).setWidth 8]

theorem halfwords_checksumBytes (c : BitVec 16) : halfwords (checksumBytes c) = [c] := by
  unfold halfwords checksumBytes
  rw [pairs, pairs]
  · congr 1
    apply BitVec.eq_of_getLsbD_eq
    intro i hi
    rw [BitVec.getLsbD_append]
    split
    · next hlt => simp [hlt]
    · next hge =>
        rw [BitVec.getLsbD_setWidth, BitVec.getLsbD_ushiftRight, show 8 + (i - 8) = i by omega]
        simp [show i - 8 < 8 by omega]
  · simp

/-- The bytes under the protection of the check sum, and the check sum. -/
def checked (w : WorkItem) : List Byte := w.data ++ checksumBytes w.checksum

theorem length_checked (w : WorkItem) : w.checked.length = dataLen + 2 := by
  unfold checked checksumBytes
  rw [List.length_append, w.data_length]
  rfl

/-- The object as it goes over the wire. -/
def toBytes (w : WorkItem) : List Byte := w.checked ++ w.name

theorem length_toBytes (w : WorkItem) : w.toBytes.length = itemSize := by
  unfold toBytes
  rw [List.length_append, w.length_checked, w.name_length]
  rfl

/-- The object whose memory holds the given bytes. -/
def ofBytes (b : List Byte) (h : b.length = itemSize) : WorkItem where
  data := b.take dataLen
  checksum := b.getD (dataLen + 1) 0#8 ++ b.getD dataLen 0#8
  name := b.drop (dataLen + 2)
  data_length := by
    rw [List.length_take, h]
    rfl
  name_length := by
    rw [List.length_drop, h]
    rfl

/-- The low byte and the high byte of two bytes put together. -/
theorem checksumBytes_append (x y : Byte) : checksumBytes (y ++ x : BitVec (8 + 8)) = [x, y] := by
  unfold checksumBytes
  congr 1
  · apply BitVec.eq_of_getLsbD_eq
    intro i hi
    rw [BitVec.getLsbD_setWidth, BitVec.getLsbD_append]
    simp [hi]
  · congr 1
    apply BitVec.eq_of_getLsbD_eq
    intro i hi
    rw [BitVec.getLsbD_setWidth, BitVec.getLsbD_ushiftRight, BitVec.getLsbD_append]
    simp [hi]

theorem append_checksumBytes (c : BitVec 16) :
    (((c >>> 8).setWidth 8 : Byte) ++ (c.setWidth 8 : Byte) : BitVec (8 + 8)) = c := by
  have h := halfwords_checksumBytes c
  unfold halfwords checksumBytes at h
  rw [pairs] at h
  exact List.head_eq_of_cons_eq h

theorem ofBytes_append {d n : List Byte} {x y : Byte} (hd : d.length = dataLen)
    (h : (d ++ [x, y] ++ n).length = itemSize) :
    (ofBytes (d ++ [x, y] ++ n) h).data = d ∧
    (ofBytes (d ++ [x, y] ++ n) h).checksum = (y ++ x : BitVec (8 + 8)) ∧
    (ofBytes (d ++ [x, y] ++ n) h).name = n := by
  unfold ofBytes
  refine ⟨?_, ?_, ?_⟩
  · simp only [List.append_assoc]
    rw [List.take_append_of_le_length hd.ge, List.take_of_length_le hd.le]
  · have hx : (d ++ ([x, y] ++ n))[dataLen]? = some x := by
      rw [List.getElem?_append_right hd.le, hd, Nat.sub_self]
      rfl
    have hy : (d ++ ([x, y] ++ n))[dataLen + 1]? = some y := by
      rw [List.getElem?_append_right (by omega), hd, Nat.add_sub_cancel_left]
      rfl
    simp only [List.append_assoc, List.getD_eq_getElem?_getD, hx, hy, Option.getD_some]
  · have hlen : (d ++ [x, y]).length = dataLen + 2 := by
      rw [List.length_append, hd]
      rfl
    simp only
    rw [← hlen, List.drop_left]

theorem ofBytes_toBytes (w : WorkItem) : ofBytes w.toBytes w.length_toBytes = w := by
  obtain ⟨hdata, hsum, hname⟩ := ofBytes_append w.data_length w.length_toBytes
  rw [append_checksumBytes] at hsum
  exact WorkItem.ext hdata hsum hname

theorem toBytes_ofBytes (b : List Byte) (h : b.length = itemSize) : (ofBytes b h).toBytes = b := by
  have hlen : b.length = 544 := h
  have hsplit : b = b.take dataLen ++ [b.getD dataLen 0#8, b.getD (dataLen + 1) 0#8] ++
      b.drop (dataLen + 2) := by
    unfold dataLen
    conv => lhs; rw [← List.take_append_drop 512 b]
    rw [List.append_assoc, List.drop_eq_getElem_cons (by omega),
      List.drop_eq_getElem_cons (by omega)]
    simp [List.getD_eq_getElem?_getD, hlen]
  unfold toBytes checked ofBytes
  simp only
  rw [checksumBytes_append]
  exact hsplit.symm

theorem toBytes_injective {w w' : WorkItem} (h : w.toBytes = w'.toBytes) : w = w' := by
  have hw := w.ofBytes_toBytes
  have hw' := w'.ofBytes_toBytes
  simp only [h] at hw
  exact hw.symm.trans hw'

end WorkItem

end LinuxProgramming.ClientServer
