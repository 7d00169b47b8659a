import LinuxProgramming.Decimal
import LinuxProgramming.ClientServer.Atoi
import Mathlib.Data.List.Basic

/-! # The names of the items

`cook_data` of Chapter 15 formats the name of an item, out of the client's id and a running count,
into 30 bytes that the data of the item follow, the constructor of the item copies the name into 30
bytes of its own, and the server prints it.  The bound is the same in all three places, and in
none of them is it checked.  `named_iff` says how long the two numbers may be. -/

namespace LinuxProgramming.ClientServer

/-! ### The client -/

/-- The bytes of a text. -/
def textBytes (text : List Char) : List Byte := text.map fun c => BitVec.ofNat 8 c.toNat

theorem length_textBytes (text : List Char) : (textBytes text).length = text.length :=
  List.length_map _

/-- Bytes are stored from `offset` on. -/
def store (mem : List Byte) (offset : ℕ) (bytes : List Byte) : List Byte :=
  mem.take offset ++ bytes ++ mem.drop (offset + bytes.length)

theorem length_store {mem : List Byte} {offset : ℕ} {bytes : List Byte}
    (h : offset + bytes.length ≤ mem.length) : (store mem offset bytes).length = mem.length := by
  unfold store
  rw [List.length_append, List.length_append, List.length_take, List.length_drop]
  omega

/-- The size of `m_workitem_name` and `m_workitem_data`. -/
def buffersSize : ℕ := nameLen + dataLen

/-- The members of `class Client` that an item is made of; `buffers` is `m_workitem_name` and,
behind it, `m_workitem_data`. -/
structure Client where
  id : BitVec 32
  cookedCount : BitVec 32
  workitemDataLen : Fin (dataLen + 1)
  buffers : List Byte
  length_buffers : buffers.length = buffersSize

/-- The text of `"WorkItem_From_Client_%d_%d"`. -/
def nameText (id cookedCount : BitVec 32) : List Char :=
  "WorkItem_From_Client_".toList ++ (decimal id.toInt ++ '_' :: decimal cookedCount.toInt)

theorem length_nameText (id cookedCount : BitVec 32) :
    (nameText id cookedCount).length =
      22 + (decimal id.toInt).length + (decimal cookedCount.toInt).length := by
  have hstem : "WorkItem_From_Client_".toList.length = 21 := rfl
  unfold nameText
  rw [List.length_append, List.length_append, List.length_cons]
  omega

theorem length_decimal_toInt (x : BitVec 32) : (decimal x.toInt).length ≤ 11 := by
  have hlow := BitVec.le_toInt x
  have hhigh := BitVec.toInt_lt (x := x)
  exact (length_decimal_le_iff (k := 10) (by decide) x.toInt).mpr ⟨by omega, by omega⟩

/-- A name that is too long ends in the data. -/
theorem length_textBytes_le (id cookedCount : BitVec 32) :
    (textBytes (nameText id cookedCount) ++ [0#8]).length ≤ buffersSize := by
  have hid := length_decimal_toInt id
  have hcount := length_decimal_toInt cookedCount
  rw [List.length_append, length_textBytes, length_nameText, List.length_singleton]
  unfold buffersSize nameLen dataLen
  omega

/-- The first part of `cook_data`: random letters, as many as `rand` says. -/
def fillData (rand : ℕ → ℕ) (c : Client) : Client :=
  let base := if rand 0 % 3 = 0 then 65 else 97
  let len := 1 + rand 1 % dataLen
  { c with
    workitemDataLen := ⟨len, by have hlt := Nat.mod_lt (rand 1) (show 0 < dataLen by decide); omega⟩
    buffers := store c.buffers nameLen
      ((List.range len).map fun i => BitVec.ofNat 8 (rand (2 + i) % 26 + base))
    length_buffers := by
      have hlt := Nat.mod_lt (rand 1) (show 0 < dataLen by decide)
      rw [length_store, c.length_buffers]
      rw [List.length_map, List.length_range, c.length_buffers]
      unfold buffersSize
      omega }

/-- The second part: `sprintf`, which knows no bound. -/
def formatName (c : Client) : Client :=
  { c with
    cookedCount := c.cookedCount + 1
    buffers := store c.buffers 0 (textBytes (nameText c.id c.cookedCount) ++ [0#8])
    length_buffers := by
      rw [length_store, c.length_buffers]
      rw [c.length_buffers, Nat.zero_add]
      exact length_textBytes_le c.id c.cookedCount }

def cookData (rand : ℕ → ℕ) (c : Client) : Client := formatName (fillData rand c)

/-- `WorkItem item(m_workitem_name, m_workitem_data, m_workitem_data_len)`. -/
def Client.item (c : Client) : WorkItem :=
  .new c.buffers ((c.buffers.drop nameLen).take c.workitemDataLen) (by
    rw [List.length_take]
    have hlt := c.workitemDataLen.isLt
    omega)

/-- The ids that the argument of a client can be read as. -/
abbrev ClientId := Fin (2 ^ 31)

theorem exists_clientId {s : CString} {beyond : List Byte} {z : ℤ}
    (h : atoi (s.bytes ++ 0#8 :: beyond) = .ok z) : ∃ id : ClientId, z = (id : ℕ) := by
  have hrange := atoi_range h
  unfold intMax at hrange
  obtain ⟨n, rfl⟩ := Int.eq_ofNat_of_zero_le hrange.1
  exact ⟨⟨n, by omega⟩, rfl⟩

/-- What differs between the runs of a client: the results of `rand` for each item, what is in the
buffers at first, and the number of items. -/
structure Work where
  rand : ℕ → ℕ → ℕ
  workitemDataLen : Fin (dataLen + 1)
  buffers : List Byte
  length_buffers : buffers.length = buffersSize
  made : ℕ

/-- The client before its item number `k`. -/
def clientAt (id : ClientId) (w : Work) : ℕ → Client
  | 0 => ⟨BitVec.ofNat 32 id, 0, w.workitemDataLen, w.buffers, w.length_buffers⟩
  | k + 1 => cookData (w.rand k) (clientAt id w k)

/-- Item number `k`. -/
def itemAt (id : ClientId) (w : Work) (k : ℕ) : WorkItem := (clientAt id w (k + 1)).item

/-- The name that is formatted for item number `k`. -/
def textAt (id : ClientId) (w : Work) (k : ℕ) : List Byte :=
  textBytes (nameText (clientAt id w k).id (clientAt id w k).cookedCount)

/-- Names stay in their buffers, arrive as they were formatted and belong to one item each. -/
structure Named (work : ClientId → Work) : Prop where
  fits : ∀ id k, k < (work id).made → (textAt id (work id) k).length + 1 ≤ nameLen
  untouched : ∀ id k, k < (work id).made →
    (clientAt id (work id) (k + 1)).buffers.drop nameLen =
      (fillData ((work id).rand k) (clientAt id (work id) k)).buffers.drop nameLen
  terminated : ∀ id k, k < (work id).made → 0#8 ∈ (itemAt id (work id) k).name
  getName : ∀ id k, k < (work id).made →
    (itemAt id (work id) k).getName = textAt id (work id) k
  unlike : ∀ id k id' k', k < (work id).made → k' < (work id').made →
    (itemAt id (work id) k).getName = (itemAt id' (work id') k').getName → id = id' ∧ k = k'

/-- The number of decimal digits. -/
def digits (n : ℕ) : ℕ := (Nat.toDigits 10 n).length

/-! ### Texts as bytes -/

theorem textBytes_inj {text text' : List Char} (h : ∀ c ∈ text, c.toNat < 256)
    (h' : ∀ c ∈ text', c.toNat < 256) (heq : textBytes text = textBytes text') : text = text' := by
  have hback : ∀ t : List Char, (∀ c ∈ t, c.toNat < 256) →
      (textBytes t).map (fun b => Char.ofNat b.toNat) = t := by
    intro t ht
    unfold textBytes
    rw [List.map_map]
    conv_rhs => rw [← List.map_id t]
    apply List.map_congr_left
    intro c hc
    show Char.ofNat (BitVec.ofNat 8 c.toNat).toNat = c
    rw [BitVec.toNat_ofNat, Nat.mod_eq_of_lt (ht c hc), Char.ofNat_toNat]
  rw [← hback text h, heq, hback text' h']

theorem toNat_of_isDigit {c : Char} (hc : c.isDigit = true) : 48 ≤ c.toNat ∧ c.toNat ≤ 57 := by
  unfold Char.isDigit at hc
  rw [Bool.and_eq_true, decide_eq_true_iff, decide_eq_true_iff] at hc
  exact hc

theorem toNat_of_mem_decimal {z : ℤ} {c : Char} (hc : c ∈ decimal z) :
    0 < c.toNat ∧ c.toNat < 256 ∧ c ≠ '_' := by
  rcases mem_decimal hc with rfl | hdigit
  · decide
  · have hrange := toNat_of_isDigit hdigit
    refine ⟨by omega, by omega, ?_⟩
    rintro rfl
    exact absurd hdigit (by decide)

/-- A character of a name is neither NUL nor wider than a byte. -/
theorem mem_nameText {id cookedCount : BitVec 32} {c : Char} (hc : c ∈ nameText id cookedCount) :
    0 < c.toNat ∧ c.toNat < 256 := by
  have hstem : ("WorkItem_From_Client_".toList.all
      fun c => decide (0 < c.toNat ∧ c.toNat < 256)) = true := rfl
  unfold nameText at hc
  rcases List.mem_append.mp hc with hc | hc
  · exact of_decide_eq_true (List.all_eq_true.mp hstem c hc)
  · rcases List.mem_append.mp hc with hc | hc
    · exact ⟨(toNat_of_mem_decimal hc).1, (toNat_of_mem_decimal hc).2.1⟩
    · rcases List.mem_cons.mp hc with rfl | hc
      · decide
      · exact ⟨(toNat_of_mem_decimal hc).1, (toNat_of_mem_decimal hc).2.1⟩

/-- The digits of the id end at the next `_`. -/
theorem nameText_inj {id id' cookedCount cookedCount' : BitVec 32}
    (h : nameText id cookedCount = nameText id' cookedCount') :
    id = id' ∧ cookedCount = cookedCount' := by
  have hmem : ∀ z, '_' ∉ decimal z := fun z hz => (toNat_of_mem_decimal hz).2.2 rfl
  have htail := List.append_cancel_left h
  obtain ⟨hid, -, hcount⟩ := (List.append_cons_inj_of_notMem (hmem _) (hmem _)).mp htail
  exact ⟨BitVec.eq_of_toInt_eq (decimal_inj hid), BitVec.eq_of_toInt_eq (decimal_inj hcount)⟩

theorem ne_zero_of_mem_textBytes {id cookedCount : BitVec 32} {b : Byte}
    (hb : b ∈ textBytes (nameText id cookedCount)) : b ≠ 0#8 := by
  obtain ⟨c, hc, rfl⟩ := List.mem_map.mp hb
  have hrange := mem_nameText hc
  intro hzero
  have hnat := congrArg BitVec.toNat hzero
  rw [BitVec.toNat_ofNat, Nat.mod_eq_of_lt hrange.2] at hnat
  have hpos := hrange.1
  rw [hnat] at hpos
  exact absurd hpos (by decide)

/-! ### Memory -/

/-- What is stored from the start, and what is behind it. -/
theorem store_zero (mem bytes : List Byte) : store mem 0 bytes = bytes ++ mem.drop bytes.length := by
  unfold store
  rw [List.take_zero, List.nil_append, Nat.zero_add]

theorem drop_store_zero (mem : List Byte) {bytes : List Byte} {n : ℕ} (h : bytes.length ≤ n) :
    (store mem 0 bytes).drop n = mem.drop n := by
  rw [store_zero, List.drop_append, List.drop_of_length_le h, List.nil_append, List.drop_drop,
    Nat.add_sub_cancel' h]

theorem takeWhile_text {text rest : List Byte} (htext : ∀ b ∈ text, b ≠ 0) :
    (text ++ 0 :: rest).takeWhile (· ≠ 0) = text := by
  rw [List.takeWhile_append_of_pos (fun b hb => decide_eq_true (htext b hb)),
    List.takeWhile_cons_of_neg (by decide), List.append_nil]

/-- `strncpy` of a text that ends in time. -/
theorem strncpy_text {text rest : List Byte} (htext : ∀ b ∈ text, b ≠ 0) {n : ℕ}
    (hn : text.length < n) :
    strncpy (text ++ 0 :: rest) n = text ++ List.replicate (n - text.length) 0 := by
  unfold strncpy
  rw [takeWhile_text htext, List.take_of_length_le hn.le]

/-! ### A run of a client -/

section client
variable (id : ClientId) (w : Work)

theorem clientAt_id (k : ℕ) : (clientAt id w k).id = BitVec.ofNat 32 id := by
  induction k with
  | zero => rfl
  | succ k ih => exact ih

theorem clientAt_cookedCount (k : ℕ) : (clientAt id w k).cookedCount = BitVec.ofNat 32 k := by
  induction k with
  | zero => rfl
  | succ k ih =>
      have hstep : (clientAt id w (k + 1)).cookedCount = (clientAt id w k).cookedCount + 1 := rfl
      rw [hstep, ih, BitVec.ofNat_add]
      rfl

theorem textAt_eq (k : ℕ) :
    textAt id w k = textBytes (nameText (BitVec.ofNat 32 id) (BitVec.ofNat 32 k)) := by
  unfold textAt
  rw [clientAt_id, clientAt_cookedCount]

theorem decimal_ofNat {n : ℕ} (hn : n < 2 ^ 31) :
    decimal (BitVec.ofNat 32 n).toInt = Nat.toDigits 10 n := by
  have hint : (BitVec.ofNat 32 n).toInt = n := by
    rw [BitVec.toInt_eq_toNat_of_lt] <;> rw [BitVec.toNat_ofNat, Nat.mod_eq_of_lt (by omega)]
    omega
  rw [hint, decimal_natCast]

theorem length_textAt {k : ℕ} (hk : k < 2 ^ 31) :
    (textAt id w k).length = 22 + digits id + digits k := by
  rw [textAt_eq, length_textBytes, length_nameText, decimal_ofNat id.isLt, decimal_ofNat hk]
  rfl

theorem ne_zero_of_mem_textAt (k : ℕ) : ∀ b ∈ textAt id w k, b ≠ 0 :=
  fun _ => ne_zero_of_mem_textBytes

/-- The bytes behind the name after it has been formatted. -/
theorem drop_buffers {k : ℕ} (h : (textAt id w k).length + 1 ≤ nameLen) :
    (clientAt id w (k + 1)).buffers.drop nameLen =
      (fillData (w.rand k) (clientAt id w k)).buffers.drop nameLen := by
  apply drop_store_zero
  rw [List.length_append]
  exact h

theorem name_itemAt {k : ℕ} (h : (textAt id w k).length + 1 ≤ nameLen) :
    (itemAt id w k).name =
      textAt id w k ++ List.replicate (nameLen - (textAt id w k).length) 0 := by
  have hbuffers : (clientAt id w (k + 1)).buffers =
      store (fillData (w.rand k) (clientAt id w k)).buffers 0 (textAt id w k ++ [0#8]) := rfl
  show strncpy (clientAt id w (k + 1)).buffers nameLen = _
  rw [hbuffers, store_zero, List.append_assoc]
  exact strncpy_text (ne_zero_of_mem_textAt id w k) h

theorem zero_mem_name {k : ℕ} (h : (textAt id w k).length + 1 ≤ nameLen) :
    0#8 ∈ (itemAt id w k).name := by
  rw [name_itemAt id w h]
  exact List.mem_append_right _ (List.mem_replicate.mpr ⟨by omega, rfl⟩)

theorem getName_itemAt {k : ℕ} (h : (textAt id w k).length + 1 ≤ nameLen) :
    (itemAt id w k).getName = textAt id w k := by
  have hrest : nameLen - (textAt id w k).length = nameLen - (textAt id w k).length - 1 + 1 := by
    omega
  unfold WorkItem.getName
  rw [name_itemAt id w h, hrest, List.replicate_succ,
    takeWhile_text (ne_zero_of_mem_textAt id w k)]

end client

theorem digits_le_iff {n k : ℕ} (hk : 0 < k) : digits n ≤ k ↔ n < 10 ^ k :=
  Nat.length_toDigits_le_iff (by decide) hk

section bound
variable {work : ClientId → Work}

/-- An item whose count does not fit into an `int` comes after one whose count has eight digits. -/
theorem digits_of_fits
    (hfits : ∀ id k, k < (work id).made → (textAt id (work id) k).length + 1 ≤ nameLen)
    (id : ClientId) {k : ℕ} (hk : k < (work id).made) : digits id + digits k ≤ 7 := by
  have hsmall : ∀ k, k < (work id).made → k < 2 ^ 31 → digits id + digits k ≤ 7 := by
    intro k hk hlt
    have hfit := hfits id k hk
    rw [length_textAt id (work id) hlt] at hfit
    unfold nameLen at hfit
    omega
  by_cases hlt : k < 2 ^ 31
  · exact hsmall k hk hlt
  · have hbefore := hsmall 10000000 (by omega) (by omega)
    have height : ¬ digits 10000000 ≤ 7 := by
      rw [digits_le_iff (by decide)]
      decide
    omega

theorem lt_of_digits {id k : ℕ} (h : digits id + digits k ≤ 7) : k < 2 ^ 31 := by
  have hk7 : k < 10 ^ 7 := (digits_le_iff (by decide)).mp (by omega)
  omega

theorem fits_of_digits (id : ClientId) (w : Work) {k : ℕ} (h : digits id + digits k ≤ 7) :
    (textAt id w k).length + 1 ≤ nameLen := by
  rw [length_textAt id w (lt_of_digits h)]
  unfold nameLen
  omega

/-- Below 2^31 the text is made from no other pair of numbers. -/
theorem textAt_inj {id id' : ClientId} {w w' : Work} {k k' : ℕ} (hk : k < 2 ^ 31)
    (hk' : k' < 2 ^ 31) (h : textAt id w k = textAt id' w' k') : id = id' ∧ k = k' := by
  rw [textAt_eq, textAt_eq] at h
  obtain ⟨hid, hcount⟩ := nameText_inj (textBytes_inj (fun c hc => (mem_nameText hc).2)
    (fun c hc => (mem_nameText hc).2) h)
  have hidNat := congrArg BitVec.toNat hid
  have hcountNat := congrArg BitVec.toNat hcount
  have hidLt := id.isLt
  have hidLt' := id'.isLt
  rw [BitVec.toNat_ofNat, BitVec.toNat_ofNat] at hidNat hcountNat
  exact ⟨Fin.ext (by omega), by omega⟩

end bound

/-- **Names.**  The names of all items stay in their buffers, arrive and are unlike each other
exactly if the client's id and the number of each of its items have at most seven digits
together. -/
theorem named_iff (work : ClientId → Work) :
    Named work ↔ ∀ id k, k < (work id).made → digits id + digits k ≤ 7 := by
  constructor
  · intro hn id k hk
    exact digits_of_fits hn.fits id hk
  · intro h
    have hfits : ∀ id k, k < (work id).made → (textAt id (work id) k).length + 1 ≤ nameLen :=
      fun id k hk => fits_of_digits id (work id) (h id k hk)
    refine ⟨hfits, fun id k hk => drop_buffers id _ (hfits id k hk),
      fun id k hk => zero_mem_name id _ (hfits id k hk),
      fun id k hk => getName_itemAt id _ (hfits id k hk), ?_⟩
    intro id k id' k' hk hk' hname
    rw [getName_itemAt id _ (hfits id k hk), getName_itemAt id' _ (hfits id' k' hk')] at hname
    exact textAt_inj (lt_of_digits (h id k hk)) (lt_of_digits (h id' k' hk')) hname

/-- One item of client 1000000. -/
def longId (id : ClientId) : Work :=
  ⟨fun _ _ => 0, 0, List.replicate buffersSize 0#8, List.length_replicate,
    if id.val = 1000000 then 1 else 0⟩

/-- The terminator of its name is stored in the first byte of the data. -/
theorem terminator_spills :
    (textAt 1000000 (longId 1000000) 0).length + 1 = 31 ∧ ¬ Named longId := by
  have hlength : (textAt 1000000 (longId 1000000) 0).length + 1 = 31 := by
    rw [length_textAt _ _ (by decide)]
    decide
  refine ⟨hlength, fun hn => ?_⟩
  have hfits := hn.fits 1000000 0 (by decide)
  rw [hlength] at hfits
  exact absurd hfits (by decide)

end LinuxProgramming.ClientServer
