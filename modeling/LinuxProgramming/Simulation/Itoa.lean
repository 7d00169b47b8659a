import LinuxProgramming.Simulation.Names
import Mathlib.Data.Nat.Digits.Lemmas

/-! # `itoa`, byte by byte

`SharedMem.h` of both simulations of Chapter 14 writes a number into a character array: one loop
stores the digits from the low end and advances the pointer, then the digits are turned round in
place by two pointers that move towards each other.  Here the loops run on the array itself and
record the bytes that they write.  `itoa_formats` says what is left in the array. -/

namespace LinuxProgramming.Simulation

/-- Memory, and the bytes that have been written, the latest first. -/
structure Buffer where
  mem : ℕ → Char
  written : List ℕ

namespace Buffer

def write (b : Buffer) (i : ℕ) (c : Char) : Buffer := ⟨Function.update b.mem i c, i :: b.written⟩

@[simp] theorem write_written (b : Buffer) (i : ℕ) (c : Char) :
    (b.write i c).written = i :: b.written := rfl

theorem write_mem (b : Buffer) (i : ℕ) (c : Char) (j : ℕ) :
    (b.write i c).mem j = if j = i then c else b.mem j :=
  Function.update_apply b.mem i c j

/-- `while(n)`: the digits from the low end.  No result when the fuel is used up, and none when
the division is by zero. -/
def digitLoop (base : ℕ) : ℕ → ℕ → ℕ → Buffer → Option (ℕ × Buffer)
  | 0, _, _, _ => none
  | fuel + 1, n, str, b =>
      if n = 0 then some (str, b)
      else if base = 0 then none
      else digitLoop base fuel (n / base) (str + 1) (b.write str (digitChar (n % base)))

/-- `while(orgStr < str)`: the two bytes change places. -/
def reverseLoop : ℕ → ℕ → ℕ → Buffer → Option Buffer
  | 0, _, _, _ => none
  | fuel + 1, orgStr, str, b =>
      if orgStr < str then
        reverseLoop fuel (orgStr + 1) (str - 1)
          ((b.write orgStr (b.mem str)).write str (b.mem orgStr))
      else some b

/-- `itoa`, into the bytes from `str` on. -/
def itoa (b : Buffer) (fuel n str base : ℕ) : Option Buffer :=
  if n = 0 then some ((b.write str '0').write (str + 1) '\x00')
  else
    match digitLoop base fuel n str b with
    | none => none
    | some (stop, b') => reverseLoop fuel str (stop - 1) (b'.write stop '\x00')

/-! ### The first loop -/

/-- One byte after the other. -/
def writeAll (b : Buffer) (str : ℕ) : List Char → Buffer
  | [] => b
  | c :: text => (b.write str c).writeAll (str + 1) text

theorem digitLoop_eq {base : ℕ} (hbase : 2 ≤ base) {fuel n : ℕ} (str : ℕ) (b : Buffer)
    (hfuel : (Nat.digits base n).length < fuel) :
    digitLoop base fuel n str b =
      some (str + (Nat.digits base n).length,
        b.writeAll str ((Nat.digits base n).map digitChar)) := by
  induction fuel generalizing n str b with
  | zero => exact absurd hfuel (Nat.not_lt_zero _)
  | succ fuel ih =>
      unfold digitLoop
      split
      · next hn =>
          rw [hn, Nat.digits_zero]
          rfl
      · next hn =>
          have hdigits : Nat.digits base n = n % base :: Nat.digits base (n / base) :=
            Nat.digits_def' hbase (Nat.pos_of_ne_zero hn)
          rw [hdigits, List.length_cons] at hfuel
          rw [if_neg (by omega), ih _ _ (Nat.lt_of_succ_lt_succ hfuel), hdigits, List.length_cons,
            Nat.add_right_comm, Nat.add_assoc]
          rfl

theorem writeAll_mem (b : Buffer) (str : ℕ) (text : List Char) (i : ℕ) :
    (b.writeAll str text).mem i =
      if str ≤ i then (text[i - str]?).getD (b.mem i) else b.mem i := by
  induction text generalizing b str with
  | nil =>
      unfold writeAll
      rw [List.getElem?_nil, Option.getD_none, ite_self]
  | cons c text ih =>
      unfold writeAll
      rw [ih, write_mem]
      rcases lt_trichotomy i str with hlt | rfl | hgt
      · rw [if_neg (by omega), if_neg (by omega), if_neg (by omega)]
      · rw [if_neg (by omega), if_pos rfl, if_pos (Nat.le_refl _), Nat.sub_self]
        rfl
      · rw [if_pos (by omega), if_neg (by omega), if_pos (by omega),
          show i - str = i - (str + 1) + 1 by omega, List.getElem?_cons_succ]

theorem mem_writeAll_written (b : Buffer) (str : ℕ) (text : List Char) (i : ℕ) :
    i ∈ (b.writeAll str text).written ↔
      i ∈ b.written ∨ (str ≤ i ∧ i < str + text.length) := by
  induction text generalizing b str with
  | nil =>
      unfold writeAll
      rw [List.length_nil]
      constructor
      · exact .inl
      · rintro (h | h)
        · exact h
        · omega
  | cons c text ih =>
      unfold writeAll
      rw [ih, write_written, List.mem_cons, List.length_cons]
      constructor
      · rintro ((rfl | h) | h)
        · exact .inr (by omega)
        · exact .inl h
        · exact .inr (by omega)
      · rintro (h | h)
        · exact .inl (.inr h)
        · by_cases hi : i = str
          · exact .inl (.inl hi)
          · exact .inr (by omega)

/-! ### The second loop -/

/-- Two bytes change places. -/
theorem swap_mem (b : Buffer) {lo hi : ℕ} (h : lo < hi) (i : ℕ) :
    ((b.write lo (b.mem hi)).write hi (b.mem lo)).mem i =
      if i = lo ∨ i = hi then b.mem (lo + hi - i) else b.mem i := by
  rw [write_mem, write_mem]
  by_cases hhi : i = hi
  · rw [if_pos hhi, if_pos (.inr hhi), hhi, Nat.add_sub_cancel]
  · by_cases hlo : i = lo
    · rw [if_neg hhi, if_pos hlo, if_pos (.inl hlo), hlo, Nat.add_sub_cancel_left]
    · rw [if_neg hhi, if_neg hlo, if_neg (by omega)]

/-- The pointers meet in the middle, whether the number of bytes is odd or even. -/
theorem reverseLoop_spec (fuel lo hi : ℕ) (b : Buffer) (hle : lo ≤ hi + 1)
    (hfuel : hi + 1 < lo + 2 * fuel) (hw : ∀ i, lo ≤ i → i ≤ hi → i ∈ b.written) :
    ∃ b', reverseLoop fuel lo hi b = some b' ∧
      (∀ i, b'.mem i = if lo ≤ i ∧ i ≤ hi then b.mem (lo + hi - i) else b.mem i) ∧
      ∀ i, i ∈ b'.written ↔ i ∈ b.written := by
  induction fuel generalizing lo hi b with
  | zero => omega
  | succ fuel ih =>
      unfold reverseLoop
      by_cases hlt : lo < hi
      · rw [if_pos hlt]
        have hswap : ∀ i, i ∈ ((b.write lo (b.mem hi)).write hi (b.mem lo)).written ↔
            i ∈ b.written := by
          intro i
          rw [write_written, write_written, List.mem_cons, List.mem_cons]
          constructor
          · rintro (rfl | rfl | hi)
            · exact hw _ (by omega) (Nat.le_refl _)
            · exact hw _ (Nat.le_refl _) (by omega)
            · exact hi
          · exact fun hi => .inr (.inr hi)
        obtain ⟨b', hloop, hmem, hwritten⟩ :=
          ih (lo + 1) (hi - 1) ((b.write lo (b.mem hi)).write hi (b.mem lo)) (by omega) (by omega)
            fun i h1 h2 => (hswap i).mpr (hw i (by omega) (by omega))
        refine ⟨b', hloop, fun i => ?_, fun i => (hwritten i).trans (hswap i)⟩
        rw [hmem, swap_mem b hlt, swap_mem b hlt]
        by_cases hin : lo + 1 ≤ i ∧ i ≤ hi - 1
        · rw [if_pos hin, if_neg (by omega), if_pos (by omega)]
          congr 1
          omega
        · rw [if_neg hin]
          by_cases hend : i = lo ∨ i = hi
          · rw [if_pos hend, if_pos (by omega)]
          · rw [if_neg hend, if_neg (by omega)]
      · rw [if_neg hlt]
        refine ⟨b, rfl, fun i => ?_, fun i => Iff.rfl⟩
        by_cases hin : lo ≤ i ∧ i ≤ hi
        · rw [if_pos hin]
          congr 1
          omega
        · rw [if_neg hin]

/-! ### What is written -/

/-- The text and its terminator are stored from `str` on, and no other byte is written. -/
structure Puts (b b' : Buffer) (str : ℕ) (text : List Char) : Prop where
  stored : ∀ i (h : i < text.length), b'.mem (str + i) = text[i]
  terminator : b'.mem (str + text.length) = '\x00'
  frame : ∀ i, i < str ∨ str + text.length < i → b'.mem i = b.mem i
  written : ∀ i, i ∈ b'.written ↔ i ∈ b.written ∨ (str ≤ i ∧ i ≤ str + text.length)

theorem puts_zero (b : Buffer) (str : ℕ) :
    b.Puts ((b.write str '0').write (str + 1) '\x00') str ['0'] := by
  constructor
  · intro i h
    have hi : i = 0 := by simpa using h
    subst hi
    rw [write_mem, write_mem, if_neg (by omega), if_pos (by omega)]
    rfl
  · rw [List.length_singleton, write_mem, if_pos rfl]
  · intro i h
    rw [List.length_singleton] at h
    rw [write_mem, write_mem, if_neg (by omega), if_neg (by omega)]
  · intro i
    rw [write_written, write_written, List.mem_cons, List.mem_cons, List.length_singleton]
    constructor
    · rintro (rfl | rfl | h)
      · exact .inr (by omega)
      · exact .inr (by omega)
      · exact .inl h
    · rintro (h | h)
      · exact .inr (.inr h)
      · by_cases hi : i = str
        · exact .inr (.inl hi)
        · exact .inl (by omega)

/-- The text from the low end, its terminator, and the turn. -/
theorem puts_reverse {fuel : ℕ} (b : Buffer) (str : ℕ) {text : List Char}
    (htext : text ≠ []) (hfuel : text.length < fuel) :
    ∃ b', reverseLoop fuel str (str + text.length - 1)
        ((b.writeAll str text).write (str + text.length) '\x00') = some b' ∧
      b.Puts b' str text.reverse := by
  have hpos : 0 < text.length := List.length_pos_of_ne_nil htext
  obtain ⟨b', hloop, hmem, hwritten⟩ :=
    reverseLoop_spec fuel str (str + text.length - 1)
      ((b.writeAll str text).write (str + text.length) '\x00') (by omega) (by omega) (by
        intro i h1 h2
        rw [write_written, List.mem_cons, mem_writeAll_written]
        exact .inr (.inr (by omega)))
  refine ⟨b', hloop, ?_, ?_, ?_, ?_⟩
  · intro i h
    rw [List.length_reverse] at h
    rw [hmem, if_pos (by omega), write_mem, if_neg (by omega), writeAll_mem, if_pos (by omega),
      List.getElem_reverse, show str + (str + text.length - 1) - (str + i) - str =
        text.length - 1 - i by omega, List.getElem?_eq_getElem (by omega), Option.getD_some]
  · rw [List.length_reverse, hmem, if_neg (by omega), write_mem, if_pos rfl]
  · intro i h
    rw [List.length_reverse] at h
    rw [hmem, if_neg (by omega), write_mem, if_neg (by omega), writeAll_mem]
    split
    · rw [List.getElem?_eq_none (by omega), Option.getD_none]
    · rfl
  · intro i
    rw [hwritten, write_written, List.mem_cons, mem_writeAll_written, List.length_reverse]
    constructor
    · rintro (rfl | h | h)
      · exact .inr (by omega)
      · exact .inl h
      · exact .inr (by omega)
    · rintro (h | h)
      · exact .inr (.inl h)
      · by_cases hi : i = str + text.length
        · exact .inl hi
        · exact .inr (.inr (by omega))

theorem itoa_puts {base fuel n : ℕ} (hbase : 2 ≤ base) (b : Buffer) (str : ℕ)
    (hfuel : (Nat.digits base n).length < fuel) :
    ∃ b', b.itoa fuel n str base = some b' ∧ b.Puts b' str (Simulation.itoa n base) := by
  unfold itoa Simulation.itoa
  split
  · exact ⟨_, rfl, puts_zero b str⟩
  · next hn =>
      have hdigits : (Nat.digits base n).map digitChar ≠ [] := by
        rw [Ne, List.map_eq_nil_iff, Nat.digits_eq_nil_iff_eq_zero]
        exact hn
      have hreverse := b.puts_reverse str hdigits (by rwa [List.length_map])
      rw [List.length_map] at hreverse
      rw [digitLoop_eq hbase str b hfuel]
      exact hreverse

end Buffer

/-! ### The text -/

def digitValue (c : Char) : Option ℕ :=
  if '0' ≤ c ∧ c ≤ '9' then some (c.toNat - '0'.toNat)
  else if 'A' ≤ c ∧ c ≤ 'Z' then some (c.toNat - 'A'.toNat + 10)
  else none

/-- The value of a text, the most significant digit first. -/
def valueIn (base : ℕ) (text : List Char) : ℕ :=
  text.foldl (fun n c => base * n + (digitValue c).getD 0) 0

/-- The text of `n` in base `base`. -/
structure Canonical (base n : ℕ) (text : List Char) : Prop where
  digit : ∀ c ∈ text, ∃ d, digitValue c = some d ∧ d < base
  leading : n ≠ 0 → text.head? ≠ some '0'
  value : valueIn base text = n
  length : text.length = Nat.log base n + 1

theorem digitValue_digitChar {d : ℕ} (h : d < 36) : digitValue (digitChar d) = some d := by
  interval_cases d <;> rfl

theorem valueIn_reverse (base : ℕ) {ds : List ℕ} (h : ∀ d ∈ ds, d < 36) :
    valueIn base (ds.map digitChar).reverse = Nat.ofDigits base ds := by
  unfold valueIn
  rw [List.foldl_reverse]
  induction ds with
  | nil => rfl
  | cons d ds ih =>
      rw [List.map_cons, List.foldr_cons, ih fun d' hd' => h d' (List.mem_cons_of_mem d hd'),
        digitValue_digitChar (h d List.mem_cons_self), Nat.ofDigits_cons, Nat.add_comm,
        Option.getD_some]

section base
variable {base : ℕ} (h2 : 2 ≤ base) (h36 : base ≤ 36)
include h2 h36

theorem digits_lt (n : ℕ) {d : ℕ} (hd : d ∈ Nat.digits base n) : d < 36 :=
  (Nat.digits_lt_base h2 hd).trans_le h36

theorem itoa_digit (n : ℕ) : ∀ c ∈ itoa n base, ∃ d, digitValue c = some d ∧ d < base := by
  unfold itoa
  split
  · intro c hc
    rw [List.mem_singleton.mp hc]
    exact ⟨0, rfl, by omega⟩
  · intro c hc
    obtain ⟨d, hd, rfl⟩ := List.mem_map.mp (List.mem_reverse.mp hc)
    exact ⟨d, digitValue_digitChar (digits_lt h2 h36 n hd), Nat.digits_lt_base h2 hd⟩

theorem itoa_leading {n : ℕ} (hn : n ≠ 0) : (itoa n base).head? ≠ some '0' := by
  have hdigits : Nat.digits base n ≠ [] := Nat.digits_ne_nil_iff_ne_zero.mpr hn
  have hlast : (Nat.digits base n).getLast hdigits ≠ 0 := Nat.getLast_digit_ne_zero base hn
  have hlt := digits_lt h2 h36 n (List.getLast_mem hdigits)
  unfold itoa
  rw [if_neg hn, List.head?_reverse, List.getLast?_map, List.getLast?_eq_some_getLast hdigits]
  intro hzero
  -- only the digit 0 has the character '0'
  have hchar : digitChar ((Nat.digits base n).getLast hdigits) = '0' := Option.some.inj hzero
  have hvalue := digitValue_digitChar hlt
  rw [hchar] at hvalue
  exact hlast (Option.some.inj hvalue).symm

theorem valueIn_itoa (n : ℕ) : valueIn base (itoa n base) = n := by
  unfold itoa
  split
  · next hn =>
      rw [hn]
      rfl
  · rw [valueIn_reverse base fun d hd => digits_lt h2 h36 n hd, Nat.ofDigits_digits]

omit h36 in
theorem length_itoa (n : ℕ) : (itoa n base).length = Nat.log base n + 1 := by
  unfold itoa
  split
  · next hn =>
      rw [hn, Nat.log_zero_right]
      rfl
  · next hn => rw [List.length_reverse, List.length_map, Nat.length_digits base n h2 hn]

theorem itoa_canonical (n : ℕ) : Canonical base n (itoa n base) where
  digit := itoa_digit h2 h36 n
  leading hn := itoa_leading h2 h36 hn
  value := valueIn_itoa h2 h36 n
  length := length_itoa h2 n

end base

/-- **Formatting.**  With enough fuel `itoa` returns, the bytes that it has written are the digits
of `n` and the terminator, and no other number has the same text. -/
theorem itoa_formats {base : ℕ} (h2 : 2 ≤ base) (h36 : base ≤ 36) (n str : ℕ) (b : Buffer) :
    ∃ fuel₀, (∀ fuel ≥ fuel₀, ∃ b', b.itoa fuel n str base = some b' ∧
        b.Puts b' str (itoa n base)) ∧
      Canonical base n (itoa n base) ∧
      ∀ n', n' ≠ n → itoa n' base ≠ itoa n base := by
  refine ⟨(Nat.digits base n).length + 1, fun fuel hfuel => ?_, itoa_canonical h2 h36 n,
    fun n' hne htext => ?_⟩
  · exact Buffer.itoa_puts h2 b str hfuel
  · have hvalue := valueIn_itoa h2 h36 n'
    rw [htext, valueIn_itoa h2 h36 n] at hvalue
    exact hne hvalue.symm

/-- A byte in base 16. -/
theorem itoa_formats_byte :
    2 ≤ 16 ∧ 16 ≤ 36 ∧ itoa 254 16 = ['F', 'E'] ∧
    ∃ fuel₀, (∀ fuel ≥ fuel₀, ∃ b', (⟨fun _ => 'x', []⟩ : Buffer).itoa fuel 254 3 16 = some b' ∧
        (⟨fun _ => 'x', []⟩ : Buffer).Puts b' 3 (itoa 254 16)) ∧
      Canonical 16 254 (itoa 254 16) ∧
      ∀ n', n' ≠ 254 → itoa n' 16 ≠ itoa 254 16 :=
  ⟨by decide, by decide, by decide +kernel, itoa_formats (by decide) (by decide) 254 3 _⟩

end LinuxProgramming.Simulation
