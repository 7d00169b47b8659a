import LinuxProgramming.Decimal
import LinuxProgramming.Simulation.Itoa

/-! # The arguments on their way to the children

`ProducerConsumerSim` of both simulations of Chapter 14 reads three `int`s from its options,
formats them into arrays of fixed sizes and starts its children with the texts, from which they
read the three again.  On the way there a value is converted to `unsigned int`, on the way back the
C library's `atoi` goes through a `long`.  `survives_iff` says which values come through. -/

namespace LinuxProgramming.Simulation

/-! ### Options -/

inductive Program where
  | messageQueue | sharedMemory
  deriving DecidableEq

/-- The sizes of the C types: a `long` is as wide as an `int`, or twice as wide. -/
inductive DataModel where
  | ilp32 | lp64
  deriving DecidableEq

def DataModel.longBits : DataModel → ℕ
  | ilp32 => 32
  | lp64 => 64

/-- `atoi` of the C library: `strtol`, cast to `int`. -/
def DataModel.atoi (dm : DataModel) (text : List Char) : BitVec 32 :=
  BitVec.ofInt 32 (strtol dm.longBits text)

structure Arguments where
  targetCore : BitVec 32
  id : BitVec 32
  secondsToRun : BitVec 32
  deriving DecidableEq

/-- What `getopt` returns, with `optarg`. -/
inductive Opt where
  | h
  | c (optarg : List Char)
  | n (optarg : List Char)
  | t (optarg : List Char)
  | invalid

/-- The values before the first option. -/
def Arguments.initial : Arguments := ⟨0, 0, 10⟩

/-- The loop over the options, the same in the parent and in the children; with `h` the program
ends. -/
def parse (dm : DataModel) : List Opt → Arguments → Option Arguments
  | [], args => some args
  | .h :: _, _ => none
  | .c optarg :: opts, args => parse dm opts { args with targetCore := dm.atoi optarg }
  | .n optarg :: opts, args => parse dm opts { args with id := dm.atoi optarg }
  | .t optarg :: opts, args => parse dm opts { args with secondsToRun := dm.atoi optarg }
  | .invalid :: opts, args => parse dm opts args

/-! ### Arrays -/

def Program.stem : Program → List Char
  | .messageQueue => "/PC_MESSAGE_Q_NAME_".toList
  | .sharedMemory => "PC_SHM_NAME_".toList

/-- `sprintf(shared_mem_name, SHARED_MEM_NAME_PATTERN, id)`. -/
def sharedMemName (prog : Program) (id : BitVec 32) : List Char := prog.stem ++ decimal id.toInt

def coreStrSize : ℕ := 4
def idStrSize : ℕ := 12
def timeStrSize : ℕ := 12
def sharedMemNameSize : ℕ := 30

/-- `itoa` returns and all bytes that it writes are in an array of `size` bytes.  The `int` is
converted to `unsigned int`. -/
def ItoaFits (value : BitVec 32) (size : ℕ) : Prop :=
  ∃ fuel₀, ∀ fuel ≥ fuel₀, ∃ b',
    (⟨fun _ => '\x00', []⟩ : Buffer).itoa fuel value.toNat 0 10 = some b' ∧
      ∀ i ∈ b'.written, i < size

/-- The name and its terminator are in the array. -/
def NameFits (prog : Program) (id : BitVec 32) : Prop :=
  (sharedMemName prog id).length + 1 ≤ sharedMemNameSize

/-- The arguments of `execl`. -/
def childOptions (args : Arguments) : List Opt :=
  [.c (itoa args.targetCore.toNat 10), .n (itoa args.id.toNat 10),
    .t (itoa args.secondsToRun.toNat 10)]

/-- Nothing is written outside the arrays, and the children have the values and the name of their
parent. -/
structure Survives (prog : Program) (dm : DataModel) (args : Arguments) : Prop where
  coreStr : ItoaFits args.targetCore coreStrSize
  idStr : ItoaFits args.id idStrSize
  timeStr : ItoaFits args.secondsToRun timeStrSize
  parentName : NameFits prog args.id
  child : parse dm (childOptions args) .initial = some args
  childName : ∀ args', parse dm (childOptions args) .initial = some args' →
    NameFits prog args'.id ∧ sharedMemName prog args'.id = sharedMemName prog args.id

/-- The core has at most three digits, the name of a queue has room for the id, and where a `long`
is no wider than an `int` no value is negative. -/
structure HandsOver (prog : Program) (dm : DataModel) (args : Arguments) : Prop where
  core : 0 ≤ args.targetCore.toInt ∧ args.targetCore.toInt < 1000
  name : prog = .messageQueue → -1000000000 < args.id.toInt
  long : dm = .ilp32 → 0 ≤ args.id.toInt ∧ 0 ≤ args.secondsToRun.toInt

/-! ### Texts and values -/

theorem digitChar_eq {d : ℕ} (h : d < 10) : digitChar d = Nat.digitChar d := by
  interval_cases d <;> rfl

/-- In base 10 the text is that of the library. -/
theorem itoa_ten (n : ℕ) : itoa n 10 = Nat.toDigits 10 n := by
  induction n using Nat.strongRecOn with
  | ind n ih =>
      by_cases hn : n = 0
      · rw [hn, Nat.toDigits_zero]
        rfl
      · by_cases hlt : n < 10
        · unfold itoa
          rw [if_neg hn, Nat.digits_of_lt 10 n hn hlt, Nat.toDigits_of_lt_base hlt,
            ← digitChar_eq hlt]
          rfl
        · rw [Nat.toDigits_of_base_le (by decide) (Nat.le_of_not_lt hlt),
            ← ih (n / 10) (by omega), ← digitChar_eq (Nat.mod_lt n (by decide))]
          unfold itoa
          rw [if_neg hn, if_neg (by omega), Nat.digits_def' (by decide) (by omega), List.map_cons,
            List.reverse_cons]

theorem itoaFits_iff (value : BitVec 32) {size : ℕ} (hsize : 0 < size) :
    ItoaFits value (size + 1) ↔ value.toNat < 10 ^ size := by
  rw [← Nat.length_toDigits_le_iff (by decide) hsize, ← itoa_ten]
  constructor
  · rintro ⟨fuel₀, hfits⟩
    obtain ⟨b', hitoa, hbound⟩ := hfits (fuel₀ + (Nat.digits 10 value.toNat).length + 1) (by omega)
    obtain ⟨b'', hitoa', hputs⟩ := Buffer.itoa_puts (by decide : 2 ≤ 10) ⟨fun _ => '\x00', []⟩ 0
      (show (Nat.digits 10 value.toNat).length <
        fuel₀ + (Nat.digits 10 value.toNat).length + 1 by omega)
    obtain rfl : b' = b'' := Option.some.inj (hitoa.symm.trans hitoa')
    have hlast := hbound _ ((hputs.written (itoa value.toNat 10).length).mpr (.inr (by omega)))
    omega
  · intro hlength
    refine ⟨(Nat.digits 10 value.toNat).length + 1, fun fuel hfuel => ?_⟩
    obtain ⟨b', hitoa, hputs⟩ :=
      Buffer.itoa_puts (by decide : 2 ≤ 10) ⟨fun _ => '\x00', []⟩ 0 hfuel
    refine ⟨b', hitoa, fun i hi => ?_⟩
    rcases (hputs.written i).mp hi with hi | hi
    · exact absurd hi List.not_mem_nil
    · omega

/-- The arrays of the id and of the time have room for every value. -/
theorem itoaFits_twelve (value : BitVec 32) : ItoaFits value 12 := by
  rw [itoaFits_iff value (by decide)]
  exact value.isLt.trans (by decide)

theorem itoaFits_coreStr_iff (value : BitVec 32) :
    ItoaFits value coreStrSize ↔ 0 ≤ value.toInt ∧ value.toInt < 1000 := by
  unfold coreStrSize
  rw [itoaFits_iff value (by decide)]
  have hint := BitVec.toInt_eq_toNat_cond value
  have hlt := value.isLt
  split at hint <;> omega

theorem nameFits_iff (prog : Program) (id : BitVec 32) :
    NameFits prog id ↔ (prog = .messageQueue → -1000000000 < id.toInt) := by
  have hlow := BitVec.le_toInt id
  have hhigh := BitVec.toInt_lt (x := id)
  unfold NameFits sharedMemName sharedMemNameSize
  rw [List.length_append]
  cases prog with
  | messageQueue =>
      have hiff := length_decimal_le_iff (k := 9) (by decide) id.toInt
      have hstem : Program.messageQueue.stem.length = 19 := rfl
      constructor
      · intro h _
        exact (hiff.mp (by omega)).1
      · intro h
        have hlength := hiff.mpr ⟨h rfl, by omega⟩
        omega
  | sharedMemory =>
      have hlength := (length_decimal_le_iff (k := 10) (by decide) id.toInt).mpr
        ⟨by omega, by omega⟩
      have hstem : Program.sharedMemory.stem.length = 12 := rfl
      constructor
      · intro _ h
        contradiction
      · intro _
        omega

theorem ofInt_toNat (value : BitVec 32) : BitVec.ofInt 32 (value.toNat : ℤ) = value := by
  rw [BitVec.ofInt_natCast, BitVec.ofNat_toNat, BitVec.setWidth_eq]

/-- A text that comes back as the value that was formatted. -/
theorem atoi_itoa_iff (dm : DataModel) (value : BitVec 32) :
    dm.atoi (itoa value.toNat 10) = value ↔ (dm = .ilp32 → 0 ≤ value.toInt) := by
  have hint := BitVec.toInt_eq_toNat_cond value
  have hlt := value.isLt
  unfold DataModel.atoi
  rw [itoa_ten, strtol_toDigits]
  cases dm with
  | ilp32 =>
      constructor
      · intro hatoi _
        by_contra hneg
        -- the greatest `long` is not negative
        have hmin : min (2 ^ (DataModel.ilp32.longBits - 1) - 1) (value.toNat : ℤ) =
            2147483647 := by
          rw [show DataModel.ilp32.longBits = 32 from rfl]
          split at hint <;> omega
        rw [hmin] at hatoi
        rw [← hatoi] at hneg
        exact hneg (by decide)
      · intro h
        have hnonneg := h rfl
        have hmin : min (2 ^ (DataModel.ilp32.longBits - 1) - 1) (value.toNat : ℤ) =
            value.toNat := by
          rw [show DataModel.ilp32.longBits = 32 from rfl]
          split at hint <;> omega
        rw [hmin, ofInt_toNat]
  | lp64 =>
      have hmin : min (2 ^ (DataModel.lp64.longBits - 1) - 1) (value.toNat : ℤ) =
          value.toNat := by
        rw [show DataModel.lp64.longBits = 64 from rfl]
        omega
      rw [hmin, ofInt_toNat]
      exact ⟨fun _ h => absurd h (by decide), fun _ => rfl⟩

theorem atoi_decimal (dm : DataModel) (value : BitVec 32) :
    dm.atoi (decimal value.toInt) = value := by
  have hlow := BitVec.le_toInt value
  have hhigh := BitVec.toInt_lt (x := value)
  have hrange : -2 ^ (dm.longBits - 1) ≤ value.toInt ∧ value.toInt < 2 ^ (dm.longBits - 1) := by
    cases dm with
    | ilp32 => exact ⟨hlow, hhigh⟩
    | lp64 =>
        rw [show DataModel.lp64.longBits = 64 from rfl]
        omega
  unfold DataModel.atoi
  rw [strtol_decimal _ hrange.1 hrange.2, BitVec.ofInt_toInt]

/-- Every triple of values can be asked for. -/
theorem exists_parse (dm : DataModel) (args : Arguments) :
    ∃ opts, parse dm opts .initial = some args := by
  refine ⟨[.c (decimal args.targetCore.toInt), .n (decimal args.id.toInt),
    .t (decimal args.secondsToRun.toInt)], ?_⟩
  unfold parse parse parse parse
  rw [atoi_decimal, atoi_decimal, atoi_decimal]

theorem parse_childOptions (dm : DataModel) (args : Arguments) :
    parse dm (childOptions args) .initial =
      some ⟨dm.atoi (itoa args.targetCore.toNat 10), dm.atoi (itoa args.id.toNat 10),
        dm.atoi (itoa args.secondsToRun.toNat 10)⟩ := rfl

/-- **Arguments.**  The parent asks for any triple of values, and they come through without a
byte outside the arrays exactly if the core has at most three digits, the name of a queue has room
for the id, and no value is negative that a narrow `long` cannot hold. -/
theorem survives_iff (prog : Program) (dm : DataModel) (args : Arguments) :
    (∃ opts, parse dm opts .initial = some args) ∧
    (Survives prog dm args ↔ HandsOver prog dm args) := by
  refine ⟨exists_parse dm args, ?_, ?_⟩
  · intro hs
    have hchild := Option.some.inj ((parse_childOptions dm args).symm.trans hs.child)
    refine ⟨(itoaFits_coreStr_iff _).mp hs.coreStr, (nameFits_iff prog _).mp hs.parentName,
      fun hdm => ⟨?_, ?_⟩⟩
    · exact (atoi_itoa_iff dm args.id).mp (congrArg Arguments.id hchild) hdm
    · exact (atoi_itoa_iff dm args.secondsToRun).mp (congrArg Arguments.secondsToRun hchild) hdm
  · intro hh
    have hcore : dm.atoi (itoa args.targetCore.toNat 10) = args.targetCore :=
      (atoi_itoa_iff dm _).mpr fun _ => hh.core.1
    have hid : dm.atoi (itoa args.id.toNat 10) = args.id :=
      (atoi_itoa_iff dm _).mpr fun hdm => (hh.long hdm).1
    have htime : dm.atoi (itoa args.secondsToRun.toNat 10) = args.secondsToRun :=
      (atoi_itoa_iff dm _).mpr fun hdm => (hh.long hdm).2
    have hparse : parse dm (childOptions args) .initial = some args := by
      rw [parse_childOptions, hcore, hid, htime]
    have hname : NameFits prog args.id := (nameFits_iff prog _).mpr hh.name
    refine ⟨(itoaFits_coreStr_iff _).mpr hh.core, itoaFits_twelve _, itoaFits_twelve _, hname,
      hparse, fun args' hargs' => ?_⟩
    obtain rfl : args = args' := Option.some.inj (hparse.symm.trans hargs')
    exact ⟨hname, rfl⟩

/-- With core 1000 the terminator is written behind the array of four bytes. -/
theorem core_overflows :
    parse .ilp32 [.c "1000".toList] .initial = some ⟨1000, 0, 10⟩ ∧
    ¬ Survives .sharedMemory .ilp32 ⟨1000, 0, 10⟩ ∧
    ¬ Survives .messageQueue .ilp32 ⟨1000, 0, 10⟩ := by
  have hcore : ¬ ItoaFits (1000 : BitVec 32) coreStrSize := by
    rw [itoaFits_coreStr_iff]
    decide
  exact ⟨by decide +kernel, fun hs => hcore hs.coreStr, fun hs => hcore hs.coreStr⟩

end LinuxProgramming.Simulation
