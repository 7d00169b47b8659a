import LinuxProgramming.Outline
import LinuxProgramming.PrintDir.Traversal
import Mathlib.Algebra.Group.Nat.Defs

/-! # The text that `printdir` prints

A line is a blank in a field of `leadingSpaceNum` columns and the name: the width 0 of the first
call gives one blank and not none, and every other entry has two blanks for each level.  Where no
name begins with a blank or contains the end of a line, this is enough to read the directories
back from the text (`text_readable`).  This is about the entries of directories; the call that
`main` makes for the argument `/`, which is an entry of none, is not covered. -/

namespace LinuxProgramming.PrintDir

variable {D : Type}

/-- `printf("%*s%s\n", leadingSpaceNum, " ", dirname)`; the width is an `int`, and for a negative
one the blanks are on the other side of the one that is printed.  Errors go elsewhere. -/
def Output.text : Output D → List Char
  | .line leadingSpaceNum _ name =>
      List.replicate (max 1 leadingSpaceNum.toInt.natAbs) ' ' ++ name.toList ++ ['\n']
  | .statError _ => []
  | .openError _ => []

/-! ### Reading the text -/

/-- The lines of a text, as far as they are ended. -/
def splitLines : List Char → List (List Char)
  | [] => []
  | c :: cs =>
      if c = '\n' then [] :: splitLines cs
      else
        match splitLines cs with
        | [] => []
        | l :: ls => (c :: l) :: ls

/-- The level of a line, and the name. -/
def readLine (l : List Char) : ℕ × List Char :=
  ((l.takeWhile (· = ' ')).length / 2, l.dropWhile (· = ' '))

/-- The directories and files that a text shows. -/
def readText (text : List Char) : Outline (List Char) :=
  (Outline.read ((splitLines text).length + 1) 0 ((splitLines text).map readLine)).1

/-- A name that a reader can tell from its indentation, on one line. -/
structure Plain (name : String) : Prop where
  one_line : '\n' ∉ name.toList
  no_blank : name.toList.head? ≠ some ' '

theorem splitLines_append {l : List Char} (hl : '\n' ∉ l) (cs : List Char) :
    splitLines (l ++ '\n' :: cs) = l :: splitLines cs := by
  induction l with
  | nil => exact if_pos rfl
  | cons c l ih =>
      rw [List.mem_cons, not_or] at hl
      rw [List.cons_append, splitLines, if_neg (Ne.symm hl.1), ih hl.2]

theorem readLine_eq {name : String} (hname : Plain name) (k : ℕ) :
    readLine (List.replicate k ' ' ++ name.toList) = (k / 2, name.toList) := by
  have hblank : ∀ c ∈ List.replicate k ' ', decide (c = ' ') = true := by
    intro c hc
    rw [List.eq_of_mem_replicate hc]
    rfl
  unfold readLine
  rw [List.takeWhile_append_of_pos hblank, List.dropWhile_append_of_pos hblank]
  cases hlist : name.toList with
  | nil => rw [List.takeWhile_nil, List.append_nil, List.length_replicate, List.dropWhile_nil]
  | cons c cs =>
      have hc : c ≠ ' ' := by
        rintro rfl
        exact hname.no_blank (by rw [hlist]; rfl)
      rw [List.takeWhile_cons_of_neg (by simpa using hc), List.append_nil,
        List.length_replicate, List.dropWhile_cons_of_neg (by simpa using hc)]

/-- The width of the field at a level. -/
theorem natAbs_indent {level : ℕ} (h : level < 2 ^ 30) :
    (0 + BitVec.ofNat 32 (2 * level)).toInt.natAbs = 2 * level := by
  have hint : (BitVec.ofNat 32 (2 * level)).toInt = (2 * level : ℕ) := by
    rw [BitVec.toInt_eq_toNat_of_lt] <;> rw [BitVec.toNat_ofNat, Nat.mod_eq_of_lt (by omega)]
    omega
  rw [show (0 : BitVec 32) = 0#32 from rfl, BitVec.zero_add, hint, Int.natAbs_natCast]

/-- Every width stands for its level, that of the first line as well. -/
theorem max_one_div_two (level : ℕ) : max 1 (2 * level) / 2 = level := by omega

/-- The lines of a text are read with their levels. -/
theorem readLines_eq {nodes : List (ℕ × (D × String))} (hplain : ∀ v ∈ nodes, Plain v.2.2)
    (hlevel : ∀ v ∈ nodes, v.1 < 2 ^ 30) :
    (splitLines ((nodes.map (line 0)).flatMap Output.text)).map readLine =
      nodes.map fun v => (v.1, v.2.2.toList) := by
  induction nodes with
  | nil => rfl
  | cons v nodes ih =>
      have hv := hplain v List.mem_cons_self
      have hline : '\n' ∉ List.replicate (max 1 (2 * v.1)) ' ' ++ v.2.2.toList := by
        intro hmem
        rcases List.mem_append.mp hmem with hmem | hmem
        · exact absurd (List.eq_of_mem_replicate hmem) (by decide)
        · exact hv.one_line hmem
      have hrest := ih (fun w hw => hplain w (List.mem_cons_of_mem v hw))
        fun w hw => hlevel w (List.mem_cons_of_mem v hw)
      have htext : (line 0 v).text =
          List.replicate (max 1 (2 * v.1)) ' ' ++ v.2.2.toList ++ ['\n'] := by
        unfold line Output.text
        simp only
        rw [natAbs_indent (hlevel v List.mem_cons_self)]
      rw [List.map_cons, List.flatMap_cons, htext, List.append_assoc _ ['\n'],
        List.singleton_append, splitLines_append hline, List.map_cons, hrest,
        readLine_eq hv, max_one_div_two]
      rfl

/-- All that lies below is an entry of its directory. -/
theorem plain_of_below {fs : FileSystem D} {k k' : D × String} {e : Entry D}
    (hmem : (k.2, e) ∈ fs.entries k.1) (hplain : ∀ d, ∀ e ∈ fs.entries d, Plain e.1) {j : ℕ}
    (h : Below (Holds fs) j k k') : Plain k'.2 := by
  cases j with
  | zero =>
      cases h
      exact hplain k.1 _ hmem
  | succ j =>
      obtain ⟨c, -, -, e', he'⟩ := h.exists_parent
      exact hplain k'.1 _ he'

/-- **The text.**  Without links and failures, and with names that can be told from the indentation,
the directories and files below a name can be read from what `printdir` prints for it. -/
theorem text_readable (fs : FileSystem D) (h : LinkFree fs) (cwd : D) (name : String)
    (hname : name ∈ (fs.entries cwd).map Prod.fst)
    (hplain : ∀ d, ∀ e ∈ fs.entries d, Plain e.1) (hheight : fs.height cwd < 2 ^ 30) :
    ∃ tree, Shows (children fs) (fun k => k.2.toList) [(cwd, name)] tree ∧
      ∃ depth₀, ∀ depth ≥ depth₀, ∃ out, printdir fs depth cwd name 0 = some (cwd, out) ∧
        readText (out.flatMap Output.text) = tree := by
  obtain ⟨⟨name, e⟩, hmem, rfl⟩ := List.mem_map.mp hname
  have hle : height fs (cwd, name) ≤ fs.height cwd := height_le name
  have hfuel : height fs (cwd, name) < height fs (cwd, name) + 1 := Nat.lt_succ_self _
  have hfuels : ∀ k ∈ [(cwd, name)], height fs k < height fs (cwd, name) + 1 := by
    intro k hk
    rw [List.mem_singleton.mp hk]
    exact hfuel
  have hwalk := printdir_eq_visits (k := (cwd, name)) h hmem hfuel 0 0
  rw [Nat.mul_zero, show (0 : BitVec 32) + BitVec.ofNat 32 0 = 0 from rfl] at hwalk
  obtain ⟨tree, htree⟩ : ∃ tree, Shows (children fs) (fun k => k.2.toList) [(cwd, name)] tree :=
    Shows.exists_outline (forest fs) hfuels
  refine ⟨tree, htree, height fs (cwd, name) + 1, fun depth hdepth =>
    ⟨_, printdir_mono hdepth hwalk, ?_⟩⟩
  set nodes := visits (children fs) (height fs (cwd, name) + 1) 0 (cwd, name)
  have hnodes : ∀ v ∈ nodes, Plain v.2.2 ∧ v.1 < 2 ^ 30 := by
    intro v hv
    obtain ⟨j, hj, hbelow⟩ := (forest fs).below_of_mem_visits hv
    have hlevel := (forest fs).height_add_le hbelow
    exact ⟨plain_of_below hmem hplain hbelow, by omega⟩
  have hlines := readLines_eq (fun v hv => (hnodes v hv).1) fun v hv => (hnodes v hv).2
  have htreeLines := htree.lines_eq (forest fs) hfuels 0
  rw [List.flatMap_singleton] at htreeLines
  -- both are the labels of the nodes with their levels
  rw [← htreeLines] at hlines
  have hsize := congrArg List.length hlines
  rw [List.length_map, Outline.length_lines] at hsize
  have hend : ∀ e ∈ ([] : List (ℕ × List Char)).head?, e.1 < 0 :=
    fun e he => absurd he (Option.not_mem_none e)
  have hread := tree.read_lines (Nat.lt_succ_self _) 0 hend
  rw [List.append_nil] at hread
  unfold readText
  rw [hlines, hsize, hread]

theorem text_readable_plain :
    ∃ tree, Shows (children plain) (fun k => k.2.toList) [(false, "a")] tree ∧
      ∃ depth₀, ∀ depth ≥ depth₀, ∃ out, printdir plain depth false "a" 0 = some (false, out) ∧
        readText (out.flatMap Output.text) = tree := by
  have hlinkFree : LinkFree plain := by
    refine ⟨fun d name target h => ?_, fun _ => rfl, fun _ => rfl⟩
    cases d <;> simp [plain] at h
  refine text_readable plain hlinkFree false "a" (by decide) (fun d e he => ?_) (by decide)
  cases d with
  | false =>
      simp only [plain, Bool.false_eq_true, if_false, List.mem_cons, List.not_mem_nil,
        or_false] at he
      rcases he with rfl | rfl
      · exact ⟨by decide, by decide⟩
      · exact ⟨by decide, by decide⟩
  | true =>
      simp only [plain, if_true, List.mem_cons, List.not_mem_nil, or_false] at he
      rw [he]
      exact ⟨by decide, by decide⟩

end LinuxProgramming.PrintDir
