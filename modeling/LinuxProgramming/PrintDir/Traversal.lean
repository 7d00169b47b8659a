import LinuxProgramming.OrderedForest
import LinuxProgramming.PrintDir.Model

/-! # What `printdir` prints

Without symbolic links the entries form a forest: below an entry that is a directory lie the
entries in it, in the order in which `readdir` returns them.  Where nothing fails, `printdir`
prints the entries below a name, each once and in pre-order, each looked up in the directory that
holds it, and comes back to where it was called (`printdir_walk`).  An entry `j` levels down is
indented by `2 * j` more than the name, as an unsigned integer. -/

namespace LinuxProgramming.PrintDir

open FileSystem (lookup_iff)

variable {D : Type} {fs : FileSystem D}

/-- There are no links, and no `stat`, `opendir` or `chdir` fails. -/
structure LinkFree (fs : FileSystem D) : Prop where
  no_link : ∀ d name target, (name, Entry.link target) ∉ fs.entries d
  readable : ∀ d, fs.readable d = true
  searchable : ∀ d, fs.searchable d = true

/-- `k` is a directory, and `k'` an entry in it. -/
def Holds (fs : FileSystem D) (k k' : D × String) : Prop :=
  (k.2, Entry.dir k'.1) ∈ fs.entries k.1 ∧ ∃ e, (k'.2, e) ∈ fs.entries k'.1

/-- The entries of one directory of which `readdir` returns `k` first. -/
def Earlier (fs : FileSystem D) (k k' : D × String) : Prop :=
  (∃ c, Holds fs c k ∧ Holds fs c k') ∧ [k.2, k'.2].Sublist (fs.readdir k.1)

/-- The names in a directory that are not skipped. -/
def listed (fs : FileSystem D) (d : D) : List String :=
  (fs.readdir d).filter fun item => ¬ (item = "." ∨ item = "..")

/-- The entries in `k`, if `k` is a directory. -/
def children (fs : FileSystem D) (k : D × String) : List (D × String) :=
  match (fs.entries k.1).lookup k.2 with
  | some (.dir d) => (listed fs d).map fun item => (d, item)
  | _ => []

/-- The height of what lies below `k`. -/
def height (fs : FileSystem D) (k : D × String) : ℕ :=
  match (fs.entries k.1).lookup k.2 with
  | some (.dir d) => fs.height d + 1
  | _ => 0

/-! ### The forest -/

section forest

theorem mem_listed {d : D} {item : String} :
    item ∈ listed fs d ↔ ∃ e, (item, e) ∈ fs.entries d := by
  simp only [listed, List.mem_filter, (fs.readdir_perm d).mem_iff, List.mem_cons, List.mem_map,
    decide_eq_true_eq]
  constructor
  · rintro ⟨rfl | rfl | ⟨⟨item, e⟩, he, rfl⟩, hne⟩
    · exact absurd (.inl rfl) hne
    · exact absurd (.inr rfl) hne
    · exact ⟨e, he⟩
  · rintro ⟨e, he⟩
    have hne := fs.entries_ne_dots d _ he
    exact ⟨.inr (.inr ⟨_, he, rfl⟩), by simpa using hne⟩

theorem nodup_readdir (d : D) : (fs.readdir d).Nodup := by
  rw [(fs.readdir_perm d).nodup_iff]
  have hdots : ∀ name, (name = "." ∨ name = "..") → name ∉ (fs.entries d).map Prod.fst := by
    rintro name hname hmem
    obtain ⟨e, he, rfl⟩ := List.mem_map.mp hmem
    have hne := fs.entries_ne_dots d e he
    tauto
  simp only [List.nodup_cons, List.mem_cons, not_or]
  exact ⟨⟨by decide, hdots "." (.inl rfl)⟩, hdots ".." (.inr rfl), fs.entries_nodup d⟩

theorem mem_children {k k' : D × String} : k' ∈ children fs k ↔ Holds fs k k' := by
  unfold children Holds
  rw [← lookup_iff]
  split
  · next d hd =>
      rw [List.mem_map, hd]
      constructor
      · rintro ⟨item, hitem, rfl⟩
        exact ⟨rfl, mem_listed.mp hitem⟩
      · rintro ⟨heq, hex⟩
        obtain rfl : d = k'.1 := by simpa using heq
        exact ⟨k'.2, mem_listed.mpr hex, rfl⟩
  · next hno =>
      refine ⟨fun h => absurd h List.not_mem_nil, fun h => ?_⟩
      exact absurd h.1 (hno k'.1)

theorem height_of_dir {k : D × String} {d : D} (h : (k.2, Entry.dir d) ∈ fs.entries k.1) :
    height fs k = fs.height d + 1 := by
  simp only [height, lookup_iff.mpr h]

/-- What lies in a directory reaches no higher than the directory. -/
theorem height_le {d : D} (item : String) : height fs (d, item) ≤ fs.height d := by
  unfold height
  split
  · next d' hd' => exact fs.height_lt d item d' (lookup_iff.mp hd')
  · exact Nat.zero_le _

/-- The entries, in the order of `readdir`. -/
theorem forest (fs : FileSystem D) :
    OrderedForest (Holds fs) (Earlier fs) (children fs) (height fs) where
  mem_children _ _ := mem_children
  pairwise_children k := by
    have hholds : ∀ k' ∈ children fs k, Holds fs k k' := fun _ => mem_children.mp
    unfold children at hholds ⊢
    split
    · next d hd =>
        simp only [hd] at hholds
        refine List.pairwise_map.mpr (List.pairwise_iff_forall_sublist.mpr fun {a b} hab => ?_)
        have ha : a ∈ listed fs d := hab.subset List.mem_cons_self
        have hb : b ∈ listed fs d := hab.subset (List.mem_cons_of_mem _ List.mem_cons_self)
        exact ⟨⟨k, hholds _ (List.mem_map_of_mem ha), hholds _ (List.mem_map_of_mem hb)⟩,
          hab.trans List.filter_sublist⟩
    · exact .nil
  siblings := by
    rintro k k' ⟨⟨c, hk, hk'⟩, hsub⟩
    refine ⟨?_, c, hk, hk'⟩
    rintro rfl
    exact absurd ((nodup_readdir k.1).sublist hsub) (by simp)
  parent_unique := by
    rintro ⟨d, name⟩ ⟨d', name'⟩ k h h'
    obtain rfl : d = d' :=
      (fs.parent_of_mem d name k.1 h.1).symm.trans (fs.parent_of_mem d' name' k.1 h'.1)
    obtain rfl : name = name' := fs.name_unique d name name' k.1 h.1 h'.1
    rfl
  height_lt := by
    rintro k ⟨d, item⟩ h
    rw [height_of_dir h.1]
    exact Nat.lt_succ_of_le (height_le item)

end forest

/-! ### The walk -/

/-- What is printed for an entry, with its level. -/
def line (n : BitVec 32) (v : ℕ × (D × String)) : Output D :=
  .line (n + BitVec.ofNat 32 (2 * v.1)) v.2.1 v.2.2

theorem indent_succ (n : BitVec 32) (level : ℕ) :
    n + BitVec.ofNat 32 (2 * level) + 2 = n + BitVec.ofNat 32 (2 * (level + 1)) := by
  rw [BitVec.add_assoc, Nat.mul_succ, BitVec.ofNat_add]
  rfl

/-- The loop, over calls that skip `.` and `..` and return what they print below `d`. -/
theorem printItems_eq {call : D → String → Option (D × List (Output D))} {d : D}
    (printed : String → List (Output D)) {items : List String}
    (hcall : ∀ item ∈ items, call d item =
      some (d, if item = "." ∨ item = ".." then [] else printed item)) :
    printItems call d items =
      some (d, (items.filter fun item => ¬ (item = "." ∨ item = "..")).flatMap printed) := by
  induction items with
  | nil => rfl
  | cons item items ih =>
      simp only [printItems, hcall item List.mem_cons_self, Option.bind_some,
        ih fun i hi => hcall i (List.mem_cons_of_mem _ hi), Option.map_some, List.filter_cons]
      by_cases hdots : item = "." ∨ item = ".."
      · simp [hdots]
      · simp [hdots]

theorem printdir_dots (fs : FileSystem D) (depth : ℕ) (cwd : D) {name : String} (n : BitVec 32)
    (h : name = "." ∨ name = "..") : printdir fs (depth + 1) cwd name n = some (cwd, []) := by
  simp only [printdir, if_pos h]

/-- The call for an entry visits what lies below it. -/
theorem printdir_eq_visits (h : LinkFree fs) {depth : ℕ} {k : D × String} {e : Entry D}
    (hmem : (k.2, e) ∈ fs.entries k.1) (hdepth : height fs k < depth) (n : BitVec 32) (level : ℕ) :
    printdir fs depth k.1 k.2 (n + BitVec.ofNat 32 (2 * level)) =
      some (k.1, (visits (children fs) depth level k).map (line n)) := by
  induction depth generalizing k e level with
  | zero => exact absurd hdepth (Nat.not_lt_zero _)
  | succ depth ih =>
      have hdots : ¬ (k.2 = "." ∨ k.2 = "..") := by
        have hne := fs.entries_ne_dots k.1 _ hmem
        simpa using hne
      have hlookup := lookup_iff.mpr hmem
      rcases e with d | _ | target
      · -- the loop over the directory
        have hstat : fs.stat k.1 k.2 = some (.dir d) :=
          FileSystem.stat_of_mem hmem (h.searchable k.1)
        have hopens : Opens fs k.1 k.2 d := ⟨hdots, hstat, h.readable d⟩
        have hchdir : fs.chdir k.1 k.2 = d := by
          simp [FileSystem.chdir, hstat, h.searchable]
        have hup : fs.chdirUp d = k.1 := by
          simp [FileSystem.chdirUp_eq, h.searchable, fs.parent_of_mem _ _ _ hmem]
        have hheight : fs.height d < depth := by
          have hk := height_of_dir hmem
          omega
        have hcall : ∀ item ∈ fs.readdir d,
            printdir fs depth d item (n + BitVec.ofNat 32 (2 * (level + 1))) =
              some (d, if item = "." ∨ item = ".." then []
                else (visits (children fs) depth (level + 1) (d, item)).map (line n)) := by
          intro item hitem
          by_cases hitemdots : item = "." ∨ item = ".."
          · obtain ⟨depth, rfl⟩ := Nat.exists_eq_add_of_lt hheight
            rw [if_pos hitemdots]
            exact printdir_dots fs _ d _ hitemdots
          · rw [if_neg hitemdots]
            have hlisted : item ∈ listed fs d :=
              List.mem_filter.mpr ⟨hitem, by simpa using hitemdots⟩
            obtain ⟨e, he⟩ := mem_listed.mp hlisted
            exact ih (k := (d, item)) he (Nat.lt_of_le_of_lt (height_le item) hheight) (level + 1)
        rw [printdir_of_opens hopens, indent_succ, hchdir, printItems_eq _ hcall]
        simp only [Option.map_some, hup, visits, children, hlookup, List.map_cons,
          List.flatMap_map, List.map_flatMap, listed]
        rfl
      · have hstat : fs.stat k.1 k.2 = some .file :=
          FileSystem.stat_of_mem hmem (h.searchable k.1)
        simp only [printdir, if_neg hdots, hstat, visits, children, hlookup, List.flatMap_nil,
          List.map_cons, List.map_nil]
        rfl
      · exact absurd hmem (h.no_link k.1 k.2 target)

/-- **The walk.** -/
theorem printdir_walk (fs : FileSystem D) (h : LinkFree fs) (cwd : D) (name : String)
    (hname : name ∈ (fs.entries cwd).map Prod.fst) (leadingSpaceNum : BitVec 32) :
    ∃ nodes, PreOrder (Holds fs) (Earlier fs) (cwd, name) nodes ∧
      ∃ depth₀, ∀ depth ≥ depth₀, printdir fs depth cwd name leadingSpaceNum =
        some (cwd, nodes.map fun v =>
          .line (leadingSpaceNum + BitVec.ofNat 32 (2 * v.1)) v.2.1 v.2.2) := by
  obtain ⟨⟨name, e⟩, hmem, rfl⟩ := List.mem_map.mp hname
  have hfuel : height fs (cwd, name) < height fs (cwd, name) + 1 := Nat.lt_succ_self _
  have hwalk := printdir_eq_visits (k := (cwd, name)) h hmem hfuel leadingSpaceNum 0
  rw [Nat.mul_zero, BitVec.add_zero] at hwalk
  exact ⟨_, (forest fs).preOrder_visits hfuel, height fs (cwd, name) + 1,
    fun depth hdepth => printdir_mono hdepth hwalk⟩

/-- `/` holds the file `g` and the directory `a`, which holds the file `f`; `true` is `a`. -/
def plain : FileSystem Bool where
  root := false
  parent _ := false
  entries d := if d then [("f", .file)] else [("g", .file), ("a", .dir true)]
  readdir d := if d then [".", "f", ".."] else ["a", ".", "..", "g"]
  readable _ := true
  searchable _ := true
  height d := if d then 0 else 1
  parent_root := rfl
  entries_nodup := by decide
  entries_ne_dots := by decide
  entries_part := by decide
  parent_of_mem := by
    intro d name d' h
    cases d <;> simp at h
    rfl
  name_unique := by
    intro d name name' d' h h'
    cases d <;> simp at h h'
    rw [h.1, h'.1]
  height_lt := by
    intro d name d' h
    cases d <;> simp at h
    simp [h]
  readdir_perm := by decide

theorem printdir_walk_plain :
    ∃ nodes, PreOrder (Holds plain) (Earlier plain) (false, "a") nodes ∧
      ∃ depth₀, ∀ depth ≥ depth₀, printdir plain depth false "a" 4 =
        some (false, nodes.map fun v => .line (4 + BitVec.ofNat 32 (2 * v.1)) v.2.1 v.2.2) := by
  have hlinkFree : LinkFree plain := by
    refine ⟨fun d name target h => ?_, fun _ => rfl, fun _ => rfl⟩
    cases d <;> simp [plain] at h
  exact printdir_walk plain hlinkFree false "a" (by decide) 4

example : printdir plain 3 false "a" 4 =
    some (false, [.line 4 false "a", .line 6 true "f"]) := rfl

end LinuxProgramming.PrintDir
