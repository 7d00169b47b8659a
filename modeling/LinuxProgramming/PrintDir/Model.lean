import Mathlib.Data.BitVec
import Mathlib.Data.List.Basic
import Mathlib.Tactic.Cases

/-! # Walking a directory with `printdir`

`printdir` of Chapter 3 prints a name and, if the name is a directory, changes into it, calls
itself for every name that `readdir` lists, and changes to `..`.  Every name is looked up in the
working directory, which belongs to the process and not to the call.

* **File system.**  The directories and files form trees, and symbolic links lead anywhere; what
  following a link finds is given with the link.  It does not change during a walk.  Opening a
  directory needs permission to read it, and looking up a name in a directory or changing to a
  directory needs permission to search it.
* **Paths.**  A path is resolved part by part, from the root if it begins with a slash and from
  the working directory if not.  `main` passes the last part of its argument, which is a single
  name or `/` itself.
* **Calls.**  `printdir` is given a bound on the depth of nested calls and fails where the
  recursion goes deeper; `Returns` says that it returns at some depth.  It carries the working
  directory along and collects what is printed.  Each line is recorded with the directory in
  which its name was looked up.
* **Left out.**  The null pointer, which no caller passes, the text of `strerror`, and limits on
  the length of a path. -/

namespace LinuxProgramming.PrintDir

/-- What `stat` finds. -/
inductive Node (D : Type) where
  | dir (d : D)
  | file

/-- What a name in a directory stands for; following a link finds `target`, or nothing. -/
inductive Entry (D : Type) where
  | dir (d : D)
  | file
  | link (target : Option (Node D))

variable {D : Type}

/-- What the name leads to, links followed. -/
def Entry.node : Entry D → Option (Node D)
  | dir d => some (.dir d)
  | file => some .file
  | link target => target

/-- A file system over the directories `D`. -/
structure FileSystem (D : Type) where
  /-- `/` -/
  root : D
  /-- `..` -/
  parent : D → D
  entries : D → List (String × Entry D)
  /-- the names in the order in which `readdir` returns them -/
  readdir : D → List String
  readable : D → Bool
  searchable : D → Bool
  /-- directories lie within each other to a finite height -/
  height : D → ℕ
  parent_root : parent root = root
  entries_nodup : ∀ d, ((entries d).map Prod.fst).Nodup
  entries_ne_dots : ∀ d, ∀ e ∈ entries d, e.1 ≠ "." ∧ e.1 ≠ ".."
  entries_part : ∀ d, ∀ e ∈ entries d, e.1 ≠ "" ∧ '/' ∉ e.1.toList
  parent_of_mem : ∀ d name d', (name, Entry.dir d') ∈ entries d → parent d' = d
  name_unique : ∀ d name name' d', (name, Entry.dir d') ∈ entries d →
    (name', Entry.dir d') ∈ entries d → name = name'
  height_lt : ∀ d name d', (name, Entry.dir d') ∈ entries d → height d' < height d
  readdir_perm : ∀ d, (readdir d).Perm ("." :: ".." :: (entries d).map Prod.fst)

/-- What is printed: a line on standard output, or a message on standard error. -/
inductive Output (D : Type) where
  | line (leadingSpaceNum : BitVec 32) (dir : D) (name : String)
  | statError (name : String)
  | openError (name : String)

/-- The parts of a path: what stands before, between and after its slashes. -/
def parts (path : String) : List String := (path.toList.splitOn '/').map String.ofList

namespace FileSystem
variable (fs : FileSystem D)

/-- One part of a path, looked up in a directory; an empty part stands for the directory. -/
def lookup (d : D) (part : String) : Option (Node D) :=
  if part = "" then some (.dir d)
  else if fs.searchable d then
    if part = "." then some (.dir d)
    else if part = ".." then some (.dir (fs.parent d))
    else ((fs.entries d).lookup part).bind Entry.node
  else none

/-- The remaining parts of a path. -/
def resolve : Node D → List String → Option (Node D)
  | node, [] => some node
  | .file, _ :: _ => none
  | .dir d, part :: rest => (fs.lookup d part).bind fun node => resolve node rest

/-- `stat`, which follows links. -/
def stat (cwd : D) (path : String) : Option (Node D) :=
  if path = "" then none
  else fs.resolve (.dir (if path.toList.head? = some '/' then fs.root else cwd)) (parts path)

/-- The working directory after `chdir` to a path. -/
def chdir (cwd : D) (path : String) : D :=
  match fs.stat cwd path with
  | some (.dir d) => if fs.searchable d then d else cwd
  | _ => cwd

/-- The working directory after `chdir` to `..`. -/
def chdirUp (cwd : D) : D := fs.chdir cwd ".."

/-! ### Names and the root -/

variable {fs}

theorem stat_eq_lookup {name : String} (hname : name ≠ "") (hslash : '/' ∉ name.toList) (cwd : D) :
    fs.stat cwd name = fs.lookup cwd name := by
  have hparts : parts name = [name] := by
    rw [parts, List.splitOn_eq_singleton hslash, List.map_singleton, String.ofList_toList]
  have hhead : name.toList.head? ≠ some '/' := fun h => hslash (List.mem_of_head? h)
  rw [stat, if_neg hname, if_neg hhead, hparts, resolve]
  cases fs.lookup cwd name <;> rfl

theorem lookup_iff {d : D} {name : String} {e : Entry D} :
    (fs.entries d).lookup name = some e ↔ (name, e) ∈ fs.entries d := by
  constructor
  · intro h
    obtain ⟨pre, post, hsplit, -⟩ := List.lookup_eq_some_iff.mp h
    simp [hsplit]
  · intro h
    obtain ⟨pre, post, hsplit⟩ := List.append_of_mem h
    refine List.lookup_eq_some_iff.mpr ⟨pre, post, hsplit, fun p hp => ?_⟩
    have hnodup := fs.entries_nodup d
    rw [hsplit, List.map_append, List.map_cons] at hnodup
    have hne : p.1 ≠ name := List.disjoint_of_nodup_append hnodup
      (List.mem_map_of_mem hp) |>.comp fun heq => heq ▸ List.mem_cons_self
    simpa using hne.symm

/-- An entry is found in its directory. -/
theorem stat_of_mem {d : D} {name : String} {e : Entry D} (hmem : (name, e) ∈ fs.entries d)
    (hsearch : fs.searchable d = true) : fs.stat d name = e.node := by
  have hne := fs.entries_ne_dots d _ hmem
  have hpart := fs.entries_part d _ hmem
  rw [stat_eq_lookup hpart.1 hpart.2, lookup, if_neg hpart.1, if_pos hsearch, if_neg hne.1,
    if_neg hne.2, lookup_iff.mpr hmem]
  rfl

theorem stat_root (cwd : D) : fs.stat cwd "/" = some (.dir fs.root) := rfl

theorem chdirUp_eq (cwd : D) : fs.chdirUp cwd =
    if fs.searchable cwd ∧ fs.searchable (fs.parent cwd) then fs.parent cwd else cwd := by
  have hstat : fs.stat cwd ".." = if fs.searchable cwd then some (.dir (fs.parent cwd)) else none :=
    stat_eq_lookup (by decide) (by decide) cwd
  unfold chdirUp chdir
  rw [hstat]
  by_cases hcwd : fs.searchable cwd = true <;>
    by_cases hup : fs.searchable (fs.parent cwd) = true <;> simp [hcwd, hup]

end FileSystem

/-- The loop over `readdir`, over the working directory and what it prints. -/
def printItems (call : D → String → Option (D × List (Output D))) :
    D → List String → Option (D × List (Output D))
  | cwd, [] => some (cwd, [])
  | cwd, item :: items =>
      (call cwd item).bind fun r =>
        (printItems call r.1 items).map fun r' => (r'.1, r.2 ++ r'.2)

/-- `printdir`, with calls nested at most as deep as the bound says: the working directory that
it leaves and what it prints. -/
def printdir (fs : FileSystem D) :
    ℕ → D → String → BitVec 32 → Option (D × List (Output D))
  | 0, _, _, _ => none
  | depth + 1, cwd, dirname, leadingSpaceNum =>
      if dirname = "." ∨ dirname = ".." then some (cwd, [])
      else
        match fs.stat cwd dirname with
        | none => some (cwd, [.line leadingSpaceNum cwd dirname, .statError dirname])
        | some .file => some (cwd, [.line leadingSpaceNum cwd dirname])
        | some (.dir d) =>
            if fs.readable d then
              (printItems (fun cwd item => printdir fs depth cwd item (leadingSpaceNum + 2))
                (fs.chdir cwd dirname) (fs.readdir d)).map fun r =>
                  (fs.chdirUp r.1, .line leadingSpaceNum cwd dirname :: r.2)
            else some (cwd, [.line leadingSpaceNum cwd dirname, .openError dirname])

/-- The call returns. -/
def Returns (fs : FileSystem D) (cwd : D) (name : String) (leadingSpaceNum : BitVec 32) : Prop :=
  ∃ depth, (printdir fs depth cwd name leadingSpaceNum).isSome

/-- The call opens the directory `d` and goes through it. -/
structure Opens (fs : FileSystem D) (cwd : D) (name : String) (d : D) : Prop where
  ne_dots : ¬ (name = "." ∨ name = "..")
  stat : fs.stat cwd name = some (.dir d)
  readable : fs.readable d = true

theorem Opens.unique {fs : FileSystem D} {cwd d d' : D} {name : String} (h : Opens fs cwd name d)
    (h' : Opens fs cwd name d') : d = d' := by
  have hnode := h.stat.symm.trans h'.stat
  simpa using hnode

/-- The call `k`, given by its working directory and its name, opens `d` and makes the call `k'`
when the calls for the names before it have returned. -/
def CallsFrom (fs : FileSystem D) (d : D) (k k' : D × String) : Prop :=
  Opens fs k.1 k.2 d ∧ ∃ pre post depth n out, fs.readdir d = pre ++ k'.2 :: post ∧
    printItems (fun cwd item => printdir fs depth cwd item n) (fs.chdir k.1 k.2) pre =
      some (k'.1, out)

/-- The call `k` makes the call `k'`. -/
def Calls (fs : FileSystem D) (k k' : D × String) : Prop :=
  ∃ d, CallsFrom fs d k k'

/-- What the file system alone says of the calls that `k` makes: it makes one for every name in
the directory that it opens, and the first of them where `chdir` has led. -/
def Leads (fs : FileSystem D) (k k' : D × String) : Prop :=
  ∃ d, Opens fs k.1 k.2 d ∧ k'.1 = fs.chdir k.1 k.2 ∧ k'.2 ∈ fs.readdir d

/-- If the call opens a directory, then changing to the name is undone by `..`. -/
def Undone (fs : FileSystem D) (k : D × String) : Prop :=
  ∀ d, Opens fs k.1 k.2 d → fs.chdirUp (fs.chdir k.1 k.2) = k.1

/-- The call leaves the working directory as it found it, if it returns. -/
def Restores (fs : FileSystem D) (k : D × String) : Prop :=
  ∀ n depth r, printdir fs depth k.1 k.2 n = some r → r.1 = k.1

/-! ### The loop -/

section items
variable {call call' : D → String → Option (D × List (Output D))}

theorem printItems_append (cwd : D) (items items' : List String) :
    printItems call cwd (items ++ items') =
      (printItems call cwd items).bind fun r =>
        (printItems call r.1 items').map fun r' => (r'.1, r.2 ++ r'.2) := by
  induction items generalizing cwd with
  | nil => simp [printItems]
  | cons item items ih =>
      simp only [List.cons_append, printItems, ih]
      rcases call cwd item with _ | r
      · rfl
      · rcases hr : printItems call r.1 items with _ | r'
        · simp [hr]
        · simp [hr, Function.comp_def, List.append_assoc]

/-- Calls that leave the working directory alone, as far as the loop gets to them. -/
theorem cwd_of_printItems {cwd : D} {items : List String} {r : D × List (Output D)}
    (rest : List String)
    (hcall : ∀ pre item post out r, items ++ rest = pre ++ item :: post →
      printItems call cwd pre = some (cwd, out) → call cwd item = some r → r.1 = cwd)
    (h : printItems call cwd items = some r) : r.1 = cwd := by
  induction items using List.reverseRecOn generalizing rest r with
  | nil =>
      obtain rfl := Option.some.inj h
      rfl
  | append_singleton items item ih =>
      rw [printItems_append] at h
      obtain ⟨⟨cwd', out⟩, hitems, h⟩ := Option.bind_eq_some_iff.mp h
      obtain ⟨r', hr', rfl⟩ := Option.map_eq_some_iff.mp h
      have hsplit : items ++ [item] ++ rest = items ++ item :: rest := by simp
      -- the calls before the last one have led nowhere else
      obtain rfl : cwd' = cwd :=
        ih (item :: rest) (fun pre i post out r heq => hcall pre i post out r
          (hsplit.trans heq)) hitems
      obtain ⟨r₁, hr₁, hr'⟩ := Option.bind_eq_some_iff.mp hr'
      obtain rfl := Option.some.inj ((Option.map_some ..).symm.trans hr')
      exact hcall items item rest out r₁ hsplit hitems hr₁

/-- Calls that return what they returned before. -/
theorem printItems_mono (hcall : ∀ cwd item r, call cwd item = some r → call' cwd item = some r)
    {cwd : D} {items : List String} {r : D × List (Output D)}
    (h : printItems call cwd items = some r) : printItems call' cwd items = some r := by
  induction items generalizing cwd r with
  | nil => exact h
  | cons item items ih =>
      obtain ⟨r₁, hr₁, h⟩ := Option.bind_eq_some_iff.mp h
      obtain ⟨r₂, hr₂, rfl⟩ := Option.map_eq_some_iff.mp h
      simp only [printItems, hcall cwd item r₁ hr₁, ih hr₂, Option.bind_some, Option.map_some]

end items

/-! ### The depth -/

section depth
variable {fs : FileSystem D}

theorem printdir_of_opens {cwd d : D} {name : String} (h : Opens fs cwd name d) (depth : ℕ)
    (n : BitVec 32) : printdir fs (depth + 1) cwd name n =
      (printItems (fun cwd item => printdir fs depth cwd item (n + 2))
        (fs.chdir cwd name) (fs.readdir d)).map fun r =>
          (fs.chdirUp r.1, .line n cwd name :: r.2) := by
  simp only [printdir, if_neg h.ne_dots, h.stat, if_pos h.readable]

/-- A call that opens nothing returns at once, where it was made. -/
theorem printdir_of_not_opens {cwd : D} {name : String} (h : ∀ d, ¬ Opens fs cwd name d)
    (n : BitVec 32) : ∃ out, ∀ depth, printdir fs (depth + 1) cwd name n = some (cwd, out) := by
  by_cases hdots : name = "." ∨ name = ".."
  · exact ⟨[], fun depth => by simp only [printdir, if_pos hdots]⟩
  · rcases hstat : fs.stat cwd name with _ | _ | _
    · exact ⟨_, fun depth => by simp only [printdir, if_neg hdots, hstat]; rfl⟩
    · next d =>
        have hclosed : ¬ fs.readable d = true := fun hread => h d ⟨hdots, hstat, hread⟩
        exact ⟨_, fun depth => by simp only [printdir, if_neg hdots, hstat, if_neg hclosed]; rfl⟩
    · exact ⟨_, fun depth => by simp only [printdir, if_neg hdots, hstat]; rfl⟩

theorem printdir_mono_succ {depth : ℕ} {cwd : D} {name : String} {n : BitVec 32}
    {r : D × List (Output D)} (h : printdir fs depth cwd name n = some r) :
    printdir fs (depth + 1) cwd name n = some r := by
  induction depth generalizing cwd name n r with
  | zero => exact absurd h (by simp [printdir])
  | succ depth ih =>
      by_cases hopens : ∃ d, Opens fs cwd name d
      · obtain ⟨d, hd⟩ := hopens
        rw [printdir_of_opens hd] at h ⊢
        obtain ⟨r', hr', rfl⟩ := Option.map_eq_some_iff.mp h
        rw [printItems_mono (fun _ _ _ => ih) hr']
        rfl
      · obtain ⟨out, hout⟩ := printdir_of_not_opens (not_exists.mp hopens) n
        rw [hout] at h ⊢
        exact h

/-- A deeper bound changes nothing. -/
theorem printdir_mono {depth depth' : ℕ} (hle : depth ≤ depth') {cwd : D} {name : String}
    {n : BitVec 32} {r : D × List (Output D)} (h : printdir fs depth cwd name n = some r) :
    printdir fs depth' cwd name n = some r := by
  induction hle with
  | refl => exact h
  | step _ ih => exact printdir_mono_succ ih

/-- What a call returns does not depend on the bound. -/
theorem printdir_unique {depth depth' : ℕ} {cwd : D} {name : String} {n : BitVec 32}
    {r r' : D × List (Output D)} (h : printdir fs depth cwd name n = some r)
    (h' : printdir fs depth' cwd name n = some r') : r = r' := by
  have hmax := printdir_mono (Nat.le_max_left depth depth') h
  rw [printdir_mono (Nat.le_max_right depth depth') h'] at hmax
  exact (Option.some.inj hmax).symm

end depth

end LinuxProgramming.PrintDir
