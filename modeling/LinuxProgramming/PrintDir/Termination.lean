import LinuxProgramming.CallDepth
import LinuxProgramming.PrintDir.Model
import Mathlib.Data.Fin.VecNotation
import Mathlib.Data.Set.Finite.Basic
import Mathlib.Tactic.FinCases

/-! # Whether `printdir` returns

`printdir` skips `.` and `..` and otherwise follows whatever `stat` calls a directory, links
included.  A call is determined by the working directory in which it is made and by its name, so
over a finite file system only finitely many can arise, and a call returns exactly if none of
those in its course is made again inside itself (`returns_iff_calls`).

Which calls are made depends on where the calls before them have left the working directory.
`Leads` is what the file system alone says of it, and where the directories can be left as they
were entered (`Tidy`), this is all: `returns_iff` says that a call then returns exactly if the
directories, with the links to directories, do not lead in a circle. -/

namespace LinuxProgramming.PrintDir

open Relation

variable {D : Type} {fs : FileSystem D}

/-! ### The indentation decides nothing -/

theorem printItems_indentation {call call' : D → String → Option (D × List (Output D))}
    (hcall : ∀ cwd item, (call cwd item).map Prod.fst = (call' cwd item).map Prod.fst)
    (cwd : D) (items : List String) :
    (printItems call cwd items).map Prod.fst = (printItems call' cwd items).map Prod.fst := by
  induction items generalizing cwd with
  | nil => rfl
  | cons item items ih =>
      have hitem := hcall cwd item
      rcases hr : call cwd item with _ | r <;> rcases hr' : call' cwd item with _ | r' <;>
        simp only [hr, hr', Option.map_some, Option.map_none, reduceCtorEq, Option.some.injEq]
          at hitem
      · simp [printItems, hr, hr']
      · simp only [printItems, hr, hr', Option.bind_some, Option.map_map, Function.comp_def]
        rw [hitem]
        exact ih r'.1

theorem printdir_indentation (depth : ℕ) (cwd : D) (name : String) (n n' : BitVec 32) :
    (printdir fs depth cwd name n).map Prod.fst = (printdir fs depth cwd name n').map Prod.fst := by
  induction depth generalizing cwd name n n' with
  | zero => rfl
  | succ depth ih =>
      by_cases hopens : ∃ d, Opens fs cwd name d
      · obtain ⟨d, hd⟩ := hopens
        have hloop := printItems_indentation (fun cwd item => ih cwd item (n + 2) (n' + 2))
          (fs.chdir cwd name) (fs.readdir d)
        have hup := congrArg (Option.map fs.chdirUp) hloop
        simpa only [printdir_of_opens hd, Option.map_map, Function.comp_def] using hup
      · obtain ⟨out, hout⟩ := printdir_of_not_opens (not_exists.mp hopens) n
        obtain ⟨out', hout'⟩ := printdir_of_not_opens (not_exists.mp hopens) n'
        rw [hout, hout']
        rfl

/-- The working directory after part of a loop depends neither on the bound nor on the
indentation. -/
theorem cwd_unique {depth depth' : ℕ} {n n' : BitVec 32} {cwd : D} {items : List String}
    {r r' : D × List (Output D)}
    (h : printItems (fun cwd item => printdir fs depth cwd item n) cwd items = some r)
    (h' : printItems (fun cwd item => printdir fs depth' cwd item n') cwd items = some r') :
    r.1 = r'.1 := by
  have hr := printItems_mono (fun _ _ _ => printdir_mono (Nat.le_max_left depth depth')) h
  have hr' := printItems_mono (fun _ _ _ => printdir_mono (Nat.le_max_right depth depth')) h'
  have hcall : ∀ cwd item, (printdir fs (max depth depth') cwd item n).map Prod.fst =
      (printdir fs (max depth depth') cwd item n').map Prod.fst :=
    fun cwd item => printdir_indentation _ cwd item n n'
  have hfst := printItems_indentation hcall cwd items
  rw [hr, hr'] at hfst
  exact Option.some.inj hfst

/-! ### Calls inside calls -/

/-- The call returns, nested at most that deep. -/
def ReturnsAt (fs : FileSystem D) (depth : ℕ) (k : D × String) : Prop :=
  (printdir fs depth k.1 k.2 0).isSome

theorem returnsAt_iff {depth : ℕ} {k : D × String} (n : BitVec 32) :
    ReturnsAt fs depth k ↔ (printdir fs depth k.1 k.2 n).isSome := by
  unfold ReturnsAt
  rw [← Option.isSome_map (f := Prod.fst) (x := printdir fs depth k.1 k.2 n),
    printdir_indentation depth k.1 k.2 n 0, Option.isSome_map]

theorem returnsAt_of_not_opens {depth : ℕ} {k : D × String} (h : ∀ d, ¬ Opens fs k.1 k.2 d) :
    ReturnsAt fs (depth + 1) k := by
  obtain ⟨out, hout⟩ := printdir_of_not_opens h 0
  unfold ReturnsAt
  rw [hout]
  rfl

theorem returnsAt_succ_iff {k : D × String} {d : D} (hd : Opens fs k.1 k.2 d) (depth : ℕ) :
    ReturnsAt fs (depth + 1) k ↔
      (printItems (fun cwd item => printdir fs depth cwd item (0 + 2)) (fs.chdir k.1 k.2)
        (fs.readdir d)).isSome := by
  unfold ReturnsAt
  rw [printdir_of_opens hd, Option.isSome_map]

/-- A call that returns has made calls that return one level deeper. -/
theorem returnsAt_of_calls {depth : ℕ} {k k' : D × String} (hk : ReturnsAt fs (depth + 1) k)
    (hcall : Calls fs k k') : ReturnsAt fs depth k' := by
  obtain ⟨d, hd, pre, post, depth', n, out, hsplit, hpre⟩ := hcall
  rw [returnsAt_succ_iff hd, hsplit, printItems_append] at hk
  obtain ⟨r, hr⟩ := Option.isSome_iff_exists.mp hk
  obtain ⟨r₁, hr₁, hr⟩ := Option.bind_eq_some_iff.mp hr
  obtain ⟨r₂, hr₂, -⟩ := Option.map_eq_some_iff.mp hr
  obtain ⟨r₃, hr₃, -⟩ := Option.bind_eq_some_iff.mp hr₂
  have hcwd : r₁.1 = k'.1 := cwd_unique hr₁ hpre
  rw [hcwd] at hr₃
  exact (returnsAt_iff (0 + 2)).mpr (Option.isSome_iff_exists.mpr ⟨r₃, hr₃⟩)

/-- A loop returns if the calls made from it do. -/
theorem loop_returns {depth : ℕ} {k : D × String} {d : D} (hd : Opens fs k.1 k.2 d)
    (h : ∀ k', Calls fs k k' → ReturnsAt fs depth k') {items rest : List String}
    (hsplit : fs.readdir d = items ++ rest) :
    (printItems (fun cwd item => printdir fs depth cwd item (0 + 2)) (fs.chdir k.1 k.2)
      items).isSome := by
  induction items using List.reverseRecOn generalizing rest with
  | nil => rfl
  | append_singleton items item ih =>
      have hnext : fs.readdir d = items ++ item :: rest := by simpa using hsplit
      obtain ⟨⟨cwd, out⟩, hitems⟩ := Option.isSome_iff_exists.mp (ih hnext)
      have hitem : ReturnsAt fs depth (cwd, item) :=
        h (cwd, item) ⟨d, hd, items, rest, depth, 0 + 2, out, hnext, hitems⟩
      obtain ⟨r, hr⟩ := Option.isSome_iff_exists.mp ((returnsAt_iff (0 + 2)).mp hitem)
      simp only [printItems_append, hitems, Option.bind_some, printItems, hr, Option.map_some,
        Option.isSome_some]

/-- A call returns if the calls that it makes return one level deeper. -/
theorem depth_returnsAt (fs : FileSystem D) : Depth (Calls fs) (ReturnsAt fs) where
  zero k := by simp [ReturnsAt, printdir]
  succ depth k := by
    refine ⟨fun hk k' hcall => returnsAt_of_calls hk hcall, fun h => ?_⟩
    by_cases hopens : ∃ d, Opens fs k.1 k.2 d
    · obtain ⟨d, hd⟩ := hopens
      rw [returnsAt_succ_iff hd]
      exact loop_returns hd h (List.append_nil _).symm
    · exact returnsAt_of_not_opens (not_exists.mp hopens)

/-- Only finitely many calls arise: their names are listed somewhere. -/
theorem finite_listed [Finite D] {R : D × String → D × String → Prop}
    (hR : ∀ k k', R k k' → ∃ d, k'.2 ∈ fs.readdir d) (k : D × String) :
    {k' | ReflTransGen R k k'}.Finite := by
  have hnames : (⋃ d, {name | name ∈ fs.readdir d}).Finite :=
    Set.finite_iUnion fun d => (fs.readdir d).finite_toSet
  refine ((Set.finite_univ.prod hnames).insert k).subset fun k' hk' => ?_
  rcases ReflTransGen.cases_tail hk' with rfl | ⟨k'', -, hcall⟩
  · exact Set.mem_insert _ _
  · obtain ⟨d, hd⟩ := hR k'' k' hcall
    exact Set.mem_insert_of_mem _ ⟨Set.mem_univ _, Set.mem_iUnion.mpr ⟨d, hd⟩⟩

theorem listed_of_calls {k k' : D × String} (h : Calls fs k k') : ∃ d, k'.2 ∈ fs.readdir d := by
  obtain ⟨d, -, pre, post, depth, n, out, hsplit, -⟩ := h
  exact ⟨d, by simp [hsplit]⟩

theorem listed_of_leads {k k' : D × String} (h : Leads fs k k') : ∃ d, k'.2 ∈ fs.readdir d := by
  obtain ⟨d, -, -, hlisted⟩ := h
  exact ⟨d, hlisted⟩

theorem returns_iff_returnsAt {k : D × String} (n : BitVec 32) :
    Returns fs k.1 k.2 n ↔ ∃ depth, ReturnsAt fs depth k :=
  exists_congr fun _ => (returnsAt_iff n).symm

/-- A call returns exactly if no call in its course is made again inside itself. -/
theorem returns_iff_calls [Finite D] (fs : FileSystem D) (k : D × String) (n : BitVec 32) :
    Returns fs k.1 k.2 n ↔
      ∀ k', ReflTransGen (Calls fs) k k' → ¬ TransGen (Calls fs) k' k' := by
  rw [returns_iff_returnsAt]
  exact (depth_returnsAt fs).terminates_iff (finite_listed (fun _ _ => listed_of_calls) k)

/-! ### What the file system says -/

/-- Nothing leads in a circle from the call `k` on. -/
def Acyclic (fs : FileSystem D) (k : D × String) : Prop :=
  ∀ k', ReflTransGen (Leads fs) k k' → ¬ TransGen (Leads fs) k' k'

/-- Wherever a call could be made from which nothing leads in a circle, so that it returns,
changing to the name is undone by `..`. -/
def Tidy (fs : FileSystem D) (k : D × String) : Prop :=
  ∀ k', ReflTransGen (Leads fs) k k' → Acyclic fs k' → Undone fs k'

theorem acyclic_iff [Finite D] {k : D × String} :
    Acyclic fs k ↔ ∃ f, Within (Leads fs) f k :=
  ((depth_within (Leads fs)).terminates_iff (finite_listed (fun _ _ => listed_of_leads) k)).symm

/-- `Leads`, as a list. -/
def led (fs : FileSystem D) (k : D × String) : List (D × String) :=
  if k.2 = "." ∨ k.2 = ".." then []
  else
    match fs.stat k.1 k.2 with
    | some (.dir d) =>
        if fs.readable d then (fs.readdir d).map fun item => (fs.chdir k.1 k.2, item) else []
    | _ => []

theorem mem_led {k k' : D × String} : k' ∈ led fs k ↔ Leads fs k k' := by
  constructor
  · intro h
    unfold led at h
    split at h
    · cases h
    · next hdots =>
        split at h
        · next d hd =>
            split at h
            · next hread =>
                obtain ⟨item, hitem, rfl⟩ := List.mem_map.mp h
                exact ⟨d, ⟨hdots, hd, hread⟩, rfl, hitem⟩
            · cases h
        · cases h
  · obtain ⟨cwd, item⟩ := k'
    rintro ⟨d, hd, rfl, hitem⟩
    simp only [led, if_neg hd.ne_dots, hd.stat, hd.readable, if_true]
    exact List.mem_map_of_mem hitem

instance within_decidable (fs : FileSystem D) :
    ∀ f k, Decidable (Within (Leads fs) f k)
  | 0, _ => .isFalse id
  | f + 1, k =>
      have : ∀ k', Decidable (Within (Leads fs) f k') := within_decidable fs f
      decidable_of_iff (∀ k' ∈ led fs k, Within (Leads fs) f k')
        (forall_congr' fun _ => imp_congr_left mem_led)

/-- A list that `led` does not lead out of. -/
theorem mem_of_reach {k k' : D × String} {l : List (D × String)} (hk : k ∈ l)
    (hclosed : ∀ k ∈ l, ∀ k' ∈ led fs k, k' ∈ l) (h : ReflTransGen (Leads fs) k k') : k' ∈ l := by
  induction h with
  | refl => exact hk
  | tail _ hlead ih => exact hclosed _ ih _ (mem_led.mpr hlead)

/-- The loop of a call ends where it began, if the calls for the names do. -/
theorem loop_end {k : D × String} {d : D} {depth : ℕ} {n : BitVec 32}
    (hcalls : ∀ item ∈ fs.readdir d, ∀ r,
      printdir fs depth (fs.chdir k.1 k.2) item n = some r → r.1 = fs.chdir k.1 k.2)
    {items rest : List String} (hsplit : fs.readdir d = items ++ rest) {r : D × List (Output D)}
    (h : printItems (fun cwd item => printdir fs depth cwd item n) (fs.chdir k.1 k.2) items =
      some r) : r.1 = fs.chdir k.1 k.2 := by
  refine cwd_of_printItems rest (fun pre item post out r heq _ hr => hcalls item ?_ r hr) h
  rw [hsplit, heq]
  simp

/-- The calls that are made are those that the file system says, if all of them come back to where
they were made. -/
theorem leads_of_calls {k k' : D × String} (h : ∀ k'', Leads fs k k'' → Restores fs k'')
    (hcall : Calls fs k k') : Leads fs k k' := by
  obtain ⟨d, hd, pre, post, depth, n, out, hsplit, hpre⟩ := hcall
  have hend := loop_end (fun item hitem r hr =>
    h (fs.chdir k.1 k.2, item) ⟨d, hd, rfl, hitem⟩ n depth r hr) hsplit hpre
  exact ⟨d, hd, hend, by simp [hsplit]⟩

/-- A call that returns is one from which nothing leads deeper, and comes back to where it was
made. -/
theorem within_of_printdir [Finite D] {depth : ℕ} {k : D × String} (htidy : Tidy fs k)
    {n : BitVec 32} {r : D × List (Output D)} (h : printdir fs depth k.1 k.2 n = some r) :
    Within (Leads fs) depth k ∧ r.1 = k.1 := by
  induction depth generalizing k n r with
  | zero => exact absurd h (by simp [printdir])
  | succ depth ih =>
      by_cases hopens : ∃ d, Opens fs k.1 k.2 d
      · obtain ⟨d, hd⟩ := hopens
        have hleads : ∀ item ∈ fs.readdir d, Leads fs k (fs.chdir k.1 k.2, item) :=
          fun item hitem => ⟨d, hd, rfl, hitem⟩
        have hbelow : ∀ item ∈ fs.readdir d, Tidy fs (fs.chdir k.1 k.2, item) :=
          fun item hitem k' hk' => htidy k' (.head (hleads item hitem) hk')
        have hcalls : ∀ item ∈ fs.readdir d, ∀ r,
            printdir fs depth (fs.chdir k.1 k.2) item (n + 2) = some r → r.1 = fs.chdir k.1 k.2 :=
          fun item hitem r hr => (ih (k := (fs.chdir k.1 k.2, item)) (hbelow item hitem) hr).2
        rw [printdir_of_opens hd] at h
        obtain ⟨r', hloop, rfl⟩ := Option.map_eq_some_iff.mp h
        have hend := loop_end hcalls (List.append_nil _).symm hloop
        have hwithin : Within (Leads fs) (depth + 1) k := by
          rintro ⟨cwd, item⟩ ⟨d', hd', rfl, hitem⟩
          obtain rfl : d = d' := hd.unique hd'
          -- the loop comes to the name where it began, and the call returns
          obtain ⟨pre, post, hsplit⟩ := List.append_of_mem hitem
          rw [hsplit, printItems_append] at hloop
          obtain ⟨r₁, hr₁, hloop⟩ := Option.bind_eq_some_iff.mp hloop
          obtain ⟨r₂, hr₂, -⟩ := Option.map_eq_some_iff.mp hloop
          obtain ⟨r₃, hr₃, -⟩ := Option.bind_eq_some_iff.mp hr₂
          rw [loop_end hcalls hsplit hr₁] at hr₃
          exact (ih (k := (fs.chdir k.1 k.2, item)) (hbelow item hitem) hr₃).1
        refine ⟨hwithin, ?_⟩
        show fs.chdirUp r'.1 = k.1
        rw [hend]
        exact htidy k .refl (acyclic_iff.mpr ⟨_, hwithin⟩) d hd
      · obtain ⟨out, hout⟩ := printdir_of_not_opens (not_exists.mp hopens) n
        rw [hout] at h
        obtain rfl := Option.some.inj h
        refine ⟨?_, rfl⟩
        rintro k' ⟨d, hd, -⟩
        exact absurd ⟨d, hd⟩ hopens

/-- A call from which nothing leads deeper than the bound returns. -/
theorem returnsAt_of_within [Finite D] {depth : ℕ} {k : D × String} (htidy : Tidy fs k)
    (h : Within (Leads fs) depth k) : ReturnsAt fs depth k := by
  induction depth generalizing k with
  | zero => exact h.elim
  | succ depth ih =>
      by_cases hopens : ∃ d, Opens fs k.1 k.2 d
      · obtain ⟨d, hd⟩ := hopens
        refine (returnsAt_succ_iff hd depth).mpr (loop_returns hd ?_ (List.append_nil _).symm)
        intro k' hcall
        have hleads : Leads fs k k' := leads_of_calls (fun k'' hk'' _ _ _ hr =>
          (within_of_printdir (fun _ hreach => htidy _ (.head hk'' hreach)) hr).2) hcall
        exact ih (fun _ hreach => htidy _ (.head hleads hreach)) (h k' hleads)
      · exact returnsAt_of_not_opens (not_exists.mp hopens)

/-- **Termination.**  Where the directories can be left as they were entered, a call returns
exactly if nothing leads in a circle from it on. -/
theorem returns_iff [Fintype D] (fs : FileSystem D) (k : D × String) (htidy : Tidy fs k)
    (n : BitVec 32) :
    Returns fs k.1 k.2 n ↔
      ∀ k', ReflTransGen (Leads fs) k k' → ¬ TransGen (Leads fs) k' k' := by
  have hacyclic : Acyclic fs k ↔ ∃ f, Within (Leads fs) f k := acyclic_iff
  rw [returns_iff_returnsAt]
  constructor
  · rintro ⟨depth, hreturns⟩
    obtain ⟨r, hr⟩ := Option.isSome_iff_exists.mp hreturns
    exact hacyclic.mpr ⟨depth, (within_of_printdir htidy hr).1⟩
  · intro h
    obtain ⟨f, hf⟩ := hacyclic.mp h
    exact ⟨f, returnsAt_of_within htidy hf⟩

/-- `/` holds the directory `a`, which holds the link `up` to `/`. -/
def looped : FileSystem (Fin 2) where
  root := 0
  parent := ![0, 0]
  entries := ![[("a", .dir 1)], [("up", .link (some (.dir 0)))]]
  readdir := ![[".", "..", "a"], [".", "..", "up"]]
  readable := fun _ => true
  searchable := fun _ => true
  height := ![1, 0]
  parent_root := rfl
  entries_nodup := by decide
  entries_ne_dots := by decide
  entries_part := by decide
  parent_of_mem := by
    intro d name d' h
    fin_cases d <;> simp at h
    simp [h]
  name_unique := by
    intro d name name' d' h h'
    fin_cases d <;> simp at h h'
    simp [h, h']
  height_lt := by
    intro d name d' h
    fin_cases d <;> simp at h
    simp [h]
  readdir_perm := by decide

/-- `printdir("a")` goes down through the link without end, and so does `printdir("/")`. -/
theorem linkUpwards : ¬ Returns looped 0 "a" 0 ∧ ¬ Returns looped 0 "/" 0 := by
  have hdown : Calls looped (0, "a") (1, "up") :=
    ⟨1, ⟨by decide, rfl, rfl⟩, [".", ".."], [], 1, 0, [], rfl, rfl⟩
  have hback : Calls looped (1, "up") (0, "a") :=
    ⟨0, ⟨by decide, rfl, rfl⟩, [".", ".."], [], 1, 0, [], rfl, rfl⟩
  have hroot : Calls looped (0, "/") (0, "a") :=
    ⟨0, ⟨by decide, FileSystem.stat_root 0, rfl⟩, [".", ".."], [], 1, 0, [], rfl, rfl⟩
  have hcycle : TransGen (Calls looped) (0, "a") (0, "a") := .head hdown (.single hback)
  refine ⟨fun hreturns => ?_, fun hreturns => ?_⟩
  · exact (returns_iff_calls looped (0, "a") 0).mp hreturns (0, "a") .refl hcycle
  · exact (returns_iff_calls looped (0, "/") 0).mp hreturns (0, "a") (.single hroot) hcycle

/-- The calls that lead on from `printdir("a")` all come back or lead in a circle. -/
theorem tidy_looped : Tidy looped (0, "a") := by
  have hreach : ∀ k, ReflTransGen (Leads looped) (0, "a") k →
      k ∈ [(0, "a"), (1, "up"), (0, "."), (0, ".."), (1, "."), (1, "..")] :=
    fun k => mem_of_reach (by decide) (by decide)
  have hdown : Leads looped (0, "a") (1, "up") := mem_led.mp (by decide)
  have hback : Leads looped (1, "up") (0, "a") := mem_led.mp (by decide)
  intro k hk hacyclic
  have hdots : k.2 = "." ∨ k.2 = ".." → Undone looped k :=
    fun hdots d hd => absurd hdots hd.ne_dots
  simp only [List.mem_cons, List.not_mem_nil, or_false] at hreach
  rcases hreach k hk with rfl | rfl | rfl | rfl | rfl | rfl
  · exact absurd (.head hdown (.single hback)) (hacyclic _ .refl)
  · exact absurd (.head hback (.single hdown)) (hacyclic _ .refl)
  · exact hdots (.inl rfl)
  · exact hdots (.inr rfl)
  · exact hdots (.inl rfl)
  · exact hdots (.inr rfl)

theorem returns_iff_looped : Returns looped 0 "a" 4 ↔
    ∀ k, ReflTransGen (Leads looped) (0, "a") k → ¬ TransGen (Leads looped) k k :=
  returns_iff looped (0, "a") tidy_looped 4

/-- `/` holds the directories `a`, `b` and `c`.  In `a` and in `c` the link `l` leads to `b`, which
is empty, so that the walk comes back to `/` and looks up the next name there: in `a` the file
`a`, in `c` the link `up` to `/`. -/
def drifting : FileSystem (Fin 4) where
  root := 0
  parent := ![0, 0, 0, 0]
  entries := ![[("a", .dir 1), ("b", .dir 2), ("c", .dir 3)],
    [("l", .link (some (.dir 2))), ("a", .file)], [],
    [("l", .link (some (.dir 2))), ("up", .link (some (.dir 0)))]]
  readdir := ![[".", "..", "a", "b", "c"], [".", "..", "l", "a"], [".", ".."],
    [".", "..", "l", "up"]]
  readable := fun _ => true
  searchable := fun _ => true
  height := ![1, 0, 0, 0]
  parent_root := rfl
  entries_nodup := by decide
  entries_ne_dots := by decide
  entries_part := by decide
  parent_of_mem := by
    intro d name d' h
    fin_cases d <;> simp at h
    rcases h with h | h | h <;> simp [h]
  name_unique := by
    intro d name name' d' h h'
    fin_cases d <;> simp at h h'
    rcases h with h | h | h <;> rcases h' with h' | h' | h' <;> simp_all
  height_lt := by
    intro d name d' h
    fin_cases d <;> simp at h
    rcases h with h | h | h <;> simp [h]
  readdir_perm := by decide

/-- Where the walk drifts, it can go in a circle that the file system does not have, and miss one
that it has. -/
theorem drifting_walks :
    (Acyclic drifting (0, "a") ∧ ¬ Returns drifting 0 "a" 0) ∧
    ¬ Acyclic drifting (0, "c") ∧ Returns drifting 0 "c" 0 := by
  refine ⟨⟨acyclic_iff.mpr ⟨3, by decide⟩, fun hreturns => ?_⟩, fun hacyclic => ?_, 3, rfl⟩
  · have hagain : Calls drifting (0, "a") (0, "a") :=
      ⟨1, ⟨by decide, rfl, rfl⟩, [".", "..", "l"], [], 2, 0, _, rfl, rfl⟩
    exact (returns_iff_calls drifting (0, "a") 0).mp hreturns (0, "a") .refl (.single hagain)
  · have hdown : Leads drifting (0, "c") (3, "up") := mem_led.mp (by decide)
    have hback : Leads drifting (3, "up") (0, "c") := mem_led.mp (by decide)
    exact hacyclic (0, "c") .refl (.head hdown (.single hback))

end LinuxProgramming.PrintDir
