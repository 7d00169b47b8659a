import LinuxProgramming.PrintDir.Termination
import Mathlib.Data.Fin.VecNotation
import Mathlib.Logic.Relation
import Mathlib.Tactic.FinCases

/-! # The working directory after `printdir`

`printdir` goes down by `chdir(dirname)` and comes back by `chdir("..")`, and looks at neither
result.  It comes back to where it was called if the two undo each other, and `restores_iff` says
that nothing else is needed and nothing less is enough: in the course of a call, every call that
returns has restored the working directory exactly if the two undo each other wherever a
directory is opened.  Where, moreover, every directory that lists a name is entered, and only
there, every name is looked up in the directory that listed it.  Which calls are made in the
course of a call that returns can then be read from the file system (`Leads`). -/

namespace LinuxProgramming.PrintDir

open Relation

variable {D : Type} {fs : FileSystem D}

/-- The names that the call lists are looked up in the directory that listed them. -/
def InPlace (fs : FileSystem D) (k : D × String) : Prop :=
  ∀ d k', CallsFrom fs d k k' → ¬ (k'.2 = "." ∨ k'.2 = "..") → k'.1 = d

/-- If the call opens a directory and returns, then changing to the name is undone by `..`. -/
def RoundTrip (fs : FileSystem D) (k : D × String) : Prop :=
  ∀ n d, Opens fs k.1 k.2 d → Returns fs k.1 k.2 n → fs.chdirUp (fs.chdir k.1 k.2) = k.1

/-- If the call opens a directory that has entries, then it changes to it. -/
def Enters (fs : FileSystem D) (k : D × String) : Prop :=
  ∀ d, Opens fs k.1 k.2 d → fs.entries d ≠ [] → fs.chdir k.1 k.2 = d

/-! ### One call -/

/-- Changing to a name is undone by `..` where the directory that is opened can be entered and its
physical parent is the one that was left, or where neither `chdir` leads anywhere else. -/
theorem chdirUp_chdir_iff {cwd d : D} {name : String} (h : Opens fs cwd name d) :
    fs.chdirUp (fs.chdir cwd name) = cwd ↔
      fs.searchable d = true ∧ fs.parent d = cwd ∧ fs.searchable cwd = true ∨
      fs.searchable d = true ∧ d = cwd ∧ fs.searchable (fs.parent d) = false ∨
      fs.searchable d = false ∧ (fs.parent cwd = cwd ∨ fs.searchable (fs.parent cwd) = false ∨
        fs.searchable cwd = false) := by
  unfold FileSystem.chdir
  simp only [h.stat, FileSystem.chdirUp_eq]
  grind

/-- The loop of a call ends where it began, if the calls that it makes restore the working
directory. -/
theorem cwd_of_loop {k : D × String} {d : D} (hd : Opens fs k.1 k.2 d) {depth : ℕ}
    (hcalls : ∀ item, Calls fs k (fs.chdir k.1 k.2, item) → ∀ n r,
      printdir fs depth (fs.chdir k.1 k.2) item n = some r → r.1 = fs.chdir k.1 k.2)
    {items rest : List String} (hitems : fs.readdir d = items ++ rest) {n : BitVec 32}
    {r : D × List (Output D)}
    (h : printItems (fun cwd item => printdir fs depth cwd item n) (fs.chdir k.1 k.2) items =
      some r) : r.1 = fs.chdir k.1 k.2 := by
  refine cwd_of_printItems rest (fun pre item post out r heq hpre hr => ?_) h
  exact hcalls item ⟨d, hd, pre, post, depth, n, out, hitems.trans heq, hpre⟩ n r hr

/-- A call that opens a directory goes through the loop, and then to `..`. -/
theorem loop_of_printdir {k : D × String} {d : D} (hd : Opens fs k.1 k.2 d) {depth : ℕ}
    {n : BitVec 32} {r : D × List (Output D)} (h : printdir fs depth k.1 k.2 n = some r) :
    ∃ depth' r', depth = depth' + 1 ∧
      printItems (fun cwd item => printdir fs depth' cwd item (n + 2)) (fs.chdir k.1 k.2)
        (fs.readdir d) = some r' ∧ r.1 = fs.chdirUp r'.1 := by
  rcases depth with _ | depth
  · exact absurd h (by simp [printdir])
  · rw [printdir_of_opens hd] at h
    obtain ⟨r', hr', rfl⟩ := Option.map_eq_some_iff.mp h
    exact ⟨depth, r', rfl, hr', rfl⟩

/-- A call that restores the working directory, and whose own calls do, has made a round trip. -/
theorem roundTrip_of_restores {k : D × String} (h : Restores fs k)
    (hcalls : ∀ k', Calls fs k k' → Restores fs k') : RoundTrip fs k := by
  rintro n d hd ⟨depth, hreturns⟩
  obtain ⟨r, hr⟩ := Option.isSome_iff_exists.mp hreturns
  obtain ⟨depth, r', rfl, hloop, hcwd⟩ := loop_of_printdir hd hr
  have hend : r'.1 = fs.chdir k.1 k.2 :=
    cwd_of_loop hd (fun item hcall n r => hcalls _ hcall n depth r)
      (List.append_nil _).symm hloop
  calc fs.chdirUp (fs.chdir k.1 k.2) = fs.chdirUp r'.1 := by rw [hend]
    _ = r.1 := hcwd.symm
    _ = k.1 := h n _ r hr

/-- A loop over `.` and `..` goes nowhere. -/
theorem printItems_dots (depth : ℕ) (cwd : D) (n : BitVec 32) {items : List String}
    (h : ∀ item ∈ items, item = "." ∨ item = "..") :
    printItems (fun cwd item => printdir fs (depth + 1) cwd item n) cwd items = some (cwd, []) := by
  induction items with
  | nil => rfl
  | cons item items ih =>
      have hitem : printdir fs (depth + 1) cwd item n = some (cwd, []) := by
        simp only [printdir, if_pos (h item List.mem_cons_self)]
      simp only [printItems, hitem, Option.bind_some,
        ih fun item hmem => h item (List.mem_cons_of_mem _ hmem), Option.map_some,
        List.append_nil]

/-- A directory that lists a name is entered, if the name is looked up in it. -/
theorem enters_of_inPlace {k : D × String} (h : InPlace fs k) : Enters fs k := by
  intro d hd hentries
  obtain ⟨e, he⟩ := List.exists_mem_of_ne_nil _ hentries
  have hlisted : e.1 ∈ fs.readdir d :=
    (fs.readdir_perm d).mem_iff.mpr (by simp [List.mem_map_of_mem he])
  -- the first name that is not skipped
  have hfind : ((fs.readdir d).find? fun item => decide ¬ (item = "." ∨ item = "..")).isSome := by
    rw [List.find?_isSome]
    refine ⟨e.1, hlisted, decide_eq_true ?_⟩
    have hne := fs.entries_ne_dots d e he
    tauto
  obtain ⟨item, hitem⟩ := Option.isSome_iff_exists.mp hfind
  obtain ⟨hne, pre, post, hsplit, hpre⟩ := List.find?_eq_some_iff_append.mp hitem
  have hdots : ∀ i ∈ pre, i = "." ∨ i = ".." := by
    intro i hi
    simpa using hpre i hi
  exact h d (fs.chdir k.1 k.2, item)
    ⟨hd, pre, post, 1, 0, [], hsplit, printItems_dots 0 _ _ hdots⟩ (of_decide_eq_true hne)

theorem inPlace_of_enters {k : D × String} (h : Enters fs k)
    (hcalls : ∀ k', Calls fs k k' → Restores fs k') : InPlace fs k := by
  rintro d k' ⟨hd, pre, post, depth, n, out, hsplit, hpre⟩ hne
  have hwhere : k'.1 = fs.chdir k.1 k.2 :=
    cwd_of_loop hd (fun item hcall n r => hcalls _ hcall n depth r) hsplit hpre
  have hlisted : k'.2 ∈ fs.readdir d := by simp [hsplit]
  have hentries : fs.entries d ≠ [] := by
    intro hnil
    have hmem := (fs.readdir_perm d).mem_iff.mp hlisted
    simp only [hnil, List.map_nil, List.mem_cons, List.not_mem_nil, or_false] at hmem
    exact hne hmem
  rw [hwhere, h d hd hentries]

/-! ### Every call in the course of a call -/

/-- Round trips everywhere inside a call restore the working directory. -/
theorem restores_of_roundTrips {k : D × String}
    (h : ∀ k', ReflTransGen (Calls fs) k k' → RoundTrip fs k') : Restores fs k := by
  intro n depth r hr
  induction depth generalizing k n r with
  | zero => exact absurd hr (by simp [printdir])
  | succ depth ih =>
      by_cases hopens : ∃ d, Opens fs k.1 k.2 d
      · obtain ⟨d, hd⟩ := hopens
        obtain ⟨_, r', heq, hloop, hcwd⟩ := loop_of_printdir hd hr
        obtain rfl := Nat.succ.inj heq
        have hend : r'.1 = fs.chdir k.1 k.2 := by
          refine cwd_of_loop hd (fun item hcall n r hr => ?_) (List.append_nil _).symm hloop
          exact ih (k := (fs.chdir k.1 k.2, item)) (fun k' hk' => h k' (.head hcall hk')) n r hr
        rw [hcwd, hend]
        exact h k .refl n d hd ⟨depth + 1, by simp [hr]⟩
      · obtain ⟨out, hout⟩ := printdir_of_not_opens (not_exists.mp hopens) n
        rw [hout] at hr
        obtain rfl := Option.some.inj hr
        rfl

/-! ### What the file system says -/

/-- Where the file system says of all calls that they are undone, they restore the working
directory. -/
theorem restores_of_undone {k : D × String}
    (h : ∀ k', ReflTransGen (Leads fs) k k' → Undone fs k') : Restores fs k := by
  intro n depth r hr
  induction depth generalizing k n r with
  | zero => exact absurd hr (by simp [printdir])
  | succ depth ih =>
      by_cases hopens : ∃ d, Opens fs k.1 k.2 d
      · obtain ⟨d, hd⟩ := hopens
        rw [printdir_of_opens hd] at hr
        obtain ⟨r', hloop, rfl⟩ := Option.map_eq_some_iff.mp hr
        have hend := loop_end (fun item hitem r hr => ih (k := (fs.chdir k.1 k.2, item))
          (fun k' hk' => h k' (.head ⟨d, hd, rfl, hitem⟩ hk')) _ r hr)
          (List.append_nil _).symm hloop
        show fs.chdirUp r'.1 = k.1
        rw [hend]
        exact h k .refl d hd
      · obtain ⟨out, hout⟩ := printdir_of_not_opens (not_exists.mp hopens) n
        rw [hout] at hr
        obtain rfl := Option.some.inj hr
        rfl

theorem leads_of_undone {k k' : D × String}
    (h : ∀ k', ReflTransGen (Leads fs) k k' → Undone fs k') (hk' : ReflTransGen (Calls fs) k k') :
    ReflTransGen (Leads fs) k k' := by
  induction hk' with
  | refl => exact .refl
  | tail _ hcall ih =>
      refine ih.tail (leads_of_calls (fun k'' hk'' => ?_) hcall)
      exact restores_of_undone fun _ hreach => h _ ((ih.tail hk'').trans hreach)

/-- A call that returns has made all the calls that the file system says, if those it has made
restore the working directory. -/
theorem calls_of_leads {k k' : D × String} {n : BitVec 32} (hreturns : Returns fs k.1 k.2 n)
    (h : ∀ k'', Calls fs k k'' → Restores fs k'') (hk' : Leads fs k k') : Calls fs k k' := by
  obtain ⟨depth, hreturns⟩ := hreturns
  obtain ⟨r, hr⟩ := Option.isSome_iff_exists.mp hreturns
  obtain ⟨d, hd, hcwd, hlisted⟩ := hk'
  obtain ⟨depth, r', rfl, hloop, -⟩ := loop_of_printdir hd hr
  obtain ⟨pre, post, hsplit⟩ := List.append_of_mem hlisted
  rw [hsplit, printItems_append] at hloop
  obtain ⟨⟨cwd, out⟩, hpre, -⟩ := Option.bind_eq_some_iff.mp hloop
  have hend : cwd = fs.chdir k.1 k.2 :=
    cwd_of_loop hd (fun item hcall n r => h _ hcall n depth r) hsplit hpre
  rw [hend, ← hcwd] at hpre
  exact ⟨d, hd, pre, post, depth, n + 2, out, hsplit, hcwd ▸ hpre⟩

theorem returns_of_calls {k k' : D × String} {n : BitVec 32} (hreturns : Returns fs k.1 k.2 n)
    (hcall : Calls fs k k') : Returns fs k'.1 k'.2 n := by
  obtain ⟨depth, hdepth⟩ := (returns_iff_returnsAt n).mp hreturns
  rcases depth with _ | depth
  · exact absurd hdepth ((depth_returnsAt fs).zero k)
  · exact (returns_iff_returnsAt n).mpr ⟨depth, returnsAt_of_calls hdepth hcall⟩

/-- In the course of a call that returns, and that restores the working directory throughout,
exactly those calls are made that the file system says. -/
theorem reach_of_leads {k k' : D × String} {n : BitVec 32} (hreturns : Returns fs k.1 k.2 n)
    (h : ∀ k', ReflTransGen (Calls fs) k k' → Restores fs k')
    (hk' : ReflTransGen (Leads fs) k k') :
    ReflTransGen (Calls fs) k k' ∧ Returns fs k'.1 k'.2 n := by
  induction hk' with
  | refl => exact ⟨.refl, hreturns⟩
  | tail _ hlead ih =>
      have hcall := calls_of_leads ih.2 (fun k'' hk'' => h k'' (ih.1.tail hk'')) hlead
      exact ⟨ih.1.tail hcall, returns_of_calls ih.2 hcall⟩

/-- **The working directory.**  In the course of a call, all calls restore the working directory
exactly if the round trips of those that return lead back, and moreover look up the names in the
directory that listed them exactly if the directories are entered.  Of a call that returns the
file system alone says whether it is so, and where it says so of any call, it is. -/
theorem restores_iff (fs : FileSystem D) (k : D × String) :
    ((∀ k', ReflTransGen (Calls fs) k k' → Restores fs k') ↔
      ∀ k', ReflTransGen (Calls fs) k k' → RoundTrip fs k') ∧
    ((∀ k', ReflTransGen (Calls fs) k k' → Restores fs k' ∧ InPlace fs k') ↔
      ∀ k', ReflTransGen (Calls fs) k k' → RoundTrip fs k' ∧ Enters fs k') ∧
    ((∀ k', ReflTransGen (Leads fs) k k' → Undone fs k') →
      ∀ k', ReflTransGen (Calls fs) k k' → Restores fs k') ∧
    (∀ n, Returns fs k.1 k.2 n →
      ((∀ k', ReflTransGen (Calls fs) k k' → Restores fs k') ↔
        ∀ k', ReflTransGen (Leads fs) k k' → Undone fs k') ∧
      ((∀ k', ReflTransGen (Calls fs) k k' → Restores fs k' ∧ InPlace fs k') ↔
        ∀ k', ReflTransGen (Leads fs) k k' → Undone fs k' ∧ Enters fs k')) := by
  have hrestores : (∀ k', ReflTransGen (Calls fs) k k' → RoundTrip fs k') →
      ∀ k', ReflTransGen (Calls fs) k k' → Restores fs k' := by
    intro h k' hk'
    exact restores_of_roundTrips fun k'' hk'' => h k'' (hk'.trans hk'')
  have htrips : (∀ k', ReflTransGen (Calls fs) k k' → Restores fs k') →
      ∀ k', ReflTransGen (Calls fs) k k' → RoundTrip fs k' := by
    intro h k' hk'
    exact roundTrip_of_restores (h k' hk') fun k'' hcall => h k'' (hk'.tail hcall)
  have hundone : (∀ k', ReflTransGen (Leads fs) k k' → Undone fs k') →
      ∀ k', ReflTransGen (Calls fs) k k' → Restores fs k' := by
    intro h k' hk'
    exact restores_of_undone fun k'' hk'' => h k'' ((leads_of_undone h hk').trans hk'')
  have hstatic : ∀ n, Returns fs k.1 k.2 n → (∀ k', ReflTransGen (Calls fs) k k' → Restores fs k') →
      ∀ k', ReflTransGen (Leads fs) k k' → Undone fs k' := by
    intro n hreturns h k' hk' d hd
    obtain ⟨hreach, hreturns'⟩ := reach_of_leads hreturns h hk'
    exact htrips h k' hreach n d hd hreturns'
  refine ⟨⟨htrips, hrestores⟩, ⟨fun h k' hk' => ?_, fun h k' hk' => ?_⟩, hundone,
    fun n hreturns => ⟨⟨hstatic n hreturns, hundone⟩, fun h k' hk' => ?_, fun h k' hk' => ?_⟩⟩
  · exact ⟨htrips (fun k'' hk'' => (h k'' hk'').1) k' hk', enters_of_inPlace (h k' hk').2⟩
  · have hall := hrestores fun k'' hk'' => (h k'' hk'').1
    exact ⟨hall k' hk', inPlace_of_enters (h k' hk').2 fun k'' hcall => hall k'' (hk'.tail hcall)⟩
  · have hall : ∀ k'', ReflTransGen (Calls fs) k k'' → Restores fs k'' :=
      fun k'' hk'' => (h k'' hk'').1
    obtain ⟨hreach, -⟩ := reach_of_leads hreturns hall hk'
    exact ⟨hstatic n hreturns hall k' hk', enters_of_inPlace (h k' hreach).2⟩
  · have hall := hundone fun k'' hk'' => (h k'' hk'').1
    have hlead := leads_of_undone (fun k'' hk'' => (h k'' hk'').1) hk'
    exact ⟨hall k' hk',
      inPlace_of_enters (h k' hlead).2 fun k'' hcall => hall k'' (hk'.tail hcall)⟩

/-- `/` holds the directory `a` and the link `l` to the directory `a/b`. -/
def linked : FileSystem (Fin 3) where
  root := 0
  parent := ![0, 0, 1]
  entries := ![[("a", .dir 1), ("l", .link (some (.dir 2)))], [("b", .dir 2)], []]
  readdir := ![[".", "..", "a", "l"], [".", "..", "b"], [".", ".."]]
  readable := fun _ => true
  searchable := fun _ => true
  height := ![2, 1, 0]
  parent_root := rfl
  entries_nodup := by decide
  entries_ne_dots := by decide
  entries_part := by decide
  parent_of_mem := by
    intro d name d' h
    fin_cases d <;> simp at h <;> simp [h]
  name_unique := by
    intro d name name' d' h h'
    fin_cases d <;> simp at h h' <;> simp [h, h']
  height_lt := by
    intro d name d' h
    fin_cases d <;> simp at h <;> simp [h]
  readdir_perm := by decide

/-- After `printdir("l")` the walk goes on in `a`. -/
theorem linkLeadsAway : ¬ Restores linked (0, "l") := by
  intro h
  have hcwd : (1 : Fin 3) = 0 := h 0 2 (1, [.line 0 0 "l"]) rfl
  exact absurd hcwd (by decide)

end LinuxProgramming.PrintDir
