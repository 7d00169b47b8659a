import LinuxProgramming.HeapTree
import LinuxProgramming.RandomTree.NodeLimit

/-! # Trees of the tests in memory

The functions of Chapter 10 that make, compare and destroy trees, on nodes in memory.

* A node is read or written only while it is allocated; where the code would go on with a null
  pointer or a node that has been freed, the functions here fail.  A recursion is given a bound on
  the depth of nested calls and fails where it goes deeper, except in `generate_tree`, which has
  its own.
* `malloc` may return any address that is not in use, with anything in it, or fail.
* `destroy_tree` is right exactly for trees that share no node (`destroy_iff`), `is_same_tree`
  finds two trees equal exactly if they are, shared nodes or not (`same_iff`), and what
  `generate_tree` has made is given back by `destroy_tree` to the last node
  (`generate_destroy`). -/

namespace LinuxProgramming.RandomTree.InMemory

/-! ### The functions -/

/-- What `malloc` does when there have been `i` calls of `rand()`: an address with what lies
there. -/
structure Malloc where
  call : Memory ℤ → ℕ → Option (ℕ × Cell ℤ)
  unused : ∀ h i a junk, call h i = some (a, junk) → h a = none

/-- Write to a node. -/
def write (h : Memory ℤ) (a : ℕ) (f : Cell ℤ → Cell ℤ) : Option (Memory ℤ) :=
  (h a).map fun c => Function.update h a (some (f c))

/-- `generate_tree_internal`: the root, the memory and the number of the next call of `rand()`. -/
def generateTreeInternal (m : Malloc) (randomDegree : ℕ) (rand : ℕ → ℕ) (nodeCount : ℕ)
    (h : Memory ℤ) (i : ℕ) : Option (Option ℕ × Memory ℤ × ℕ) :=
  if nodeCount > maxRandomTreeNode then some (none, h, i)
  else if rand i % randomDegree = 0 then some (none, h, i + 1)
  else
    (m.call h (i + 1)).bind fun (root, junk) =>
    (write (Function.update h root (some junk)) root fun c => { c with data := rand (i + 1) }).bind
      fun h =>
    (generateTreeInternal m randomDegree rand (nodeCount + 1) h (i + 2)).bind fun (left, h, i) =>
    (write h root fun c => { c with left := left }).bind fun h =>
    (generateTreeInternal m randomDegree rand (nodeCount + 1) h i).bind fun (right, h, i) =>
    (write h root fun c => { c with right := right }).map fun h => (some root, h, i)
termination_by maxRandomTreeNode + 1 - nodeCount

/-- `generate_tree`. -/
def generateTree (m : Malloc) (randomDegree : ℕ) (rand : ℕ → ℕ) (h : Memory ℤ) :
    Option (Option ℕ × Memory ℤ) :=
  if randomDegree < 2 then some (none, h)
  else (generateTreeInternal m randomDegree rand 0 h 0).map fun r => (r.1, r.2.1)

/-- The calls of `malloc` that `generate_tree_internal` makes, up to one that fails: the memory that
a call finds and how many calls of `rand()` there have been. -/
def mallocsInternal (m : Malloc) (randomDegree : ℕ) (rand : ℕ → ℕ) (nodeCount : ℕ)
    (h : Memory ℤ) (i : ℕ) : List (Memory ℤ × ℕ) :=
  if nodeCount > maxRandomTreeNode then []
  else if rand i % randomDegree = 0 then []
  else
    (h, i + 1) :: (m.call h (i + 1)).elim [] fun (root, junk) =>
      let h := Function.update h root (some { junk with data := rand (i + 1) })
      mallocsInternal m randomDegree rand (nodeCount + 1) h (i + 2) ++
        (generateTreeInternal m randomDegree rand (nodeCount + 1) h (i + 2)).elim []
          fun (left, h, i) => (write h root fun c => { c with left := left }).elim [] fun h =>
            mallocsInternal m randomDegree rand (nodeCount + 1) h i
termination_by maxRandomTreeNode + 1 - nodeCount

/-- The calls of `malloc` in `generate_tree`. -/
def mallocs (m : Malloc) (randomDegree : ℕ) (rand : ℕ → ℕ) (h : Memory ℤ) :
    List (Memory ℤ × ℕ) :=
  if randomDegree < 2 then [] else mallocsInternal m randomDegree rand 0 h 0

/-- `is_same_tree`. -/
def isSameTree : ℕ → Memory ℤ → Option ℕ → Option ℕ → Option Bool
  | 0, _, _, _ => none
  | _ + 1, _, none, none => some true
  | _ + 1, _, none, some _ => some false
  | _ + 1, _, some _, none => some false
  | depth + 1, h, some root1, some root2 =>
      (h root1).bind fun c1 => (h root2).bind fun c2 =>
      if c1.data ≠ c2.data then some false
      else
        (isSameTree depth h c1.left c2.left).bind fun same =>
        if same then isSameTree depth h c1.right c2.right else some false

/-- `destroy_tree`, with the calls of `free` that it makes. -/
def destroyTree : ℕ → Memory ℤ → Option ℕ → Option (Memory ℤ × List ℕ)
  | 0, _, _ => none
  | _ + 1, h, none => some (h, [])
  | depth + 1, h, some root =>
      (h root).bind fun c =>
      (destroyTree depth h c.left).bind fun (h, freed) =>
      (h root).bind fun c =>
      (destroyTree depth h c.right).bind fun (h, freed') =>
      (h root).map fun _ => (Function.update h root none, freed ++ freed' ++ [root])

/-! ### `destroy_tree` -/

section destroy
variable {h h' : Memory ℤ} {root : Option ℕ} {freed : List ℕ}

theorem destroyTree_of_holds {t : BinaryTree ℤ} (ht : Holds h root t freed) (hd : freed.Nodup)
    {depth : ℕ} (hdepth : t.height < depth) :
    destroyTree depth h root = some (freeAll h freed, freed) := by
  induction depth generalizing h root t freed with
  | zero => exact absurd hdepth (Nat.not_lt_zero _)
  | succ depth ih =>
      cases ht with
      | nil => rw [freeAll_nil, destroyTree]
      | @node a c left right as bs hc hleft hright =>
          have hheight : left.height ⊔ right.height < depth := Nat.lt_of_succ_lt_succ hdepth
          obtain ⟨habs, -, hroot⟩ := List.nodup_append.mp hd
          obtain ⟨has, hbs, hapart⟩ := List.nodup_append.mp habs
          have ha : a ∉ as ++ bs := fun hmem => hroot a hmem a (List.mem_singleton_self a) rfl
          have hdisjoint : List.Disjoint as bs := fun b hb hb' => hapart b hb b hb' rfl
          have hkept : freeAll h as a = some c := by
            rw [freeAll_of_notMem fun hmem => ha (List.mem_append_left _ hmem), hc]
          have hkept' : freeAll (freeAll h as) bs a = some c := by
            rw [freeAll_of_notMem fun hmem => ha (List.mem_append_right _ hmem), hkept]
          have hdestroyLeft := ih hleft has (lt_of_le_of_lt le_sup_left hheight)
          have hdestroyRight :=
            ih (hright.of_disjoint hdisjoint) hbs (lt_of_le_of_lt le_sup_right hheight)
          simp only [destroyTree, hc, hdestroyLeft, hkept, hdestroyRight, hkept', Option.bind_some,
            Option.map_some]
          rw [freeAll_append, freeAll_append, freeAll_singleton]

theorem holds_of_destroyTree {depth : ℕ} (hs : destroyTree depth h root = some (h', freed)) :
    ∃ t, Holds h root t freed ∧ freed.Nodup ∧ h' = freeAll h freed := by
  induction depth generalizing h h' root freed with
  | zero => cases hs
  | succ depth ih =>
      cases root with
      | none =>
          rw [destroyTree, Option.some.injEq, Prod.mk.injEq] at hs
          obtain ⟨rfl, rfl⟩ := hs
          exact ⟨.nil, .nil, List.nodup_nil, freeAll_nil.symm⟩
      | some a =>
          simp only [destroyTree, Option.bind_eq_some_iff, Option.map_eq_some_iff, Prod.exists,
            Prod.mk.injEq] at hs
          obtain ⟨c, hc, h₁, as, hleft, c₁, hc₁, h₂, bs, hright, c₂, hc₂, rfl, rfl⟩ := hs
          obtain ⟨left, hholdsLeft, has, rfl⟩ := ih hleft
          obtain ⟨hnotLeft, hc₁⟩ := freeAll_eq_some hc₁
          rw [hc, Option.some.injEq] at hc₁
          subst hc₁
          obtain ⟨right, hholdsRight, hbs, rfl⟩ := ih hright
          obtain ⟨hnotRight, -⟩ := freeAll_eq_some hc₂
          obtain ⟨hholdsRight, hdisjoint⟩ := hholdsRight.of_freeAll
          refine ⟨_, .node hc hholdsLeft hholdsRight, ?_, ?_⟩
          · refine List.nodup_append.mpr ⟨List.nodup_append.mpr ⟨has, hbs, ?_⟩,
              List.nodup_singleton a, ?_⟩
            · rintro b hb _ hb' rfl
              exact hdisjoint hb hb'
            · rintro b hb _ hb' rfl
              rw [List.mem_singleton.mp hb'] at hb
              exact (List.mem_append.mp hb).elim hnotLeft hnotRight
          · rw [freeAll_append, freeAll_append, freeAll_singleton]

/-- **`destroy_tree`.**  The call returns exactly for a tree whose nodes are all its own; then it
has freed each of them once, children first, and nothing else. -/
theorem destroy_iff (h : Memory ℤ) (root : Option ℕ) (h' : Memory ℤ) (freed : List ℕ) :
    (∃ depth, destroyTree depth h root = some (h', freed)) ↔
      ∃ t, Holds h root t freed ∧ freed.Nodup ∧ h' = freeAll h freed := by
  constructor
  · rintro ⟨depth, hs⟩
    exact holds_of_destroyTree hs
  · rintro ⟨t, ht, hd, rfl⟩
    exact ⟨t.height + 1, destroyTree_of_holds ht hd (Nat.lt_succ_self _)⟩

end destroy

/-! ### `is_same_tree` -/

section same
variable {h : Memory ℤ} {root1 root2 : Option ℕ}

theorem isSameTree_of_holds {t u : BinaryTree ℤ} {as bs : List ℕ} (ht : Holds h root1 t as)
    (hu : Holds h root2 u bs) {depth : ℕ} (hdepth : t.height < depth) :
    isSameTree depth h root1 root2 = some (decide (t = u)) := by
  induction depth generalizing root1 root2 t u as bs with
  | zero => exact absurd hdepth (Nat.not_lt_zero _)
  | succ depth ih =>
      cases ht with
      | nil =>
          cases hu with
          | nil => rfl
          | node => rfl
      | @node a c left right as bs hc hleft hright =>
          cases hu with
          | nil => rfl
          | @node b d left' right' as' bs' hd hleft' hright' =>
              have hheight : left.height ⊔ right.height < depth := Nat.lt_of_succ_lt_succ hdepth
              have hsameLeft := ih hleft hleft' (lt_of_le_of_lt le_sup_left hheight)
              have hsameRight := ih hright hright' (lt_of_le_of_lt le_sup_right hheight)
              simp only [isSameTree, hc, hd, hsameLeft, hsameRight, Option.bind_some]
              by_cases hdata : c.data = d.data
              · by_cases hsame : left = left'
                · simp [hdata, hsame]
                · simp [hsame]
              · simp [hdata]

theorem holds_of_isSameTree {depth : ℕ} (hs : isSameTree depth h root1 root2 = some true) :
    ∃ t as bs, Holds h root1 t as ∧ Holds h root2 t bs := by
  induction depth generalizing root1 root2 with
  | zero => cases hs
  | succ depth ih =>
      cases root1 with
      | none =>
          cases root2 with
          | none => exact ⟨.nil, [], [], .nil, .nil⟩
          | some => cases hs
      | some a =>
          cases root2 with
          | none => cases hs
          | some b =>
              simp only [isSameTree, Option.bind_eq_some_iff] at hs
              obtain ⟨c, hc, d, hd, hs⟩ := hs
              split at hs
              · cases hs
              · next hdata =>
                  obtain ⟨same, hleft, hs⟩ := Option.bind_eq_some_iff.mp hs
                  cases same with
                  | false => cases hs
                  | true =>
                      obtain ⟨left, as, bs, hleft, hleft'⟩ := ih hleft
                      obtain ⟨right, as', bs', hright, hright'⟩ := ih hs
                      have hsecond := Holds.node hd hleft' hright'
                      rw [← not_not.mp hdata] at hsecond
                      exact ⟨_, _, _, .node hc hleft hright, hsecond⟩

/-- **`is_same_tree`.**  The call says yes exactly if the memory reads as one and the same tree
from both roots, and for any two trees, which may share nodes, it returns whether they are
equal. -/
theorem same_iff (h : Memory ℤ) (root1 root2 : Option ℕ) :
    ((∃ depth, isSameTree depth h root1 root2 = some true) ↔
      ∃ t as bs, Holds h root1 t as ∧ Holds h root2 t bs) ∧
    ∀ t u as bs, Holds h root1 t as → Holds h root2 u bs →
      ∃ depth, isSameTree depth h root1 root2 = some (decide (t = u)) := by
  have hholds : ∀ t u as bs, Holds h root1 t as → Holds h root2 u bs →
      ∃ depth, isSameTree depth h root1 root2 = some (decide (t = u)) :=
    fun t u as bs ht hu => ⟨t.height + 1, isSameTree_of_holds ht hu (Nat.lt_succ_self _)⟩
  refine ⟨⟨fun ⟨depth, hs⟩ => holds_of_isSameTree hs, ?_⟩, hholds⟩
  rintro ⟨t, as, bs, ht, hu⟩
  obtain ⟨depth, hs⟩ := hholds t t as bs ht hu
  exact ⟨depth, hs.trans (by rw [decide_eq_true rfl])⟩

end same

/-! ### `generate_tree` -/

/-- The tree that the model of `generate_tree` without memory makes. -/
def tree : TreeNode → BinaryTree ℤ
  | .null => .nil
  | .node data left right => .node data (tree left) (tree right)

theorem numNodes_tree (t : TreeNode) : (tree t).numNodes = t.size := by
  induction t with
  | null => rfl
  | node data left right ihleft ihright =>
      rw [tree, BinaryTree.numNodes, ihleft, ihright]
      rfl

/-- A tree of nodes that were not in use has been added to the memory. -/
structure Made (h : Memory ℤ) (root : Option ℕ) (t : BinaryTree ℤ) (h' : Memory ℤ)
    (as : List ℕ) : Prop where
  holds : Holds h' root t as
  nodup : as.Nodup
  unused : ∀ a ∈ as, h a = none
  frame : ∀ a ∉ as, h' a = h a

theorem Made.nil (h : Memory ℤ) : Made h none .nil h [] :=
  ⟨.nil, List.nodup_nil, fun _ ha => absurd ha List.not_mem_nil, fun _ _ => rfl⟩

section kept
variable {h h' : Memory ℤ} {root : Option ℕ} {t : BinaryTree ℤ} {as : List ℕ} {a : ℕ} {c : Cell ℤ}

theorem Made.notMem (hm : Made h root t h' as) (hc : h a = some c) : a ∉ as := by
  intro hmem
  have hnone := hm.unused a hmem
  rw [hc] at hnone
  cases hnone

/-- What was in use is kept. -/
theorem Made.kept (hm : Made h root t h' as) (hc : h a = some c) : h' a = some c := by
  rw [hm.frame a (hm.notMem hc), hc]

end kept

/-- A node, its left and its right subtree, made one after another. -/
theorem Made.node {h h₂ h₄ : Memory ℤ} {a : ℕ} {data : ℤ} {c : Cell ℤ} {l r : Option ℕ}
    {left right : BinaryTree ℤ} {as bs : List ℕ} (ha : h a = none) (hdata : c.data = data)
    (hleft : Made (Function.update h a (some c)) l left h₂ as)
    (hright : Made (Function.update h₂ a (some { c with left := l })) r right h₄ bs) :
    Made h (some a) (.node data left right)
      (Function.update h₄ a (some { c with left := l, right := r })) (as ++ bs ++ [a]) := by
  have hnotLeft : a ∉ as := hleft.notMem (Function.update_self ..)
  have hnotRight : a ∉ bs := hright.notMem (Function.update_self ..)
  have hne : ∀ {b}, b ∈ as ++ bs → b ≠ a := by
    rintro b hb rfl
    exact (List.mem_append.mp hb).elim hnotLeft hnotRight
  have hdisjoint : ∀ b ∈ as, b ∉ bs := by
    intro b hb hb'
    have hnone := hright.unused b hb'
    rw [Function.update_of_ne (hne (List.mem_append_left _ hb))] at hnone
    have hsome := hleft.holds.isSome b hb
    rw [hnone] at hsome
    cases hsome
  refine ⟨?_, ?_, ?_, ?_⟩
  · subst hdata
    refine .node (c := { c with left := l, right := r }) (Function.update_self ..) ?_ ?_
    · refine hleft.holds.congr fun b hb => ?_
      have hba := hne (List.mem_append_left bs hb)
      rw [Function.update_of_ne hba, hright.frame b (hdisjoint b hb), Function.update_of_ne hba]
    · refine hright.holds.congr fun b hb => ?_
      rw [Function.update_of_ne (hne (List.mem_append_right as hb))]
  · refine List.nodup_append.mpr ⟨List.nodup_append.mpr ⟨hleft.nodup, hright.nodup, ?_⟩,
      List.nodup_singleton a, ?_⟩
    · rintro b hb _ hb' rfl
      exact hdisjoint b hb hb'
    · rintro b hb _ hb' rfl
      exact hne hb (List.mem_singleton.mp hb')
  · intro b hb
    rcases List.mem_append.mp hb with hb | hb
    · have hba := hne hb
      rcases List.mem_append.mp hb with hb | hb
      · have hnone := hleft.unused b hb
        rwa [Function.update_of_ne hba] at hnone
      · have hnone := hright.unused b hb
        rw [Function.update_of_ne hba] at hnone
        by_cases hmem : b ∈ as
        · exact absurd hb (hdisjoint b hmem)
        · rwa [hleft.frame b hmem, Function.update_of_ne hba] at hnone
    · rw [List.mem_singleton.mp hb]
      exact ha
  · intro b hb
    rw [List.mem_append, List.mem_append, not_or, not_or, List.mem_singleton] at hb
    obtain ⟨⟨hbas, hbbs⟩, hba⟩ := hb
    rw [Function.update_of_ne hba, hright.frame b hbbs, Function.update_of_ne hba,
      hleft.frame b hbas, Function.update_of_ne hba]

theorem write_of_some {h : Memory ℤ} {a : ℕ} {c : Cell ℤ} (hc : h a = some c)
    (f : Cell ℤ → Cell ℤ) : write h a f = some (Function.update h a (some (f c))) := by
  unfold write
  rw [hc]
  rfl

section generate
variable {m : Malloc} {randomDegree : ℕ} {rand : ℕ → ℕ}

/-- The functions with and without memory take the same results of `rand()` for the same tree. -/
theorem made_of_generate {k nodeCount : ℕ} (hcount : nodeCount + k = maxRandomTreeNode + 1)
    {h h' : Memory ℤ} {i i' : ℕ} {root : Option ℕ}
    (hs : generateTreeInternal m randomDegree rand nodeCount h i = some (root, h', i')) :
    i' = (RandomTree.generateTreeInternal randomDegree rand nodeCount i).2 ∧
    ∃ as, Made h root (tree (RandomTree.generateTreeInternal randomDegree rand nodeCount i).1)
      h' as := by
  induction k generalizing nodeCount h h' i i' root with
  | zero =>
      rw [generateTreeInternal, if_pos (by omega), Option.some.injEq, Prod.mk.injEq,
        Prod.mk.injEq] at hs
      obtain ⟨rfl, rfl, rfl⟩ := hs
      rw [RandomTree.generateTreeInternal, if_pos (by omega)]
      exact ⟨rfl, [], .nil _⟩
  | succ k ih =>
      have hnext : nodeCount + 1 + k = maxRandomTreeNode + 1 := by omega
      rw [generateTreeInternal, if_neg (by omega)] at hs
      rw [RandomTree.generateTreeInternal, if_neg (by omega)]
      by_cases hzero : rand i % randomDegree = 0
      · rw [if_pos hzero, Option.some.injEq, Prod.mk.injEq, Prod.mk.injEq] at hs
        obtain ⟨rfl, rfl, rfl⟩ := hs
        rw [if_pos hzero]
        exact ⟨rfl, [], .nil _⟩
      · rw [if_neg hzero] at hs
        rw [if_neg hzero]
        obtain ⟨⟨a, junk⟩, hmalloc, hs⟩ := Option.bind_eq_some_iff.mp hs
        have ha := m.unused _ _ _ _ hmalloc
        simp only [write_of_some (Function.update_self ..), Option.bind_some,
          Function.update_idem] at hs
        obtain ⟨⟨l, h₂, i₂⟩, hleft, hs⟩ := Option.bind_eq_some_iff.mp hs
        obtain ⟨rfl, as, hmadeLeft⟩ := ih hnext hleft
        simp only [write_of_some (hmadeLeft.kept (Function.update_self ..)),
          Option.bind_some] at hs
        obtain ⟨⟨r, h₄, i₄⟩, hright, hs⟩ := Option.bind_eq_some_iff.mp hs
        obtain ⟨rfl, bs, hmadeRight⟩ := ih hnext hright
        simp only [write_of_some (hmadeRight.kept (Function.update_self ..)),
          Option.map_some, Option.some.injEq, Prod.mk.injEq] at hs
        obtain ⟨rfl, rfl, rfl⟩ := hs
        exact ⟨rfl, _, Made.node ha rfl hmadeLeft hmadeRight⟩

theorem generateTreeInternal_leaf {nodeCount : ℕ} (hcount : nodeCount ≤ maxRandomTreeNode)
    {i : ℕ} (hzero : rand i % randomDegree = 0) (h : Memory ℤ) :
    generateTreeInternal m randomDegree rand nodeCount h i = some (none, h, i + 1) := by
  rw [generateTreeInternal, if_neg (by omega), if_pos hzero]

/-- The call, once there is memory for the root. -/
theorem generateTreeInternal_node {nodeCount : ℕ} (hcount : nodeCount ≤ maxRandomTreeNode)
    {h : Memory ℤ} {i a : ℕ} {junk : Cell ℤ} (hzero : ¬ rand i % randomDegree = 0)
    (hcall : m.call h (i + 1) = some (a, junk)) :
    let h₁ := Function.update h a (some { junk with data := (rand (i + 1) : ℤ) })
    generateTreeInternal m randomDegree rand nodeCount h i =
      (generateTreeInternal m randomDegree rand (nodeCount + 1) h₁ (i + 2)).bind
        fun (left, h, i) => (write h a fun c => { c with left := left }).bind fun h =>
          (generateTreeInternal m randomDegree rand (nodeCount + 1) h i).bind
            fun (right, h, i) => (write h a fun c => { c with right := right }).map fun h =>
              (some a, h, i) := by
  rw [generateTreeInternal, if_neg (by omega), if_neg hzero, hcall]
  simp only [Option.bind_some, write_of_some (Function.update_self ..), Function.update_idem]

/-- The calls of `malloc`, once there is memory for the root. -/
theorem mallocsInternal_node {nodeCount : ℕ} (hcount : nodeCount ≤ maxRandomTreeNode)
    {h : Memory ℤ} {i a : ℕ} {junk : Cell ℤ} (hzero : ¬ rand i % randomDegree = 0)
    (hcall : m.call h (i + 1) = some (a, junk)) :
    let h₁ := Function.update h a (some { junk with data := (rand (i + 1) : ℤ) })
    mallocsInternal m randomDegree rand nodeCount h i = (h, i + 1) ::
      (mallocsInternal m randomDegree rand (nodeCount + 1) h₁ (i + 2) ++
        (generateTreeInternal m randomDegree rand (nodeCount + 1) h₁ (i + 2)).elim []
          fun (left, h, i) => (write h a fun c => { c with left := left }).elim [] fun h =>
            mallocsInternal m randomDegree rand (nodeCount + 1) h i) := by
  rw [mallocsInternal, if_neg (by omega), if_neg hzero, hcall]
  rfl

/-- The function fails exactly where a call of `malloc` does, and where none does it has called
`malloc` once for each node. -/
theorem mallocs_spec {k nodeCount : ℕ} (hcount : nodeCount + k = maxRandomTreeNode + 1)
    (h : Memory ℤ) (i : ℕ) :
    (generateTreeInternal m randomDegree rand nodeCount h i = none ∧
      ∃ p ∈ mallocsInternal m randomDegree rand nodeCount h i, m.call p.1 p.2 = none) ∨
    ((generateTreeInternal m randomDegree rand nodeCount h i).isSome ∧
      (∀ p ∈ mallocsInternal m randomDegree rand nodeCount h i, (m.call p.1 p.2).isSome) ∧
      (mallocsInternal m randomDegree rand nodeCount h i).length =
        (RandomTree.generateTreeInternal randomDegree rand nodeCount i).1.size) := by
  induction k generalizing nodeCount h i with
  | zero =>
      rw [generateTreeInternal, mallocsInternal, RandomTree.generateTreeInternal]
      simp only [if_pos (show nodeCount > maxRandomTreeNode by omega)]
      exact .inr ⟨rfl, fun p hp => absurd hp List.not_mem_nil, rfl⟩
  | succ k ih =>
      have hnext : nodeCount + 1 + k = maxRandomTreeNode + 1 := by omega
      have hguard : ¬ nodeCount > maxRandomTreeNode := by omega
      by_cases hzero : rand i % randomDegree = 0
      · rw [generateTreeInternal, mallocsInternal, RandomTree.generateTreeInternal]
        simp only [if_neg hguard, if_pos hzero]
        exact .inr ⟨rfl, fun p hp => absurd hp List.not_mem_nil, rfl⟩
      · cases hcall : m.call h (i + 1) with
        | none =>
            rw [generateTreeInternal, mallocsInternal]
            simp only [if_neg hguard, if_neg hzero, hcall]
            exact .inl ⟨rfl, _, List.mem_cons_self, hcall⟩
        | some cell =>
            obtain ⟨a, junk⟩ := cell
            rw [mallocsInternal_node (by omega) hzero hcall,
              generateTreeInternal_node (by omega) hzero hcall,
              RandomTree.generateTreeInternal, if_neg hguard, if_neg hzero]
            set h₁ := Function.update h a (some { junk with data := (rand (i + 1) : ℤ) })
            have hroot : h₁ a = some { junk with data := (rand (i + 1) : ℤ) } :=
              Function.update_self ..
            rcases ih hnext h₁ (i + 2) with ⟨hleft, p, hp, hfails⟩ | ⟨hleft, hall, hlen⟩
            · -- out of memory in the left subtree
              rw [hleft]
              exact .inl ⟨rfl, p, by simp [hp], hfails⟩
            obtain ⟨⟨l, h₂, i₂⟩, hleft⟩ := Option.isSome_iff_exists.mp hleft
            obtain ⟨rfl, as, hmadeLeft⟩ := made_of_generate hnext hleft
            rw [hleft]
            simp only [Option.bind_some, Option.elim_some,
              write_of_some (hmadeLeft.kept hroot)]
            set h₃ := Function.update h₂ a
              (some { data := (rand (i + 1) : ℤ), left := l, right := junk.right })
            have hroot₃ : h₃ a = some ⟨rand (i + 1), l, junk.right⟩ := Function.update_self ..
            rcases ih hnext h₃ (RandomTree.generateTreeInternal randomDegree rand (nodeCount + 1)
              (i + 2)).2 with ⟨hright, p, hp, hfails⟩ | ⟨hright, hall', hlen'⟩
            · -- out of memory in the right subtree
              rw [hright]
              exact .inl ⟨rfl, p, by simp [hp], hfails⟩
            obtain ⟨⟨r, h₄, i₄⟩, hright⟩ := Option.isSome_iff_exists.mp hright
            obtain ⟨rfl, bs, hmadeRight⟩ := made_of_generate hnext hright
            rw [hright]
            simp only [Option.bind_some, write_of_some (hmadeRight.kept hroot₃), Option.map_some]
            refine .inr ⟨rfl, ?_, ?_⟩
            · intro p hp
              rcases List.mem_cons.mp hp with rfl | hp
              · exact Option.isSome_iff_exists.mpr ⟨_, hcall⟩
              · exact (List.mem_append.mp hp).elim (hall p) (hall' p)
            · rw [List.length_cons, List.length_append, hlen, hlen']
              rfl

/-- The guard bounds the depth of the tree. -/
theorem height_tree {k nodeCount : ℕ} (hcount : nodeCount + k = maxRandomTreeNode + 1) (i : ℕ) :
    (tree (RandomTree.generateTreeInternal randomDegree rand nodeCount i).1).height ≤ k := by
  induction k generalizing nodeCount i with
  | zero =>
      rw [RandomTree.generateTreeInternal, if_pos (by omega)]
      exact le_refl 0
  | succ k ih =>
      have hnext : nodeCount + 1 + k = maxRandomTreeNode + 1 := by omega
      rw [RandomTree.generateTreeInternal, if_neg (by omega)]
      split
      · exact Nat.zero_le _
      · exact Nat.succ_le_succ (sup_le (ih hnext _) (ih hnext _))

theorem freeAll_of_made {h h' : Memory ℤ} {root : Option ℕ} {t : BinaryTree ℤ} {as : List ℕ}
    (hm : Made h root t h' as) : freeAll h' as = h := by
  funext a
  by_cases ha : a ∈ as
  · rw [freeAll_of_mem ha, hm.unused a ha]
  · rw [freeAll_of_notMem ha, hm.frame a ha]

end generate

/-- **From `generate_tree` to `destroy_tree`.**  Whatever `malloc` does, a call of `generate_tree`
that returns has added to the memory the tree that `rand()` describes, each node at an address
that was not in use and by a call of `malloc`; `destroy_tree` then calls `free` once for each node,
within the depth that the guard allows, and the memory is as before.  The call fails exactly if one
of its calls of `malloc` does. -/
theorem generate_destroy (m : Malloc) (randomDegree : ℕ) (rand : ℕ → ℕ) (h : Memory ℤ) :
    (∀ root h', generateTree m randomDegree rand h = some (root, h') →
      ∃ freed, Made h root (tree (RandomTree.generateTree randomDegree rand)) h' freed ∧
        freed.length = (RandomTree.generateTree randomDegree rand).size ∧
        (mallocs m randomDegree rand h).length = freed.length ∧
        destroyTree (maxRandomTreeNode + 2) h' root = some (h, freed)) ∧
    (generateTree m randomDegree rand h = none ↔
      ∃ p ∈ mallocs m randomDegree rand h, m.call p.1 p.2 = none) := by
  have hcount : 0 + (maxRandomTreeNode + 1) = maxRandomTreeNode + 1 := Nat.zero_add _
  have hspec := @mallocs_spec m randomDegree rand _ _ hcount h 0
  unfold generateTree mallocs RandomTree.generateTree
  by_cases hdegree : randomDegree < 2
  · simp only [if_pos hdegree]
    refine ⟨fun root h' hs => ?_, ?_⟩
    · rw [Option.some.injEq, Prod.mk.injEq] at hs
      obtain ⟨rfl, rfl⟩ := hs
      exact ⟨[], .nil h, rfl, rfl, rfl⟩
    · exact iff_of_false (Option.some_ne_none _) fun ⟨p, hp, _⟩ => List.not_mem_nil hp
  · simp only [if_neg hdegree, Option.map_eq_none_iff]
    rcases hspec with ⟨hnone, hfails⟩ | ⟨hsome, hall, hlen⟩
    · refine ⟨fun root h' hs => ?_, iff_of_true hnone hfails⟩
      rw [hnone] at hs
      cases hs
    · obtain ⟨⟨root₁, h₁, i⟩, hinternal⟩ := Option.isSome_iff_exists.mp hsome
      obtain ⟨-, freed, hm⟩ := made_of_generate hcount hinternal
      have hheight : (tree (RandomTree.generateTreeInternal randomDegree rand 0 0).1).height <
          maxRandomTreeNode + 2 := Nat.lt_succ_of_le (height_tree hcount 0)
      have hfreed : freed.length =
          (RandomTree.generateTreeInternal randomDegree rand 0 0).1.size := by
        rw [hm.holds.length_eq, numNodes_tree]
      refine ⟨fun root h' hs => ?_, iff_of_false (Option.isSome_iff_ne_none.mp hsome) ?_⟩
      · rw [hinternal, Option.map_some, Option.some.injEq, Prod.mk.injEq] at hs
        obtain ⟨rfl, rfl⟩ := hs
        refine ⟨freed, hm, hfreed, by rw [hlen, hfreed], ?_⟩
        rw [destroyTree_of_holds hm.holds hm.nodup hheight, freeAll_of_made hm]
      · rintro ⟨p, hp, hfails⟩
        have hcall := hall p hp
        rw [hfails] at hcall
        cases hcall

/-- `malloc` in an arena of `n` nodes: the first address that is free. -/
def firstFit (n : ℕ) : Malloc where
  call h _ := ((List.range n).find? fun a => (h a).isNone).map fun a => (a, ⟨0, none, none⟩)
  unused := by
    intro h i a junk hcall
    obtain ⟨b, hb, heq⟩ := Option.map_eq_some_iff.mp hcall
    rw [Prod.mk.injEq] at heq
    obtain ⟨rfl, -⟩ := heq
    have hfree : (h b).isNone = true := List.find?_some (p := fun a => (h a).isNone) hb
    exact Option.isNone_iff_eq_none.mp hfree

/-- Results of `rand()` for a root 7 whose left child is 8. -/
def twoNodes (i : ℕ) : ℕ := [1, 7, 1, 8].getD i 0

section arena
variable {m : Malloc} {h : Memory ℤ} {a b : ℕ}

theorem generateTreeInternal_twoNodes (hab : a ≠ b)
    (hroot : m.call h 1 = some (a, ⟨0, none, none⟩))
    (hleft : m.call (Function.update h a (some ⟨7, none, none⟩)) 3 = some (b, ⟨0, none, none⟩)) :
    (generateTreeInternal m 2 twoNodes 0 h 0).isSome := by
  have hleaf : ∀ nodeCount ≤ 2, ∀ h, ∀ i ≥ 4,
      generateTreeInternal m 2 twoNodes nodeCount h i = some (none, h, i + 1) := by
    intro nodeCount hcount h i hi
    refine generateTreeInternal_leaf (hcount.trans (by decide)) ?_ h
    have hrest : [1, 7, 1, 8][i]? = none := List.getElem?_eq_none hi
    simp [twoNodes, hrest]
  have hchild : generateTreeInternal m 2 twoNodes 1
      (Function.update h a (some ⟨7, none, none⟩)) 2 = some (some b,
        Function.update (Function.update h a (some ⟨7, none, none⟩)) b (some ⟨8, none, none⟩),
        6) := by
    refine (generateTreeInternal_node (by decide) (by decide) hleft).trans ?_
    simp [hleaf, write, twoNodes]
  rw [generateTreeInternal_node (by decide) (by decide) hroot]
  simp [hchild, hleaf, hab, write, twoNodes]

end arena

/-- In an arena of three nodes the two are made and given back, and in an arena of one node the
second call of `malloc` fails. -/
theorem generate_destroy_firstFit :
    (∃ root h', generateTree (firstFit 3) 2 twoNodes (fun _ => none) = some (root, h') ∧
      ∃ freed, freed.length = 2 ∧ destroyTree (maxRandomTreeNode + 2) h' root =
        some (fun _ => none, freed)) ∧
    generateTree (firstFit 1) 2 twoNodes (fun _ => none) = none := by
  constructor
  · have hsome : (generateTree (firstFit 3) 2 twoNodes fun _ => none).isSome := by
      unfold generateTree
      rw [if_neg (by decide), Option.isSome_map]
      exact generateTreeInternal_twoNodes (b := 1) zero_ne_one rfl rfl
    have hsize : (RandomTree.generateTree 2 twoNodes).size = 2 := by
      simp [RandomTree.generateTree, RandomTree.generateTreeInternal, twoNodes,
        maxRandomTreeNode, TreeNode.size]
    obtain ⟨⟨root, h'⟩, hs⟩ := Option.isSome_iff_exists.mp hsome
    obtain ⟨freed, -, hlen, -, hdestroy⟩ := (generate_destroy _ _ _ _).1 root h' hs
    exact ⟨root, h', hs, freed, hlen.trans hsize, hdestroy⟩
  · refine (generate_destroy _ _ _ _).2.mpr ?_
    have hsecond : ∀ m : Malloc, ∀ h, (h, 3) ∈ mallocsInternal m 2 twoNodes 1 h 2 := by
      intro m h
      rw [mallocsInternal, if_neg (by decide), if_neg (by decide)]
      exact List.mem_cons_self
    unfold mallocs
    rw [if_neg (by decide), mallocsInternal_node (by decide) (by decide) rfl]
    exact ⟨_, List.mem_cons_of_mem _ (List.mem_append_left _ (hsecond _ _)), rfl⟩

end LinuxProgramming.RandomTree.InMemory
