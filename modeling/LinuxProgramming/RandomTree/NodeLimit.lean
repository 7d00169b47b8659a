import LinuxProgramming.PreorderWalk

/-! # The random trees of the tests

`generate_tree` of the tests of Chapter 10 makes a tree out of what `rand()` returns.  A call of
`generate_tree_internal` stops when its `node_count` is beyond `MAX_RANDOM_TREE_NODE`, but it gets
the count by value: the two subtrees start from the same number, and what one of them adds the
other does not see.  So the count is a depth.  `limited_iff` says for which results of `rand()` the
tree has no more nodes than the limit allows. -/

namespace LinuxProgramming.RandomTree

/-- `MAX_RANDOM_TREE_NODE`. -/
def maxRandomTreeNode : ℕ := 100000

inductive TreeNode where
  | null
  | node (data : ℕ) (left right : TreeNode)

def TreeNode.size : TreeNode → ℕ
  | null => 0
  | node _ left right => left.size + right.size + 1

/-- `generate_tree_internal`, and the number of the next call of `rand()`; call number `i` returns
`rand i`. -/
def generateTreeInternal (randomDegree : ℕ) (rand : ℕ → ℕ) (nodeCount i : ℕ) : TreeNode × ℕ :=
  if nodeCount > maxRandomTreeNode then (.null, i)
  else if rand i % randomDegree = 0 then (.null, i + 1)
  else
    let data := rand (i + 1)
    let left := generateTreeInternal randomDegree rand (nodeCount + 1) (i + 2)
    let right := generateTreeInternal randomDegree rand (nodeCount + 1) left.2
    (.node data left.1 right.1, right.2)
termination_by maxRandomTreeNode + 1 - nodeCount

/-- `generate_tree`. -/
def generateTree (randomDegree : ℕ) (rand : ℕ → ℕ) : TreeNode :=
  if randomDegree < 2 then .null else (generateTreeInternal randomDegree rand 0 0).1

/-! ### The answers in the results -/

/-- The call of `rand()` for the next test, when there have been `k` tests: after a test that makes
a node there is a call for its data. -/
def testCall (randomDegree : ℕ) (rand : ℕ → ℕ) : ℕ → ℕ
  | 0 => 0
  | k + 1 =>
      if rand (testCall randomDegree rand k) % randomDegree = 0 then
        testCall randomDegree rand k + 1
      else testCall randomDegree rand k + 2

/-- Test number `k` makes a node. -/
def test (randomDegree : ℕ) (rand : ℕ → ℕ) (k : ℕ) : Bool :=
  rand (testCall randomDegree rand k) % randomDegree ≠ 0

section tests
variable {randomDegree : ℕ} {rand : ℕ → ℕ}

/-- A call of the function reads the tests from where it stands. -/
theorem generateTreeInternal_eq {h nodeCount : ℕ} (hcount : nodeCount + h = maxRandomTreeNode + 1)
    (k : ℕ) :
    (generateTreeInternal randomDegree rand nodeCount (testCall randomDegree rand k)).1.size =
      (Shape.read (test randomDegree rand) h k).1.size ∧
    (generateTreeInternal randomDegree rand nodeCount (testCall randomDegree rand k)).2 =
      testCall randomDegree rand (Shape.read (test randomDegree rand) h k).2 := by
  induction h generalizing nodeCount k with
  | zero =>
      rw [generateTreeInternal, if_pos (by omega)]
      exact ⟨rfl, rfl⟩
  | succ h ih =>
      by_cases hzero : rand (testCall randomDegree rand k) % randomDegree = 0
      · have htest : test randomDegree rand k = false := by
          unfold test
          rw [decide_eq_false_iff_not, not_not]
          exact hzero
        have hnext : testCall randomDegree rand (k + 1) = testCall randomDegree rand k + 1 :=
          if_pos hzero
        rw [generateTreeInternal, if_neg (by omega), if_pos hzero, Shape.read_leaf htest, hnext]
        exact ⟨rfl, rfl⟩
      · have htest : test randomDegree rand k = true := decide_eq_true hzero
        have hnext : testCall randomDegree rand (k + 1) = testCall randomDegree rand k + 2 :=
          if_neg hzero
        have hdeeper : (nodeCount + 1) + h = maxRandomTreeNode + 1 := by omega
        obtain ⟨hleft, hleftEnd⟩ := ih hdeeper (k + 1)
        obtain ⟨hright, hrightEnd⟩ := ih hdeeper
          (Shape.read (test randomDegree rand) h (k + 1)).2
        rw [hnext] at hleft hleftEnd
        rw [generateTreeInternal, if_neg (by omega), if_neg hzero, Shape.read_node htest]
        simp only [TreeNode.size, Shape.size]
        rw [hleftEnd, hleft, hright, hrightEnd]
        exact ⟨rfl, rfl⟩

theorem size_generateTree (hdegree : 2 ≤ randomDegree) : (generateTree randomDegree rand).size =
    (Shape.read (test randomDegree rand) (maxRandomTreeNode + 1) 0).1.size := by
  unfold generateTree
  rw [if_neg (by omega)]
  exact (generateTreeInternal_eq (Nat.zero_add _) 0).1

end tests

/-! ### The limit -/

/-- The tests that make nodes among the first `j`. -/
def made (randomDegree : ℕ) (rand : ℕ → ℕ) (j : ℕ) : ℕ := Shape.nodes (test randomDegree rand) j

/-- The tests end the tree in time: of some `2 * m + 1` of them, `m` make a node. -/
def EndsInTime (randomDegree : ℕ) (rand : ℕ → ℕ) : Prop :=
  ∃ m ≤ maxRandomTreeNode + 1, made randomDegree rand (2 * m + 1) = m

/-- The tests make a path down to the guard: the first makes a node, no two in a row make none
before all nodes are there, and none is left over for the rest. -/
def MakesPath (randomDegree : ℕ) (rand : ℕ → ℕ) : Prop :=
  Shape.Path (test randomDegree rand) (maxRandomTreeNode + 1) 0 ∧
    made randomDegree rand (2 * maxRandomTreeNode + 1) = maxRandomTreeNode + 1

/-- **The limit.**  The tree has at most one node more than `MAX_RANDOM_TREE_NODE` exactly if
`rand()` ends it in time or makes it a path. -/
theorem limited_iff (randomDegree : ℕ) (rand : ℕ → ℕ) :
    (generateTree randomDegree rand).size ≤ maxRandomTreeNode + 1 ↔
      randomDegree < 2 ∨ EndsInTime randomDegree rand ∨ MakesPath randomDegree rand := by
  by_cases hdegree : randomDegree < 2
  · have hnull : generateTree randomDegree rand = .null := if_pos hdegree
    rw [hnull]
    exact ⟨fun _ => .inl hdegree, fun _ => Nat.zero_le _⟩
  · rw [size_generateTree (Nat.le_of_not_lt hdegree), Shape.size_le_iff]
    constructor
    · exact .inr
    · exact fun h => h.resolve_left hdegree

/-- `rand()` returns 1 for 200004 calls, and then 0. -/
def oneThenZero (i : ℕ) : ℕ := if i < 200004 then 1 else 0

theorem testCall_oneThenZero {k : ℕ} (hk : k ≤ 100002) : testCall 2 oneThenZero k = 2 * k := by
  induction k with
  | zero => rfl
  | succ k ih =>
      have hone : oneThenZero (2 * k) = 1 := if_pos (by omega)
      unfold testCall
      rw [ih (by omega), hone]
      rfl

theorem le_testCall_oneThenZero (d : ℕ) : 200004 ≤ testCall 2 oneThenZero (100002 + d) := by
  induction d with
  | zero => exact (testCall_oneThenZero (le_refl _)).ge
  | succ d ih =>
      rw [← Nat.add_assoc]
      unfold testCall
      split <;> omega

theorem made_of_le {j : ℕ} (hj : j ≤ 100002) : made 2 oneThenZero j = j := by
  unfold made
  induction j with
  | zero => exact Nat.count_zero _
  | succ j ih =>
      have hone : oneThenZero (2 * j) = 1 := if_pos (by omega)
      have htest : test 2 oneThenZero j = true := by
        unfold test
        rw [testCall_oneThenZero (by omega), hone]
        rfl
      rw [Shape.nodes_succ, if_pos htest, ih (by omega)]

theorem made_add (d : ℕ) : made 2 oneThenZero (100002 + d) = 100002 := by
  unfold made
  induction d with
  | zero => exact made_of_le (le_refl _)
  | succ d ih =>
      have hzero : oneThenZero (testCall 2 oneThenZero (100002 + d)) = 0 :=
        if_neg (not_lt.mpr (le_testCall_oneThenZero d))
      have htest : ¬ test 2 oneThenZero (100002 + d) = true := by
        unfold test
        rw [hzero]
        decide
      rw [← Nat.add_assoc, Shape.nodes_succ, if_neg htest, ih]

theorem made_le (j : ℕ) : made 2 oneThenZero j ≤ 100002 := by
  rcases Nat.le_total j 100002 with hle | hge
  · rwa [made_of_le hle]
  · obtain ⟨d, rfl⟩ := Nat.exists_eq_add_of_le hge
    exact (made_add d).le

/-- The leftmost path goes down to the guard, and there is one node beside it. -/
theorem limit_passed : (generateTree 2 oneThenZero).size = 100002 ∧
    ¬ (generateTree 2 oneThenZero).size ≤ maxRandomTreeNode + 1 := by
  have hover : ¬ (generateTree 2 oneThenZero).size ≤ maxRandomTreeNode + 1 := by
    rw [size_generateTree (le_refl 2), Shape.size_le_iff]
    unfold maxRandomTreeNode
    rintro (⟨m, hm, hcount⟩ | ⟨-, hcount⟩)
    · rcases Nat.le_total (2 * m + 1) 100002 with hle | hge
      · have hall := hcount.symm.trans (made_of_le hle)
        omega
      · obtain ⟨d, hd⟩ := Nat.exists_eq_add_of_le hge
        rw [hd] at hcount
        have hrest := hcount.symm.trans (made_add d)
        omega
    · have hrest := made_add 99999
      rw [show 2 * 100000 + 1 = 100002 + 99999 by omega] at hcount
      exact absurd (hcount.symm.trans hrest) (by omega)
  have hle : (generateTree 2 oneThenZero).size ≤ 100002 := by
    have hnodes := Shape.nodes_read (t := test 2 oneThenZero) (maxRandomTreeNode + 1) 0
    have hmade := made_le (Shape.read (test 2 oneThenZero) (maxRandomTreeNode + 1) 0).2
    unfold made at hmade
    rw [size_generateTree (le_refl 2)]
    omega
  refine ⟨?_, hover⟩
  unfold maxRandomTreeNode at hover
  omega

end LinuxProgramming.RandomTree
