import Mathlib.Data.Nat.Count
import Mathlib.Order.Monotone.Basic

/-! # Reading a binary tree from a sequence

`Shape.read t h i` reads a tree in pre-order from a sequence `t` of answers, from place `i` on: at
each place the answer says whether there is a node, and below depth `h` nothing is read, the place
is cut.  A whole tree has one answer of no more than nodes; a place that is cut has no answer of
its own.  `size_le_iff` says from the sequence alone when the tree has at most as many nodes as its
depth is bounded by: it ends in time, or it is a path. -/

namespace LinuxProgramming

inductive Shape where
  | leaf
  | cut
  | node (left right : Shape)

namespace Shape

/-- The tree, and the place behind its last answer. -/
def read (t : ℕ → Bool) : ℕ → ℕ → Shape × ℕ
  | 0, i => (.cut, i)
  | h + 1, i =>
      if t i then
        let left := read t h (i + 1)
        let right := read t h left.2
        (.node left.1 right.1, right.2)
      else (.leaf, i + 1)

def size : Shape → ℕ
  | leaf => 0
  | cut => 0
  | node left right => left.size + right.size + 1

def cuts : Shape → ℕ
  | leaf => 0
  | cut => 1
  | node left right => left.cuts + right.cuts

/-- The nodes among the first `j` answers. -/
def nodes (t : ℕ → Bool) (j : ℕ) : ℕ := Nat.count (fun k => t k = true) j

section read
variable {t : ℕ → Bool}

theorem nodes_succ (j : ℕ) : nodes t (j + 1) = nodes t j + if t j = true then 1 else 0 :=
  Nat.count_succ _ j

theorem nodes_of_true {j : ℕ} (hj : t j = true) : nodes t (j + 1) = nodes t j + 1 := by
  rw [nodes_succ, if_pos hj]

theorem nodes_of_false {j : ℕ} (hj : t j = false) : nodes t (j + 1) = nodes t j := by
  rw [nodes_succ, hj]
  rfl

theorem nodes_mono {i j : ℕ} (h : i ≤ j) : nodes t i ≤ nodes t j := Nat.count_monotone _ h

theorem read_leaf {h i : ℕ} (hi : t i = false) : read t (h + 1) i = (.leaf, i + 1) := by
  unfold read
  rw [hi]
  rfl

theorem read_node {h i : ℕ} (hi : t i = true) : read t (h + 1) i =
    (.node (read t h (i + 1)).1 (read t h (read t h (i + 1)).2).1,
      (read t h (read t h (i + 1)).2).2) := by
  conv_lhs => unfold read
  rw [if_pos hi]

/-! ### Answers, nodes and cuts -/

theorem nodes_read (h i : ℕ) : nodes t (read t h i).2 = nodes t i + (read t h i).1.size := by
  induction h generalizing i with
  | zero => rfl
  | succ h ih =>
      cases hi : t i with
      | false =>
          rw [read_leaf hi]
          exact nodes_of_false hi
      | true =>
          have hnode := nodes_of_true hi
          rw [read_node hi]
          simp only [size]
          rw [ih, ih, hnode]
          omega

/-- One answer more than two for each node, apart from the cuts. -/
theorem end_read (h i : ℕ) :
    (read t h i).2 + (read t h i).1.cuts = i + 2 * (read t h i).1.size + 1 := by
  induction h generalizing i with
  | zero => rfl
  | succ h ih =>
      cases hi : t i with
      | false =>
          rw [read_leaf hi]
          simp only [size, cuts]
      | true =>
          have hleft := ih (i + 1)
          have hright := ih (read t h (i + 1)).2
          rw [read_node hi]
          simp only [size, cuts]
          omega

theorem eq_true_of_cuts {h i : ℕ} (hcuts : 0 < (read t (h + 1) i).1.cuts) : t i = true := by
  by_contra hno
  rw [read_leaf (Bool.eq_false_of_not_eq_true hno)] at hcuts
  exact Nat.lt_irrefl 0 hcuts

/-- A cut is at the end of a path of its own depth. -/
theorem le_size_of_cuts {h i : ℕ} (hcuts : 0 < (read t h i).1.cuts) : h ≤ (read t h i).1.size := by
  induction h generalizing i with
  | zero => exact Nat.zero_le _
  | succ h ih =>
      have hi := eq_true_of_cuts hcuts
      rw [read_node hi] at hcuts ⊢
      simp only [size, cuts] at hcuts ⊢
      rcases Nat.eq_zero_or_pos (read t h (i + 1)).1.cuts with hzero | hpos
      · have hright := ih (i := (read t h (i + 1)).2) (by omega)
        omega
      · have hleft := ih hpos
        omega

/-- As long as the tree is not at its end, half of its answers or more are nodes. -/
theorem le_two_nodes {h i j : ℕ} (hij : i ≤ j) (hj : j < (read t h i).2) :
    j + 2 * nodes t i ≤ i + 2 * nodes t j := by
  induction h generalizing i with
  | zero =>
      simp only [read] at hj
      omega
  | succ h ih =>
      cases hi : t i with
      | false =>
          rw [read_leaf hi] at hj
          obtain rfl : i = j := by
            simp only at hj
            omega
          exact Nat.le_refl _
      | true =>
          have hnode := nodes_of_true hi
          rw [read_node hi] at hj
          simp only at hj
          by_cases hfirst : i = j
          · rw [hfirst]
          · by_cases hleft : j < (read t h (i + 1)).2
            · have hle := ih (i := i + 1) (by omega) hleft
              omega
            · have hle := ih (i := (read t h (i + 1)).2) (by omega) hj
              have hnodes := nodes_read (t := t) h (i + 1)
              have hend := end_read (t := t) h (i + 1)
              omega

/-! ### Paths -/

/-- There is a node at `i`, and no two answers of no in a row before `h` nodes are there. -/
def Path (t : ℕ → Bool) (h i : ℕ) : Prop :=
  t i = true ∧ ∀ k, i ≤ k → nodes t k < nodes t i + h → t k = true ∨ t (k + 1) = true

theorem path_one_iff {i : ℕ} : Path t 1 i ↔ t i = true := by
  constructor
  · exact fun h => h.1
  · intro hi
    refine ⟨hi, fun k hk hlt => ?_⟩
    by_cases hki : k = i
    · rw [hki]
      exact .inl hi
    · have hnode : nodes t (i + 1) = nodes t i + 1 := by rw [nodes_succ, if_pos hi]
      have hmono := nodes_mono (t := t) (show i + 1 ≤ k by omega)
      omega

/-- A path goes on to the left, or to the right of a leaf. -/
theorem path_succ_iff {h i : ℕ} : Path t (h + 2) i ↔
    t i = true ∧ (Path t (h + 1) (i + 1) ∨ t (i + 1) = false ∧ Path t (h + 1) (i + 2)) := by
  constructor
  · rintro ⟨hi, hrow⟩
    have hnode := nodes_of_true hi
    refine ⟨hi, ?_⟩
    cases hnext : t (i + 1) with
    | true => exact .inl ⟨hnext, fun k hk hlt => hrow k (by omega) (by omega)⟩
    | false =>
        have hleaf : nodes t (i + 2) = nodes t (i + 1) := nodes_of_false hnext
        rcases hrow (i + 1) (by omega) (by omega) with hyes | hyes
        · rw [hnext] at hyes
          contradiction
        · exact .inr ⟨rfl, hyes, fun k hk hlt => hrow k (by omega) (by omega)⟩
  · rintro ⟨hi, hrest⟩
    have hnode := nodes_of_true hi
    refine ⟨hi, fun k hk hlt => ?_⟩
    by_cases hki : k = i
    · rw [hki]
      exact .inl hi
    · rcases hrest with ⟨_, hrow⟩ | ⟨hnext, hafter, hrow⟩
      · exact hrow k (by omega) (by omega)
      · have hleaf : nodes t (i + 2) = nodes t (i + 1) := nodes_of_false hnext
        by_cases hki' : k = i + 1
        · rw [hki']
          exact .inr hafter
        · exact hrow k (by omega) (by omega)

theorem le_nodes_of_path {h i : ℕ} (hpath : Path t (h + 1) i) :
    nodes t i + (h + 1) ≤ nodes t (i + 2 * h + 1) := by
  induction h generalizing i with
  | zero => exact (nodes_of_true hpath.1).ge
  | succ h ih =>
      obtain ⟨hi, hrest⟩ := path_succ_iff.mp hpath
      have hnode := nodes_of_true hi
      rcases hrest with hleft | ⟨hnext, hright⟩
      · have hle := ih hleft
        have hmono := nodes_mono (t := t) (show i + 1 + 2 * h + 1 ≤ i + 2 * (h + 1) + 1 by omega)
        omega
      · have hleaf : nodes t (i + 2) = nodes t (i + 1) := nodes_of_false hnext
        have hle := ih hright
        rw [show i + 2 + 2 * h + 1 = i + 2 * (h + 1) + 1 by omega] at hle
        omega

/-- The cuts of a path are the two below its last node. -/
theorem cuts_eq_two {h i : ℕ} (hcuts : 0 < (read t (h + 1) i).1.cuts)
    (hsize : (read t (h + 1) i).1.size = h + 1) : (read t (h + 1) i).1.cuts = 2 := by
  induction h generalizing i with
  | zero =>
      rw [read_node (eq_true_of_cuts hcuts)]
      rfl
  | succ h ih =>
      have hi := eq_true_of_cuts hcuts
      rw [read_node hi] at hcuts hsize ⊢
      simp only [size, cuts] at hcuts hsize ⊢
      have hright := le_size_of_cuts (t := t) (h := h + 1) (i := (read t (h + 1) (i + 1)).2)
      rcases Nat.eq_zero_or_pos (read t (h + 1) (i + 1)).1.cuts with hzero | hpos
      · have hsize' := hright (by omega)
        have htwo := ih (i := (read t (h + 1) (i + 1)).2) (by omega) (by omega)
        omega
      · have hsize' := le_size_of_cuts hpos
        have htwo := ih hpos (by omega)
        by_contra hne
        have hlarge := hright (by omega)
        omega

theorem eq_false_of_size_eq_zero {h i : ℕ} (hsize : (read t (h + 1) i).1.size = 0) :
    t i = false := by
  cases hi : t i with
  | false => rfl
  | true =>
      rw [read_node hi] at hsize
      exact absurd hsize (Nat.succ_ne_zero _)

theorem eq_false_of_nodes_eq {j : ℕ} (h : nodes t (j + 1) = nodes t j) : t j = false := by
  cases hj : t j with
  | false => rfl
  | true =>
      rw [nodes_of_true hj] at h
      omega

/-- Where a path ends. -/
theorem end_of_path {h i : ℕ} (hcuts : 0 < (read t (h + 1) i).1.cuts)
    (hsize : (read t (h + 1) i).1.size = h + 1) : (read t (h + 1) i).2 = i + 2 * h + 1 := by
  have htwo := cuts_eq_two hcuts hsize
  have hend := end_read (t := t) (h + 1) i
  omega

/-- A tree with a cut and no more nodes than the bound of its depth goes on in one of the two
subtrees only. -/
theorem path_of_read {h i : ℕ} (hcuts : 0 < (read t (h + 1) i).1.cuts)
    (hsize : (read t (h + 1) i).1.size = h + 1) : Path t (h + 1) i := by
  induction h generalizing i with
  | zero => exact path_one_iff.mpr (eq_true_of_cuts hcuts)
  | succ h ih =>
      have hi := eq_true_of_cuts hcuts
      rw [read_node hi] at hcuts hsize
      simp only [size, cuts] at hcuts hsize
      refine path_succ_iff.mpr ⟨hi, ?_⟩
      rcases Nat.eq_zero_or_pos (read t (h + 1) (i + 1)).1.cuts with hzero | hpos
      · have hlarge := le_size_of_cuts (t := t) (h := h + 1)
          (i := (read t (h + 1) (i + 1)).2) (by omega)
        have hnext := eq_false_of_size_eq_zero (t := t) (h := h) (i := i + 1) (by omega)
        rw [read_leaf hnext] at hcuts hsize
        have hcuts' : 0 < 0 + (read t (h + 1) (i + 2)).1.cuts := hcuts
        have hsize' : 0 + (read t (h + 1) (i + 2)).1.size + 1 = h + 1 + 1 := hsize
        exact .inr ⟨hnext, ih (by omega) (by omega)⟩
      · have hlarge := le_size_of_cuts hpos
        exact .inl (ih hpos (by omega))

theorem read_of_path {h i : ℕ} (hpath : Path t (h + 1) i)
    (hnodes : nodes t (i + 2 * h + 1) = nodes t i + (h + 1)) :
    0 < (read t (h + 1) i).1.cuts ∧ (read t (h + 1) i).1.size = h + 1 := by
  induction h generalizing i with
  | zero =>
      rw [read_node hpath.1]
      exact ⟨Nat.succ_pos _, rfl⟩
  | succ h ih =>
      obtain ⟨hi, hrest⟩ := path_succ_iff.mp hpath
      have hnode := nodes_of_true hi
      rw [show i + 2 * (h + 1) + 1 = i + 2 * h + 2 + 1 by omega] at hnodes
      rw [read_node hi]
      rcases hrest with hleft | ⟨hnext, hright⟩
      · -- the answer behind the path to the left is no
        have hle := le_nodes_of_path hleft
        have hmono := nodes_mono (t := t) (show i + 2 * h + 2 ≤ i + 2 * h + 2 + 1 by omega)
        rw [show i + 1 + 2 * h + 1 = i + 2 * h + 2 by omega] at hle
        have hlast : t (i + 2 * h + 2) = false := eq_false_of_nodes_eq (by omega)
        obtain ⟨hcuts, hsize⟩ := ih hleft (by
          rw [show i + 1 + 2 * h + 1 = i + 2 * h + 2 by omega]
          omega)
        have hend := end_of_path hcuts hsize
        rw [show i + 1 + 2 * h + 1 = i + 2 * h + 2 by omega] at hend
        rw [hend, read_leaf hlast]
        simp only [size, cuts]
        omega
      · have hleaf : nodes t (i + 2) = nodes t (i + 1) := nodes_of_false hnext
        obtain ⟨hcuts, hsize⟩ := ih hright (by
          rw [show i + 2 + 2 * h + 1 = i + 2 * h + 2 + 1 by omega]
          omega)
        rw [read_leaf hnext]
        show 0 < 0 + (read t (h + 1) (i + 2)).1.cuts ∧
          0 + (read t (h + 1) (i + 2)).1.size + 1 = h + 1 + 1
        omega

/-- What is read up to the bound of the depth and has no more nodes is a path. -/
theorem path_iff {h i : ℕ} :
    (0 < (read t (h + 1) i).1.cuts ∧ (read t (h + 1) i).1.size = h + 1) ↔
      Path t (h + 1) i ∧ nodes t (i + 2 * h + 1) = nodes t i + (h + 1) := by
  constructor
  · rintro ⟨hcuts, hsize⟩
    have hnodes := nodes_read (t := t) (h + 1) i
    rw [end_of_path hcuts hsize, hsize] at hnodes
    exact ⟨path_of_read hcuts hsize, hnodes⟩
  · rintro ⟨hpath, hnodes⟩
    exact read_of_path hpath hnodes

/-- The tree has no more nodes than the bound of its depth exactly if some `2 * m + 1` answers with
`m` nodes end it in time, or it is a path. -/
theorem size_le_iff {h : ℕ} : (read t (h + 1) 0).1.size ≤ h + 1 ↔
    (∃ m ≤ h + 1, nodes t (2 * m + 1) = m) ∨
      (Path t (h + 1) 0 ∧ nodes t (2 * h + 1) = h + 1) := by
  have hnodes := nodes_read (t := t) (h + 1) 0
  have hend := end_read (t := t) (h + 1) 0
  have hzero : nodes t 0 = 0 := Nat.count_zero _
  rw [hzero] at hnodes
  constructor
  · intro hle
    rcases Nat.eq_zero_or_pos (read t (h + 1) 0).1.cuts with hcuts | hcuts
    · refine .inl ⟨_, hle, ?_⟩
      rw [show 2 * (read t (h + 1) 0).1.size + 1 = (read t (h + 1) 0).2 by omega, hnodes,
        Nat.zero_add]
    · have hpath := path_iff.mp ⟨hcuts, Nat.le_antisymm hle (le_size_of_cuts hcuts)⟩
      rw [hzero, Nat.zero_add, Nat.zero_add] at hpath
      exact .inr hpath
  · rintro (⟨m, hm, hcount⟩ | hpath)
    · have hle : (read t (h + 1) 0).2 ≤ 2 * m + 1 := by
        by_contra hgt
        have htwo := le_two_nodes (Nat.zero_le (2 * m + 1)) (not_le.mp hgt)
        omega
      have hmono := nodes_mono (t := t) hle
      omega
    · have hsize := (path_iff (t := t) (h := h) (i := 0)).mpr (by
        rwa [hzero, Nat.zero_add, Nat.zero_add])
      exact hsize.2.le

end read

end Shape

end LinuxProgramming
