import Mathlib.Data.List.Nodup
import Mathlib.Data.Nat.Notation
import Mathlib.Data.Tree.Basic
import Mathlib.Order.Lattice

/-! # Binary trees in memory

Memory is a partial map from addresses to nodes, a node has its data and two pointers, and `none`
is the null pointer.  `Holds h p t as` says that from `p` on the memory reads as the tree `t`, with
`as` the addresses of its nodes in post-order.  Two nodes of the tree may be one in memory, so the
tree is a structure of its own exactly if `as` has no duplicates.

The frame rule (`Holds.congr`) says that nothing but the addresses matters, and `freeAll` is the
memory after some addresses have been given back. -/

namespace LinuxProgramming

variable {α : Type*}

structure Cell (α : Type*) where
  data : α
  left : Option ℕ
  right : Option ℕ

/-- The nodes that are allocated. -/
abbrev Memory (α : Type*) := ℕ → Option (Cell α)

inductive Holds (h : Memory α) : Option ℕ → BinaryTree α → List ℕ → Prop
  | nil : Holds h none .nil []
  | node {a : ℕ} {c : Cell α} {left right : BinaryTree α} {as bs : List ℕ} (hc : h a = some c)
      (hleft : Holds h c.left left as) (hright : Holds h c.right right bs) :
      Holds h (some a) (.node c.data left right) (as ++ bs ++ [a])

namespace Holds
variable {h h' : Memory α} {p : Option ℕ} {t t' : BinaryTree α} {as as' : List ℕ}

theorem isSome (ht : Holds h p t as) : ∀ a ∈ as, (h a).isSome := by
  induction ht with
  | nil => exact fun a ha => absurd ha List.not_mem_nil
  | @node b c _ _ as bs hc _ _ ihleft ihright =>
      intro a ha
      rcases List.mem_append.mp ha with ha | ha
      · exact (List.mem_append.mp ha).elim (ihleft a) (ihright a)
      · rw [List.mem_singleton.mp ha, hc]
        rfl

/-- Frame rule. -/
theorem congr (ht : Holds h p t as) (heq : ∀ a ∈ as, h' a = h a) : Holds h' p t as := by
  induction ht with
  | nil => exact .nil
  | @node b c _ _ as bs hc _ _ ihleft ihright =>
      refine .node ?_ (ihleft fun a ha => heq a ?_) (ihright fun a ha => heq a ?_)
      · rw [heq b (List.mem_append_right _ (List.mem_singleton_self b)), hc]
      · exact List.mem_append_left _ (List.mem_append_left _ ha)
      · exact List.mem_append_left _ (List.mem_append_right _ ha)

/-- More memory. -/
theorem mono (ht : Holds h p t as) (hle : ∀ a c, h a = some c → h' a = some c) :
    Holds h' p t as := by
  apply ht.congr
  intro a ha
  obtain ⟨c, hc⟩ := Option.isSome_iff_exists.mp (ht.isSome a ha)
  rw [hc, hle a c hc]

/-- A pointer stands for one tree at most. -/
theorem unique (ht : Holds h p t as) (ht' : Holds h p t' as') : t = t' ∧ as = as' := by
  induction ht generalizing t' as' with
  | nil =>
      cases ht'
      exact ⟨rfl, rfl⟩
  | node hc _ _ ihleft ihright =>
      cases ht' with
      | node hc' hleft' hright' =>
          rw [hc, Option.some.injEq] at hc'
          subst hc'
          obtain ⟨rfl, rfl⟩ := ihleft hleft'
          obtain ⟨rfl, rfl⟩ := ihright hright'
          exact ⟨rfl, rfl⟩

theorem length_eq (ht : Holds h p t as) : as.length = t.numNodes := by
  induction ht with
  | nil => rfl
  | node _ _ _ ihleft ihright =>
      rw [List.length_append, List.length_append, ihleft, ihright]
      rfl

end Holds

/-! ### Giving memory back -/

/-- The memory without the nodes at the addresses. -/
def freeAll (h : Memory α) (as : List ℕ) : Memory α := fun a => if a ∈ as then none else h a

section free
variable {h : Memory α} {as bs : List ℕ} {a : ℕ}

theorem freeAll_nil : freeAll h [] = h := by
  funext a
  exact if_neg List.not_mem_nil

theorem freeAll_of_notMem (ha : a ∉ as) : freeAll h as a = h a := if_neg ha

theorem freeAll_of_mem (ha : a ∈ as) : freeAll h as a = none := if_pos ha

theorem freeAll_append : freeAll h (as ++ bs) = freeAll (freeAll h as) bs := by
  funext a
  unfold freeAll
  by_cases hb : a ∈ bs
  · rw [if_pos hb, if_pos (List.mem_append_right _ hb)]
  · by_cases ha : a ∈ as
    · rw [if_neg hb, if_pos ha, if_pos (List.mem_append_left _ ha)]
    · rw [if_neg hb, if_neg ha, if_neg fun hab => (List.mem_append.mp hab).elim ha hb]

theorem freeAll_singleton : freeAll h [a] = Function.update h a none := by
  funext b
  unfold freeAll
  by_cases hb : b = a
  · rw [if_pos (List.mem_singleton.mpr hb), hb, Function.update_self]
  · rw [if_neg fun hmem => hb (List.mem_singleton.mp hmem), Function.update_of_ne hb]

theorem freeAll_eq_some {c : Cell α} (hc : freeAll h as a = some c) : a ∉ as ∧ h a = some c := by
  unfold freeAll at hc
  split at hc
  · cases hc
  · next ha => exact ⟨ha, hc⟩

/-- What is allocated beside the addresses is kept. -/
theorem Holds.of_disjoint {p : Option ℕ} {t : BinaryTree α} (ht : Holds h p t bs)
    (hdisjoint : List.Disjoint as bs) : Holds (freeAll h as) p t bs :=
  ht.congr fun _ hb => freeAll_of_notMem fun ha => hdisjoint ha hb

theorem Holds.of_freeAll {p : Option ℕ} {t : BinaryTree α} (ht : Holds (freeAll h as) p t bs) :
    Holds h p t bs ∧ List.Disjoint as bs := by
  refine ⟨ht.mono fun a c hc => (freeAll_eq_some hc).2, fun a ha hb => ?_⟩
  obtain ⟨c, hc⟩ := Option.isSome_iff_exists.mp (ht.isSome a hb)
  exact (freeAll_eq_some hc).1 ha

end free

end LinuxProgramming
