import Mathlib.Data.List.Nodup

/-! # Forests in pre-order

A forest is given by what lies directly below a node, `R`, and by which of two siblings comes
first, `S`.  `Below R j a b` says that `b` lies `j` levels below `a`, and `Before R S` is the
pre-order: a node comes before what lies below it, and what lies below the first of two siblings
before what lies below the second.

`visits` goes through the nodes below a node, children in the order in which `children` lists
them.  It comes to each of them once, with its level, in pre-order (`preOrder_visits`). -/

namespace LinuxProgramming

variable {α : Type*}

/-- `b` lies `j` levels below `a`. -/
inductive Below (R : α → α → Prop) : ℕ → α → α → Prop where
  | refl (a : α) : Below R 0 a a
  | head {j : ℕ} {a b c : α} : R a b → Below R j b c → Below R (j + 1) a c

/-- The pre-order. -/
inductive Before (R S : α → α → Prop) : α → α → Prop where
  | below {j : ℕ} {a b : α} : Below R (j + 1) a b → Before R S a b
  | sibling {i j : ℕ} {x y a b : α} : S x y → Below R i x a → Below R j y b → Before R S a b

/-- `nodes` are the nodes below `a`, each once and with its level, in pre-order. -/
structure PreOrder (R S : α → α → Prop) (a : α) (nodes : List (ℕ × α)) : Prop where
  mem_iff : ∀ j b, (j, b) ∈ nodes ↔ Below R j a b
  nodup : (nodes.map Prod.snd).Nodup
  pairwise : (nodes.map Prod.snd).Pairwise (Before R S)

/-- The nodes below a node, `level` levels down, as far as `fuel` levels further. -/
def visits (children : α → List α) : ℕ → ℕ → α → List (ℕ × α)
  | 0, _, _ => []
  | fuel + 1, level, a => (level, a) :: (children a).flatMap (visits children fuel (level + 1))

/-- `children` lists what lies directly below a node, in order; every node lies directly below at
most one, and all lie within each other to a finite height. -/
structure OrderedForest (R S : α → α → Prop) (children : α → List α) (height : α → ℕ) : Prop where
  mem_children : ∀ a b, b ∈ children a ↔ R a b
  pairwise_children : ∀ a, (children a).Pairwise S
  siblings : ∀ x y, S x y → x ≠ y ∧ ∃ a, R a x ∧ R a y
  parent_unique : ∀ a a' b, R a b → R a' b → a = a'
  height_lt : ∀ a b, R a b → height b < height a

variable {R S : α → α → Prop}

namespace Below

/-- The last step down. -/
theorem exists_parent {j : ℕ} {a b : α} (h : Below R (j + 1) a b) :
    ∃ c, Below R j a c ∧ R c b := by
  induction j generalizing a with
  | zero =>
      obtain _ | ⟨hstep, hrest⟩ := h
      obtain _ | _ := hrest
      exact ⟨a, .refl a, hstep⟩
  | succ j ih =>
      obtain _ | ⟨hstep, hrest⟩ := h
      obtain ⟨c, hc, hcb⟩ := ih hrest
      exact ⟨c, .head hstep hc, hcb⟩

end Below

namespace OrderedForest

variable {children : α → List α} {height : α → ℕ}

theorem height_add_le (F : OrderedForest R S children height) {j : ℕ} {a b : α}
    (h : Below R j a b) : height b + j ≤ height a := by
  induction h with
  | refl a => exact Nat.le_refl _
  | @head j a b c hstep _ ih =>
      have hlt := F.height_lt a b hstep
      omega

/-- Of two nodes above a third one, one is above the other. -/
theorem below_of_below (F : OrderedForest R S children height) {i j : ℕ} {x y b : α}
    (hx : Below R j x b) (hy : Below R (i + j) y b) : Below R i y x := by
  induction j generalizing b with
  | zero =>
      obtain _ | _ := hx
      exact hy
  | succ j ih =>
      obtain ⟨c, hxc, hcb⟩ := hx.exists_parent
      obtain ⟨c', hyc, hcb'⟩ := Below.exists_parent (j := i + j) hy
      obtain rfl := F.parent_unique c c' b hcb hcb'
      exact ih hxc hyc

/-- A sibling does not lie below its sibling. -/
theorem not_below_sibling (F : OrderedForest R S children height) {i : ℕ} {a x y : α}
    (hx : R a x) (hy : R a y) (hne : x ≠ y) : ¬ Below R i y x := by
  intro h
  rcases i with _ | i
  · obtain _ | _ := h
    exact hne rfl
  · obtain ⟨c, hyc, hcx⟩ := h.exists_parent
    obtain rfl := F.parent_unique a c x hx hcx
    have hle := F.height_add_le hyc
    have hlt := F.height_lt a y hy
    omega

/-- Nothing lies below two siblings. -/
theorem disjoint_siblings (F : OrderedForest R S children height) {i j : ℕ} {a x y b : α}
    (hx : R a x) (hy : R a y) (hne : x ≠ y) (hxb : Below R i x b) : ¬ Below R j y b := by
  intro hyb
  rcases Nat.le_total i j with hle | hle
  · obtain ⟨m, rfl⟩ := Nat.exists_eq_add_of_le' hle
    exact F.not_below_sibling hx hy hne (F.below_of_below hxb hyb)
  · obtain ⟨m, rfl⟩ := Nat.exists_eq_add_of_le' hle
    exact F.not_below_sibling hy hx hne.symm (F.below_of_below hyb hxb)

/-- The pre-order is strict. -/
theorem ne_of_before (F : OrderedForest R S children height) {a b : α} (h : Before R S a b) :
    a ≠ b := by
  rintro rfl
  rcases h with h | ⟨hS, hx, hy⟩
  · have hle := F.height_add_le h
    omega
  · obtain ⟨hne, c, hcx, hcy⟩ := F.siblings _ _ hS
    exact F.disjoint_siblings hcx hcy hne hx hy

/-! ### The visits -/

theorem below_of_mem_visits (F : OrderedForest R S children height) {fuel level : ℕ} {a : α}
    {v : ℕ × α} (h : v ∈ visits children fuel level a) : ∃ j, v.1 = level + j ∧ Below R j a v.2 := by
  induction fuel generalizing level a with
  | zero => exact absurd h List.not_mem_nil
  | succ fuel ih =>
      rcases List.mem_cons.mp h with rfl | h
      · exact ⟨0, rfl, .refl a⟩
      · obtain ⟨x, hx, hv⟩ := List.mem_flatMap.mp h
        obtain ⟨j, hj, hbelow⟩ := ih hv
        exact ⟨j + 1, by omega, .head ((F.mem_children a x).mp hx) hbelow⟩

theorem mem_visits_of_below (F : OrderedForest R S children height) {fuel j : ℕ} {a b : α}
    (hfuel : height a < fuel) (level : ℕ) (h : Below R j a b) :
    (level + j, b) ∈ visits children fuel level a := by
  induction h generalizing fuel level with
  | refl a =>
      obtain ⟨fuel, rfl⟩ := Nat.exists_eq_add_of_lt hfuel
      exact List.mem_cons_self
  | @head j a x b hstep _ ih =>
      obtain ⟨m, rfl⟩ := Nat.exists_eq_add_of_lt hfuel
      have hlt := F.height_lt a x hstep
      have hfuel' : height x < height a + m := by omega
      have hmem := ih hfuel' (level + 1)
      rw [Nat.add_right_comm, Nat.add_assoc] at hmem
      exact List.mem_cons_of_mem _
        (List.mem_flatMap.mpr ⟨x, (F.mem_children a x).mpr hstep, hmem⟩)

/-- What lies below, and nothing else. -/
theorem mem_visits (F : OrderedForest R S children height) {fuel : ℕ} {a : α}
    (hfuel : height a < fuel) (j : ℕ) (b : α) :
    (j, b) ∈ visits children fuel 0 a ↔ Below R j a b := by
  constructor
  · intro h
    obtain ⟨i, hi, hbelow⟩ := F.below_of_mem_visits h
    obtain rfl : j = i := hi.trans (Nat.zero_add i)
    exact hbelow
  · intro h
    have hmem := F.mem_visits_of_below hfuel 0 h
    rwa [Nat.zero_add] at hmem

/-- One after the other in pre-order. -/
theorem pairwise_visits (F : OrderedForest R S children height) (fuel level : ℕ) (a : α) :
    ((visits children fuel level a).map Prod.snd).Pairwise (Before R S) := by
  induction fuel generalizing level a with
  | zero => exact .nil
  | succ fuel ih =>
      rw [visits, List.map_cons, List.map_flatMap, List.pairwise_cons]
      refine ⟨fun b hb => ?_, List.pairwise_flatMap.mpr ⟨fun x _ => ih (level + 1) x, ?_⟩⟩
      · obtain ⟨x, hx, hb⟩ := List.mem_flatMap.mp hb
        obtain ⟨v, hv, rfl⟩ := List.mem_map.mp hb
        obtain ⟨j, -, hbelow⟩ := F.below_of_mem_visits hv
        exact .below (.head ((F.mem_children a x).mp hx) hbelow)
      · refine (F.pairwise_children a).imp fun hS b hb c hc => ?_
        obtain ⟨v, hv, rfl⟩ := List.mem_map.mp hb
        obtain ⟨w, hw, rfl⟩ := List.mem_map.mp hc
        obtain ⟨_, -, hbelow⟩ := F.below_of_mem_visits hv
        obtain ⟨_, -, hbelow'⟩ := F.below_of_mem_visits hw
        exact .sibling hS hbelow hbelow'

/-- **The visits.** -/
theorem preOrder_visits (F : OrderedForest R S children height) {fuel : ℕ} {a : α}
    (hfuel : height a < fuel) : PreOrder R S a (visits children fuel 0 a) where
  mem_iff := F.mem_visits hfuel
  nodup := (F.pairwise_visits fuel 0 a).imp F.ne_of_before
  pairwise := F.pairwise_visits fuel 0 a

end OrderedForest

end LinuxProgramming
