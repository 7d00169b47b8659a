import LinuxProgramming.Lts
import LinuxProgramming.Items.WorkItem
import Mathlib.Tactic.Linarith

/-! # When the ids of all producers are unique

`main` of Chapter 12 numbers its producers 0, 1, 2, …, and each of them counts its items from a
starting id of its own.  Nothing holds a producer back when it reaches the starting id of the
next one, and the ids are `unsigned int`s: `unique_iff` says exactly how far the producers may
count before two items carry one id. -/

namespace LinuxProgramming.Items

/-! ### The numbering of the producers -/

/-- The ids that the loops of `main` give to the producers, by way of `cur_producer_id`. -/
def producerIds (numCores producersPerCore : ℕ) : List ℕ :=
  ((List.range numCores).foldl (fun st _ => (List.range producersPerCore).foldl
    (fun st _ => (st.1 ++ [st.2], st.2 + 1)) st) (([] : List ℕ), 0)).1

theorem producerIds_eq (numCores producersPerCore : ℕ) :
    producerIds numCores producersPerCore = List.range (numCores * producersPerCore) := by
  have hinner : ∀ m n, (List.range m).foldl (fun st _ => (st.1 ++ [st.2], st.2 + 1))
      (List.range n, n) = (List.range (n + m), n + m) := by
    intro m n
    induction m with
    | zero => rfl
    | succ m ih =>
        rw [List.range_succ, List.foldl_append, List.foldl_cons, List.foldl_nil, ih]
        simp only [← List.range_succ]
        rfl
  have houter : ∀ c, (List.range c).foldl (fun st _ => (List.range producersPerCore).foldl
      (fun st _ => (st.1 ++ [st.2], st.2 + 1)) st) (([] : List ℕ), 0) =
        (List.range (c * producersPerCore), c * producersPerCore) := by
    intro c
    induction c with
    | zero => simp
    | succ c ih =>
        rw [List.range_succ, List.foldl_append, List.foldl_cons, List.foldl_nil, ih, hinner,
          Nat.succ_mul]
  unfold producerIds
  rw [houter]

/-! ### Producers that cook -/

/-- A producer with the items it has cooked. -/
structure Cook where
  nextItemId : ℕ
  cooked : List WorkItem

/-- A producer cooks its next item over whatever is in the memory of the item. -/
structure Cooks (n : ℕ) where
  producer : Fin n
  rand : ℕ → ℕ
  item : WorkItem

def cookStep {n : ℕ} (s : Fin n → Cook) (a : Cooks n) : Fin n → Cook :=
  let r := cookItem (s a.producer).nextItemId a.rand a.item
  Function.update s a.producer ⟨r.2, (s a.producer).cooked ++ [r.1]⟩

/-- The producers of `main`, which cook in any order. -/
def kitchen (ids : List ℕ) : Lts (Fin ids.length → Cook) (Cooks ids.length) where
  init s := s = fun i => ⟨startingId (ids.get i), []⟩
  step s a := some (cookStep s a)

section kitchen
variable {ids : List ℕ} {s : Fin ids.length → Cook}

theorem counted_of_reachable (h : (kitchen ids).Reachable s) (i : Fin ids.length) :
    Counted (ids.get i) (s i).nextItemId (s i).cooked := by
  revert i
  apply h.invariant
  · rintro s rfl i
    exact .start _
  · rintro s a s' hI hs i
    cases hs
    unfold cookStep
    by_cases hi : i = a.producer
    · subst hi
      simp only [Function.update_self]
      exact (hI a.producer).cook _ _
    · simp only [Function.update_of_ne hi]
      exact hI i

theorem exists_getElem_of_lt (h : (kitchen ids).Reachable s) {i : Fin ids.length} {k : ℕ}
    (hk : k < (s i).cooked.length) :
    ∃ item, (s i).cooked[k]? = some item ∧ item.id = itemId (ids.get i) k := by
  have hitem := List.getElem?_eq_getElem hk
  exact ⟨_, hitem, ((counted_of_reachable h i).getElem hitem).2⟩

end kitchen

theorem get_producerIds (numCores producersPerCore : ℕ)
    (i : Fin (producerIds numCores producersPerCore).length) :
    (producerIds numCores producersPerCore).get i = i := by
  simp [producerIds_eq]

/-! ### The law -/

/-- How far producer `i` may count before it reaches the starting id of producer `j`. -/
def gap (i j : ℕ) : ℕ :=
  (((itemStartingIdEachProducer * j : ℕ) - (itemStartingIdEachProducer * i : ℕ) : ℤ) % 2 ^ 32).toNat

/-- The item that is one gap further on has the starting id. -/
theorem itemId_gap (i j : ℕ) : itemId i (gap i j) = itemId j 0 := by
  unfold itemId gap
  omega

theorem itemId_ne {i j k l c d : ℕ} (hc : c ≤ gap i j) (hd : d ≤ gap j i) (hk : k < c)
    (hl : l < d) : itemId i k ≠ itemId j l := by
  unfold itemId
  unfold gap at hc hd
  omega

theorem itemId_inj {i k l : ℕ} (hk : k < 2 ^ 32) (hl : l < 2 ^ 32) (h : itemId i k = itemId i l) :
    k = l := by
  unfold itemId at h
  omega

/-- No two items ever cooked carry the same id. -/
def Unique {n : ℕ} (s : Fin n → Cook) : Prop :=
  ∀ (i j : Fin n) (k l : ℕ) (x y : WorkItem), (s i).cooked[k]? = some x →
    (s j).cooked[l]? = some y → x.id = y.id → i = j ∧ k = l

/-- Producers that have cooked so many items each: none has come round to its own starting id,
and none has counted past the starting id of another one that has cooked anything. -/
structure Apart {n : ℕ} (count : Fin n → ℕ) : Prop where
  self : ∀ i, count i ≤ 2 ^ 32
  other : ∀ i j, i ≠ j → 0 < count j → count i ≤ gap i j

section law
variable {numCores producersPerCore : ℕ}
  {s : Fin (producerIds numCores producersPerCore).length → Cook}

theorem apart_of_unique (h : (kitchen (producerIds numCores producersPerCore)).Reachable s)
    (hu : Unique s) : Apart fun i => (s i).cooked.length where
  self := by
    intro i
    by_contra hlt
    obtain ⟨x, hx, hxid⟩ := exists_getElem_of_lt h (i := i) (k := 0) (by omega)
    obtain ⟨y, hy, hyid⟩ := exists_getElem_of_lt h (i := i) (k := 2 ^ 32) (by omega)
    have hround : itemId ((producerIds numCores producersPerCore).get i) 0 =
        itemId ((producerIds numCores producersPerCore).get i) (2 ^ 32) := by
      unfold itemId
      rw [Nat.add_mod_right, Nat.add_zero]
    have hkl := (hu i i 0 (2 ^ 32) x y hx hy (by rw [hxid, hyid, hround])).2
    omega
  other := by
    intro i j hij hj
    by_contra hlt
    obtain ⟨x, hx, hxid⟩ := exists_getElem_of_lt h (i := i) (k := gap i j) (by omega)
    obtain ⟨y, hy, hyid⟩ := exists_getElem_of_lt h hj
    rw [get_producerIds] at hxid hyid
    exact hij (hu i j _ _ x y hx hy (by rw [hxid, hyid, itemId_gap])).1

theorem unique_of_apart (h : (kitchen (producerIds numCores producersPerCore)).Reachable s)
    (ha : Apart fun i => (s i).cooked.length) : Unique s := by
  intro i j k l x y hx hy hid
  obtain ⟨hk, hxid⟩ := (counted_of_reachable h i).getElem hx
  obtain ⟨hl, hyid⟩ := (counted_of_reachable h j).getElem hy
  rw [get_producerIds] at hxid hyid
  rw [hxid, hyid] at hid
  by_cases hij : i = j
  · subst hij
    have hself := ha.self i
    exact ⟨rfl, itemId_inj (by omega) (by omega) hid⟩
  · have hi := ha.other i j hij (by omega)
    have hj := ha.other j i (Ne.symm hij) (by omega)
    exact absurd hid (itemId_ne hi hj hk hl)

/-- **Unique ids.**  In every state that the producers of `main` reach, no two items carry one
id exactly if the producers have stayed apart. -/
theorem unique_iff (h : (kitchen (producerIds numCores producersPerCore)).Reachable s) :
    Unique s ↔ Apart fun i => (s i).cooked.length :=
  ⟨apart_of_unique h, unique_of_apart h⟩

/-- Producers whose blocks of 300000 ids fit into an `unsigned int` stay apart as long as each
keeps to its block. -/
theorem apart_of_blocks {n : ℕ} (hn : itemStartingIdEachProducer * n ≤ 2 ^ 32)
    {count : Fin n → ℕ} (hcount : ∀ i, count i ≤ itemStartingIdEachProducer) : Apart count where
  self := by
    intro i
    have hi := hcount i
    unfold itemStartingIdEachProducer at hi
    omega
  other := by
    intro i j hij _
    have hi := hcount i
    have hlt := i.isLt
    have hlt' := j.isLt
    have hne : (i : ℕ) ≠ j := fun h => hij (Fin.ext h)
    unfold itemStartingIdEachProducer at hn hi
    unfold gap itemStartingIdEachProducer
    rcases Nat.lt_or_gt_of_ne hne with hup | hdown
    · rw [Int.emod_eq_of_lt (by omega) (by omega)]
      omega
    · rw [← Int.add_emod_right, Int.emod_eq_of_lt (by omega) (by omega)]
      omega

end law

/-! ### Producers that meet -/

/-- A producer may cook any number of items before anyone else moves. -/
theorem exists_cooked {ids : List ℕ} {s : Fin ids.length → Cook} (h : (kitchen ids).Reachable s)
    (i : Fin ids.length) (m : ℕ) : ∃ s', (kitchen ids).Reachable s' ∧
      (s' i).cooked.length = (s i).cooked.length + m ∧ ∀ j ≠ i, s' j = s j := by
  induction m with
  | zero => exact ⟨s, h, rfl, fun _ _ => rfl⟩
  | succ m ih =>
      obtain ⟨s', hs', hlen, hother⟩ := ih
      refine ⟨_, hs'.next (l := ⟨i, id, ⟨0, fun _ => 'z'⟩⟩) rfl, ?_, fun j hj => ?_⟩
      · simp only [cookStep, Function.update_self, List.length_append, List.length_singleton,
          hlen, Nat.add_assoc]
      · rw [cookStep, Function.update_of_ne hj, hother j hj]

/-- Two producers with an item each. -/
theorem unique_firstItems : ∃ (s : Fin (producerIds 1 2).length → Cook),
    (kitchen (producerIds 1 2)).Reachable s ∧ (∀ i, (s i).cooked.length = 1) ∧ Unique s := by
  have hrun : ∃ s, (kitchen (producerIds 1 2)).exec
      (fun i => ⟨startingId ((producerIds 1 2).get i), []⟩)
      [⟨⟨0, by decide⟩, id, ⟨0, fun _ => 'z'⟩⟩, ⟨⟨1, by decide⟩, id, ⟨0, fun _ => 'z'⟩⟩] = some s ∧
      ∀ i, (s i).cooked.length = 1 := ⟨_, rfl, by decide⟩
  obtain ⟨s, hs, hlen⟩ := hrun
  have h : (kitchen (producerIds 1 2)).Reachable s := Lts.Reachable.exec (.of_init rfl) hs
  refine ⟨s, h, hlen, (unique_iff h).mpr (apart_of_blocks (by decide) fun i => ?_)⟩
  rw [hlen i]
  decide

/-- Item 300000 of producer 0 carries the starting id of producer 1. -/
theorem shared_id : ∃ (s : Fin (producerIds 1 2).length → Cook),
    (kitchen (producerIds 1 2)).Reachable s ∧ ¬ Unique s := by
  have h : (kitchen (producerIds 1 2)).Reachable _ := .of_init rfl
  obtain ⟨s, hs, hlen, -⟩ := exists_cooked h ⟨0, by decide⟩ 300001
  obtain ⟨s', hs', hlen', hother⟩ := exists_cooked hs ⟨1, by decide⟩ 1
  refine ⟨s', hs', fun hu => ?_⟩
  have hlong : (s' ⟨0, by decide⟩).cooked.length = 300001 := by
    rw [hother _ (by decide), hlen]
    rfl
  obtain ⟨x, hx, hxid⟩ := exists_getElem_of_lt hs' (i := ⟨0, by decide⟩) (k := 300000) (by omega)
  obtain ⟨y, hy, hyid⟩ := exists_getElem_of_lt hs' (i := ⟨1, by decide⟩) (k := 0) (by omega)
  have hsame : x.id = y.id := by
    rw [hxid, hyid]
    rfl
  have hfalse := (hu _ _ _ _ x y hx hy hsame).1
  cases hfalse

end LinuxProgramming.Items
