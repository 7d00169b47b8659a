import Mathlib.Algebra.Group.Nat.Defs
import Mathlib.Data.Nat.Notation
import Mathlib.Logic.Function.Basic

/-! # Items and how they are cooked

`WorkItem` and `Producer::cook_item`, which Chapter 12 and the two implementations of Chapter 14
share word for word.  A producer numbers its items from its own starting id; `Counted` says so of
everything it has cooked, with all numbers reduced to an `unsigned int`. -/

namespace LinuxProgramming.Items

/-- `MAX_WORK_ITEM_LEN`. -/
def maxWorkItemLen : ℕ := 512

/-- `ITEM_STARTING_ID_EACH_PRODUCER`. -/
def itemStartingIdEachProducer : ℕ := 300000

/-- `struct __WorkItem`; the array `data` has `maxWorkItemLen` entries. -/
structure WorkItem where
  id : ℕ
  data : ℕ → Char

/-- What the constructor of a producer gives `m_next_item_id`. -/
def startingId (id : ℕ) : ℕ := itemStartingIdEachProducer * id % 2 ^ 32

/-- `cook_item`: the item written over the old one, and the next id; `rand n` is what the
`n`-th call of `rand()` returns. -/
def cookItem (nextItemId : ℕ) (rand : ℕ → ℕ) (item : WorkItem) : WorkItem × ℕ :=
  let datalen := rand 0 % (maxWorkItemLen - 1)
  let data := (List.range datalen).foldl
    (fun data i => Function.update data i (Char.ofNat ('a'.toNat + rand (i + 1) % 26))) item.data
  (⟨nextItemId, Function.update data datalen (Char.ofNat 0)⟩, (nextItemId + 1) % 2 ^ 32)

@[simp] theorem cookItem_id (nextItemId : ℕ) (rand : ℕ → ℕ) (item : WorkItem) :
    (cookItem nextItemId rand item).1.id = nextItemId := rfl

@[simp] theorem cookItem_next (nextItemId : ℕ) (rand : ℕ → ℕ) (item : WorkItem) :
    (cookItem nextItemId rand item).2 = (nextItemId + 1) % 2 ^ 32 := rfl

/-! ### The ids of a producer -/

/-- The id of the `k`-th item of a producer. -/
def itemId (id k : ℕ) : ℕ := (itemStartingIdEachProducer * id + k) % 2 ^ 32

theorem itemId_succ (id k : ℕ) : (itemId id k + 1) % 2 ^ 32 = itemId id (k + 1) := by
  unfold itemId
  rw [Nat.mod_add_mod, Nat.add_assoc]

theorem itemId_succ_ne (id k : ℕ) : itemId id (k + 1) ≠ itemId id k := by
  unfold itemId
  omega

/-- The ids of the first `n` items of a producer. -/
def itemIds (id n : ℕ) : List ℕ := (List.range n).map (itemId id)

/-- A producer has cooked these items and goes on with the next id. -/
structure Counted (id nextItemId : ℕ) (cooked : List WorkItem) : Prop where
  next : nextItemId = itemId id cooked.length
  ids : cooked.map WorkItem.id = itemIds id cooked.length

namespace Counted
variable {id nextItemId : ℕ} {cooked : List WorkItem}

theorem start (id : ℕ) : Counted id (startingId id) [] := ⟨rfl, rfl⟩

/-- **Step lemma.** -/
theorem cook (h : Counted id nextItemId cooked) (rand : ℕ → ℕ) (item : WorkItem) :
    Counted id (cookItem nextItemId rand item).2
      (cooked ++ [(cookItem nextItemId rand item).1]) where
  next := by
    rw [cookItem_next, h.next, itemId_succ, List.length_append, List.length_singleton]
  ids := by
    rw [List.map_append, h.ids, List.length_append, List.length_singleton]
    unfold itemIds
    rw [List.range_succ, List.map_append, List.map_singleton, List.map_singleton, cookItem_id,
      h.next]

/-- The first items have the first ids. -/
theorem ids_of_prefix (h : Counted id nextItemId cooked) {items : List WorkItem}
    (hp : items <+: cooked) : items.map WorkItem.id = itemIds id items.length := by
  have htake := List.prefix_iff_eq_take.mp hp
  rw [htake, List.map_take, h.ids]
  unfold itemIds
  rw [← List.map_take, List.take_range, List.length_take]

theorem getElem (h : Counted id nextItemId cooked) {k : ℕ} {item : WorkItem}
    (hk : cooked[k]? = some item) : k < cooked.length ∧ item.id = itemId id k := by
  obtain ⟨hlt, rfl⟩ := List.getElem?_eq_some_iff.mp hk
  have hid := congrArg (·[k]?) h.ids
  simp only [itemIds, List.getElem?_map, List.getElem?_range hlt, hk, Option.map_some,
    Option.some.injEq] at hid
  exact ⟨hlt, hid⟩

end Counted

end LinuxProgramming.Items
