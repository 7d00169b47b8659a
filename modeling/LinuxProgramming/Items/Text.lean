import LinuxProgramming.Items.WorkItem
import Mathlib.Data.Char

/-! # The text of an item

`cook_item` writes a string of small letters and its end over the array `data`; what stands behind
the end stays.  So what a reader of the item sees, its id and its text, depends on the results of
`rand()` alone, and any text that fits can come out (`seen_cook`, `exists_cook`). -/

namespace LinuxProgramming.Items

/-- The string in `data`. -/
def WorkItem.text (item : WorkItem) : List Char :=
  ((List.range maxWorkItemLen).map item.data).takeWhile (· ≠ Char.ofNat 0)

/-- `'a' + rand() % 26`. -/
def letter (r : ℕ) : Char := Char.ofNat ('a'.toNat + r % 26)

/-- What a reader sees of an item. -/
def WorkItem.seen (item : WorkItem) : ℕ × List Char := (item.id, item.text)

/-- The item is one that producer `id` can cook after `k` others. -/
structure Cookable (id k : ℕ) (x : ℕ × List Char) : Prop where
  id_eq : x.1 = itemId id k
  length_lt : x.2.length < maxWorkItemLen - 1
  letters : ∀ c ∈ x.2, 'a' ≤ c ∧ c ≤ 'z'

/-! ### Letters -/

theorem letter_bounds (r : ℕ) : 'a' ≤ letter r ∧ letter r ≤ 'z' := by
  have hall : ∀ n < 26, 'a' ≤ letter n ∧ letter n ≤ 'z' := by decide
  have h := hall (r % 26) (Nat.mod_lt _ (by decide))
  unfold letter at h
  rwa [Nat.mod_mod] at h

theorem letter_ne_zero (r : ℕ) : letter r ≠ Char.ofNat 0 := by
  intro h
  have hbounds := (letter_bounds r).1
  rw [h] at hbounds
  exact absurd hbounds (by decide)

/-- Every small letter can come out. -/
theorem exists_letter {c : Char} (h : 'a' ≤ c ∧ c ≤ 'z') : letter (c.toNat - 'a'.toNat) = c := by
  have hlow : 'a'.toNat ≤ c.toNat := h.1
  have hhigh : c.toNat ≤ 'z'.toNat := h.2
  have hlt : c.toNat - 'a'.toNat < 26 := by
    have : 'z'.toNat = 'a'.toNat + 25 := rfl
    omega
  unfold letter
  rw [Nat.mod_eq_of_lt hlt, Nat.add_sub_cancel' hlow]
  exact Char.ofNat_toNat c

/-! ### Cooked items -/

/-- The loop of `cook_item` has written the first `n` letters. -/
theorem fold_letters (rand : ℕ → ℕ) (data : ℕ → Char) (n i : ℕ) :
    (List.range n).foldl (fun data i => Function.update data i
      (Char.ofNat ('a'.toNat + rand (i + 1) % 26))) data i =
    if i < n then letter (rand (i + 1)) else data i := by
  induction n with
  | zero => rfl
  | succ n ih =>
      rw [List.range_succ, List.foldl_append, List.foldl_cons, List.foldl_nil]
      by_cases hi : i = n
      · subst hi
        rw [Function.update_self, if_pos (Nat.lt_succ_self i)]
        rfl
      · rw [Function.update_of_ne hi, ih]
        by_cases hlt : i < n
        · rw [if_pos hlt, if_pos (by omega)]
        · rw [if_neg hlt, if_neg (by omega)]

/-- What the array holds: the letters, the end, and what was there before. -/
theorem data_cook (nextItemId : ℕ) (rand : ℕ → ℕ) (item : WorkItem) (i : ℕ) :
    (cookItem nextItemId rand item).1.data i =
      if i = rand 0 % (maxWorkItemLen - 1) then Char.ofNat 0
      else if i < rand 0 % (maxWorkItemLen - 1) then letter (rand (i + 1)) else item.data i := by
  unfold cookItem
  simp only
  split
  · next hi =>
      subst hi
      exact Function.update_self _ _ _
  · next hi =>
      rw [Function.update_of_ne hi]
      exact fold_letters rand item.data _ i

theorem text_cook (nextItemId : ℕ) (rand : ℕ → ℕ) (item : WorkItem) :
    (cookItem nextItemId rand item).1.text =
      (List.range (rand 0 % (maxWorkItemLen - 1))).map fun i => letter (rand (i + 1)) := by
  have hlen : rand 0 % (maxWorkItemLen - 1) < maxWorkItemLen - 1 := Nat.mod_lt _ (by decide)
  obtain ⟨rest, hrest⟩ : ∃ rest, maxWorkItemLen = rand 0 % (maxWorkItemLen - 1) + (rest + 1) :=
    ⟨maxWorkItemLen - rand 0 % (maxWorkItemLen - 1) - 1, by omega⟩
  have hsplit : (List.range maxWorkItemLen).map (cookItem nextItemId rand item).1.data =
      (List.range (rand 0 % (maxWorkItemLen - 1))).map (fun i => letter (rand (i + 1))) ++
        Char.ofNat 0 :: ((List.range rest).map fun i =>
          (cookItem nextItemId rand item).1.data (rand 0 % (maxWorkItemLen - 1) + (i + 1))) := by
    rw [(congrArg List.range hrest).trans List.range_add, List.map_append,
      List.range_succ_eq_map, List.map_cons, List.map_cons, data_cook, if_pos (Nat.add_zero _),
      List.map_map, List.map_map]
    congr 1
    refine List.map_congr_left fun i hi => ?_
    have hlt := List.mem_range.mp hi
    rw [data_cook, if_neg (Nat.ne_of_lt hlt), if_pos hlt]
  unfold WorkItem.text
  rw [hsplit, List.takeWhile_append_of_pos, List.takeWhile_cons_of_neg (by simp), List.append_nil]
  intro c hc
  obtain ⟨i, -, rfl⟩ := List.mem_map.mp hc
  exact decide_eq_true (letter_ne_zero _)

/-- Whatever stood in its memory, a cooked item is one that the producer can cook. -/
theorem Counted.seen_cook {id nextItemId : ℕ} {cooked : List WorkItem}
    (h : Counted id nextItemId cooked) (rand : ℕ → ℕ) (item : WorkItem) :
    Cookable id cooked.length (cookItem nextItemId rand item).1.seen where
  id_eq := h.next
  length_lt := by
    unfold WorkItem.seen
    rw [text_cook, List.length_map, List.length_range]
    exact Nat.mod_lt _ (by decide)
  letters := by
    unfold WorkItem.seen
    rw [text_cook]
    intro c hc
    obtain ⟨i, -, rfl⟩ := List.mem_map.mp hc
    exact letter_bounds _

/-- Every item that the producer can cook comes out for some results of `rand()`. -/
theorem Counted.exists_cook {id nextItemId : ℕ} {cooked : List WorkItem}
    (h : Counted id nextItemId cooked) {x : ℕ × List Char} (hx : Cookable id cooked.length x) :
    ∃ rand, ∀ item, (cookItem nextItemId rand item).1.seen = x := by
  obtain ⟨k, text⟩ := x
  refine ⟨fun n => if n = 0 then text.length
    else ((text[n - 1]?).getD 'a').toNat - 'a'.toNat, fun item => ?_⟩
  have hid : nextItemId = k := h.next.trans hx.id_eq.symm
  unfold WorkItem.seen
  rw [cookItem_id, hid, text_cook, if_pos rfl, Nat.mod_eq_of_lt hx.length_lt]
  congr 1
  refine List.ext_getElem (by simp) fun i hi hi' => ?_
  rw [List.getElem_map, List.getElem_range, if_neg (Nat.succ_ne_zero i), Nat.add_sub_cancel,
    List.getElem?_eq_getElem hi', Option.getD_some]
  exact exists_letter (hx.letters _ (List.getElem_mem hi'))

end LinuxProgramming.Items
