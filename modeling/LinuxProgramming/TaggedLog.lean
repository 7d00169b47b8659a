import Mathlib.Algebra.BigOperators.Group.Finset.Basic
import Mathlib.Algebra.Order.Group.Multiset
import Mathlib.Data.Fintype.Basic
import Mathlib.Data.List.Nodup

/-! # Logs that several parties write

A log whose entries carry the party that wrote them is a merge of the parties' own logs; `part`
is what one party wrote, in its own order.  `nodup_of_parts` carries a key that is unique within
each party, and apart between any two, over to the whole log. -/

namespace LinuxProgramming

variable {ι α β : Type*} [DecidableEq ι]

/-- What one party wrote. -/
def part (log : List (ι × α)) (i : ι) : List α := (log.filter fun e => e.1 = i).map Prod.snd

@[simp] theorem part_nil (i : ι) : part ([] : List (ι × α)) i = [] := rfl

@[simp] theorem part_append (log log' : List (ι × α)) (i : ι) :
    part (log ++ log') i = part log i ++ part log' i := by
  simp [part]

@[simp] theorem part_map_self (i : ι) (l : List α) : part (l.map (i, ·)) i = l := by
  simp [part, List.filter_map, Function.comp_def]

theorem part_map_ne {i j : ι} (h : j ≠ i) (l : List α) : part (l.map (j, ·)) i = [] := by
  simp [part, List.filter_map, Function.comp_def, h]

/-- A party that wrote nothing. -/
theorem part_eq_nil {log : List (ι × α)} {i : ι} (h : ∀ e ∈ log, e.1 ≠ i) : part log i = [] := by
  unfold part
  rw [List.filter_eq_nil_iff.mpr fun e he => by simpa using h e he]
  rfl

theorem part_singleton (i j : ι) (a : α) : part [(j, a)] i = if j = i then [a] else [] := by
  by_cases h : j = i <;> simp [part, h]

theorem mem_part {log : List (ι × α)} {i : ι} {a : α} : a ∈ part log i ↔ (i, a) ∈ log := by
  simp [part]

/-- With a single party there is nothing but its part. -/
theorem part_eq_of_subsingleton [Subsingleton ι] (log : List (ι × α)) (i : ι) :
    part log i = log.map Prod.snd := by
  unfold part
  rw [List.filter_eq_self.mpr]
  intro e _
  exact decide_eq_true (Subsingleton.elim e.1 i)

/-- A party's part of the entries that `f` picks. -/
theorem part_filterMap {γ : Type*} (f : α → Option γ) (log : List (ι × α)) (i : ι) :
    part (log.filterMap fun e => (f e.2).map (e.1, ·)) i = (part log i).filterMap f := by
  induction log with
  | nil => rfl
  | cons e log ih =>
      have hsplit : part (e :: log) i = part [e] i ++ part log i := part_append [e] log i
      have hone : part ([e].filterMap fun e => (f e.2).map (e.1, ·)) i =
          (part [e] i).filterMap f := by
        cases hf : f e.2 <;> by_cases hi : e.1 = i <;> simp [part, hf, hi]
      rw [← List.singleton_append, List.filterMap_append, part_append, ih, hone,
        List.singleton_append, hsplit, List.filterMap_append]

theorem part_isPrefix {log log' : List (ι × α)} (h : log <+: log') (i : ι) :
    part log i <+: part log' i := by
  obtain ⟨rest, rfl⟩ := h
  exact ⟨part rest i, (part_append log rest i).symm⟩

/-- The parts make up the log. -/
theorem sum_part [Fintype ι] (log : List (ι × α)) :
    ∑ i, (part log i : Multiset α) = (log.map Prod.snd : List α) := by
  induction log with
  | nil => simp
  | cons e log ih =>
      have hsplit : ∀ i, (part (e :: log) i : Multiset α) = part [e] i + part log i :=
        fun i => by rw [Multiset.coe_add, ← part_append, List.singleton_append]
      have hone : ∑ i, (part [e] i : Multiset α) = {e.2} := by
        rw [Finset.sum_eq_single e.1 (fun i _ hi => by simp [part, Ne.symm hi]) (by simp)]
        simp [part]
      rw [Finset.sum_congr rfl fun i _ => hsplit i, Finset.sum_add_distrib, hone, ih,
        Multiset.singleton_add]
      rfl

theorem nodup_of_parts (key : α → β) {log : List (ι × α)}
    (hparts : ∀ i, ((part log i).map key).Nodup)
    (hapart : ∀ x ∈ log, ∀ y ∈ log, x.1 ≠ y.1 → key x.2 ≠ key y.2) :
    (log.map fun e => key e.2).Nodup := by
  induction log with
  | nil => exact List.nodup_nil
  | cons e log ih =>
      have hsplit : ∀ i, part (e :: log) i = part [e] i ++ part log i :=
        fun i => part_append [e] log i
      rw [List.map_cons, List.nodup_cons]
      constructor
      · rintro hmem
        obtain ⟨x, hx, hkey⟩ := List.mem_map.mp hmem
        by_cases hparty : x.1 = e.1
        · have hnodup := hparts e.1
          have hself : part [e] e.1 = [e.2] := by simp [part]
          rw [hsplit, hself, List.singleton_append, List.map_cons, List.nodup_cons] at hnodup
          apply hnodup.1
          rw [← hkey]
          exact List.mem_map_of_mem (mem_part.mpr (hparty ▸ hx))
        · exact hapart x (List.mem_cons_of_mem e hx) e List.mem_cons_self hparty hkey
      · apply ih
        · intro i
          have hnodup := hparts i
          rw [hsplit, List.map_append] at hnodup
          exact hnodup.of_append_right
        · intro x hx y hy
          exact hapart x (List.mem_cons_of_mem e hx) y (List.mem_cons_of_mem e hy)

end LinuxProgramming
