import Mathlib.Data.Fintype.Order
import Mathlib.Data.Fintype.Lattice
import Mathlib.Data.Set.Finite.Lattice
import Mathlib.Logic.Relation

/-! # How deep calls go

A recursive procedure seen through its calls: `R k k'` says that the call `k` makes the call
`k'`, and `T f k` that the call `k` returns when calls may be nested at most `f` deep.  The
relation between the two, `Depth`, is all that is known.

Where only finitely many calls can arise, a call returns at some depth exactly if no call inside
it is made again inside itself (`Depth.terminates_iff`).  `Within` is the depth that a relation
has by itself. -/

namespace LinuxProgramming

open Relation

variable {κ : Type*} {R : κ → κ → Prop} {T : ℕ → κ → Prop}

/-- A call returns if the calls that it makes return one level deeper. -/
structure Depth (R : κ → κ → Prop) (T : ℕ → κ → Prop) : Prop where
  zero : ∀ k, ¬ T 0 k
  succ : ∀ f k, T (f + 1) k ↔ ∀ k', R k k' → T f k'

/-- No chain of calls from `k` is as long as the bound. -/
def Within (R : κ → κ → Prop) : ℕ → κ → Prop
  | 0, _ => False
  | f + 1, k => ∀ k', R k k' → Within R f k'

theorem depth_within (R : κ → κ → Prop) : Depth R (Within R) where
  zero _ h := h
  succ _ _ := Iff.rfl

namespace Depth

theorem mono_succ (h : Depth R T) {f : ℕ} {k : κ} (hk : T f k) : T (f + 1) k := by
  induction f generalizing k with
  | zero => exact absurd hk (h.zero k)
  | succ f ih =>
      rw [h.succ]
      intro k' hR
      exact ih ((h.succ f k).mp hk k' hR)

theorem mono (h : Depth R T) {f f' : ℕ} (hle : f ≤ f') {k : κ} (hk : T f k) : T f' k := by
  induction hle with
  | refl => exact hk
  | step _ ih => exact h.mono_succ ih

/-- A call made inside returns no deeper than the call itself. -/
theorem of_reflTransGen (h : Depth R T) {f : ℕ} {k k' : κ} (hk : T f k)
    (hR : ReflTransGen R k k') : T f k' := by
  induction hR with
  | refl => exact hk
  | tail _ hstep ih =>
      obtain ⟨f, rfl⟩ : ∃ n, f = n + 1 := by
        rcases f with _ | f
        · exact absurd hk (h.zero k)
        · exact ⟨f, rfl⟩
      exact h.mono_succ ((h.succ f _).mp ih _ hstep)

/-- A call that returns is not made inside itself. -/
theorem irrefl_of_terminates (h : Depth R T) {f : ℕ} {k : κ} (hk : T f k) : ¬ TransGen R k k := by
  intro hcycle
  induction f with
  | zero => exact h.zero k hk
  | succ f ih =>
      -- the call inside is one level deeper, and so is everything that follows from it
      obtain ⟨k', hstep, hback⟩ := TransGen.head'_iff.mp hcycle
      exact ih (h.of_reflTransGen ((h.succ f k).mp hk k' hstep) hback)

/-- Calls without repetition return, if there are only finitely many. -/
theorem terminates_of_acyclic (h : Depth R T) {k : κ}
    (hfinite : {k' | ReflTransGen R k k'}.Finite)
    (hacyclic : ∀ k', ReflTransGen R k k' → ¬ TransGen R k' k') : ∃ f, T f k := by
  have hsub : Finite {k' // ReflTransGen R k k'} := hfinite
  -- inside `k` the calls are well-founded
  let inside : {k' // ReflTransGen R k k'} → {k' // ReflTransGen R k k'} → Prop :=
    fun a b => TransGen R b.1 a.1
  have hirrefl : Std.Irrefl inside := ⟨fun a => hacyclic a.1 a.2⟩
  have htrans : IsTrans _ inside := ⟨fun _ _ _ hab hbc => hbc.trans hab⟩
  have hwf : WellFounded inside := Finite.wellFounded_of_trans_of_irrefl inside
  have hall : ∀ a : {k' // ReflTransGen R k k'}, ∃ f, T f a.1 := by
    intro a
    induction a using hwf.induction with
    | _ a ih =>
        have hnext : ∀ b : {k' // ReflTransGen R k k'}, ∃ f, R a.1 b.1 → T f b.1 := by
          intro b
          by_cases hR : R a.1 b.1
          · obtain ⟨f, hf⟩ := ih b (.single hR)
            exact ⟨f, fun _ => hf⟩
          · exact ⟨0, fun hR' => absurd hR' hR⟩
        choose depth hdepth using hnext
        obtain ⟨f, hf⟩ := Finite.bddAbove_range depth
        refine ⟨f + 1, (h.succ f a.1).mpr fun k' hR => ?_⟩
        have hle : depth ⟨k', a.2.tail hR⟩ ≤ f := hf ⟨_, rfl⟩
        exact h.mono hle (hdepth ⟨k', a.2.tail hR⟩ hR)
  exact hall ⟨k, .refl⟩

/-- **Termination.** -/
theorem terminates_iff (h : Depth R T) {k : κ} (hfinite : {k' | ReflTransGen R k k'}.Finite) :
    (∃ f, T f k) ↔ ∀ k', ReflTransGen R k k' → ¬ TransGen R k' k' := by
  constructor
  · rintro ⟨f, hf⟩ k' hR
    exact h.irrefl_of_terminates (h.of_reflTransGen hf hR)
  · exact h.terminates_of_acyclic hfinite

end Depth

end LinuxProgramming
