import Mathlib.Data.Nat.Notation
import Mathlib.Tactic.Cases

/-! # Labelled transition systems

The semantic frame of the concurrent parts of this development.  A system is given by its
initial states and an executable partial step; the label of a step carries every choice that
the scheduler, the network or the operating system makes, so a step is a function of state and
label and `none` means that the step is not enabled.

* `exec` runs a list of labels; `ReachableBy φ` collects the states reached by runs whose steps
  all meet a condition `φ` on the state before the step and its label, and `Reachable` is the
  unconditional case.
* `ReachableBy.invariant` is the invariant rule: what holds initially and is kept by every
  step holds of every state reached.
* `CanReach P s` says that some run from `s` ends in a state with `P`.
* `Simulation` relates a system to an abstract one through the abstract labels each step
  performs; `Simulation.exec_trace` transports whole runs. -/

namespace LinuxProgramming

/-- A labelled transition system with an executable step. -/
structure Lts (σ ℓ : Type*) where
  init : σ → Prop
  step : σ → ℓ → Option σ

namespace Lts

variable {σ ℓ τ κ : Type*} (M : Lts σ ℓ)

/-- Run a list of labels. -/
def exec : σ → List ℓ → Option σ
  | s, [] => some s
  | s, l :: ls => (M.step s l).bind fun s' => exec s' ls

@[simp] theorem exec_nil (s : σ) : M.exec s [] = some s := rfl

theorem exec_cons (s : σ) (l : ℓ) (ls : List ℓ) :
    M.exec s (l :: ls) = (M.step s l).bind fun s' => M.exec s' ls := rfl

theorem exec_cons_of_step {s s' : σ} {l : ℓ} (ls : List ℓ) (h : M.step s l = some s') :
    M.exec s (l :: ls) = M.exec s' ls := by
  rw [exec_cons, h]; rfl

theorem exec_append (s : σ) (ls ls' : List ℓ) :
    M.exec s (ls ++ ls') = (M.exec s ls).bind fun s' => M.exec s' ls' := by
  induction ls generalizing s with
  | nil => rfl
  | cons l ls ih =>
      rw [List.cons_append, exec_cons, exec_cons]
      cases h : M.step s l with
      | none => rfl
      | some s₁ => exact ih s₁

/-! ### Reachability -/

/-- The states reached by a run from an initial state all of whose steps meet `φ`. -/
inductive ReachableBy (φ : σ → ℓ → Prop) : σ → Prop
  | init {s : σ} : M.init s → ReachableBy φ s
  | step {s s' : σ} {l : ℓ} :
      ReachableBy φ s → φ s l → M.step s l = some s' → ReachableBy φ s'

/-- The states reached by any run. -/
def Reachable : σ → Prop := M.ReachableBy fun _ _ => True

variable {M} {φ ψ : σ → ℓ → Prop}

theorem Reachable.of_init {s : σ} (h : M.init s) : M.Reachable s := .init h

theorem Reachable.next {s s' : σ} {l : ℓ} (h : M.Reachable s) (hs : M.step s l = some s') :
    M.Reachable s' := ReachableBy.step h trivial hs

theorem ReachableBy.mono (hφ : ∀ s l, φ s l → ψ s l) {s : σ} (h : M.ReachableBy φ s) :
    M.ReachableBy ψ s := by
  induction h with
  | init hi => exact .init hi
  | step _ hl hs ih => exact .step ih (hφ _ _ hl) hs

theorem ReachableBy.reachable {s : σ} (h : M.ReachableBy φ s) : M.Reachable s :=
  h.mono fun _ _ _ => trivial

/-- **Invariant rule.** -/
theorem ReachableBy.invariant {I : σ → Prop} (hinit : ∀ s, M.init s → I s)
    (hstep : ∀ s l s', M.ReachableBy φ s → I s → φ s l → M.step s l = some s' → I s') {s : σ}
    (h : M.ReachableBy φ s) : I s := by
  induction h with
  | init hi => exact hinit _ hi
  | step hr hl hs ih => exact hstep _ _ _ hr ih hl hs

theorem Reachable.invariant {I : σ → Prop} (hinit : ∀ s, M.init s → I s)
    (hstep : ∀ s l s', I s → M.step s l = some s' → I s') {s : σ} (h : M.Reachable s) : I s :=
  ReachableBy.invariant hinit (fun s l s' _ hI _ hs => hstep s l s' hI hs) h

/-- The invariant rule whose step case may use reachability. -/
theorem Reachable.invariant' {I : σ → Prop} (hinit : ∀ s, M.init s → I s)
    (hstep : ∀ s l s', M.Reachable s → I s → M.step s l = some s' → I s') {s : σ}
    (h : M.Reachable s) : I s :=
  ReachableBy.invariant hinit (fun s l s' hr hI _ hs => hstep s l s' hr hI hs) h

/-- A condition that every step from an invariant state meets costs no runs. -/
theorem ReachableBy.by_of_invariant {I : σ → Prop} (hI : ∀ s, M.ReachableBy φ s → I s)
    (hφ : ∀ s l s', I s → ψ s l → M.step s l = some s' → φ s l) {s : σ}
    (h : M.ReachableBy ψ s) : M.ReachableBy φ s := by
  induction h with
  | init hi => exact .init hi
  | step _ hl hs ih => exact .step ih (hφ _ _ _ (hI _ ih) hl hs) hs

theorem Reachable.by_of_invariant {I : σ → Prop}
    (hI : ∀ s, M.ReachableBy φ s → I s) (hφ : ∀ s l s', I s → M.step s l = some s' → φ s l)
    {s : σ} (h : M.Reachable s) : M.ReachableBy φ s :=
  ReachableBy.by_of_invariant hI (fun s l s' hs _ => hφ s l s' hs) h

theorem ReachableBy.exec {s s' : σ} {ls : List ℓ} (h : M.ReachableBy φ s)
    (hls : ∀ s, ∀ l ∈ ls, φ s l) (he : M.exec s ls = some s') : M.ReachableBy φ s' := by
  induction ls generalizing s with
  | nil =>
      rw [exec_nil] at he
      cases he
      exact h
  | cons l ls ih =>
      rw [exec_cons] at he
      obtain ⟨s₁, hs, he⟩ := Option.bind_eq_some_iff.mp he
      exact ih (h.step (hls s l List.mem_cons_self) hs)
        (fun s l' hl' => hls s l' (List.mem_cons_of_mem l hl')) he

/-- What every step keeps holds at the end of a run. -/
theorem exec_invariant {I : σ → Prop} (hkeep : ∀ s l s', I s → M.step s l = some s' → I s')
    {s s' : σ} {ls : List ℓ} (hs : I s) (he : M.exec s ls = some s') : I s' := by
  induction ls generalizing s with
  | nil =>
      rw [exec_nil] at he
      cases he
      exact hs
  | cons l ls ih =>
      rw [exec_cons] at he
      obtain ⟨s₁, hstep, he⟩ := Option.bind_eq_some_iff.mp he
      exact ih (hkeep s l s₁ hs hstep) he

theorem Reachable.exec {s s' : σ} {ls : List ℓ} (h : M.Reachable s)
    (he : M.exec s ls = some s') : M.Reachable s' :=
  ReachableBy.exec h (fun _ _ _ => trivial) he

/-! ### What can still happen -/

variable (M) in
/-- Some run from the state ends in a state with the property. -/
def CanReach (P : σ → Prop) (s : σ) : Prop := ∃ ls s', M.exec s ls = some s' ∧ P s'

theorem CanReach.now {P : σ → Prop} {s : σ} (h : P s) : M.CanReach P s := ⟨[], s, rfl, h⟩

theorem CanReach.of_step {P : σ → Prop} {s s' : σ} {l : ℓ} (hs : M.step s l = some s')
    (h : M.CanReach P s') : M.CanReach P s := by
  obtain ⟨ls, s'', he, hP⟩ := h
  exact ⟨l :: ls, s'', (M.exec_cons_of_step ls hs).trans he, hP⟩

theorem CanReach.trans {P Q : σ → Prop} {s : σ} (h : M.CanReach P s)
    (hPQ : ∀ s', P s' → M.CanReach Q s') : M.CanReach Q s := by
  obtain ⟨ls, s', he, hP⟩ := h
  obtain ⟨ls', s'', he', hQ⟩ := hPQ s' hP
  refine ⟨ls ++ ls', s'', ?_, hQ⟩
  rw [exec_append, he]
  exact he'

/-! ### Forward simulation -/

variable (M) in
/-- The abstract labels performed along a run. -/
def trace (obs : σ → ℓ → List κ) : σ → List ℓ → List κ
  | _, [] => []
  | s, l :: ls =>
      match M.step s l with
      | none => []
      | some s' => obs s l ++ trace obs s' ls

/-- A log that every step extends by what it contributes is extended along a run by what the
trace contributes. -/
theorem log_eq_trace {α : Type*} {obs : σ → ℓ → List κ} {log : σ → List α} {f : List κ → List α}
    (hnil : f [] = []) (happ : ∀ a b, f (a ++ b) = f a ++ f b)
    (hstep : ∀ s l s', M.step s l = some s' → log s' = log s ++ f (obs s l)) {s s' : σ}
    {ls : List ℓ} (he : M.exec s ls = some s') : log s' = log s ++ f (M.trace obs s ls) := by
  induction ls generalizing s with
  | nil =>
      rw [exec_nil] at he
      cases he
      simp [trace, hnil]
  | cons l ls ih =>
      rw [exec_cons] at he
      obtain ⟨s₁, hs, he⟩ := Option.bind_eq_some_iff.mp he
      rw [ih he, hstep s l s₁ hs]
      simp only [trace, hs, happ, List.append_assoc]

/-- The invariant rule for a property of the state and of what the run so far has performed. -/
theorem Reachable.trace_invariant {obs : σ → ℓ → List κ} {I : σ → List κ → Prop}
    (hstep : ∀ s l s' tr, M.Reachable s → I s tr → M.step s l = some s' → I s' (tr ++ obs s l))
    {s s' : σ} {tr : List κ} {ls : List ℓ} (hr : M.Reachable s) (hI : I s tr)
    (he : M.exec s ls = some s') : I s' (tr ++ M.trace obs s ls) := by
  induction ls generalizing s tr with
  | nil =>
      rw [exec_nil] at he
      cases he
      rw [trace, List.append_nil]
      exact hI
  | cons l ls ih =>
      rw [exec_cons] at he
      obtain ⟨s₁, hs, he⟩ := Option.bind_eq_some_iff.mp he
      have hrest := ih (hr.next hs) (hstep s l s₁ tr hr hI hs) he
      rw [List.append_assoc] at hrest
      simp only [trace, hs]
      exact hrest

theorem trace_append {obs : σ → ℓ → List κ} {s s' : σ} {ls : List ℓ} (he : M.exec s ls = some s')
    (ls' : List ℓ) : M.trace obs s (ls ++ ls') = M.trace obs s ls ++ M.trace obs s' ls' := by
  induction ls generalizing s with
  | nil =>
      rw [exec_nil] at he
      cases he
      rfl
  | cons l ls ih =>
      rw [exec_cons] at he
      obtain ⟨s₁, hs, he⟩ := Option.bind_eq_some_iff.mp he
      rw [List.cons_append]
      simp only [trace, hs]
      rw [ih he, List.append_assoc]

variable (M) in
/-- A forward simulation of `M` by `A`: every step of `M` performs the abstract labels
`obs s l`, none for a step that `A` does not see. -/
structure Simulation (A : Lts τ κ) where
  rel : σ → τ → Prop
  obs : σ → ℓ → List κ
  init : ∀ s, M.init s → ∃ t, A.init t ∧ rel s t
  step : ∀ s l s' t, M.Reachable s → rel s t → M.step s l = some s' →
    ∃ t', A.exec t (obs s l) = some t' ∧ rel s' t'

theorem Simulation.exec_trace {A : Lts τ κ} (R : M.Simulation A) {s s' : σ} {t : τ}
    {ls : List ℓ} (hr : M.Reachable s) (hst : R.rel s t) (he : M.exec s ls = some s') :
    ∃ t', A.exec t (M.trace R.obs s ls) = some t' ∧ R.rel s' t' := by
  induction ls generalizing s t with
  | nil =>
      rw [exec_nil] at he
      cases he
      exact ⟨t, rfl, hst⟩
  | cons l ls ih =>
      rw [exec_cons] at he
      obtain ⟨s₁, hs, he⟩ := Option.bind_eq_some_iff.mp he
      obtain ⟨t₁, ht, hrel⟩ := R.step s l s₁ t hr hst hs
      obtain ⟨t', ht', hrel'⟩ := ih (hr.next hs) hrel he
      refine ⟨t', ?_, hrel'⟩
      simp only [trace, hs, exec_append, ht, Option.bind_some, ht']

end Lts

end LinuxProgramming
