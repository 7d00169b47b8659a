import LinuxProgramming.Lts

/-! # Runs that only finish what is under way

`CountsDown` is the shape of a progress argument.  Some labels of a system only finish what is
under way; from the states of an invariant each of them takes one off a measure, and as long as
the measure is positive one of them is enabled.  Then a run of such labels is never stuck before
the measure is zero (`CountsDown.finish`), and all of them that get there have the same length
(`CountsDown.length_add`).

Where such labels can also be blocked, `exists_blocked` still takes them as far as they go. -/

namespace LinuxProgramming.Lts

variable {σ ℓ κ : Type*} {M : Lts σ ℓ}

/-- The labels of `φ` count the measure `μ` down to zero from the states of `I`. -/
structure CountsDown (M : Lts σ ℓ) (I : σ → Prop) (φ : ℓ → Prop) (μ : σ → ℕ) : Prop where
  keep : ∀ s l s', I s → φ l → M.step s l = some s' → I s'
  lower : ∀ s l s', I s → φ l → M.step s l = some s' → μ s' + 1 = μ s
  enabled : ∀ s, I s → 0 < μ s → ∃ l s', φ l ∧ M.step s l = some s'

namespace CountsDown
variable {I : σ → Prop} {φ : ℓ → Prop} {μ : σ → ℕ}

theorem exec (h : CountsDown M I φ μ) {s s' : σ} {ls : List ℓ} (hs : I s) (hls : ∀ l ∈ ls, φ l)
    (he : M.exec s ls = some s') : I s' := by
  induction ls generalizing s with
  | nil =>
      rw [exec_nil] at he
      cases he
      exact hs
  | cons l ls ih =>
      rw [exec_cons] at he
      obtain ⟨s₁, hstep, he⟩ := Option.bind_eq_some_iff.mp he
      exact ih (h.keep s l s₁ hs (hls l List.mem_cons_self) hstep)
        (fun l' hl' => hls l' (List.mem_cons_of_mem l hl')) he

/-- The length of a run of such labels is what it takes off the measure. -/
theorem length_add (h : CountsDown M I φ μ) {s s' : σ} {ls : List ℓ} (hs : I s)
    (hls : ∀ l ∈ ls, φ l) (he : M.exec s ls = some s') : ls.length + μ s' = μ s := by
  induction ls generalizing s with
  | nil =>
      rw [exec_nil] at he
      cases he
      exact Nat.zero_add _
  | cons l ls ih =>
      rw [exec_cons] at he
      obtain ⟨s₁, hstep, he⟩ := Option.bind_eq_some_iff.mp he
      have hl := hls l List.mem_cons_self
      have hrest := ih (h.keep s l s₁ hs hl hstep)
        (fun l' hl' => hls l' (List.mem_cons_of_mem l hl')) he
      have hlower := h.lower s l s₁ hs hl hstep
      rw [List.length_cons]
      omega

/-- From every state of the invariant such a run reaches measure zero. -/
theorem finish (h : CountsDown M I φ μ) : ∀ (n : ℕ) (s : σ), I s → μ s = n →
    ∃ ls s', (∀ l ∈ ls, φ l) ∧ M.exec s ls = some s' ∧ μ s' = 0
  | 0, s, _, hn => ⟨[], s, by simp, rfl, hn⟩
  | n + 1, s, hs, hn => by
      obtain ⟨l, s₁, hl, hstep⟩ := h.enabled s hs (by omega)
      have hlower := h.lower s l s₁ hs hl hstep
      obtain ⟨ls, s', hls, he, hzero⟩ := h.finish n s₁ (h.keep s l s₁ hs hl hstep) (by omega)
      refine ⟨l :: ls, s', ?_, (M.exec_cons_of_step ls hstep).trans he, hzero⟩
      intro l' hl'
      rcases List.mem_cons.mp hl' with rfl | hl'
      · exact hl
      · exact hls l' hl'

end CountsDown

/-! ### Where labels can be blocked -/

/-- Each label of the run meets `φ` in the state in which it is taken. -/
def Along (M : Lts σ ℓ) (φ : σ → ℓ → Prop) : σ → List ℓ → Prop
  | _, [] => True
  | s, l :: ls => φ s l ∧ ∀ s', M.step s l = some s' → Along M φ s' ls

instance Along.decidable {φ : σ → ℓ → Prop} [∀ s l, Decidable (φ s l)] :
    ∀ (s : σ) (ls : List ℓ), Decidable (M.Along φ s ls)
  | _, [] => .isTrue trivial
  | s, l :: ls =>
      have : ∀ s', Decidable (M.Along φ s' ls) := fun s' => Along.decidable s' ls
      inferInstanceAs (Decidable (φ s l ∧ ∀ s' ∈ M.step s l, M.Along φ s' ls))

theorem Along.of_forall {φ : σ → ℓ → Prop} {ls : List ℓ} (h : ∀ s, ∀ l ∈ ls, φ s l) (s : σ) :
    M.Along φ s ls := by
  induction ls generalizing s with
  | nil => trivial
  | cons l ls ih =>
      exact ⟨h s l List.mem_cons_self,
        fun s' _ => ih (fun s l' hl' => h s l' (List.mem_cons_of_mem l hl')) s'⟩

/-- What the labels keep holds at the end of the run. -/
theorem Along.invariant {I : σ → Prop} {φ : σ → ℓ → Prop}
    (hkeep : ∀ s l s', I s → φ s l → M.step s l = some s' → I s') {s s' : σ} {ls : List ℓ}
    (h : M.Along φ s ls) (hs : I s) (he : M.exec s ls = some s') : I s' := by
  induction ls generalizing s with
  | nil =>
      rw [exec_nil] at he
      cases he
      exact hs
  | cons l ls ih =>
      rw [exec_cons] at he
      obtain ⟨s₁, hstep, he⟩ := Option.bind_eq_some_iff.mp he
      exact ih (h.2 s₁ hstep) (hkeep s l s₁ hs h.1 hstep) he

theorem Along.reachableBy {φ : σ → ℓ → Prop} {s s' : σ} {ls : List ℓ} (h : M.Along φ s ls)
    (hr : M.ReachableBy φ s) (he : M.exec s ls = some s') : M.ReachableBy φ s' :=
  h.invariant (fun _ _ _ hr hl hs => hr.step hl hs) hr he

/-- Labels that lower a measure make a run no longer than it. -/
theorem Along.length_add_le {I : σ → Prop} {φ : σ → ℓ → Prop} {μ : σ → ℕ}
    (hkeep : ∀ s l s', I s → φ s l → M.step s l = some s' → I s')
    (hlower : ∀ s l s', I s → φ s l → M.step s l = some s' → μ s' < μ s) {s s' : σ}
    {ls : List ℓ} (h : M.Along φ s ls) (hs : I s) (he : M.exec s ls = some s') :
    ls.length + μ s' ≤ μ s := by
  induction ls generalizing s with
  | nil =>
      rw [exec_nil] at he
      cases he
      exact Nat.le_of_eq (Nat.zero_add _)
  | cons l ls ih =>
      rw [exec_cons] at he
      obtain ⟨s₁, hstep, he⟩ := Option.bind_eq_some_iff.mp he
      have hrest := ih (h.2 s₁ hstep) (hkeep s l s₁ hs h.1 hstep) he
      have hlt := hlower s l s₁ hs h.1 hstep
      rw [List.length_cons]
      omega

theorem Along.trace_eq_nil {φ : σ → ℓ → Prop} {obs : σ → ℓ → List κ}
    (hsilent : ∀ s l, φ s l → obs s l = []) {s : σ} {ls : List ℓ} (h : M.Along φ s ls) :
    M.trace obs s ls = [] := by
  induction ls generalizing s with
  | nil => rfl
  | cons l ls ih =>
      unfold trace
      split
      · rfl
      · next s' hs => rw [hsilent s l h.1, ih (h.2 s' hs), List.append_nil]

/-- The invariant rule for a property of the state and of what the run so far has performed, seen
in two ways. -/
theorem Along.traces_invariant {ω : Type*} {φ : σ → ℓ → Prop} {obs : σ → ℓ → List κ}
    {obs' : σ → ℓ → List ω} {I : σ → List κ → List ω → Prop}
    (hstep : ∀ s l s' tr tr', M.ReachableBy φ s → I s tr tr' → φ s l → M.step s l = some s' →
      I s' (tr ++ obs s l) (tr' ++ obs' s l)) {s s' : σ} {tr : List κ} {tr' : List ω}
    {ls : List ℓ} (h : M.Along φ s ls) (hr : M.ReachableBy φ s) (hI : I s tr tr')
    (he : M.exec s ls = some s') : I s' (tr ++ M.trace obs s ls) (tr' ++ M.trace obs' s ls) := by
  induction ls generalizing s tr tr' with
  | nil =>
      rw [exec_nil] at he
      cases he
      rw [trace, trace, List.append_nil, List.append_nil]
      exact hI
  | cons l ls ih =>
      rw [exec_cons] at he
      obtain ⟨s₁, hs, he⟩ := Option.bind_eq_some_iff.mp he
      have hrest := ih (h.2 s₁ hs) (hr.step h.1 hs) (hstep s l s₁ tr tr' hr hI h.1 hs) he
      rw [List.append_assoc, List.append_assoc] at hrest
      simp only [trace, hs]
      exact hrest

theorem Along.forall {φ : ℓ → Prop} {s s' : σ} {ls : List ℓ} (h : M.Along (fun _ l => φ l) s ls)
    (he : M.exec s ls = some s') : ∀ l ∈ ls, φ l := by
  induction ls generalizing s with
  | nil => exact fun l hl => by cases hl
  | cons l ls ih =>
      rw [exec_cons] at he
      obtain ⟨s₁, hs, he⟩ := Option.bind_eq_some_iff.mp he
      intro l' hl'
      rcases List.mem_cons.mp hl' with rfl | hl'
      · exact h.1
      · exact ih (h.2 s₁ hs) he l' hl'

/-- Labels that lower a measure can be taken until none of them is enabled. -/
theorem exists_blocked {I : σ → Prop} {φ : σ → ℓ → Prop} {μ : σ → ℕ}
    (hkeep : ∀ s l s', I s → φ s l → M.step s l = some s' → I s')
    (hlower : ∀ s l s', I s → φ s l → M.step s l = some s' → μ s' < μ s) :
    ∀ (n : ℕ) (s : σ), I s → μ s = n →
    ∃ ls s', M.exec s ls = some s' ∧ M.Along φ s ls ∧ ∀ l, φ s' l → M.step s' l = none := by
  intro n
  induction n using Nat.strongRecOn with
  | ind n ih =>
      intro s hs hn
      by_cases hmoves : ∃ l s₁, φ s l ∧ M.step s l = some s₁
      · obtain ⟨l, s₁, hl, hstep⟩ := hmoves
        obtain ⟨ls, s', he, halong, hblocked⟩ :=
          ih (μ s₁) (hn ▸ hlower s l s₁ hs hl hstep) s₁ (hkeep s l s₁ hs hl hstep) rfl
        refine ⟨l :: ls, s', (M.exec_cons_of_step ls hstep).trans he, ⟨hl, ?_⟩, hblocked⟩
        intro s₂ hs₂
        rw [hstep] at hs₂
        cases hs₂
        exact halong
      · refine ⟨[], s, rfl, trivial, fun l hl => ?_⟩
        cases hstep : M.step s l with
        | none => rfl
        | some s₁ => exact absurd ⟨l, s₁, hl, hstep⟩ hmoves

/-- Labels that lower the measure, between others that do not raise it, are no more than it. -/
theorem countP_add_le {I : σ → Prop} {own : ℓ → Bool} {φ : ℓ → Prop} {μ : σ → ℕ}
    (hkeep : ∀ s l s', I s → φ l → M.step s l = some s' → I s')
    (hlower : ∀ s l s', I s → own l = true → φ l → M.step s l = some s' → μ s' < μ s)
    (hframe : ∀ s l s', own l = false → M.step s l = some s' → μ s' ≤ μ s) {s s' : σ}
    {ls : List ℓ} (hs : I s) (hls : ∀ l ∈ ls, φ l) (he : M.exec s ls = some s') :
    ls.countP own + μ s' ≤ μ s := by
  induction ls generalizing s with
  | nil =>
      rw [exec_nil] at he
      cases he
      exact Nat.le_of_eq (Nat.zero_add _)
  | cons l ls ih =>
      rw [exec_cons] at he
      obtain ⟨s₁, hstep, he⟩ := Option.bind_eq_some_iff.mp he
      have hl := hls l List.mem_cons_self
      have hrest := ih (hkeep s l s₁ hs hl hstep)
        (fun l' hl' => hls l' (List.mem_cons_of_mem l hl')) he
      cases hown : own l with
      | true =>
          have hlt := hlower s l s₁ hs hown hl hstep
          rw [List.countP_cons_of_pos hown]
          omega
      | false =>
          have hle := hframe s l s₁ hown hstep
          rw [List.countP_cons_of_neg (by simp [hown])]
          omega

end LinuxProgramming.Lts
