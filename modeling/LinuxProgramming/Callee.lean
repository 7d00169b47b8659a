import LinuxProgramming.Countdown

/-! # Systems that call a component

A component is a system of its own, with two kinds of labels: `inl c` is a call that returns, `c`
saying what was asked and what the answer is, and `inr w` is something that it does by itself.
`calling` puts it together with a system whose steps make such calls; a step whose call does not
return in the state that the component is in is not enabled.

* Runs of the two are runs of the calling system (`exec_fst`), so what holds of its runs whatever
  the answers are holds with every component.
* `Returns` says that the component comes by itself to a state in which a call returns.
  `CountsDown.finish_calling` is the progress argument of `CountsDown` where the calls that are
  made return in this sense. -/

namespace LinuxProgramming.Lts

variable {σ ℓ ε κ ω : Type*}

/-- `calls s l` is the call that step `l` makes, if it makes one. -/
def calling (M : Lts σ ℓ) (calls : σ → ℓ → Option κ) (E : Lts ε (κ ⊕ ω)) :
    Lts (σ × ε) (ℓ ⊕ ω) where
  init x := M.init x.1 ∧ E.init x.2
  step x
    | .inl l => (M.step x.1 l).bind fun s =>
        match calls x.1 l with
        | none => some (s, x.2)
        | some c => (E.step x.2 (.inl c)).map fun e => (s, e)
    | .inr w => (E.step x.2 (.inr w)).map fun e => (x.1, e)

/-- The component has been reached by calls that all meet `φ`. -/
def After (E : Lts ε (κ ⊕ ω)) (φ : κ → Prop) : ε → Prop :=
  E.ReachableBy fun _ l => ∀ c, l = .inl c → φ c

/-- From the state on the component comes by itself to where one of the calls returns. -/
def Returns (E : Lts ε (κ ⊕ ω)) (e : ε) (Q : κ → Prop) : Prop :=
  ∃ (ws : List ω) (e' : ε) (c : κ) (e'' : ε),
    E.exec e (ws.map .inr) = some e' ∧ Q c ∧ E.step e' (.inl c) = some e''

section calling
variable {M : Lts σ ℓ} {calls : σ → ℓ → Option κ} {E : Lts ε (κ ⊕ ω)}

/-! ### One step -/

theorem calling_of_none {s s' : σ} {l : ℓ} (hs : M.step s l = some s') (hc : calls s l = none)
    (e : ε) : (M.calling calls E).step (s, e) (.inl l) = some (s', e) := by
  simp only [calling, hs, hc, Option.bind_some]

theorem calling_of_some {s s' : σ} {l : ℓ} {c : κ} {e e' : ε} (hs : M.step s l = some s')
    (hc : calls s l = some c) (he : E.step e (.inl c) = some e') :
    (M.calling calls E).step (s, e) (.inl l) = some (s', e') := by
  simp only [calling, hs, hc, he, Option.bind_some, Option.map_some]

/-- A step of the calling system, and its call. -/
theorem calling_inl {x x' : σ × ε} {l : ℓ} (h : (M.calling calls E).step x (.inl l) = some x') :
    M.step x.1 l = some x'.1 ∧
      ((calls x.1 l = none ∧ x'.2 = x.2) ∨
        ∃ c, calls x.1 l = some c ∧ E.step x.2 (.inl c) = some x'.2) := by
  obtain ⟨s, hs, h⟩ := Option.bind_eq_some_iff.mp h
  cases hc : calls x.1 l with
  | none =>
      rw [hc] at h
      cases h
      exact ⟨hs, .inl ⟨rfl, rfl⟩⟩
  | some c =>
      rw [hc] at h
      obtain ⟨e, he, rfl⟩ := Option.map_eq_some_iff.mp h
      exact ⟨hs, .inr ⟨c, rfl, he⟩⟩

/-- A step of the component by itself. -/
theorem calling_inr {x x' : σ × ε} {w : ω} (h : (M.calling calls E).step x (.inr w) = some x') :
    x'.1 = x.1 ∧ E.step x.2 (.inr w) = some x'.2 := by
  obtain ⟨e, he, rfl⟩ := Option.map_eq_some_iff.mp h
  exact ⟨rfl, he⟩

/-! ### Whole runs -/

theorem exec_fst {x x' : σ × ε} {ls : List (ℓ ⊕ ω)}
    (h : (M.calling calls E).exec x ls = some x') :
    M.exec x.1 (ls.filterMap Sum.getLeft?) = some x'.1 := by
  induction ls generalizing x with
  | nil =>
      rw [exec_nil] at h
      cases h
      rfl
  | cons l ls ih =>
      obtain ⟨x₁, hs, hrest⟩ := Option.bind_eq_some_iff.mp h
      cases l with
      | inl l =>
          rw [List.filterMap_cons_some (by rfl), M.exec_cons_of_step _ (calling_inl hs).1]
          exact ih hrest
      | inr w =>
          rw [List.filterMap_cons_none (by rfl), ← (calling_inr hs).1]
          exact ih hrest

theorem reachable_fst {x : σ × ε} (h : (M.calling calls E).Reachable x) : M.Reachable x.1 := by
  apply Reachable.invariant (M := M.calling calls E) (I := fun x => M.Reachable x.1) _ _ h
  · intro x hx
    exact .of_init hx.1
  · intro x l x' hr hs
    cases l with
    | inl l => exact hr.next (calling_inl hs).1
    | inr w => rwa [(calling_inr hs).1]

/-- The steps of the calling system in a run. -/
theorem forall_getLeft {φ : ℓ → Prop} {ls : List (ℓ ⊕ ω)} (h : ∀ l, .inl l ∈ ls → φ l) :
    ∀ l ∈ ls.filterMap Sum.getLeft?, φ l := by
  intro l hl
  obtain ⟨l', hl', heq⟩ := List.mem_filterMap.mp hl
  cases l' with
  | inl l' =>
      cases heq
      exact h l hl'
  | inr w => cases heq

/-- The component by itself, while the calling system waits. -/
theorem exec_own (s : σ) {e e' : ε} {ws : List ω} (h : E.exec e (ws.map .inr) = some e') :
    (M.calling calls E).exec (s, e) (ws.map .inr) = some (s, e') := by
  induction ws generalizing e with
  | nil =>
      rw [List.map_nil, exec_nil] at h
      cases h
      rfl
  | cons w ws ih =>
      rw [List.map_cons, exec_cons] at h
      obtain ⟨e₁, he, h⟩ := Option.bind_eq_some_iff.mp h
      have hs : (M.calling calls E).step (s, e) (.inr w) = some (s, e₁) := by
        simp only [calling, he, Option.map_some]
      rw [List.map_cons, (M.calling calls E).exec_cons_of_step _ hs]
      exact ih h

/-- What the component has been called for, kept as an invariant of the two: a condition on calls
that grows with the calling system, and that each call meets after its step. -/
theorem After.step {φ : σ → κ → Prop} {x x' : σ × ε} {l : ℓ ⊕ ω} (h : E.After (φ x.1) x.2)
    (hgrow : ∀ l s', M.step x.1 l = some s' → ∀ c, φ x.1 c → φ s' c)
    (hcall : ∀ l s' c, M.step x.1 l = some s' → calls x.1 l = some c → φ s' c)
    (hs : (M.calling calls E).step x l = some x') : E.After (φ x'.1) x'.2 := by
  cases l with
  | inl l =>
      obtain ⟨hs, ⟨-, he⟩ | ⟨c, hc, he⟩⟩ := calling_inl hs
      · rw [he]
        exact h.mono fun _ _ hφ c hc => hgrow l _ hs c (hφ c hc)
      · refine ReachableBy.step (h.mono fun _ _ hφ c hc => hgrow l _ hs c (hφ c hc)) ?_ he
        rintro c' hc'
        cases hc'
        exact hcall l _ c hs hc
  | inr w =>
      obtain ⟨hs, he⟩ := calling_inr hs
      rw [hs]
      exact ReachableBy.step h (fun c hc => by cases hc) he

/-! ### Progress -/

variable (M calls E) in
/-- After some steps of the component by itself a step of `φ` is enabled. -/
def Proceeds (φ : ℓ → Prop) (s : σ) (e : ε) : Prop :=
  ∃ (ws : List ω) (e' : ε) (l : ℓ) (x' : σ × ε), E.exec e (ws.map .inr) = some e' ∧ φ l ∧
    (M.calling calls E).step (s, e') (.inl l) = some x'

variable {φ : ℓ → Prop} {s : σ} {e : ε}

/-- A step that calls nobody. -/
theorem Proceeds.of_none {s' : σ} {l : ℓ} (hl : φ l) (hs : M.step s l = some s')
    (hc : calls s l = none) : M.Proceeds calls E φ s e :=
  ⟨[], e, l, _, rfl, hl, calling_of_none hs hc e⟩

/-- A call that returns, whatever it returns. -/
theorem Proceeds.of_returns {Q : κ → Prop} (hret : E.Returns e Q)
    (hcall : ∀ c, Q c → ∃ l s', φ l ∧ M.step s l = some s' ∧ calls s l = some c) :
    M.Proceeds calls E φ s e := by
  obtain ⟨ws, e', c, e'', hown, hQ, he⟩ := hret
  obtain ⟨l, s', hl, hs, hc⟩ := hcall c hQ
  exact ⟨ws, e', l, _, hown, hl, calling_of_some hs hc he⟩

/-- Labels that count down get to zero where what they call returns. -/
theorem CountsDown.finish_calling {I : σ → Prop} {μ : σ → ℕ} (h : CountsDown M I φ μ)
    {J : σ × ε → Prop} (hJ : ∀ x, J x → I x.1)
    (hkeep : ∀ x l x', J x → (M.calling calls E).step x l = some x' → J x')
    (hproceeds : ∀ x, J x → 0 < μ x.1 → M.Proceeds calls E φ x.1 x.2) :
    ∀ (n : ℕ) (x : σ × ε), J x → μ x.1 = n → ∃ ls x', (∀ l, .inl l ∈ ls → φ l) ∧
      (M.calling calls E).exec x ls = some x' ∧ μ x'.1 = 0
  | 0, x, _, hn => ⟨[], x, fun _ hl => absurd hl List.not_mem_nil, rfl, hn⟩
  | n + 1, x, hx, hn => by
      obtain ⟨ws, e', l, x₁, hown, hl, hs⟩ := hproceeds x hx (by omega)
      have hwait : (M.calling calls E).exec x (ws.map .inr) = some (x.1, e') := exec_own x.1 hown
      have hJwait := exec_invariant hkeep hx hwait
      have hlower := h.lower x.1 l x₁.1 (hJ x hx) hl (calling_inl hs).1
      obtain ⟨ls, x', hls, he, hzero⟩ :=
        h.finish_calling hJ hkeep hproceeds n x₁ (hkeep _ _ _ hJwait hs) (by omega)
      refine ⟨ws.map .inr ++ .inl l :: ls, x', ?_, ?_, hzero⟩
      · intro l' hl'
        rcases List.mem_append.mp hl' with hmem | hmem
        · obtain ⟨w, -, hw⟩ := List.mem_map.mp hmem
          cases hw
        · rcases List.mem_cons.mp hmem with heq | hmem
          · cases heq
            exact hl
          · exact hls l' hmem
      · rw [exec_append, hwait, Option.bind_some, (M.calling calls E).exec_cons_of_step _ hs, he]

end calling

end LinuxProgramming.Lts
