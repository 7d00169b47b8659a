import LinuxProgramming.Fifo

/-! # A line from a source to a sink

A line holds at most `cap` items on their way.  Its source decides which items can come next, its
sink receives them in order; `system` is the line as seen from its two ends.

`Carries` says that a system is such a line, whatever goes on inside: each of its steps shows at
most one item put in or got out, what has been put in is what has been got out and what is inside,
and from every state it can settle, by steps that show nothing, where both ends can do what they
can do in the line.  `Carries.shows_iff` is what follows: the runs of the system show exactly the
runs of the line.  So all systems that carry the same items over the same number of places look
the same from their ends. -/

namespace LinuxProgramming

/-- The observations of the runs of a system. -/
def Lts.Shows {σ ℓ κ : Type*} (M : Lts σ ℓ) (obs : σ → ℓ → List κ) (tr : List κ) : Prop :=
  ∃ s ls s', M.init s ∧ M.exec s ls = some s' ∧ M.trace obs s ls = tr

theorem Lts.exec_singleton {σ ℓ : Type*} (M : Lts σ ℓ) (s : σ) (l : ℓ) :
    M.exec s [l] = M.step s l := by
  cases h : M.step s l with
  | none => rw [exec_cons, h]; rfl
  | some s' => exact M.exec_cons_of_step [] h

namespace Line

variable {α σ ℓ : Type*}

/-- How many items have been put in, and those that are inside. -/
structure State (α : Type*) where
  count : ℕ
  inside : List α

open Classical in
noncomputable def step (source : ℕ → α → Prop) (cap : ℕ) (s : State α) :
    Fifo.Op α → Option (State α)
  | .enq a =>
      if s.inside.length < cap ∧ source s.count a then some ⟨s.count + 1, s.inside ++ [a]⟩ else none
  | .deq a => if s.inside.head? = some a then some ⟨s.count, s.inside.tail⟩ else none

/-- The line over `cap` places; `source k` says what the `k`-th item put in can be. -/
noncomputable def system (source : ℕ → α → Prop) (cap : ℕ) : Lts (State α) (Fifo.Op α) where
  init s := s = ⟨0, []⟩
  step := step source cap

section step
variable {source : ℕ → α → Prop} {cap : ℕ} {n : ℕ} {l : List α} {a : α} {s s' : State α}

theorem step_enq (h : l.length < cap) (hsource : source n a) :
    (system source cap).step ⟨n, l⟩ (.enq a) = some ⟨n + 1, l ++ [a]⟩ := if_pos ⟨h, hsource⟩

theorem step_deq (n : ℕ) (a : α) (l : List α) :
    (system source cap).step ⟨n, a :: l⟩ (.deq a) = some ⟨n, l⟩ := if_pos rfl

theorem enq_of_step (h : (system source cap).step s (.enq a) = some s') :
    s.inside.length < cap ∧ source s.count a := (Option.ite_none_right_eq_some.mp h).1

theorem deq_of_step (h : (system source cap).step s (.deq a) = some s') : s.inside.head? = some a :=
  (Option.ite_none_right_eq_some.mp h).1

end step

/-- `M` carries the items of `source` over `cap` places.  What it shows are the items put in and
got out; `put` and `got` are the items so far, `inside` those on their way, and in a `settled`
state nothing has to be done before one of the ends is served. -/
structure Carries (M : Lts σ ℓ) (obs : σ → ℓ → List (Fifo.Op α)) (source : ℕ → α → Prop)
    (cap : ℕ) where
  put : σ → List α
  got : σ → List α
  inside : σ → List α
  settled : σ → Prop
  nonempty : ∃ s, M.init s
  start : ∀ s, M.init s → put s = [] ∧ got s = []
  split : ∀ s, M.Reachable s → put s = got s ++ inside s
  put_step : ∀ s l s', M.step s l = some s' → put s' = put s ++ Fifo.enqs (obs s l)
  got_step : ∀ s l s', M.step s l = some s' → got s' = got s ++ Fifo.deqs (obs s l)
  shown : ∀ s l s', M.Reachable s → M.step s l = some s' → obs s l = [] ∨
    (∃ a, obs s l = [.enq a] ∧ (inside s).length < cap ∧ source (put s).length a) ∨
    ∃ a, obs s l = [.deq a]
  settle : ∀ s, M.Reachable s →
    ∃ ls s', M.exec s ls = some s' ∧ M.trace obs s ls = [] ∧ settled s'
  canPut : ∀ s a, M.Reachable s → settled s → (inside s).length < cap → source (put s).length a →
    ∃ l s', M.step s l = some s' ∧ obs s l = [.enq a]
  canGet : ∀ s, M.Reachable s → settled s → inside s ≠ [] →
    ∃ l s' a, M.step s l = some s' ∧ obs s l = [.deq a]

namespace Carries
variable {M : Lts σ ℓ} {obs : σ → ℓ → List (Fifo.Op α)} {source : ℕ → α → Prop} {cap : ℕ}

/-- What is inside changes as what is put in and got out says. -/
theorem inside_step (h : Carries M obs source cap) {s s' : σ} {l : ℓ} (hr : M.Reachable s)
    (hs : M.step s l = some s') :
    h.inside s ++ Fifo.enqs (obs s l) = Fifo.deqs (obs s l) ++ h.inside s' := by
  have hput := h.put_step s l s' hs
  rw [h.split s hr, h.split s' (hr.next hs), h.got_step s l s' hs] at hput
  simpa only [List.append_assoc, List.append_cancel_left_eq, eq_comm] using hput

/-- Every run of the system is one of the line. -/
def simulation (h : Carries M obs source cap) : M.Simulation (system source cap) where
  rel s t := t = ⟨(h.put s).length, h.inside s⟩
  obs := obs
  init := by
    intro s hs
    obtain ⟨hput, hgot⟩ := h.start s hs
    have hsplit := h.split s (.of_init hs)
    rw [hput, hgot] at hsplit
    refine ⟨⟨0, []⟩, rfl, ?_⟩
    rw [hput, ← List.nil_append (h.inside s), ← hsplit]
    rfl
  step := by
    rintro s l s' t hr rfl hs
    have hput := h.put_step s l s' hs
    have hinside := h.inside_step hr hs
    rcases h.shown s l s' hr hs with hobs | ⟨a, hobs, hroom, hsource⟩ | ⟨a, hobs⟩
    · rw [hobs] at hput hinside ⊢
      refine ⟨_, rfl, ?_⟩
      simp only [Fifo.enqs, Fifo.deqs, List.append_nil, List.nil_append] at hput hinside
      rw [hput, hinside]
    · rw [hobs] at hput hinside ⊢
      refine ⟨_, (system source cap).exec_cons_of_step [] (step_enq hroom hsource), ?_⟩
      simp only [Fifo.enqs, Fifo.deqs, List.nil_append] at hput hinside
      rw [hput, hinside, List.length_append, List.length_singleton]
    · rw [hobs] at hput hinside ⊢
      simp only [Fifo.enqs, Fifo.deqs, List.append_nil, List.cons_append, List.nil_append]
        at hput hinside
      rw [hput, hinside]
      exact ⟨_, (system source cap).exec_cons_of_step [] (step_deq _ a _), rfl⟩

/-- What an end of the line can do, a settled system can do. -/
theorem answer (h : Carries M obs source cap) {s : σ} (hr : M.Reachable s) (hsettled : h.settled s)
    {op : Fifo.Op α} {t : State α}
    (hop : (system source cap).step ⟨(h.put s).length, h.inside s⟩ op = some t) :
    ∃ l s', M.step s l = some s' ∧ obs s l = [op] := by
  cases op with
  | enq a =>
      obtain ⟨hroom, hsource⟩ := enq_of_step hop
      exact h.canPut s a hr hsettled hroom hsource
  | deq a =>
      have hhead := deq_of_step hop
      obtain ⟨l, s', b, hs, hobs⟩ :=
        h.canGet s hr hsettled (List.ne_nil_of_mem (List.mem_of_mem_head? hhead))
      -- the system gets out what the line does
      have hinside := h.inside_step hr hs
      rw [hobs, Fifo.enqs, Fifo.enqs, Fifo.deqs, Fifo.deqs, List.append_nil] at hinside
      rw [hinside] at hhead
      cases hhead
      exact ⟨l, s', hs, hobs⟩

/-- What the line can do from a state of the system, the system can. -/
theorem follow (h : Carries M obs source cap) {s : σ} (hr : M.Reachable s)
    {tr : List (Fifo.Op α)} {t : State α}
    (ht : (system source cap).exec ⟨(h.put s).length, h.inside s⟩ tr = some t) :
    ∃ ls s', M.exec s ls = some s' ∧ M.trace obs s ls = tr := by
  induction tr generalizing s with
  | nil => exact ⟨[], s, rfl, rfl⟩
  | cons op tr ih =>
      rw [Lts.exec_cons] at ht
      obtain ⟨t₁, hop, ht⟩ := Option.bind_eq_some_iff.mp ht
      -- settling does not show in the line
      obtain ⟨ls, s₁, he, hsilent, hsettled⟩ := h.settle s hr
      obtain ⟨t, htrace, rfl⟩ := h.simulation.exec_trace hr rfl he
      rw [show M.trace h.simulation.obs s ls = [] from hsilent, Lts.exec_nil] at htrace
      rw [Option.some.inj htrace] at hop
      obtain ⟨l, s₂, hs, hobs⟩ := h.answer (hr.exec he) hsettled hop
      obtain ⟨t, hstep, rfl⟩ := h.simulation.step s₁ l s₂ _ (hr.exec he) rfl hs
      rw [show h.simulation.obs s₁ l = [op] from hobs, Lts.exec_singleton, hop] at hstep
      cases hstep
      obtain ⟨ls', s', he', htrace'⟩ := ih ((hr.exec he).next hs) ht
      refine ⟨ls ++ l :: ls', s', ?_, ?_⟩
      · rw [Lts.exec_append, he]
        exact (M.exec_cons_of_step ls' hs).trans he'
      · rw [Lts.trace_append he, hsilent, List.nil_append]
        simp only [Lts.trace, hs, hobs, htrace', List.singleton_append]

/-- **From the ends.**  A system that carries the items of a source shows the runs of the line. -/
theorem shows_iff (h : Carries M obs source cap) {tr : List (Fifo.Op α)} :
    M.Shows obs tr ↔ ∃ t, (system source cap).exec ⟨0, []⟩ tr = some t := by
  constructor
  · rintro ⟨s, ls, s', hs, he, rfl⟩
    obtain ⟨t, rfl, hrel⟩ := h.simulation.init s hs
    obtain ⟨t', ht', -⟩ := h.simulation.exec_trace (.of_init hs) hrel he
    exact ⟨t', ht'⟩
  · rintro ⟨t, ht⟩
    obtain ⟨s, hs⟩ := h.nonempty
    obtain ⟨t₀, rfl, hrel⟩ := h.simulation.init s hs
    have hzero : (⟨0, []⟩ : State α) = ⟨(h.put s).length, h.inside s⟩ := hrel
    rw [hzero] at ht
    obtain ⟨ls, s', he, htrace⟩ := h.follow (.of_init hs) ht
    exact ⟨s, ls, s', hs, he, htrace⟩

end Carries

end Line

end LinuxProgramming
