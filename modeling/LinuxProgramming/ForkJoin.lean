import Mathlib.Data.List.Basic
import Mathlib.Logic.Function.Basic

/-! # A script that starts and joins threads

One party executes a list of events from its first to its last.  Some events start a thread and
some wait until a thread has exited; the other threads run in between.

* `Guarded p q l` is a property of the list alone: whatever `p` reads off an event, `q` has read
  off an earlier one.
* `Inv` is what holds at any point of the execution, and `Inv.notMem_done` is its use: as long as a
  thread runs, nothing that the script guards by joining it has happened. -/

namespace LinuxProgramming.ForkJoin

variable {ε τ κ : Type*}

/-! ### Scripts -/

/-- What `p` reads off an event, `q` has read off an earlier one. -/
def Guarded (p q : ε → Option κ) (l : List ε) : Prop :=
  ∀ before e after x, l = before ++ e :: after → p e = some x → ∃ g ∈ before, q g = some x

namespace Guarded
variable {p q : ε → Option κ} {l l' : List ε}

theorem of_none (h : ∀ e ∈ l, p e = none) : Guarded p q l := by
  rintro before e after x rfl hx
  rw [h e (by simp)] at hx
  cases hx

/-- The second part may count on the first. -/
theorem append_of (h : Guarded p q l)
    (h' : ∀ before e after x, l' = before ++ e :: after → p e = some x →
      ∃ g ∈ l ++ before, q g = some x) : Guarded p q (l ++ l') := by
  intro before e after x hsplit hx
  rcases List.append_eq_append_iff.mp hsplit with ⟨mid, rfl, hrest⟩ | ⟨mid, hl, hrest⟩
  · exact h' mid e after x hrest hx
  · cases mid with
    | nil =>
        rw [List.append_nil] at hl
        obtain ⟨g, hg, hgx⟩ := h' [] e after x hrest.symm hx
        exact ⟨g, by rw [← hl]; simpa using hg, hgx⟩
    | cons e' mid =>
        obtain ⟨rfl, rfl⟩ := List.cons.inj hrest
        exact h before e mid x hl hx

theorem append (h : Guarded p q l) (h' : Guarded p q l') : Guarded p q (l ++ l') :=
  h.append_of fun before e after x hsplit hx => by
    obtain ⟨g, hg, hgx⟩ := h' before e after x hsplit hx
    exact ⟨g, List.mem_append_right _ hg, hgx⟩

theorem flatMap {ι : Type*} {f : ι → List ε} {is : List ι} (h : ∀ i ∈ is, Guarded p q (f i)) :
    Guarded p q (is.flatMap f) := by
  induction is with
  | nil => exact of_none (by simp)
  | cons i is ih =>
      rw [List.flatMap_cons]
      exact (h i List.mem_cons_self).append (ih fun j hj => h j (List.mem_cons_of_mem i hj))

/-- All that is read off the second part has been read off the first. -/
theorem of_before (h : Guarded p q l)
    (h' : ∀ e ∈ l', ∀ x, p e = some x → ∃ g ∈ l, q g = some x) : Guarded p q (l ++ l') :=
  h.append_of fun before e after x hsplit hx => by
    obtain ⟨g, hg, hgx⟩ := h' e (by rw [hsplit]; simp) x hx
    exact ⟨g, List.mem_append_left _ hg, hgx⟩

end Guarded

/-! ### Executions -/

/-- The script, up to where it has come, and the threads that have exited. -/
structure State (ε τ : Type*) where
  done : List ε
  rest : List ε
  exited : τ → Bool

variable (starts joins : ε → Option τ)

def begin (script : List ε) : State ε τ := ⟨[], script, fun _ => false⟩

section steps
variable [DecidableEq τ]

/-- The thread has been started and has not exited. -/
def running (s : State ε τ) (t : τ) : Bool :=
  s.done.any (fun e => starts e = some t) && !s.exited t

/-- The script waits for the thread, or is about to. -/
def joining (s : State ε τ) (t : τ) : Bool := s.rest.head?.bind joins = some t

/-- The next event; one that joins a thread has to wait until it has exited. -/
def advance (s : State ε τ) : Option (State ε τ) :=
  match s.rest with
  | [] => none
  | e :: rest =>
      if (joins e).all s.exited then some { s with done := s.done ++ [e], rest := rest } else none

def exit (s : State ε τ) (t : τ) : State ε τ :=
  { s with exited := Function.update s.exited t true }

end steps

/-- What holds at any point of an execution. -/
structure Inv (script : List ε) (s : State ε τ) : Prop where
  whole : s.done ++ s.rest = script
  joined : ∀ e ∈ s.done, ∀ t, joins e = some t → s.exited t = true
  started : ∀ t, s.exited t = true → ∃ e ∈ s.done, starts e = some t

namespace Inv
variable {starts joins} {script : List ε} {s s' : State ε τ}

theorem begin : Inv starts joins script (ForkJoin.begin script) where
  whole := rfl
  joined := by
    intro e he
    cases he
  started := by
    intro t ht
    cases ht

theorem advance (h : Inv starts joins script s) (hs : ForkJoin.advance joins s = some s') :
    ∃ e, s.rest = e :: s'.rest ∧ s'.done = s.done ++ [e] ∧ s'.exited = s.exited ∧
      Inv starts joins script s' := by
  unfold ForkJoin.advance at hs
  split at hs
  · cases hs
  · next e rest hrest =>
      split at hs
      · next hall =>
          cases hs
          refine ⟨e, hrest, rfl, rfl, ?_, fun e' he' t ht => ?_, fun t ht => ?_⟩
          · rw [← h.whole, hrest, List.append_assoc]
            rfl
          · rcases List.mem_append.mp he' with he' | he'
            · exact h.joined e' he' t ht
            · rw [List.mem_singleton.mp he'] at ht
              rw [ht] at hall
              exact hall
          · obtain ⟨e', he', hstart⟩ := h.started t ht
            exact ⟨e', List.mem_append_left _ he', hstart⟩
      · cases hs

/-- What guards an event that has happened has happened. -/
theorem guard_done (h : Inv starts joins script s) {p q : ε → Option κ}
    (hguard : Guarded p q script) {e : ε} (he : e ∈ s.done) {x : κ} (hx : p e = some x) :
    ∃ g ∈ s.done, q g = some x := by
  obtain ⟨before, after, hsplit⟩ := List.append_of_mem he
  obtain ⟨g, hg, hgx⟩ := hguard before e (after ++ s.rest) x (by
    rw [← h.whole, hsplit, List.append_assoc, List.cons_append]) hx
  exact ⟨g, by rw [hsplit]; exact List.mem_append_left _ hg, hgx⟩

variable [DecidableEq τ]

theorem exit (h : Inv starts joins script s) {t : τ} (ht : running starts s t = true) :
    Inv starts joins script (ForkJoin.exit s t) where
  whole := h.whole
  joined := by
    intro e he t' ht'
    by_cases heq : t' = t
    · simp [ForkJoin.exit, heq]
    · simp only [ForkJoin.exit, Function.update_of_ne heq]
      exact h.joined e he t' ht'
  started := by
    intro t' ht'
    by_cases heq : t' = t
    · rw [heq]
      unfold running at ht
      rw [Bool.and_eq_true, List.any_eq_true] at ht
      obtain ⟨⟨e, he, hstart⟩, -⟩ := ht
      exact ⟨e, he, of_decide_eq_true hstart⟩
    · simp only [ForkJoin.exit, Function.update_of_ne heq] at ht'
      exact h.started t' ht'

theorem running_iff {t : τ} :
    running starts s t = true ↔ (∃ e ∈ s.done, starts e = some t) ∧ s.exited t = false := by
  simp [running]

/-- What the script guards by joining a thread has not happened while the thread runs. -/
theorem notMem_done (h : Inv starts joins script s) {t : τ} (ht : running starts s t = true)
    {e : ε} (hguard : ∀ before after, script = before ++ e :: after →
      ∃ g ∈ before, joins g = some t) : e ∉ s.done := by
  intro he
  obtain ⟨before, after, hsplit⟩ := List.append_of_mem he
  obtain ⟨g, hg, hjoin⟩ := hguard before (after ++ s.rest) (by
    rw [← h.whole, hsplit, List.append_assoc, List.cons_append])
  have hexited := h.joined g (by rw [hsplit]; exact List.mem_append_left _ hg) t hjoin
  rw [(running_iff.mp ht).2] at hexited
  cases hexited

omit [DecidableEq τ] in
/-- Nor has it when the next event of the script is to start the thread. -/
theorem notMem_done_of_next (h : Inv starts joins script s) (hnodup : (script.filterMap starts).Nodup)
    {e' : ε} {rest : List ε} (hrest : s.rest = e' :: rest) {t : τ} (hstart : starts e' = some t)
    {e : ε} (hguard : ∀ before after, script = before ++ e :: after →
      ∃ g ∈ before, joins g = some t) : e ∉ s.done := by
  intro he
  obtain ⟨before, after, hsplit⟩ := List.append_of_mem he
  obtain ⟨g, hg, hjoin⟩ := hguard before (after ++ s.rest) (by
    rw [← h.whole, hsplit, List.append_assoc, List.cons_append])
  obtain ⟨e₁, he₁, hstart₁⟩ := h.started t
    (h.joined g (by rw [hsplit]; exact List.mem_append_left _ hg) t hjoin)
  rw [← h.whole, hrest, List.filterMap_append, List.filterMap_cons_some hstart] at hnodup
  exact (List.nodup_append.mp hnodup).2.2 t (List.mem_filterMap.mpr ⟨e₁, he₁, hstart₁⟩) t
    List.mem_cons_self rfl

/-- A script that joins only what it has started can go on once the thread it waits for, if any,
has exited. -/
theorem next (h : Inv starts joins script s) (hguard : Guarded joins starts script)
    (hrest : s.rest ≠ []) :
    (∃ s', ForkJoin.advance joins s = some s') ∨
      ∃ t, running starts s t = true ∧ joining joins s t = true := by
  obtain ⟨e, rest, hcons⟩ := List.exists_cons_of_ne_nil hrest
  cases hjoin : joins e with
  | none => exact .inl ⟨_, by simp [ForkJoin.advance, hcons, hjoin]; rfl⟩
  | some t =>
      cases hexited : s.exited t with
      | true => exact .inl ⟨_, by simp [ForkJoin.advance, hcons, hjoin, hexited]; rfl⟩
      | false =>
          obtain ⟨g, hg, hstart⟩ := hguard s.done e rest t (by rw [← hcons]; exact h.whole.symm) hjoin
          refine .inr ⟨t, running_iff.mpr ⟨⟨g, hg, hstart⟩, hexited⟩, ?_⟩
          simp [joining, hcons, hjoin]

end Inv

end LinuxProgramming.ForkJoin
