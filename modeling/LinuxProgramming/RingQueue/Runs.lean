import LinuxProgramming.RingQueue.Invariant

/-! # Runs of single calls

Reachable states obtained by letting one thread run its call alone: up to the item copy, and
from the copy to the end.  The runs that show where the queue goes wrong are composed of these. -/

namespace LinuxProgramming.RingQueue

variable {T : Type*} {P C size : ℕ} {s : State T P C}

/-- An idle thread runs `push(t)` up to its copy. -/
theorem reachable_pushBegin (h : (system T P C size).Reachable s) {i : Fin P}
    (hi : s.push i = .idle) (hsem : 0 < s.q.pushSem) (hlock : s.q.lock = 1) (t : T) :
    (system T P C size).Reachable { s with
      q := { s.q.reserve.2 with pushSem := s.q.pushSem - 1 }
      push := Function.update s.push i (.unlocked t s.q.reserve.1 s.hist.items.length)
      hist := { s.hist with items := s.hist.items ++ [t] } } := by
  have h1 := reachable_push h (.take t hi hsem)
  have h2 := reachable_push h1 (.lock t (Function.update_self ..) (by simp [hlock]))
  have h3 := reachable_push h2 (.reserve t (Function.update_self ..))
  have h4 := reachable_push h3 (.unlock t _ _ (Function.update_self ..))
  simpa [Queue.reserve, hlock] using h4

/-- A thread at the copy of `push` runs to the end of its call. -/
theorem reachable_pushEnd (h : (system T P C size).Reachable s) {i : Fin P} {t : T} {slot : ℤ}
    {k : ℕ} (hi : s.push i = .unlocked t slot k) :
    (system T P C size).Reachable { s with
      q := { s.q.copyIn slot t with popSem := s.q.popSem + 1 }
      push := Function.update s.push i .idle
      hist := { s.hist with
        posted := insert k s.hist.posted
        writer := Function.update s.hist.writer slot (some k) } } := by
  have h1 := reachable_push h (.copy t slot k hi)
  have h2 := reachable_push h1 (.post t slot k (Function.update_self ..))
  simpa [Queue.copyIn] using h2

/-- An idle thread runs `pop` up to its copy. -/
theorem reachable_popBegin (h : (system T P C size).Reachable s) {i : Fin C}
    (hi : s.pop i = .idle) (hsem : 0 < s.q.popSem) (hlock : s.q.lock = 1) :
    (system T P C size).Reachable { s with
      q := { s.q.claim.2 with popSem := s.q.popSem - 1 }
      pop := Function.update s.pop i (.unlocked s.q.front s.hist.claims)
      hist := { s.hist with claims := s.hist.claims + 1 } } := by
  have h1 := reachable_pop h (.take hi hsem)
  have h2 := reachable_pop h1 (.lock (Function.update_self ..) (by simp [hlock]))
  have h3 := reachable_pop h2 (.claim (Function.update_self ..))
  have h4 := reachable_pop h3 (.unlock _ _ (Function.update_self ..))
  simpa [Queue.claim, hlock] using h4

/-- A thread at the copy of `pop` runs to the end of its call. -/
theorem reachable_popEnd (h : (system T P C size).Reachable s) {i : Fin C} {slot : ℤ} {k : ℕ}
    (hi : s.pop i = .unlocked slot k) :
    (system T P C size).Reachable { s with
      q := { s.q with pushSem := s.q.pushSem + 1 }
      pop := Function.update s.pop i .idle
      hist := { s.hist with
        freed := insert k s.hist.freed
        returned := s.hist.returned ++ [s.q.arr slot] } } := by
  have h1 := reachable_pop h (.copy slot k hi)
  have h2 := reachable_pop h1 (.post _ k (Function.update_self ..))
  simpa using h2

/-- With no call in progress, one producer fills the ring up to any count. -/
theorem reachable_fill (raw : ℤ → T) (i : Fin P) (t : T) :
    ∀ n, n ≤ size → ∃ s : State T P C, (system T P C size).Reachable s ∧
      s.push = (fun _ => .idle) ∧ s.pop = (fun _ => .idle) ∧ s.hist.claims = 0 ∧
      s.hist.items = List.replicate n t ∧ s.q.pushSem = size - n ∧ s.q.popSem = n ∧
      s.q.lock = 1 ∧ s.q.front = 0
  | 0, _ => ⟨start size raw, .of_init ⟨raw, rfl⟩, rfl, rfl, rfl, rfl, rfl, rfl, rfl, rfl⟩
  | n + 1, hn => by
      obtain ⟨s, hs, hpush, hpop, hcl, hit, hps, hpo, hlock, hfront⟩ :=
        reachable_fill raw i t n (by omega)
      have h1 := reachable_pushBegin hs (i := i) (by rw [hpush]) (by omega) hlock t
      have h2 := reachable_pushEnd h1 (i := i) (Function.update_self ..)
      refine ⟨_, h2, ?_, hpop, hcl, ?_, ?_, ?_, hlock, hfront⟩
      · simp [hpush]
      · simp [hit, List.replicate_succ']
      · simp [Queue.copyIn, hps]; omega
      · simp [hpo]

/-- A push at its copy works on the slot of its position. -/
theorem pushSlot_eq (h : (system T P C size).Reachable s) {i : Fin P} {t : T} {slot : ℤ} {k : ℕ}
    (hi : s.push i = .unlocked t slot k) : slot = (k % size : ℕ) := by
  have hsound := (reachable_inv h).pushSound i
  rw [hi] at hsound
  exact hsound.1

/-- With two consumers and two slots: the ring is full, the second pop frees its slot before the
first has read, and a push of the next lap reaches the slot of the first.  Both are at their
copies. -/
theorem exists_ahead (hsize : 2 ≤ size) (hP : 1 ≤ P) (hC : 2 ≤ C) (x y : T) :
    ∃ (s : State T P C) (p : Fin P) (c : Fin C), (system T P C size).Reachable s ∧
      s.push p = .unlocked y 0 size ∧ s.pop c = .unlocked 0 0 ∧ s.hist.items[0]? = some x := by
  obtain ⟨p⟩ : Nonempty (Fin P) := ⟨⟨0, hP⟩⟩
  obtain ⟨c₀, c₁, hne⟩ : ∃ c₀ c₁ : Fin C, c₁ ≠ c₀ := ⟨⟨0, by omega⟩, ⟨1, hC⟩, by simp⟩
  obtain ⟨s, h0, hpush, hpop, hcl, hit, hps, hpo, hlock, hfront⟩ :=
    reachable_fill (C := C) (fun _ => x) p x size le_rfl
  have hlen : s.hist.items.length = size := by rw [hit, List.length_replicate]
  have h1 := reachable_popBegin h0 (i := c₀) (by rw [hpop]) (by omega) hlock
  have h2 := reachable_popBegin h1 (i := c₁) (by simp [hpop, hne]) (by simp; omega) hlock
  have h3 := reachable_popEnd h2 (i := c₁) (Function.update_self ..)
  have h4 := reachable_pushBegin h3 (i := p) (by simp [hpush]) (by simp) hlock y
  refine ⟨_, p, c₀, h4, ?_, by simp [hne.symm, hfront, hcl], ?_⟩
  · have hslot := pushSlot_eq h4 (i := p) (Function.update_self ..)
    simp only [hlen, Nat.mod_self, Nat.cast_zero] at hslot ⊢
    rw [hslot, Function.update_self]
  · have hkeep : (s.hist.items ++ [y])[0]? = s.hist.items[0]? :=
      List.getElem?_append_left (by omega)
    refine hkeep.trans ?_
    rw [hit, List.getElem?_replicate_of_lt (by omega)]

/-- With two producers and two slots: while the first push waits at the copy of position 0, the
second fills one position after the other and a pop claims them, any number of times. -/
theorem reachable_rounds (hsize : 2 ≤ size) {p₀ p₁ : Fin P} (hne : p₁ ≠ p₀) (c : Fin C) (t : T) :
    ∀ n, ∃ s : State T P C, (system T P C size).Reachable s ∧
      s.push p₀ = .unlocked t 0 0 ∧ s.push p₁ = .idle ∧ s.pop c = .idle ∧ s.hist.claims = n ∧
      s.hist.items.length = n + 1 ∧ s.q.pushSem = size - 1 ∧ s.q.popSem = 0 ∧ s.q.lock = 1
  | 0 => by
      have h0 : (system T P C size).Reachable (start size fun _ => t) := .of_init ⟨_, rfl⟩
      have h1 := reachable_pushBegin h0 (i := p₀) rfl (by simp [start, Queue.new]; omega) rfl t
      refine ⟨_, h1, ?_, by simp [start, hne], rfl, rfl, rfl, rfl, rfl, rfl⟩
      simp [start, Queue.new, Queue.reserve]
  | n + 1 => by
      obtain ⟨s, hs, hp₀, hp₁, hc, hcl, hlen, hps, hpo, hlock⟩ :=
        reachable_rounds hsize hne c t n
      have h1 := reachable_pushBegin hs (i := p₁) hp₁ (by omega) hlock t
      have h2 := reachable_pushEnd h1 (i := p₁) (Function.update_self ..)
      have h3 := reachable_popBegin h2 (i := c) hc (by simp) hlock
      have h4 := reachable_popEnd h3 (i := c) (Function.update_self ..)
      refine ⟨_, h4, ?_, ?_, ?_, ?_, ?_, ?_, ?_, hlock⟩
      · simp [hne.symm, hp₀]
      · simp
      · simp
      · simp [hcl]
      · simp [hlen]
      · simp [Queue.copyIn, hps]; omega
      · simp [hpo]

/-- The first push of `reachable_rounds` is still at the copy of position 0 when a pop has
claimed the position of the next lap in its slot, filled by the second producer. -/
theorem exists_behind (hsize : 2 ≤ size) (hP : 2 ≤ P) (hC : 1 ≤ C) (t : T) :
    ∃ (s : State T P C) (p : Fin P) (c : Fin C), (system T P C size).Reachable s ∧
      s.push p = .unlocked t 0 0 ∧ s.pop c = .unlocked 0 size := by
  obtain ⟨p₀, p₁, hne⟩ : ∃ p₀ p₁ : Fin P, p₁ ≠ p₀ := ⟨⟨0, by omega⟩, ⟨1, hP⟩, by simp⟩
  obtain ⟨c⟩ : Nonempty (Fin C) := ⟨⟨0, hC⟩⟩
  obtain ⟨s, hs, hp₀, hp₁, hc, hcl, hlen, hps, hpo, hlock⟩ :=
    reachable_rounds (C := C) hsize hne c t size
  have hfront : s.q.front = 0 := by rw [(reachable_inv hs).front, hcl, Nat.mod_self]; rfl
  have h1 := reachable_pushBegin hs (i := p₁) hp₁ (by omega) hlock t
  have h2 := reachable_pushEnd h1 (i := p₁) (Function.update_self ..)
  have h3 := reachable_popBegin h2 (i := c) hc (by simp) hlock
  exact ⟨_, p₀, c, h3, by simp [hne.symm, hp₀], by simp [hfront, hcl, Queue.copyIn]⟩

end LinuxProgramming.RingQueue
