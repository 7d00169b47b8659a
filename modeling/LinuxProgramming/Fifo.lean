import LinuxProgramming.Lts
import Mathlib.Data.List.Basic

/-! # The bounded first-in first-out queue

The abstract queue that a concurrent buffer is to implement: a list of at most `cap` elements,
`enq` at its end and `deq` at its head.  `Fifo.enqs_eq` reads a whole run off its labels: what
went in is what came out followed by what is inside. -/

namespace LinuxProgramming.Fifo

variable {T : Type*}

/-- The operations; a `deq` names the element it delivers. -/
inductive Op (T : Type*) where
  | enq (t : T)
  | deq (t : T)

open Classical in
/-- One operation: `enq` needs room, `deq` delivers the head. -/
noncomputable def step (cap : ℕ) (l : List T) : Op T → Option (List T)
  | .enq t => if l.length < cap then some (l ++ [t]) else none
  | .deq t => if l.head? = some t then some l.tail else none

/-- The bounded queue, empty at the start. -/
noncomputable def system (T : Type*) (cap : ℕ) : Lts (List T) (Op T) where
  init l := l = []
  step := step cap

/-- The elements put in by a list of operations. -/
def enqs : List (Op T) → List T
  | [] => []
  | .enq t :: ops => t :: enqs ops
  | .deq _ :: ops => enqs ops

/-- The elements delivered by a list of operations. -/
def deqs : List (Op T) → List T
  | [] => []
  | .enq _ :: ops => deqs ops
  | .deq t :: ops => t :: deqs ops

theorem enqs_append (ops ops' : List (Op T)) : enqs (ops ++ ops') = enqs ops ++ enqs ops' := by
  induction ops with
  | nil => rfl
  | cons op ops ih => cases op <;> simp [enqs, ih]

theorem deqs_append (ops ops' : List (Op T)) : deqs (ops ++ ops') = deqs ops ++ deqs ops' := by
  induction ops with
  | nil => rfl
  | cons op ops ih => cases op <;> simp [deqs, ih]

variable {cap : ℕ}

theorem step_enq {l : List T} {t : T} (h : l.length < cap) :
    step cap l (.enq t) = some (l ++ [t]) := if_pos h

theorem step_deq (t : T) (l : List T) : step cap (t :: l) (.deq t) = some l := if_pos rfl

theorem exec_single {l l' : List T} {op : Op T} (h : step cap l op = some l') :
    (system T cap).exec l [op] = some l' :=
  (system T cap).exec_cons_of_step [] h

/-- What went in is what came out followed by what is inside. -/
theorem enqs_eq {l l' : List T} {ops : List (Op T)} (h : (system T cap).exec l ops = some l') :
    l ++ enqs ops = deqs ops ++ l' := by
  induction ops generalizing l with
  | nil =>
      rw [Lts.exec_nil] at h
      cases h
      simp [enqs, deqs]
  | cons op ops ih =>
      rw [Lts.exec_cons] at h
      obtain ⟨l₁, hs, h⟩ := Option.bind_eq_some_iff.mp h
      have hrest := ih h
      cases op with
      | enq t =>
          simp only [system, step] at hs
          split at hs
          · cases hs
            simpa [enqs, deqs] using hrest
          · cases hs
      | deq t =>
          simp only [system, step] at hs
          split at hs
          · next hhead =>
              cases hs
              cases l with
              | nil => cases hhead
              | cons x l =>
                  cases hhead
                  simpa [enqs, deqs] using hrest
          · cases hs

/-- A run of the queue never holds more than its capacity. -/
theorem length_le {l l' : List T} {ops : List (Op T)} (hl : l.length ≤ cap)
    (h : (system T cap).exec l ops = some l') : l'.length ≤ cap := by
  induction ops generalizing l with
  | nil =>
      rw [Lts.exec_nil] at h
      cases h
      exact hl
  | cons op ops ih =>
      rw [Lts.exec_cons] at h
      obtain ⟨l₁, hs, h⟩ := Option.bind_eq_some_iff.mp h
      refine ih ?_ h
      cases op with
      | enq t =>
          simp only [system, step] at hs
          split at hs
          · cases hs
            simp only [List.length_append, List.length_singleton]
            omega
          · cases hs
      | deq t =>
          simp only [system, step] at hs
          split at hs
          · cases hs
            simp only [List.length_tail]
            omega
          · cases hs

end LinuxProgramming.Fifo
