import Mathlib.Logic.Function.Basic
import Mathlib.Data.Nat.Notation
import Mathlib.Tactic.Cases

/-! # Kernel objects by name

Objects that live in the kernel under a name: a name is bound to at most one object, an object
that has lost its name lives on for those who have it open, and a new object is unlike every
object before it.  `openCreate` opens the object of a name and makes one if there is none;
`unlink` takes the name away. -/

namespace LinuxProgramming

/-- The names in use; objects are numbered as they are made. -/
structure KernelNames (κ : Type*) where
  bound : κ → Option ℕ
  next : ℕ
  bound_lt : ∀ k o, bound k = some o → o < next
  bound_inj : ∀ k k' o, bound k = some o → bound k' = some o → k = k'

namespace KernelNames

/-- Nothing is bound. -/
def empty {κ : Type*} : KernelNames κ where
  bound _ := none
  next := 0
  bound_lt := by
    intro k o h
    cases h
  bound_inj := by
    intro k k' o h
    cases h

variable {κ : Type*} [DecidableEq κ] (names : KernelNames κ) (k : κ)

/-- A new object under a free name. -/
def make : KernelNames κ where
  bound := Function.update names.bound k (some names.next)
  next := names.next + 1
  bound_lt := by
    intro k' o h
    by_cases hk : k' = k
    · subst hk
      rw [Function.update_self] at h
      cases h
      exact Nat.lt_succ_self _
    · rw [Function.update_of_ne hk] at h
      exact Nat.lt_succ_of_lt (names.bound_lt k' o h)
  bound_inj := by
    intro k₁ k₂ o h₁ h₂
    have hlt : ∀ k', Function.update names.bound k (some names.next) k' = some o →
        k' = k ∧ o = names.next ∨ names.bound k' = some o ∧ o < names.next := by
      intro k' h'
      by_cases hk : k' = k
      · subst hk
        rw [Function.update_self] at h'
        cases h'
        exact .inl ⟨rfl, rfl⟩
      · rw [Function.update_of_ne hk] at h'
        exact .inr ⟨h', names.bound_lt k' o h'⟩
    rcases hlt k₁ h₁ with ⟨rfl, ho⟩ | ⟨hb₁, ho₁⟩
    · rcases hlt k₂ h₂ with ⟨rfl, -⟩ | ⟨-, ho₂⟩
      · rfl
      · omega
    · rcases hlt k₂ h₂ with ⟨-, ho⟩ | ⟨hb₂, -⟩
      · omega
      · exact names.bound_inj k₁ k₂ o hb₁ hb₂

/-- Open with `O_CREAT` and without `O_EXCL`. -/
def openCreate : ℕ × KernelNames κ :=
  match names.bound k with
  | some o => (o, names)
  | none => (names.next, names.make k)

/-- The name goes, the object stays. -/
def unlink : KernelNames κ where
  bound := Function.update names.bound k none
  next := names.next
  bound_lt := by
    intro k' o h
    by_cases hk : k' = k
    · subst hk
      rw [Function.update_self] at h
      cases h
    · rw [Function.update_of_ne hk] at h
      exact names.bound_lt k' o h
  bound_inj := by
    intro k₁ k₂ o h₁ h₂
    by_cases hk₁ : k₁ = k
    · subst hk₁
      rw [Function.update_self] at h₁
      cases h₁
    · by_cases hk₂ : k₂ = k
      · subst hk₂
        rw [Function.update_self] at h₂
        cases h₂
      · rw [Function.update_of_ne hk₁] at h₁
        rw [Function.update_of_ne hk₂] at h₂
        exact names.bound_inj k₁ k₂ o h₁ h₂

/-- Opening finds the object that is there, or makes one that was never there. -/
theorem openCreate_cases :
    (∃ o, names.bound k = some o ∧ names.openCreate k = (o, names)) ∨
    names.bound k = none ∧ names.openCreate k = (names.next, names.make k) := by
  unfold openCreate
  cases h : names.bound k with
  | some o => exact .inl ⟨o, rfl, rfl⟩
  | none => exact .inr ⟨rfl, rfl⟩

variable {names k}

@[simp] theorem openCreate_bound_self :
    (names.openCreate k).2.bound k = some (names.openCreate k).1 := by
  rcases openCreate_cases names k with ⟨o, hb, ho⟩ | ⟨-, ho⟩
  · rw [ho, hb]
  · rw [ho]
    exact Function.update_self _ _ _

theorem openCreate_bound_of_ne {k' : κ} (h : k' ≠ k) :
    (names.openCreate k).2.bound k' = names.bound k' := by
  rcases openCreate_cases names k with ⟨o, -, ho⟩ | ⟨-, ho⟩
  · rw [ho]
  · rw [ho]
    exact Function.update_of_ne h _ _

theorem openCreate_lt : (names.openCreate k).1 < (names.openCreate k).2.next :=
  (names.openCreate k).2.bound_lt k _ openCreate_bound_self

theorem next_le_openCreate : names.next ≤ (names.openCreate k).2.next := by
  rcases openCreate_cases names k with ⟨o, -, ho⟩ | ⟨-, ho⟩
  · exact Nat.le_of_eq (by rw [ho])
  · rw [ho]
    exact Nat.le_succ _

@[simp] theorem unlink_bound_self : (names.unlink k).bound k = none := Function.update_self _ _ _

theorem unlink_bound_of_ne {k' : κ} (h : k' ≠ k) : (names.unlink k).bound k' = names.bound k' :=
  Function.update_of_ne h _ _

@[simp] theorem unlink_next : (names.unlink k).next = names.next := rfl

end KernelNames

end LinuxProgramming
