import Mathlib.Data.Int.CardIntervalMod
import Mathlib.Tactic.Cases

/-! # A cursor that goes round under a lock

A block of `size` consecutive numbers from `first` is handed out round robin.  A user of the
cursor takes the lock, takes the current number and advances, wraps the cursor round if it has
reached the end of the block, and gives the lock back; between advancing and wrapping the cursor
may stand behind the block.

`Ok` is the invariant, with the users counted by where they stand; the four moves keep it
(`Ok.acquire`, `Ok.take`, `Ok.wrap`, `Ok.release`), and it says which number each user was given:
the `j`-th number handed out is `first + j % size`.  After any number of turns the numbers of the
block have been handed out equally often, up to one (`count_le_count`). -/

namespace LinuxProgramming

/-- The lock, the cursor, and the numbers handed out so far. -/
structure Rotation where
  lock : ℕ
  next : ℕ
  given : List ℕ

namespace Rotation

def acquire (c : Rotation) : Rotation := { c with lock := c.lock - 1 }

/-- The current number; the cursor, a 32-bit number, advances. -/
def take (c : Rotation) : ℕ × Rotation :=
  (c.next, { c with next := (c.next + 1) % 2 ^ 32, given := c.given ++ [c.next] })

def wrap (c : Rotation) (first limit : ℕ) : Rotation :=
  if c.next = limit then { c with next := first } else c

def release (c : Rotation) : Rotation := { c with lock := c.lock + 1 }

/-- The cursor after any number of rounds, when `holding`, `wrapping` and `leaving` users stand
before the three steps under the lock. -/
structure Ok (c : Rotation) (first size holding wrapping leaving : ℕ) : Prop where
  mutex : c.lock + holding + wrapping + leaving = 1
  wrapping_le : wrapping ≤ c.given.length
  next_eq : c.next = first + (c.given.length - wrapping) % size + wrapping
  given_eq : ∀ j v, c.given[j]? = some v → v = first + j % size

namespace Ok
variable {c : Rotation} {first size holding wrapping leaving : ℕ}

theorem start (first size : ℕ) : Ok ⟨1, first, []⟩ first size 0 0 0 where
  mutex := rfl
  wrapping_le := le_rfl
  next_eq := by simp
  given_eq := by
    intro j v h
    cases h

theorem acquire (h : Ok c first size holding wrapping leaving) (hlock : 0 < c.lock) :
    Ok c.acquire first size (holding + 1) wrapping leaving where
  mutex := by
    have hm := h.mutex
    unfold Rotation.acquire
    simp only
    omega
  wrapping_le := h.wrapping_le
  next_eq := h.next_eq
  given_eq := h.given_eq

/-- The number taken lies in the block. -/
theorem next_mem (h : Ok c first size (holding + 1) wrapping leaving) (hsize : 0 < size) :
    first ≤ c.take.1 ∧ c.take.1 < first + size := by
  have hm := h.mutex
  have hn := h.next_eq
  obtain rfl : wrapping = 0 := by omega
  have hlt := Nat.mod_lt (c.given.length - 0) hsize
  unfold Rotation.take
  simp only
  omega

theorem take (h : Ok c first size (holding + 1) wrapping leaving) (hsize : 0 < size)
    (hbound : first + size < 2 ^ 32) :
    Ok c.take.2 first size holding (wrapping + 1) leaving := by
  have hm := h.mutex
  have hn := h.next_eq
  obtain rfl : wrapping = 0 := by omega
  have hlt := Nat.mod_lt c.given.length hsize
  rw [Nat.sub_zero, Nat.add_zero] at hn
  unfold Rotation.take
  constructor
  · simp only
    omega
  · simp only [List.length_append, List.length_singleton]
    omega
  · simp only [List.length_append, List.length_singleton]
    rw [Nat.zero_add, Nat.add_sub_cancel, hn, Nat.mod_eq_of_lt (by omega)]
  · intro j v hj
    rcases Nat.lt_trichotomy j c.given.length with hlt' | rfl | hgt
    · rw [List.getElem?_append_left hlt'] at hj
      exact h.given_eq j v hj
    · rw [List.getElem?_append_right le_rfl, Nat.sub_self] at hj
      cases hj
      exact hn
    · rw [List.getElem?_eq_none (by simp only [List.length_append, List.length_singleton]; omega)]
        at hj
      cases hj

theorem wrap (h : Ok c first size holding (wrapping + 1) leaving) (hsize : 0 < size) :
    Ok (c.wrap first (first + size)) first size holding wrapping (leaving + 1) := by
  have hm := h.mutex
  have hle := h.wrapping_le
  have hn := h.next_eq
  obtain rfl : wrapping = 0 := by omega
  obtain ⟨n, hlen⟩ : ∃ n, c.given.length = n + 1 := ⟨c.given.length - 1, by omega⟩
  have hlt := Nat.mod_lt n hsize
  rw [hlen, Nat.zero_add, Nat.add_sub_cancel] at hn
  unfold Rotation.wrap
  split
  · next hend =>
      -- the last number of the block was taken: the next round starts
      have hround : (n + 1) % size = 0 := by
        rw [← Nat.mod_add_mod, show n % size + 1 = size by omega, Nat.mod_self]
      refine ⟨by simp only; omega, Nat.zero_le _, ?_, h.given_eq⟩
      simp only [hlen, Nat.sub_zero, hround, Nat.add_zero]
  · next hinside =>
      have hnext : (n + 1) % size = n % size + 1 := by
        rw [← Nat.mod_add_mod, Nat.mod_eq_of_lt (by omega)]
      refine ⟨by omega, Nat.zero_le _, ?_, h.given_eq⟩
      rw [hlen, Nat.sub_zero, hnext, hn]
      omega

theorem release (h : Ok c first size holding wrapping (leaving + 1)) :
    Ok c.release first size holding wrapping leaving where
  mutex := by
    have hm := h.mutex
    unfold Rotation.release
    simp only
    omega
  wrapping_le := h.wrapping_le
  next_eq := h.next_eq
  given_eq := h.given_eq

end Ok

/-! ### Shares -/

/-- The numbers handed out in `turns` turns. -/
def rounds (first size turns : ℕ) : List ℕ := (List.range turns).map fun j => first + j % size

theorem Ok.given_rounds {c : Rotation} {first size holding wrapping leaving : ℕ}
    (h : Ok c first size holding wrapping leaving) :
    c.given = rounds first size c.given.length := by
  apply List.ext_getElem?
  intro j
  unfold rounds
  rcases Nat.lt_or_ge j c.given.length with hj | hj
  · rw [List.getElem?_map, List.getElem?_range hj, List.getElem?_eq_getElem hj]
    exact congrArg some (h.given_eq j _ (List.getElem?_eq_getElem hj))
  · rw [List.getElem?_eq_none hj, List.getElem?_eq_none (by simpa using hj)]

theorem getElem_rounds {first size turns j v : ℕ}
    (h : (rounds first size turns)[j]? = some v) : v = first + j % size := by
  unfold rounds at h
  rw [List.getElem?_map, Option.map_eq_some_iff] at h
  obtain ⟨k, hk, rfl⟩ := h
  obtain ⟨-, rfl⟩ := List.getElem?_eq_some_iff.mp hk
  rw [List.getElem_range]

/-- The first turns are themselves turns. -/
theorem eq_rounds_of_prefix {first size turns : ℕ} {l : List ℕ}
    (h : l <+: rounds first size turns) : l = rounds first size l.length := by
  have hle := h.length_le
  unfold rounds at *
  rw [List.length_map, List.length_range] at hle
  have htake := List.prefix_iff_eq_take.mp h
  rw [← List.map_take, List.take_range, Nat.min_eq_left hle] at htake
  exact htake

/-- The share of a number of the block: one for each full round, and one more if its turn has
come in the last. -/
theorem count_rounds {first size v : ℕ} (hge : first ≤ v) (hlt : v < first + size) (turns : ℕ) :
    (rounds first size turns).count v =
      turns / size + if v - first < turns % size then 1 else 0 := by
  have hmod : (v - first) % size = v - first := Nat.mod_eq_of_lt (by omega)
  have hcount : (rounds first size turns).count v =
      turns.count (· ≡ v - first [MOD size]) := by
    unfold rounds
    induction turns with
    | zero => rfl
    | succ n ih =>
        rw [List.range_succ, List.map_append, List.count_append, ih, Nat.count_succ]
        simp only [List.map_cons, List.map_nil, List.count_singleton, beq_iff_eq, Nat.ModEq, hmod]
        have hiff : first + n % size = v ↔ n % size = v - first := by omega
        simp only [hiff]
  rw [hcount, Nat.count_modEq_card turns (by omega), hmod]

theorem count_le_count {first size v w : ℕ} (hv : first ≤ v) (hv' : v < first + size)
    (hw : first ≤ w) (hw' : w < first + size) (turns : ℕ) :
    (rounds first size turns).count v ≤ (rounds first size turns).count w + 1 := by
  rw [count_rounds hv hv', count_rounds hw hw']
  split <;> split <;> omega

end Rotation

end LinuxProgramming
