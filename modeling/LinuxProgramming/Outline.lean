import LinuxProgramming.OrderedForest

/-! # Outlines

An outline is a list of items, each with the items below it, and `lines` writes it down as a list
of labels with their levels.  The levels are enough to read it back (`read_lines`).

`Shows children label as o` says that `o` is the outline of the nodes `as` of a forest and of what
lies below them; there is exactly one, and its lines are the visits of the forest. -/

namespace LinuxProgramming

inductive Outline (β : Type*) where
  | nil
  | item (label : β) (below next : Outline β)

namespace Outline
variable {α β : Type*}

def size : Outline β → ℕ
  | nil => 0
  | item _ below next => below.size + next.size + 1

/-- The labels with their levels. -/
def lines : ℕ → Outline β → List (ℕ × β)
  | _, nil => []
  | level, item label below next =>
      (level, label) :: (lines (level + 1) below ++ lines level next)

/-- Read the items at a level, as far as they go, and what is left. -/
def read : ℕ → ℕ → List (ℕ × β) → Outline β × List (ℕ × β)
  | 0, _, rest => (nil, rest)
  | _ + 1, _, [] => (nil, [])
  | fuel + 1, level, (l, label) :: rest =>
      if l = level then
        let below := read fuel (level + 1) rest
        let next := read fuel level below.2
        (item label below.1 next.1, next.2)
      else (nil, (l, label) :: rest)

theorem length_lines (o : Outline β) (level : ℕ) : (o.lines level).length = o.size := by
  induction o generalizing level with
  | nil => rfl
  | item label below next ihbelow ihnext =>
      rw [lines, List.length_cons, List.length_append, ihbelow, ihnext]
      rfl

/-- **Reading back.**  What follows the outline is on a lower level, or there is nothing. -/
theorem read_lines (o : Outline β) {fuel : ℕ} (hfuel : o.size < fuel) (level : ℕ)
    {rest : List (ℕ × β)} (hrest : ∀ e ∈ rest.head?, e.1 < level) :
    read fuel level (o.lines level ++ rest) = (o, rest) := by
  induction o generalizing fuel level rest with
  | nil =>
      obtain ⟨fuel, rfl⟩ := Nat.exists_eq_add_of_lt hfuel
      cases rest with
      | nil => rfl
      | cons e rest =>
          have hlt : e.1 < level := hrest e rfl
          exact if_neg (Nat.ne_of_lt hlt)
  | item label below next ihbelow ihnext =>
      obtain ⟨fuel, rfl⟩ := Nat.exists_eq_add_of_lt hfuel
      have hsize : below.size < below.size + next.size + 1 + fuel := by omega
      have hsize' : next.size < below.size + next.size + 1 + fuel := by omega
      -- the next item, or what follows, is on a lower level than what lies below
      have hafter : ∀ e ∈ (next.lines level ++ rest).head?, e.1 < level + 1 := by
        cases next with
        | nil => exact fun e he => Nat.lt_succ_of_lt (hrest e he)
        | item label' below' next' =>
            intro e he
            obtain rfl := Option.some.inj he
            exact Nat.lt_succ_self level
      have hbelow := ihbelow hsize (level + 1) hafter
      have hnext := ihnext hsize' level hrest
      rw [lines, List.cons_append, List.append_assoc]
      show (if level = level then _ else _) = _
      rw [if_pos rfl]
      simp only [size] at hbelow hnext ⊢
      rw [hbelow, hnext]

end Outline

/-! ### The outline of a forest -/

variable {α β : Type*}

/-- `o` is the outline of the nodes and of what lies below them. -/
inductive Shows (children : α → List α) (label : α → β) : List α → Outline β → Prop
  | nil : Shows children label [] .nil
  | cons {a : α} {as : List α} {below next : Outline β}
      (hbelow : Shows children label (children a) below) (hnext : Shows children label as next) :
      Shows children label (a :: as) (.item (label a) below next)

namespace Shows
variable {children : α → List α} {label : α → β} {as : List α} {o o' : Outline β}

theorem unique (h : Shows children label as o) (h' : Shows children label as o') : o = o' := by
  induction h generalizing o' with
  | nil =>
      cases h'
      rfl
  | cons _ _ ihbelow ihnext =>
      cases h' with
      | cons hbelow' hnext' => rw [ihbelow hbelow', ihnext hnext']

section forest
variable {R S : α → α → Prop} {height : α → ℕ} (F : OrderedForest R S children height)
include F

theorem exists_outline {fuel : ℕ} (has : ∀ a ∈ as, height a < fuel) :
    ∃ o : Outline β, Shows children label as o := by
  induction fuel generalizing as with
  | zero =>
      cases as with
      | nil => exact ⟨.nil, .nil⟩
      | cons a as => exact absurd (has a List.mem_cons_self) (Nat.not_lt_zero _)
  | succ fuel ih =>
      induction as with
      | nil => exact ⟨.nil, .nil⟩
      | cons a as ihas =>
          have ha := has a List.mem_cons_self
          have hchildren : ∀ b ∈ children a, height b < fuel := by
            intro b hb
            have hlt := F.height_lt a b ((F.mem_children a b).mp hb)
            omega
          obtain ⟨below, hbelow⟩ := ih hchildren
          obtain ⟨next, hnext⟩ := ihas fun b hb => has b (List.mem_cons_of_mem a hb)
          exact ⟨_, .cons hbelow hnext⟩

/-- The lines are the visits. -/
theorem lines_eq (h : Shows children label as o) {fuel : ℕ} (has : ∀ a ∈ as, height a < fuel)
    (level : ℕ) : o.lines level =
      (as.flatMap (visits children fuel level)).map fun v => (v.1, label v.2) := by
  induction h generalizing fuel level with
  | nil => rfl
  | @cons a as below next _ _ ihbelow ihnext =>
      have ha := has a List.mem_cons_self
      obtain ⟨m, hm⟩ := Nat.exists_eq_add_of_lt ha
      have hchildren : ∀ b ∈ children a, height b < height a + m := by
        intro b hb
        have hlt := F.height_lt a b ((F.mem_children a b).mp hb)
        omega
      have hbelow := ihbelow hchildren (level + 1)
      have hnext := ihnext (fun b hb => has b (List.mem_cons_of_mem a hb)) level
      rw [Outline.lines, hbelow, hnext, List.flatMap_cons, List.map_append]
      conv_rhs => rw [hm, visits]
      rw [← hm]
      rfl

end forest

end Shows

end LinuxProgramming
