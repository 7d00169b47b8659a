import LinuxProgramming.RingQueue.Runs

/-! # Calls that do not overtake each other

`push` fills its slot and `pop` reads it after `m_lock` has been posted, and the two counting
semaphores count finished copies without saying which slots they were made in.  What a copy finds
therefore depends on the order in which the copies finish.

* `PostsInOrder` is the condition on one step that a push posts `m_pop_sem` only when every
  earlier reservation has been filled, `FreesInOrder` that a pop posts `m_push_sem` only when
  every earlier claim has been read.
* `OrderedInv` and `VacatedInv` are what holds along the runs whose steps meet the one or the
  other: filled positions stay filled until they are freed, and no later lap writes over a slot
  that is still to be read.
* `writer_of_inOrder` puts the two together: a pop at its copy finds the item of its position.
* `forall_reachable_iff` says of which queues every run has a property that overtaking breaks. -/

namespace LinuxProgramming.RingQueue

variable {T : Type*} {P C : ℕ}

/-- The push that reserved position `k` has made its copy. -/
def Published (s : State T P C) (k : ℕ) : Prop :=
  k < s.hist.items.length ∧ ∀ i, (s.push i).pending ≠ some k

/-- No push posts `m_pop_sem` while an earlier reservation still waits for its copy. -/
def PostsInOrder (s : State T P C) : Act T P C → Prop
  | .push i .post => ∀ k, (s.push i).pos = some k → ∀ j k', (s.push j).pending = some k' → k ≤ k'
  | _ => True

/-- No pop posts `m_push_sem` while an earlier claim still waits for its copy. -/
def FreesInOrder (s : State T P C) : Act T P C → Prop
  | .pop i .post => ∀ k, (s.pop i).pos = some k → ∀ j k', (s.pop j).pending = some k' → k ≤ k'
  | _ => True

/-- Neither a push nor a pop overtakes another. -/
def InOrderBoth (s : State T P C) (l : Act T P C) : Prop := PostsInOrder s l ∧ FreesInOrder s l

instance PostsInOrder.decidable (s : State T P C) : ∀ l, Decidable (PostsInOrder s l)
  | .push i .post => inferInstanceAs
      (Decidable (∀ k ∈ (s.push i).pos, ∀ j, ∀ k' ∈ (s.push j).pending, k ≤ k'))
  | .push _ (.timeout _) | .push _ (.take _) | .push _ .lock | .push _ .reserve
  | .push _ .unlock | .push _ .copy | .pop _ _ => .isTrue trivial

instance FreesInOrder.decidable (s : State T P C) : ∀ l, Decidable (FreesInOrder s l)
  | .pop i .post => inferInstanceAs
      (Decidable (∀ k ∈ (s.pop i).pos, ∀ j, ∀ k' ∈ (s.pop j).pending, k ≤ k'))
  | .pop _ .timeout | .pop _ .take | .pop _ .lock | .pop _ .claim
  | .pop _ .unlock | .pop _ .copy | .push _ _ => .isTrue trivial

instance InOrderBoth.decidable (s : State T P C) (l : Act T P C) :
    Decidable (InOrderBoth s l) :=
  inferInstanceAs (Decidable (_ ∧ _))

/-! ### Runs that free in order -/

/-- What holds along a run that frees in order: freed positions stay below the pending reads,
and the slot of a pending read has not been written by a later lap. -/
structure VacatedInv (size : ℕ) (s : State T P C) : Prop where
  inOrder : InOrder (fun i => (s.pop i).pending) s.hist.freed
  intact : ∀ i k, (s.pop i).pending = some k →
    ∀ j, s.hist.writer (k % size : ℕ) = some j → j ≤ k

namespace VacatedInv
variable {size : ℕ} {s : State T P C}

theorem start (raw : ℤ → T) : VacatedInv size (RingQueue.start size raw : State T P C) where
  inOrder := InOrder.start _
  intact := by
    rintro i k hi
    cases hi

/-- A reserved position is less than a lap ahead of every pending read. -/
theorem lt_of_pending (h : VacatedInv size s) (hI : Inv size s) {i : Fin C} {k k' : ℕ}
    (hi : (s.pop i).pending = some k') (hk : k < s.hist.items.length) : k < k' + size := by
  have hcard := h.inOrder.card_le (i := i) hi
  have := hI.items_le
  omega

/-- A step that leaves the pending reads, the freed positions and the slots alone. -/
theorem frame (h : VacatedInv size s) {s' : State T P C}
    (hpend : (fun i => (s'.pop i).pending) = fun i => (s.pop i).pending)
    (hfreed : s'.hist.freed = s.hist.freed) (hwriter : s'.hist.writer = s.hist.writer) :
    VacatedInv size s' where
  inOrder := by rw [hpend, hfreed]; exact h.inOrder
  intact := by
    intro i k hi
    rw [hwriter]
    exact h.intact i k (by rw [← congrFun hpend i]; exact hi)

theorem pop (h : VacatedInv size s) (hI : Inv size s) (hW : WriterSound size s) {i : Fin C}
    {a : PopAct} {s' : State T P C} (hφ : FreesInOrder s (.pop i a)) (hs : PopStep s i a s') :
    VacatedInv size s' := by
  cases hs with
  | timeout hi => exact h
  | take hi hsem => exact h.frame (comp_update_of_eq _ _ (by rw [hi]; rfl)) rfl rfl
  | lock hi hsem => exact h.frame (comp_update_of_eq _ _ (by rw [hi]; rfl)) rfl rfl
  | unlock slot k hi => exact h.frame (comp_update_of_eq _ _ (by rw [hi]; rfl)) rfl rfl
  | claim hi =>
      constructor
      · rw [comp_update PopPc.pending]
        exact h.inOrder.issue hI.popTickets i
      · intro i' k hk j hj
        by_cases hi' : i' = i
        · -- the newest claim is behind every reservation by less than a lap
          simp only [hi', Function.update_self, PopPc.pending, Option.some.injEq] at hk
          subst hk
          obtain ⟨hslot, hitem⟩ := hW _ j hj
          obtain ⟨hlt, _⟩ := List.getElem?_eq_some_iff.mp hitem
          have := hI.items_le
          have := hI.freed_le
          by_contra hlt'
          have := eq_of_slot_eq hslot (by omega) (by omega)
          omega
        · simp only [Function.update_of_ne hi'] at hk
          exact h.intact i' k hk j hj
  | copy slot k hi =>
      constructor
      · rw [comp_update PopPc.pending]
        exact h.inOrder.drop i
      · intro i' k' hk'
        by_cases hi' : i' = i
        · simp [hi', PopPc.pending] at hk'
        · simp only [Function.update_of_ne hi'] at hk'
          exact h.intact i' k' hk'
  | post target k hi =>
      have hpos : (s.pop i).pos = some k := by rw [hi]; rfl
      have hlt : ∀ j k', (s.pop j).pending = some k' → k < k' :=
        hI.popTickets.lt_of_le (fun _ _ hj => PopPc.pos_of_pending hj) hpos (by rw [hi]; rfl)
          (hφ k hpos)
      have hsame := comp_update_of_eq PopPc.pending s.pop (i := i) (a := .idle) (by rw [hi]; rfl)
      constructor
      · rw [hsame]
        exact h.inOrder.finish hlt
      · intro i' k' hk'
        exact h.intact i' k' (by rw [← congrFun hsame i']; exact hk')

theorem push (h : VacatedInv size s) (hI : Inv size s) {i : Fin P} {a : PushAct T}
    {s' : State T P C} (hs : PushStep s i a s') : VacatedInv size s' := by
  cases hs with
  | timeout | take | lock | unlock | reserve | post => exact h.frame rfl rfl rfl
  | copy t slot k hi =>
      refine ⟨h.inOrder, fun i' k' hk' j hj => ?_⟩
      by_cases hsl : ((k' % size : ℕ) : ℤ) = slot
      · -- the push fills this slot: it is not a lap ahead of the pending read
        have hsound := hI.pushSound i
        rw [hi] at hsound
        obtain ⟨hlt, _⟩ := List.getElem?_eq_some_iff.mp hsound.2
        simp only [hsl, Function.update_self, Option.some.injEq] at hj
        subst hj
        have hlap := h.lt_of_pending hI (i := i') hk' hlt
        by_contra hgt
        have := eq_of_slot_eq (hsl.trans hsound.1) (by omega) (by omega)
        omega
      · simp only [Function.update_of_ne hsl] at hj
        exact h.intact i' k' hk' j hj

/-- A push at its copy is not ahead of the reads that are pending on its slot. -/
theorem le_of_pending (h : VacatedInv size s) (hI : Inv size s) {i : Fin P} {j : Fin C} {t : T}
    {slot : ℤ} {k k' : ℕ} (hi : s.push i = .unlocked t slot k)
    (hj : s.pop j = .claimed slot k' ∨ s.pop j = .unlocked slot k') : k ≤ k' := by
  have hsound := hI.pushSound i
  have hsound' := hI.popSound j
  rw [hi] at hsound
  obtain ⟨hlt, _⟩ := List.getElem?_eq_some_iff.mp hsound.2
  have hpend : (s.pop j).pending = some k' := by rcases hj with hj | hj <;> rw [hj] <;> rfl
  have hslot' : slot = (k' % size : ℕ) := by
    rcases hj with hj | hj <;> · rw [hj] at hsound'; exact hsound'
  have hlap := h.lt_of_pending hI hpend hlt
  by_contra hgt
  have := eq_of_slot_eq (hslot'.symm.trans hsound.1) (by omega) (by omega)
  omega

end VacatedInv

theorem vacatedInv_of_inOrder {size : ℕ} {s : State T P C}
    (h : (system T P C size).ReachableBy FreesInOrder s) : VacatedInv size s := by
  apply h.invariant
  · rintro s ⟨raw, rfl⟩
    exact VacatedInv.start raw
  · rintro s (⟨i, a⟩ | ⟨i, a⟩) s' hr hV hφ hs
    · exact hV.push (reachable_inv hr.reachable) (pushStep_iff.mp hs)
    · exact hV.pop (reachable_inv hr.reachable) (reachable_writerSound hr.reachable) hφ
        (popStep_iff.mp hs)

/-! ### Runs that post in order -/

/-- What holds along a run that posts in order: postings stay below the pending copies, and a
filled position has been copied for, or overwritten by a later lap. -/
structure OrderedInv (size : ℕ) (s : State T P C) : Prop where
  inOrder : InOrder (fun i => (s.push i).pending) s.hist.posted
  written : ∀ j, Published s j → ∃ j', j ≤ j' ∧ s.hist.writer (j % size : ℕ) = some j'

namespace OrderedInv
variable {size : ℕ} {s : State T P C}

theorem start (raw : ℤ → T) : OrderedInv size (RingQueue.start size raw : State T P C) where
  inOrder := InOrder.start _
  written := by
    rintro j ⟨hj, -⟩
    simp [RingQueue.start] at hj

/-- A step that leaves the pending copies, the items and the slots alone. -/
theorem frame (h : OrderedInv size s) {s' : State T P C}
    (hpend : (fun i => (s'.push i).pending) = fun i => (s.push i).pending)
    (hposted : s'.hist.posted = s.hist.posted) (hitems : s'.hist.items = s.hist.items)
    (hwriter : s'.hist.writer = s.hist.writer) : OrderedInv size s' where
  inOrder := by rw [hpend, hposted]; exact h.inOrder
  written := by
    rintro j ⟨hj, hp⟩
    rw [hwriter]
    refine h.written j ⟨by rwa [hitems] at hj, fun i => ?_⟩
    rw [← congrFun hpend i]
    exact hp i

theorem push (h : OrderedInv size s) (hI : Inv size s) {i : Fin P} {a : PushAct T}
    {s' : State T P C} (hφ : PostsInOrder s (.push i a)) (hs : PushStep s i a s') :
    OrderedInv size s' := by
  cases hs with
  | timeout t hi => exact h
  | take t hi hsem => exact h.frame (comp_update_of_eq _ _ (by rw [hi]; rfl)) rfl rfl rfl
  | lock t hi hsem => exact h.frame (comp_update_of_eq _ _ (by rw [hi]; rfl)) rfl rfl rfl
  | unlock t slot k hi => exact h.frame (comp_update_of_eq _ _ (by rw [hi]; rfl)) rfl rfl rfl
  | reserve t hi =>
      constructor
      · rw [comp_update PushPc.pending]
        exact h.inOrder.issue hI.pushTickets i
      · rintro j ⟨hj, hp⟩
        have hne := hp i
        simp only [Function.update_self, PushPc.pending, ne_eq, Option.some.injEq] at hne
        simp only [List.length_append, List.length_singleton] at hj
        refine h.written j ⟨by omega, fun i' => ?_⟩
        by_cases hi' : i' = i
        · rw [hi', hi]; simp [PushPc.pending]
        · have := hp i'
          simpa only [Function.update_of_ne hi'] using this
  | copy t slot k hi =>
      have hsound := hI.pushSound i
      have hpend : (s.push i).pending = some k := by rw [hi]; rfl
      rw [hi] at hsound
      constructor
      · rw [comp_update PushPc.pending]
        exact h.inOrder.drop i
      · rintro j ⟨hj, hp⟩
        by_cases hjk : j = k
        · exact ⟨k, hjk.le, by simp only [hjk, ← hsound.1, Function.update_self]⟩
        · have hpub : Published s j := by
            refine ⟨hj, fun i' => ?_⟩
            by_cases hi' : i' = i
            · rw [hi', hpend]
              exact fun he => hjk (Option.some.inj he).symm
            · have := hp i'
              simpa only [Function.update_of_ne hi'] using this
          obtain ⟨j', hle, hw⟩ := h.written j hpub
          by_cases hsl : ((j % size : ℕ) : ℤ) = slot
          · -- a filled position of this slot is not a lap ahead of a pending copy
            refine ⟨k, ?_, by simp only [hsl, Function.update_self]⟩
            by_contra hlt
            have hcard := h.inOrder.card_le (i := i) hpend
            have := hI.items_le
            have := hI.freed_le
            have := hI.claims_le
            simp only at hj
            exact hjk (eq_of_slot_eq (hsl.trans hsound.1) (by omega) (by omega))
          · exact ⟨j', hle, by simp only [Function.update_of_ne hsl, hw]⟩
  | post t slot k hi =>
      have hpos : (s.push i).pos = some k := by rw [hi]; rfl
      have hlt : ∀ j k', (s.push j).pending = some k' → k < k' :=
        hI.pushTickets.lt_of_le (fun _ _ hj => PushPc.pos_of_pending hj) hpos (by rw [hi]; rfl)
          (hφ k hpos)
      have hsame := comp_update_of_eq PushPc.pending s.push (i := i) (a := .idle) (by rw [hi]; rfl)
      constructor
      · rw [hsame]
        exact h.inOrder.finish hlt
      · rintro j ⟨hj, hp⟩
        refine h.written j ⟨hj, fun i' => ?_⟩
        have := hp i'
        rwa [← congrFun hsame i']

theorem pop (h : OrderedInv size s) {i : Fin C} {a : PopAct} {s' : State T P C}
    (hs : PopStep s i a s') : OrderedInv size s' := by
  cases hs <;> exact h.frame rfl rfl rfl rfl

/-- The slot of a published position that has not been freed holds its item. -/
theorem slot_eq (h : OrderedInv size s) (hI : Inv size s) (hW : WriterSound size s) {j : ℕ}
    (hj : Published s j) (hfreed : s.hist.freed.card ≤ j) :
    s.hist.items[j]? = some (s.q.arr (j % size : ℕ)) := by
  obtain ⟨j', hle, hw⟩ := h.written j hj
  obtain ⟨hslot, hitem⟩ := hW _ j' hw
  obtain ⟨hlt, _⟩ := List.getElem?_eq_some_iff.mp hitem
  have := hI.items_le
  have hjj : j = j' := eq_of_slot_eq hslot (by omega) (by omega)
  rw [← hitem, hjj]

/-- Pops are behind the postings, postings are behind the pending copies. -/
theorem lt_of_pending (h : OrderedInv size s) (hI : Inv size s) {i : Fin P} {j : Fin C}
    {k k' : ℕ} (hi : (s.push i).pending = some k) (hj : (s.pop j).pending = some k') : k' < k := by
  have hk' := hI.popTickets.held_lt j k' (PopPc.pos_of_pending hj)
  have hcard := h.inOrder.card_le (i := i) hi
  have hclaims := hI.claims_le
  omega

theorem published (h : OrderedInv size s) (hI : Inv size s) {j : Fin C} {k : ℕ}
    (hj : (s.pop j).pending = some k) : Published s k := by
  have hk := hI.popTickets.held_lt j k (PopPc.pos_of_pending hj)
  have hle := hI.claims_le.trans hI.pushTickets.card_le
  exact ⟨by omega, fun i hi => lt_irrefl k (h.lt_of_pending hI hi hj)⟩

/-- Where frees are in order as well, the slot that a pop is about to read was filled last for
its position: for no earlier one, since its push has copied, and for no later one. -/
theorem writer_eq (h : OrderedInv size s) (hV : VacatedInv size s) (hI : Inv size s) {i : Fin C}
    {slot : ℤ} {k : ℕ} (hi : s.pop i = .unlocked slot k) : s.hist.writer slot = some k := by
  have hpend : (s.pop i).pending = some k := by rw [hi]; rfl
  have hsound := hI.popSound i
  rw [hi] at hsound
  obtain ⟨j, hle, hw⟩ := h.written k (h.published hI hpend)
  have hge := hV.intact i k hpend j hw
  rw [show slot = (k % size : ℕ) from hsound, hw, show j = k by omega]

end OrderedInv

theorem orderedInv_of_inOrder {size : ℕ} {s : State T P C}
    (h : (system T P C size).ReachableBy PostsInOrder s) : OrderedInv size s := by
  apply h.invariant
  · rintro s ⟨raw, rfl⟩
    exact OrderedInv.start raw
  · rintro s (⟨i, a⟩ | ⟨i, a⟩) s' hr hO hφ hs
    · exact hO.push (reachable_inv hr.reachable) hφ (pushStep_iff.mp hs)
    · exact hO.pop (popStep_iff.mp hs)

/-- In a run in which nobody overtakes, a pop reads the item of its position. -/
theorem writer_of_inOrder {size : ℕ} {s : State T P C}
    (h : (system T P C size).ReachableBy InOrderBoth s) {i : Fin C} {slot : ℤ} {k : ℕ}
    (hi : s.pop i = .unlocked slot k) :
    s.hist.writer slot = some k ∧ s.hist.items[k]? = some (s.q.arr slot) := by
  have hO := orderedInv_of_inOrder (h.mono fun _ _ hl => hl.1)
  have hV := vacatedInv_of_inOrder (h.mono fun _ _ hl => hl.2)
  have hw := hO.writer_eq hV (reachable_inv h.reachable) hi
  exact ⟨hw, (reachable_writerSound h.reachable slot k hw).2⟩

/-! ### Where nobody can overtake -/

/-- With one producer or one slot no push can overtake another. -/
theorem postsInOrder_step {size : ℕ} (hsmall : size ≤ 1 ∨ P ≤ 1) {s s' : State T P C}
    {l : Act T P C} (hI : Inv size s) (hs : step s l = some s') : PostsInOrder s l := by
  rcases l with ⟨i, a⟩ | ⟨i, a⟩
  · cases pushStep_iff.mp hs with
    | timeout | take | lock | unlock | reserve | copy => trivial
    | post t slot k hi =>
        intro k₀ hk₀ j k' hj
        exfalso
        have hne : i ≠ j := by
          rintro rfl
          rw [hi] at hj
          cases hj
        rcases hsmall with hsize | hP
        · have hbusy := add_le_tally PushPc.busy s.push hne
          have hj' := (s.push j).holding_pos_le
          rw [PushPc.pos_of_pending hj, holding_some] at hj'
          have := hI.sem
          simp only [hi, PushPc.busy] at hbusy hj'
          omega
        · exact hne (Fin.ext (by omega))
  · trivial

theorem postsInOrder_of_small {size : ℕ} (hsmall : size ≤ 1 ∨ P ≤ 1) {s : State T P C}
    (h : (system T P C size).Reachable s) :
    (system T P C size).ReachableBy PostsInOrder s :=
  h.by_of_invariant (I := Inv size) (fun _ hs => reachable_inv hs.reachable)
    fun _ _ _ hI hs => postsInOrder_step hsmall hI hs

/-- With one consumer or one slot no pop can overtake another. -/
theorem freesInOrder_step {size : ℕ} (hsmall : size ≤ 1 ∨ C ≤ 1) {s s' : State T P C}
    {l : Act T P C} (hI : Inv size s) (hs : step s l = some s') : FreesInOrder s l := by
  rcases l with ⟨i, a⟩ | ⟨i, a⟩
  · trivial
  · cases popStep_iff.mp hs with
    | timeout | take | lock | unlock | claim | copy => trivial
    | post target k hi =>
        intro k₀ hk₀ j k' hj
        exfalso
        have hne : i ≠ j := by
          rintro rfl
          rw [hi] at hj
          cases hj
        rcases hsmall with hsize | hC
        · have hbusy := add_le_tally PopPc.busy s.pop hne
          have hj' := (s.pop j).busy_eq
          rw [PopPc.pos_of_pending hj, holding_some] at hj'
          have := hI.sem
          simp only [hi, PopPc.busy] at hbusy hj'
          omega
        · exact hne (Fin.ext (by omega))

theorem inOrder_of_small {size : ℕ} (hsmall : size ≤ 1 ∨ P ≤ 1 ∧ C ≤ 1) {s : State T P C}
    (h : (system T P C size).Reachable s) :
    (system T P C size).ReachableBy InOrderBoth s :=
  h.by_of_invariant (I := Inv size) (fun _ hs => reachable_inv hs.reachable) fun _ _ _ hI hs =>
    ⟨postsInOrder_step (hsmall.imp_right And.left) hI hs,
      freesInOrder_step (hsmall.imp_right And.right) hI hs⟩

/-- The queues of which every run has a property, where both the pops and the pushes can break it
by overtaking, and nothing else can. -/
theorem forall_reachable_iff {size : ℕ} {I : State T P C → Prop}
    (hinOrder : ∀ s, (system T P C size).ReachableBy InOrderBoth s → I s)
    (hnoProducer : P = 0 → ∀ s, (system T P C size).Reachable s → I s)
    (hnoConsumer : C = 0 → ∀ s, (system T P C size).Reachable s → I s)
    (hpops : 2 ≤ size → 1 ≤ P → 2 ≤ C → ∃ s, (system T P C size).Reachable s ∧ ¬ I s)
    (hpushes : 2 ≤ size → 2 ≤ P → 1 ≤ C → ∃ s, (system T P C size).Reachable s ∧ ¬ I s) :
    (∀ s, (system T P C size).Reachable s → I s) ↔
      size ≤ 1 ∨ (P ≤ 1 ∧ C ≤ 1) ∨ P = 0 ∨ C = 0 := by
  constructor
  · intro hall
    by_contra hcon
    obtain ⟨s, hs, hbad⟩ : ∃ s, (system T P C size).Reachable s ∧ ¬ I s := by
      rcases Nat.lt_or_ge P 2 with hP | hP
      · exact hpops (by omega) (by omega) (by omega)
      · exact hpushes (by omega) hP (by omega)
    exact hbad (hall s hs)
  · rintro (hsize | hone | hP | hC) s h
    · exact hinOrder s (inOrder_of_small (.inl hsize) h)
    · exact hinOrder s (inOrder_of_small (.inr hone) h)
    · exact hnoProducer hP s h
    · exact hnoConsumer hC s h

end LinuxProgramming.RingQueue
