import LinuxProgramming.RingQueue.Order
import Mathlib.Data.Multiset.MapFold

/-! # Publication: is the item in the slot when the pop reads it?

`push` reserves its slot under `m_lock` and fills it afterwards, and `m_pop_sem` counts the
finished copies without saying which slots they filled.  A pop therefore finds its item exactly
as far as nobody overtakes: pushes that finish out of order leave its slot unfilled, and pops
that finish out of order let a push of the next lap write over it.

* `Delivers` says that pops hand out the items of their positions, each once; it holds along
  every run in which nobody overtakes (`delivers_of_inOrder`).
* `publication_safety`: so does `PublicationSafe`, and all runs are safe exactly for a ring of
  one slot, for one thread at most on either side, or for nobody on one side. -/

namespace LinuxProgramming.RingQueue

variable {T : Type*} {P C size : ℕ}

/-! ### What the pops hand out -/

/-- A pop hands out the item of its position, and what has been returned so far are the items of
the positions freed so far, each once. -/
structure Delivers (s : State T P C) : Prop where
  inHand : ∀ i target k, s.pop i = .copied target k → s.hist.items[k]? = some target
  returned : (s.hist.returned : Multiset T).map some =
    s.hist.freed.val.map fun k => s.hist.items[k]?

namespace Delivers
variable {s : State T P C}

theorem start (raw : ℤ → T) : Delivers (RingQueue.start size raw : State T P C) where
  inHand := by
    rintro i target k hi
    cases hi
  returned := rfl

theorem push (h : Delivers s) (hI : Inv size s) {i : Fin P} {a : PushAct T} {s' : State T P C}
    (hs : PushStep s i a s') : Delivers s' := by
  cases hs with
  | timeout | take | lock | unlock | copy | post => exact ⟨h.inHand, h.returned⟩
  | reserve t hi =>
      have hle := hI.claims_le_items
      have hkeep : ∀ k, k < s.hist.claims → (s.hist.items ++ [t])[k]? = s.hist.items[k]? :=
        fun k hk => List.getElem?_append_left (by omega)
      refine ⟨fun j target k hj => ?_, ?_⟩
      · simp only
        rw [hkeep k (hI.popTickets.held_lt j k (by rw [show s.pop j = _ from hj]; rfl))]
        exact h.inHand j target k hj
      · simp only
        rw [h.returned]
        exact Multiset.map_congr rfl fun k hk => (hkeep k (hI.popTickets.done_lt k hk)).symm

theorem pop (h : Delivers s) (hI : Inv size s)
    (hitem : ∀ i slot k, s.pop i = .unlocked slot k → s.hist.items[k]? = some (s.q.arr slot))
    {i : Fin C} {a : PopAct} {s' : State T P C} (hs : PopStep s i a s') : Delivers s' := by
  have hothers : ∀ pc : PopPc T, (∀ target k, pc = .copied target k →
      s.hist.items[k]? = some target) → ∀ j target k,
      Function.update s.pop i pc j = .copied target k → s.hist.items[k]? = some target := by
    intro pc hpc j target k hj
    by_cases hji : j = i
    · rw [hji, Function.update_self] at hj
      exact hpc target k hj
    · rw [Function.update_of_ne hji] at hj
      exact h.inHand j target k hj
  cases hs with
  | timeout hi => exact h
  | take hi hsem => exact ⟨hothers _ (by simp), h.returned⟩
  | lock hi hsem => exact ⟨hothers _ (by simp), h.returned⟩
  | claim hi => exact ⟨hothers _ (by simp), h.returned⟩
  | unlock slot k hi => exact ⟨hothers _ (by simp), h.returned⟩
  | copy slot k hi =>
      refine ⟨hothers _ fun target k' hpc => ?_, h.returned⟩
      cases hpc
      exact hitem i slot _ hi
  | post target k hi =>
      refine ⟨hothers _ (by simp), ?_⟩
      have hnew : k ∉ s.hist.freed := hI.popTickets.held_notMem i k (by rw [hi]; rfl)
      simp only
      rw [← Multiset.coe_add, Multiset.map_add, h.returned, Finset.insert_val_of_notMem hnew,
        Multiset.map_cons, h.inHand i target k hi, Multiset.coe_singleton,
        Multiset.map_singleton, add_comm, Multiset.singleton_add]

end Delivers

theorem delivers_of_inOrder {s : State T P C}
    (h : (system T P C size).ReachableBy InOrderBoth s) :
    Delivers s := by
  apply h.invariant
  · rintro s ⟨raw, rfl⟩
    exact Delivers.start raw
  · rintro s (⟨i, a⟩ | ⟨i, a⟩) s' hr hD hφ hs
    · exact hD.push (reachable_inv hr.reachable) (pushStep_iff.mp hs)
    · exact hD.pop (reachable_inv hr.reachable) (fun _ _ _ hi => (writer_of_inOrder hr hi).2)
        (popStep_iff.mp hs)

/-! ### What the copies find -/

/-- A pop at its copy finds its position published, and in the slot what the push of this
position has copied there: neither what `new` left there nor the item of an earlier or a later
lap.  So pops return the items of their positions, each once. -/
structure PublicationSafe (s : State T P C) : Prop extends Delivers s where
  published : ∀ i slot k, s.pop i = .unlocked slot k → Published s k
  fresh : ∀ i slot k, s.pop i = .unlocked slot k →
    s.hist.writer slot = some k ∧ s.hist.items[k]? = some (s.q.arr slot)

/-- In a run that posts in order every pop finds its position published. -/
theorem published_of_inOrder {s : State T P C}
    (h : (system T P C size).ReachableBy PostsInOrder s) {i : Fin C} {slot : ℤ} {k : ℕ}
    (hi : s.pop i = .unlocked slot k) : Published s k :=
  (orderedInv_of_inOrder h).published (reachable_inv h.reachable) (by rw [hi]; rfl)

/-- In a run in which nobody overtakes every pop finds its item. -/
theorem publicationSafe_of_inOrder {s : State T P C}
    (h : (system T P C size).ReachableBy InOrderBoth s) : PublicationSafe s where
  toDelivers := delivers_of_inOrder h
  published := fun _ _ _ hi => published_of_inOrder (h.mono fun _ _ hl => hl.1) hi
  fresh := fun _ _ _ hi => writer_of_inOrder h hi

/-! ### Which queues are safe in every run -/

/-- Without a producer no pop gets past its semaphore. -/
theorem claims_of_noProducer {s : State T 0 C} (h : (system T 0 C size).Reachable s) :
    s.hist.claims = 0 := by
  have hitems : s.hist.items = [] := by
    refine h.invariant (I := fun s => s.hist.items = []) (fun s hs => ?_)
      (step_keeps (fun _ i => i.elim0) fun s i a s' hs hstep => ?_)
    · obtain ⟨raw, rfl⟩ := hs
      rfl
    · cases hstep <;> exact hs
  have hle := (reachable_inv h).claims_le_items
  rw [hitems] at hle
  exact Nat.le_zero.mp hle

theorem pos_of_noProducer {s : State T 0 C} (h : (system T 0 C size).Reachable s) (i : Fin C)
    (k : ℕ) : (s.pop i).pos ≠ some k := by
  intro hi
  have hlt := (reachable_inv h).popTickets.held_lt i k hi
  have hclaims := claims_of_noProducer h
  omega

theorem delivers_of_noProducer {s : State T 0 C} (h : (system T 0 C size).Reachable s) :
    Delivers s := by
  have hclaims := claims_of_noProducer h
  have hcard := (reachable_inv h).popTickets.card
  have hfreed : s.hist.freed = ∅ := Finset.card_eq_zero.mp (by omega)
  refine ⟨fun i target k hi => absurd (by rw [hi]; rfl) (pos_of_noProducer h i k), ?_⟩
  have hreturned : s.hist.returned.length = s.hist.freed.card := by
    refine h.invariant' (I := fun s => s.hist.returned.length = s.hist.freed.card)
      (fun s hs => ?_) fun s l s' hr hs hstep => ?_
    · obtain ⟨raw, rfl⟩ := hs
      rfl
    · rcases l with ⟨i, a⟩ | ⟨i, a⟩
      · exact i.elim0
      · cases popStep_iff.mp hstep with
        | post target k hi =>
            have hnew := (reachable_inv hr).popTickets.held_notMem i k (by rw [hi]; rfl)
            simp only [List.length_append, List.length_singleton,
              Finset.card_insert_of_notMem hnew, hs]
        | _ => exact hs
  rw [hfreed] at hreturned ⊢
  rw [List.length_eq_zero_iff.mp hreturned]
  rfl

theorem delivers_of_noConsumer {s : State T P 0} (h : (system T P 0 size).Reachable s) :
    Delivers s := by
  refine ⟨fun i => i.elim0, ?_⟩
  have hnone : s.hist.returned = [] ∧ s.hist.freed = ∅ := by
    refine h.invariant (I := fun s => s.hist.returned = [] ∧ s.hist.freed = ∅) (fun s hs => ?_)
      (step_keeps (fun s i a s' hs hstep => ?_) fun _ i => i.elim0)
    · obtain ⟨raw, rfl⟩ := hs
      exact ⟨rfl, rfl⟩
    · cases hstep <;> exact hs
  rw [hnone.1, hnone.2]
  rfl

/-- With two producers and two slots, the second producer posts while the first still waits to
copy, and a pop claims the slot that nobody has filled. -/
theorem exists_unpublished (hsize : 2 ≤ size) (hP : 2 ≤ P) (hC : 1 ≤ C) (t : T) :
    ∃ (s : State T P C) (i : Fin C) (slot : ℤ) (k : ℕ), (system T P C size).Reachable s ∧
      s.pop i = .unlocked slot k ∧ ¬ Published s k := by
  obtain ⟨p₀, p₁, hne⟩ : ∃ p₀ p₁ : Fin P, p₁ ≠ p₀ := ⟨⟨0, by omega⟩, ⟨1, hP⟩, by simp⟩
  obtain ⟨c⟩ : Nonempty (Fin C) := ⟨⟨0, hC⟩⟩
  have h0 : (system T P C size).Reachable (start size fun _ => t) := .of_init ⟨_, rfl⟩
  have h1 := reachable_pushBegin h0 (i := p₀) rfl (by simp [start, Queue.new]; omega) rfl t
  have h2 := reachable_pushBegin h1 (i := p₁) (by simp [start, hne])
    (by simp [start, Queue.new]; omega) rfl t
  have h3 := reachable_pushEnd h2 (i := p₁) (Function.update_self ..)
  have h4 := reachable_popBegin h3 (i := c) rfl (by simp) rfl
  refine ⟨_, c, _, 0, h4, Function.update_self .., fun hp => hp.2 p₀ ?_⟩
  simp [start, hne.symm, PushPc.pending]

/-- With two consumers and two slots, the push of the next lap goes first, and the pop of
position 0 finds its item. -/
theorem exists_stale (hsize : 2 ≤ size) (hP : 1 ≤ P) (hC : 2 ≤ C) (t : T) :
    ∃ s : State T P C, (system T P C size).Reachable s ∧ ¬ PublicationSafe s := by
  obtain ⟨s, p, c, h, hp, hc, -⟩ := exists_ahead (P := P) (C := C) hsize hP hC t t
  have h1 := reachable_push h (.copy t 0 size hp)
  refine ⟨_, h1, fun hs => ?_⟩
  have hw : Function.update s.hist.writer 0 (some size) 0 = some 0 := (hs.fresh c 0 0 hc).1
  rw [Function.update_self] at hw
  have := Option.some.inj hw
  omega

/-- **Publication.**  In a run in which nobody overtakes, every pop finds in its slot the item
of its own position, so pops return the items of their positions and none twice; and all runs of
a queue are like that exactly when it has one slot, or one thread at most on either side, or
nobody on one side.  That the push of the position has made its copy needs only that pushes post
in order, and fails in some run exactly for two slots, two producers and a consumer. -/
theorem publication_safety [Inhabited T] (P C size : ℕ) :
    (∀ s : State T P C, (system T P C size).ReachableBy InOrderBoth s → PublicationSafe s) ∧
    ((∀ s : State T P C, (system T P C size).Reachable s → PublicationSafe s) ↔
      size ≤ 1 ∨ (P ≤ 1 ∧ C ≤ 1) ∨ P = 0 ∨ C = 0) ∧
    (∀ s : State T P C, (system T P C size).ReachableBy PostsInOrder s →
      ∀ i slot k, s.pop i = .unlocked slot k → Published s k) ∧
    ((∀ s : State T P C, (system T P C size).Reachable s →
      ∀ i slot k, s.pop i = .unlocked slot k → Published s k) ↔ size ≤ 1 ∨ P ≤ 1 ∨ C = 0) := by
  refine ⟨fun s h => publicationSafe_of_inOrder h,
    forall_reachable_iff (fun s h => publicationSafe_of_inOrder h) ?_ ?_ ?_ ?_,
    fun s h i slot k hi => published_of_inOrder h hi, fun hall => ?_,
    fun hsmall s h i slot k hi => ?_⟩
  · rintro rfl s h
    have hnone : ∀ i slot k, s.pop i ≠ .unlocked slot k := fun i slot k hi =>
      pos_of_noProducer h i k (by rw [hi]; rfl)
    exact
      { delivers_of_noProducer h with
        published := fun i slot k hi => absurd hi (hnone i slot k)
        fresh := fun i slot k hi => absurd hi (hnone i slot k) }
  · rintro rfl s h
    exact
      { delivers_of_noConsumer h with
        published := fun i => i.elim0
        fresh := fun i => i.elim0 }
  · exact fun hsize hP hC => exists_stale hsize hP hC default
  · intro hsize hP hC
    obtain ⟨s, i, slot, k, hs, hi, hbad⟩ := @exists_unpublished T P C size hsize hP hC default
    exact ⟨s, hs, fun hsafe => hbad (hsafe.published i slot k hi)⟩
  · by_contra hcon
    obtain ⟨s, i, slot, k, hs, hi, hbad⟩ :=
      @exists_unpublished T P C size (by omega) (by omega) (by omega) default
    exact hbad (hall s hs i slot k hi)
  · rcases hsmall with hsize | hP | rfl
    · exact published_of_inOrder (postsInOrder_of_small (.inl hsize) h) hi
    · exact published_of_inOrder (postsInOrder_of_small (.inr hP) h) hi
    · exact i.elim0

/-- Two producers and one consumer on a ring of two slots: the second push overtakes the first,
and the pop returns what `new` left in slot 0. -/
def overtakingPushes (p q : Fin P) (c : Fin C) : List (Act ℕ P C) :=
  [.push p (.take 7), .push p .lock, .push p .reserve, .push p .unlock,
   .push q (.take 8), .push q .lock, .push q .reserve, .push q .unlock, .push q .copy,
   .push q .post,
   .pop c .take, .pop c .lock, .pop c .claim, .pop c .unlock]

theorem publication_overtaken :
    (∃ s s', (system ℕ 2 1 2).exec (start 2 fun _ => 0) (overtakingPushes 0 1 0) = some s ∧
      ¬ PublicationSafe s ∧
      (system ℕ 2 1 2).exec s [.pop 0 .copy, .pop 0 .post] = some s' ∧
      s'.hist.items = [7, 8] ∧ s'.hist.returned = [0]) ∧
    ¬ ∀ s, (system ℕ 2 1 2).Reachable s → PublicationSafe s := by
  have hrun : ∃ s s', (system ℕ 2 1 2).exec (start 2 fun _ => 0) (overtakingPushes 0 1 0) = some s ∧
      ¬ PublicationSafe s ∧
      (system ℕ 2 1 2).exec s [.pop 0 .copy, .pop 0 .post] = some s' ∧
      s'.hist.items = [7, 8] ∧ s'.hist.returned = [0] :=
    ⟨_, _, rfl, fun hs => (hs.published 0 0 0 rfl).2 0 rfl, rfl, rfl, rfl⟩
  refine ⟨hrun, fun hall => ?_⟩
  obtain ⟨s, _, hs, hbad, _⟩ := hrun
  exact hbad (hall s (Lts.Reachable.exec (.of_init ⟨_, rfl⟩) hs))

end LinuxProgramming.RingQueue
