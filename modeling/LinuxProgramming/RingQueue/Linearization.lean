import LinuxProgramming.Countdown
import LinuxProgramming.Fifo
import LinuxProgramming.RingQueue.Publication
import LinuxProgramming.TaggedLog

/-! # Many producers and consumers

`RingQueue.Refinement` treats one thread on either side.  For any number of them the critical
sections linearize the queue, as far as nobody overtakes: an item enters the bounded FIFO where
its push runs `reserve`, and what `m_arr[m_front]` holds leaves it where a pop runs `claim`.  The
copies are made later and outside `m_lock`; `linearizable` says that every call reports, when it
returns, the operation that its critical section performed.

`delivers_iff` says which queues have no runs but those. -/

namespace LinuxProgramming.RingQueue

variable {T : Type*} {P C size : ℕ}

/-- The items with a position that no pop has claimed. -/
def unclaimed (s : State T P C) : List T := s.hist.items.drop s.hist.claims

namespace Inv
variable {s : State T P C}

/-- A push in its critical section finds a position of the ring free. -/
theorem items_lt (h : Inv size s) {i : Fin P} {t : T} (hi : s.push i = .locked t) :
    s.hist.items.length < s.hist.claims + size := by
  have hnext := h.push (.reserve t hi)
  have hitems := hnext.items_le
  have hfreed := hnext.freed_le
  simp only [List.length_append, List.length_singleton] at hitems hfreed
  omega

/-- A pop in its critical section finds an item to claim. -/
theorem claims_lt (h : Inv size s) {i : Fin C} (hi : s.pop i = .locked) :
    s.hist.claims < s.hist.items.length := by
  have hwaiting : 0 < (s.pop i).waiting := by rw [hi]; exact Nat.one_pos
  have := tally_pos PopPc.waiting hwaiting
  have := h.avail
  have := h.pushTickets.card_le
  omega

theorem curCount_eq (h : Inv size s) : s.q.curCount = (unclaimed s).length := by
  have hcount := h.count
  have hle := h.claims_le_items
  rw [unclaimed, List.length_drop]
  omega

end Inv

/-! ### What the pops hand out -/

/-- The elements at the first positions of a list. -/
theorem map_getElem?_range {l : List T} {n : ℕ} (hn : n ≤ l.length) :
    (List.range n : Multiset ℕ).map (fun k => l[k]?) = ((l.take n : List T) : Multiset T).map some := by
  rw [Multiset.map_coe, Multiset.map_coe]
  congr 1
  apply List.ext_getElem?
  intro k
  by_cases hk : k < n
  · rw [List.getElem?_map, List.getElem?_range hk, List.getElem?_map, List.getElem?_take_of_lt hk,
      Option.map_some, List.getElem?_eq_getElem (by omega), Option.map_some]
  · rw [List.getElem?_eq_none (by simpa using hk), List.getElem?_eq_none (by simp; omega)]

namespace Delivers
variable {s : State T P C}

/-- With no pop in progress the items returned are those claimed, in some order. -/
theorem perm (h : Delivers s) (hI : Inv size s) (hidle : ∀ i, s.pop i = .idle) :
    s.hist.returned.Perm (s.hist.items.take s.hist.claims) := by
  have hzero := tally_eq_zero holding (f := fun i => (s.pop i).pos) fun i => by rw [hidle i]; rfl
  have hfreed : s.hist.freed = Finset.range s.hist.claims := by
    refine Finset.eq_of_subset_of_card_le
      (fun k hk => Finset.mem_range.mpr (hI.popTickets.done_lt k hk)) ?_
    have := hI.popTickets.card
    rw [Finset.card_range]
    omega
  have hmap : (s.hist.returned : Multiset T).map some =
      ((s.hist.items.take s.hist.claims : List T) : Multiset T).map some := by
    rw [h.returned, hfreed, Finset.range_val, ← map_getElem?_range hI.claims_le_items]
    rfl
  exact Multiset.coe_eq_coe.mp (Multiset.map_injective (Option.some_injective T) hmap)

/-- What has been returned is part of what has entered. -/
theorem subperm (h : Delivers s) (hI : Inv size s) :
    s.hist.returned.Subperm s.hist.items := by
  have hle : s.hist.freed.val ≤ (List.range s.hist.items.length : Multiset ℕ) := by
    refine Multiset.le_iff_subset s.hist.freed.nodup |>.mpr fun k hk => ?_
    have := hI.popTickets.done_lt k hk
    have := hI.claims_le_items
    exact Multiset.mem_coe.mpr (List.mem_range.mpr (by omega))
  have hmap := Multiset.map_le_map (f := fun k => s.hist.items[k]?) hle
  rw [← h.returned, map_getElem?_range le_rfl, List.take_length,
    Multiset.map_le_map_iff (Option.some_injective T)] at hmap
  exact Multiset.coe_le.mp hmap

end Delivers

/-- With all calls returned the ring holds the items not yet claimed, in order. -/
theorem ring_unclaimed {s : State T P C} (hI : Inv size s) (hO : OrderedInv size s)
    (hW : WriterSound size s) (hpush : ∀ i, s.push i = .idle) (hpop : ∀ i, s.pop i = .idle) :
    (List.range s.q.curCount.toNat).map (fun i : ℕ => s.q.arr ((s.q.front + i) % s.q.size)) =
      unclaimed s := by
  have hzero := tally_eq_zero holding (f := fun i => (s.pop i).pos) fun i => by rw [hpop i]; rfl
  have hfreed : s.hist.freed.card = s.hist.claims := by
    have := hI.popTickets.card
    omega
  rw [hI.curCount_eq, Int.toNat_natCast]
  apply List.ext_getElem?
  intro i
  rw [List.getElem?_map]
  by_cases hi : i < (unclaimed s).length
  · have hlen : (unclaimed s).length = s.hist.items.length - s.hist.claims := List.length_drop ..
    have hpub : Published s (s.hist.claims + i) := by
      refine ⟨by omega, fun j => ?_⟩
      rw [hpush j]
      simp [PushPc.pending]
    rw [List.getElem?_range hi, unclaimed, List.getElem?_drop,
      hO.slot_eq hI hW hpub (by omega), Option.map_some, hI.front, hI.size_eq]
    norm_cast
    rw [Nat.mod_add_mod]
  · rw [List.getElem?_eq_none (by simpa using hi), List.getElem?_eq_none (by omega)]
    rfl

/-- A single consumer returns the items in the order in which they entered. -/
theorem returned_prefix_of_single (hC : C ≤ 1) {s : State T P C}
    (h : (system T P C size).ReachableBy InOrderBoth s) : s.hist.returned <+: s.hist.items := by
  have hboth : s.hist.freed = Finset.range s.hist.returned.length ∧
      s.hist.returned <+: s.hist.items := by
    refine h.invariant (I := fun s => s.hist.freed = Finset.range s.hist.returned.length ∧
      s.hist.returned <+: s.hist.items) (fun s hs => ?_) fun s l s' hr hI hφ hs => ?_
    · obtain ⟨raw, rfl⟩ := hs
      exact ⟨rfl, List.nil_prefix⟩
    · rcases l with ⟨i, a⟩ | ⟨i, a⟩
      · cases pushStep_iff.mp hs with
        | reserve t hi => exact ⟨hI.1, hI.2.trans (List.prefix_append _ _)⟩
        | _ => exact hI
      · cases popStep_iff.mp hs with
        | post target k hi =>
            have hinv := reachable_inv hr.reachable
            have hpos : (s.pop i).pos = some k := by rw [hi]; rfl
            have hk := hinv.popTickets.held_lt i k hpos
            have hnew := hinv.popTickets.held_notMem i k hpos
            have hcard := hinv.popTickets.card
            have hitem := (delivers_of_inOrder hr).inHand i target k hi
            have hheld : tally holding (fun i => (s.pop i).pos) ≤ tally (fun _ : Fin C => 1) id :=
              tally_le_tally fun i => by
                unfold holding
                split <;> omega
            have hall : tally (fun _ : Fin C => 1) id = C := by simp [tally]
            rw [hI.1, Finset.card_range] at hcard
            rw [hI.1, Finset.mem_range] at hnew
            obtain rfl : k = s.hist.returned.length := by omega
            obtain ⟨rest, hrest⟩ := hI.2
            refine ⟨?_, ?_⟩
            · simp only [List.length_append, List.length_singleton, hI.1]
              exact (Finset.range_add_one).symm
            · rw [← hrest, List.getElem?_append_right le_rfl, Nat.sub_self] at hitem
              show s.hist.returned ++ [target] <+: s.hist.items
              cases rest with
              | nil => cases hitem
              | cons x rest =>
                  cases hitem
                  exact ⟨rest, by rw [← hrest]; simp⟩
        | _ => exact hI
  exact hboth.2

/-! ### The simulation -/

/-- A pop in its critical section finds in the slot at `m_front` the item that it claims. -/
theorem front_of_inOrder {s : State T P C} (h : (system T P C size).ReachableBy InOrderBoth s)
    {j : Fin C} (hj : s.pop j = .locked) :
    s.hist.items[s.hist.claims]? = some (s.q.arr s.q.front) := by
  have hI := reachable_inv h.reachable
  have hO := orderedInv_of_inOrder (h.mono fun _ _ hl => hl.1)
  have hlt := hI.claims_lt hj
  have hpub : Published s s.hist.claims := by
    refine ⟨hlt, fun i hi => ?_⟩
    have hcard := hO.inOrder.card_le (i := i) hi
    have hwaiting : 0 < (s.pop j).waiting := by rw [hj]; exact Nat.one_pos
    have := tally_pos PopPc.waiting hwaiting
    have := hI.avail
    omega
  rw [hO.slot_eq hI (reachable_writerSound h.reachable) hpub hI.freed_le, hI.front]

/-- A thread: one that pushes or one that pops. -/
abbrev Party (P C : ℕ) := Fin P ⊕ Fin C

/-- The operation of the bounded FIFO that a step performs, and the thread whose step it is: the
critical sections.  What leaves is what the slot at `m_front` holds. -/
def linearize (s : State T P C) : Act T P C → List (Party P C × Fifo.Op T)
  | .push i .reserve =>
      match s.push i with
      | .locked t => [(.inl i, .enq t)]
      | _ => []
  | .pop j .claim => [(.inr j, .deq (s.q.arr s.q.front))]
  | _ => []

/-- The operation that a call reports when it returns: `push(t)` that `t` has gone in, and
`pop(target)` what it hands out. -/
def report (s : State T P C) : Act T P C → List (Party P C × Fifo.Op T)
  | .push i .post =>
      match s.push i with
      | .copied t _ _ => [(.inl i, .enq t)]
      | _ => []
  | .pop j .post =>
      match s.pop j with
      | .copied target _ => [(.inr j, .deq target)]
      | _ => []
  | _ => []

/-- What a call of `push` has performed and not reported yet. -/
def PushPc.unreported : PushPc T → List (Fifo.Op T)
  | reserved t _ _ => [.enq t]
  | unlocked t _ _ => [.enq t]
  | copied t _ _ => [.enq t]
  | _ => []

/-- What a call of `pop` has performed and not reported yet. -/
def PopPc.unreported (items : List T) : PopPc T → List (Fifo.Op T)
  | claimed _ k => (items[k]?.map Fifo.Op.deq).toList
  | unlocked _ k => (items[k]?.map Fifo.Op.deq).toList
  | copied target _ => [.deq target]
  | _ => []

def unreported (s : State T P C) : Party P C → List (Fifo.Op T) :=
  Sum.elim (fun i => (s.push i).unreported) fun j => (s.pop j).unreported s.hist.items

/-- The critical sections have performed a run of the FIFO, of which each thread has reported
all but the call in progress. -/
structure Linearized (size : ℕ) (s : State T P C) (ops answers : List (Party P C × Fifo.Op T)) :
    Prop where
  run : (Fifo.system T size).exec [] (ops.map Prod.snd) = some (unclaimed s)
  entered : Fifo.enqs (ops.map Prod.snd) = s.hist.items
  reported : ∀ x, part ops x = part answers x ++ unreported s x

section unreported
variable {s s' : State T P C}

theorem unreported_push {i : Fin P} {pc : PushPc T} (h : s.push i = pc) :
    unreported s (.inl i) = pc.unreported := by rw [← h]; rfl

theorem unreported_pop {j : Fin C} {pc : PopPc T} (h : s.pop j = pc) :
    unreported s (.inr j) = pc.unreported s.hist.items := by rw [← h]; rfl

/-- A step of `push` concerns its own thread. -/
theorem unreported_of_push {i : Fin P} {pc : PushPc T}
    (hpush : s'.push = Function.update s.push i pc)
    (hpop : ∀ j, unreported s' (.inr j) = unreported s (.inr j)) (y : Party P C)
    (hy : y ≠ .inl i) : unreported s' y = unreported s y := by
  rcases y with i' | j
  · have hne : i' ≠ i := fun he => hy (by rw [he])
    exact unreported_push (by rw [hpush, Function.update_of_ne hne])
  · exact hpop j

/-- A step of `pop` concerns its own thread. -/
theorem unreported_of_pop {j : Fin C} {pc : PopPc T} (hpop : s'.pop = Function.update s.pop j pc)
    (hpush : s'.push = s.push) (hitems : s'.hist.items = s.hist.items) (y : Party P C)
    (hy : y ≠ .inr j) : unreported s' y = unreported s y := by
  rcases y with i | j'
  · exact unreported_push (by rw [hpush])
  · have hne : j' ≠ j := fun he => hy (by rw [he])
    rw [unreported_pop (by rw [hpop, Function.update_of_ne hne]), hitems]
    rfl

end unreported

namespace Linearized
variable {s s' : State T P C} {ops answers : List (Party P C × Fifo.Op T)}

/-- A step outside the critical sections that reports nothing. -/
theorem frame (h : Linearized size s ops answers) (hitems : s'.hist.items = s.hist.items)
    (hclaims : s'.hist.claims = s.hist.claims) (hsame : unreported s' = unreported s) :
    Linearized size s' (ops ++ []) (answers ++ []) := by
  rw [List.append_nil, List.append_nil]
  refine ⟨?_, h.entered.trans hitems.symm, fun x => ?_⟩
  · rw [h.run, unclaimed, unclaimed, hitems, hclaims]
  · rw [h.reported x, hsame]

/-- A step of thread `x` that performs an operation. -/
theorem performed (h : Linearized size s ops answers) {x : Party P C} {op : Fifo.Op T}
    (hself : unreported s' x = unreported s x ++ [op])
    (hothers : ∀ y, y ≠ x → unreported s' y = unreported s y) (y : Party P C) :
    part (ops ++ [(x, op)]) y = part (answers ++ []) y ++ unreported s' y := by
  rw [List.append_nil, part_append, h.reported y, part_singleton]
  by_cases hy : x = y
  · subst hy
    rw [if_pos rfl, hself, List.append_assoc]
  · rw [if_neg hy, hothers y (Ne.symm hy), List.append_nil]

/-- The step with which a call of thread `x` returns. -/
theorem returns (h : Linearized size s ops answers) (hitems : s'.hist.items = s.hist.items)
    (hclaims : s'.hist.claims = s.hist.claims) {x : Party P C} {op : Fifo.Op T}
    (hself : unreported s x = [op]) (hnone : unreported s' x = [])
    (hothers : ∀ y, y ≠ x → unreported s' y = unreported s y) :
    Linearized size s' (ops ++ []) (answers ++ [(x, op)]) := by
  rw [List.append_nil]
  refine ⟨?_, h.entered.trans hitems.symm, fun y => ?_⟩
  · rw [h.run, unclaimed, unclaimed, hitems, hclaims]
  · rw [h.reported y, part_append, part_singleton]
    by_cases hy : x = y
    · subst hy
      rw [if_pos rfl, hself, hnone, List.append_nil]
    · rw [if_neg hy, hothers y (Ne.symm hy), List.append_nil]

theorem push (h : Linearized size s ops answers) (hI : Inv size s) {i : Fin P} {a : PushAct T}
    (hs : PushStep s i a s') :
    Linearized size s' (ops ++ linearize s (.push i a)) (answers ++ report s (.push i a)) := by
  cases hs with
  | timeout t hi => exact h.frame rfl rfl rfl
  | take t hi | lock t hi | unlock t slot k hi | copy t slot k hi =>
      exact h.frame rfl rfl
        (congrArg (Sum.elim · _) (comp_update_of_eq _ _ (by rw [hi]; rfl)))
  | reserve t hi =>
      have hle := hI.claims_le_items
      have hroom := hI.items_lt hi
      have hlen : (unclaimed s).length < size := by
        rw [unclaimed, List.length_drop]
        omega
      have hkeep : ∀ j, (s.pop j).unreported (s.hist.items ++ [t]) =
          (s.pop j).unreported s.hist.items := by
        intro j
        cases hpc : s.pop j with
        | claimed slot k | unlocked slot k =>
            have hk := hI.popTickets.held_lt j k (by rw [hpc]; rfl)
            simp only [PopPc.unreported]
            rw [List.getElem?_append_left (by omega)]
        | idle | took | locked | copied => rfl
      have hop : linearize s (.push i .reserve) = [(.inl i, .enq t)] := by simp [linearize, hi]
      rw [hop]
      refine ⟨?_, ?_, h.performed ?_ ?_⟩
      · rw [List.map_append, Lts.exec_append, h.run]
        refine (Fifo.exec_single (Fifo.step_enq hlen)).trans ?_
        simp only [unclaimed, List.drop_append_of_le_length hle]
      · rw [List.map_append, Fifo.enqs_append, h.entered]
        rfl
      · rw [unreported_push (Function.update_self ..), unreported_push hi]
        rfl
      · exact unreported_of_push rfl hkeep
  | post t slot k hi =>
      have hop : report s (.push i .post) = [(.inl i, .enq t)] := by simp [report, hi]
      rw [hop]
      refine h.returns ?_ ?_ (unreported_push hi) ?_ ?_
      · rfl
      · rfl
      · rw [unreported_push (Function.update_self ..)]
        rfl
      · exact unreported_of_push rfl fun _ => rfl

theorem pop (h : Linearized size s ops answers)
    (hr : (system T P C size).ReachableBy InOrderBoth s) {j : Fin C} {a : PopAct}
    (hs : PopStep s j a s') :
    Linearized size s' (ops ++ linearize s (.pop j a)) (answers ++ report s (.pop j a)) := by
  have hI := reachable_inv hr.reachable
  cases hs with
  | timeout hi => exact h.frame rfl rfl rfl
  | take hi | lock hi | unlock slot k hi =>
      exact h.frame rfl rfl (congrArg (Sum.elim _) (comp_update_of_eq _ _ (by rw [hi]; rfl)))
  | copy slot k hi =>
      -- the slot still holds the item that the critical section has taken out
      have hitem := (writer_of_inOrder hr hi).2
      exact h.frame rfl rfl (congrArg (Sum.elim _) (comp_update_of_eq _ _
        (by rw [hi, PopPc.unreported, PopPc.unreported, hitem]; rfl)))
  | claim hi =>
      have hitem := front_of_inOrder hr hi
      have hlt := hI.claims_lt hi
      have hcons : unclaimed s =
          s.hist.items[s.hist.claims] :: s.hist.items.drop (s.hist.claims + 1) :=
        List.drop_eq_getElem_cons hlt
      have hhead : s.hist.items[s.hist.claims] = s.q.arr s.q.front :=
        Option.some.inj ((List.getElem?_eq_getElem hlt).symm.trans hitem)
      refine ⟨?_, ?_, h.performed ?_ ?_⟩
      · rw [List.map_append, Lts.exec_append, h.run, hcons, hhead]
        exact Fifo.exec_single (Fifo.step_deq _ _)
      · rw [List.map_append, Fifo.enqs_append, h.entered]
        exact List.append_nil _
      · rw [unreported_pop (Function.update_self ..), unreported_pop hi, PopPc.unreported, hitem]
        rfl
      · exact unreported_of_pop rfl rfl rfl
  | post target k hi =>
      have hop : report s (.pop j .post) = [(.inr j, .deq target)] := by simp [report, hi]
      rw [hop]
      refine h.returns ?_ ?_ (unreported_pop hi) ?_ ?_
      · rfl
      · rfl
      · rw [unreported_pop (Function.update_self ..)]
        rfl
      · exact unreported_of_pop rfl rfl rfl

end Linearized

theorem length_unreported_le (s : State T P C) (x : Party P C) : (unreported s x).length ≤ 1 := by
  rcases x with i | j
  · rw [unreported_push rfl]
    cases s.push i <;> simp [PushPc.unreported]
  · rw [unreported_pop rfl]
    cases s.pop j with
    | claimed slot k | unlocked slot k =>
        simp only [PopPc.unreported]
        cases s.hist.items[k]? <;> simp
    | idle | took | locked | copied => simp [PopPc.unreported]

theorem linearized {raw : ℤ → T} {ls : List (Act T P C)} {s : State T P C}
    (h : (system T P C size).exec (start size raw) ls = some s)
    (horder : (system T P C size).Along InOrderBoth (start size raw) ls) :
    Linearized size s ((system T P C size).trace linearize (start size raw) ls)
      ((system T P C size).trace report (start size raw) ls) := by
  have hfirst : Linearized size (start size raw : State T P C) [] [] :=
    ⟨rfl, rfl, by rintro (i | j) <;> rfl⟩
  refine horder.traces_invariant (I := Linearized size) ?_ (.init ⟨raw, rfl⟩) hfirst h
  rintro s (⟨i, a⟩ | ⟨j, a⟩) s' ops answers hr hlin - hs
  · exact hlin.push (reachable_inv hr.reachable) (pushStep_iff.mp hs)
  · exact hlin.pop hr (popStep_iff.mp hs)

/-! ### Which queues deliver in every run -/

/-- The second of two producers posts first, and the pop hands out what `new` left behind. -/
theorem exists_undelivered_of_producers [Nontrivial T] (hsize : 2 ≤ size) (hP : 2 ≤ P)
    (hC : 1 ≤ C) : ∃ s : State T P C, (system T P C size).Reachable s ∧ ¬ Delivers s := by
  obtain ⟨p₀, p₁, hne⟩ : ∃ p₀ p₁ : Fin P, p₁ ≠ p₀ := ⟨⟨0, by omega⟩, ⟨1, hP⟩, by simp⟩
  obtain ⟨c⟩ : Nonempty (Fin C) := ⟨⟨0, hC⟩⟩
  obtain ⟨x, y, hxy⟩ := exists_pair_ne T
  have h0 : (system T P C size).Reachable (start size fun _ => x) := .of_init ⟨_, rfl⟩
  have h1 := reachable_pushBegin h0 (i := p₀) rfl (by simp [start, Queue.new]; omega) rfl y
  have h2 := reachable_pushBegin h1 (i := p₁) (by simp [start, hne])
    (by simp [start, Queue.new]; omega) rfl y
  have h3 := reachable_pushEnd h2 (i := p₁) (Function.update_self ..)
  have h4 := reachable_popBegin h3 (i := c) rfl (by simp) rfl
  have h5 := reachable_pop h4 (.copy _ _ (Function.update_self ..))
  refine ⟨_, h5, fun hD => hxy ?_⟩
  have hslot : (1 : ℤ).tmod size = 1 := Int.tmod_eq_of_lt (by omega) (by omega)
  have hitem := hD.inHand c _ 0 (Function.update_self ..)
  simpa [start, Queue.new, Queue.reserve, Queue.claim, Queue.copyIn, hslot] using hitem.symm

/-- The push of the next lap goes first, and the pop of position 0 hands out its item. -/
theorem exists_undelivered_of_consumers [Nontrivial T] (hsize : 2 ≤ size) (hP : 1 ≤ P)
    (hC : 2 ≤ C) : ∃ s : State T P C, (system T P C size).Reachable s ∧ ¬ Delivers s := by
  obtain ⟨x, y, hxy⟩ := exists_pair_ne T
  obtain ⟨s, p, c, h, hp, hc, hitem⟩ := exists_ahead (P := P) (C := C) hsize hP hC x y
  have h1 := reachable_push h (.copy y 0 size hp)
  have h2 := reachable_pop h1 (.copy 0 0 hc)
  refine ⟨_, h2, fun hD => hxy ?_⟩
  have hlast : s.hist.items[0]? = some ((s.q.copyIn 0 y).arr 0) :=
    hD.inHand c _ 0 (Function.update_self ..)
  simpa [hitem, Queue.copyIn] using hlast

/-! ### The results -/

/-- **Linearization.**  Every run of the ring queue between any threads in which nobody overtakes
performs, at the critical sections of its calls, a run of the bounded FIFO of its size: what
enters are the items of the pushes, what leaves is what the slot at `m_front` holds.  Each thread
reports, in the order of its calls and all but the one in progress, the operations that its
critical sections have performed: a push that its item has entered, a pop the item that it hands
out.  `m_cur_count` is the number of items in the FIFO, and with all calls returned the ring holds
them in order. -/
theorem linearizable {raw : ℤ → T} {ls : List (Act T P C)} {s : State T P C}
    (h : (system T P C size).exec (start size raw) ls = some s)
    (horder : (system T P C size).Along InOrderBoth (start size raw) ls) :
    let ops := (system T P C size).trace linearize (start size raw) ls
    let answers := (system T P C size).trace report (start size raw) ls
    ∃ l, (Fifo.system T size).exec [] (ops.map Prod.snd) = some l ∧
      (∀ x, part answers x <+: part ops x ∧ (part ops x).length ≤ (part answers x).length + 1) ∧
      (∀ i, s.push i = .idle → part answers (.inl i) = part ops (.inl i)) ∧
      (∀ j, s.pop j = .idle → part answers (.inr j) = part ops (.inr j)) ∧
      s.q.curCount = l.length ∧ l.length ≤ size ∧
      ((∀ i, s.push i = .idle) → (∀ j, s.pop j = .idle) →
        (List.range l.length).map (fun i : ℕ => s.q.arr ((s.q.front + i) % s.q.size)) = l) := by
  have hlin := linearized h horder
  have hr := horder.reachableBy (.init ⟨raw, rfl⟩) h
  have hI := reachable_inv hr.reachable
  refine ⟨unclaimed s, hlin.run, fun x => ?_, fun i hi => ?_, fun j hj => ?_, hI.curCount_eq,
    Fifo.length_le (Nat.zero_le _) hlin.run, fun hpush hpop => ?_⟩
  · rw [hlin.reported x, List.length_append]
    exact ⟨List.prefix_append _ _, Nat.add_le_add_left (length_unreported_le s x) _⟩
  · rw [hlin.reported, unreported_push hi]
    exact (List.append_nil _).symm
  · rw [hlin.reported, unreported_pop hj]
    exact (List.append_nil _).symm
  · have hring := ring_unclaimed hI (orderedInv_of_inOrder (hr.mono fun _ _ hl => hl.1))
      (reachable_writerSound hr.reachable) hpush hpop
    rwa [hI.curCount_eq, Int.toNat_natCast] at hring

/-- Two producers and two consumers on a ring of two slots, their calls overlapping: the second
push is in progress while the first copies, and the pops copy in the order opposite to their
claims. -/
def overlapping (p q : Fin P) (c d : Fin C) : List (Act ℕ P C) :=
  [.push p (.take 7), .push q (.take 8), .push p .lock, .push p .reserve, .push p .unlock,
   .push q .lock, .push q .reserve, .push q .unlock, .push p .copy, .push q .copy, .push p .post,
   .pop d .take, .pop d .lock, .push q .post, .pop d .claim, .pop d .unlock,
   .pop c .take, .pop c .lock, .pop c .claim, .pop c .unlock, .pop c .copy, .pop d .copy,
   .pop d .post, .push p (.take 9), .push p .lock, .push p .reserve, .pop c .post]

/-- The second pop has handed out 7 and the first 8, as the FIFO has delivered them, and the push
of 9 has entered without having returned. -/
theorem linearizable_overlapping : ∃ s l,
    (system ℕ 2 2 2).exec (start 2 fun _ => 0) (overlapping 0 1 0 1) = some s ∧
    let ops := (system ℕ 2 2 2).trace linearize (start 2 fun _ => 0) (overlapping 0 1 0 1)
    let answers := (system ℕ 2 2 2).trace report (start 2 fun _ => 0) (overlapping 0 1 0 1)
    ops.map Prod.snd = [.enq 7, .enq 8, .deq 7, .deq 8, .enq 9] ∧
    part answers (.inr 1) = [.deq 7] ∧ part answers (.inr 0) = [.deq 8] ∧
    part answers (.inl 0) = [.enq 7] ∧ s.q.curCount = 1 ∧
    (Fifo.system ℕ 2).exec [] (ops.map Prod.snd) = some l := by
  have hrun : ∃ s, (system ℕ 2 2 2).exec (start 2 fun _ => 0) (overlapping 0 1 0 1) = some s ∧
      s.q.curCount = 1 := ⟨_, rfl, rfl⟩
  obtain ⟨s, hs, hcount⟩ := hrun
  obtain ⟨l, hl, -⟩ := linearizable hs (by decide)
  exact ⟨s, l, hs, rfl, rfl, rfl, rfl, hcount, hl⟩

/-- **Delivery between many threads.**  In a run in which neither pushes nor pops overtake each
other, pops hand out the items of their positions and none twice; with no pop in progress they
have returned the items claimed, in some order.  All runs of a queue are like that exactly when
it has one slot, or one thread at most on either side, or nobody on one side. -/
theorem delivers_iff [Nontrivial T] (P C size : ℕ) :
    (∀ s, (system T P C size).ReachableBy InOrderBoth s →
      Delivers s ∧ ((∀ i, s.pop i = .idle) →
        s.hist.returned.Perm (s.hist.items.take s.hist.claims))) ∧
    ((∀ s : State T P C, (system T P C size).Reachable s → Delivers s) ↔
      size ≤ 1 ∨ (P ≤ 1 ∧ C ≤ 1) ∨ P = 0 ∨ C = 0) := by
  refine ⟨fun s h => ?_, forall_reachable_iff (fun s h => delivers_of_inOrder h) ?_ ?_
    exists_undelivered_of_consumers exists_undelivered_of_producers⟩
  · have hD := delivers_of_inOrder h
    exact ⟨hD, hD.perm (reachable_inv h.reachable)⟩
  · rintro rfl s h
    exact delivers_of_noProducer h
  · rintro rfl s h
    exact delivers_of_noConsumer h

/-- Two producers are one too many on a ring of two slots. -/
theorem delivers_iff_twoProducers :
    ∃ s : State ℕ 2 1, (system ℕ 2 1 2).Reachable s ∧ ¬ Delivers s := by
  by_contra hcon
  have hall := (delivers_iff (T := ℕ) 2 1 2).2.mp fun s hs => not_not.mp fun hD => hcon ⟨s, hs, hD⟩
  omega

end LinuxProgramming.RingQueue
