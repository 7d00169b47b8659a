import LinuxProgramming.RingQueue.Model
import Mathlib.Data.Int.ModEq
import Mathlib.Tactic.Ring

/-! # The accounting invariant of the ring queue

`PushStep` and `PopStep` say what each step can do; every later invariant is derived from them.
`Inv` is the accounting that holds for any number of threads: the two counting semaphores and
the calls in progress add up to the size, `m_lock` is a mutex, `m_front` and `m_cur_count` are
determined by the numbers of reserved and claimed positions, and every call knows its slot. -/

namespace LinuxProgramming.RingQueue

variable {T : Type*} {P C : ℕ}

/-- The steps of `push`, by program point. -/
inductive PushStep (s : State T P C) (i : Fin P) : PushAct T → State T P C → Prop
  | timeout (t : T) (h : s.push i = .idle) : PushStep s i (.timeout t) s
  | take (t : T) (h : s.push i = .idle) (hsem : 0 < s.q.pushSem) :
      PushStep s i (.take t) { s with
        q := { s.q with pushSem := s.q.pushSem - 1 }
        push := Function.update s.push i (.took t) }
  | lock (t : T) (h : s.push i = .took t) (hsem : 0 < s.q.lock) :
      PushStep s i .lock { s with
        q := { s.q with lock := s.q.lock - 1 }
        push := Function.update s.push i (.locked t) }
  | reserve (t : T) (h : s.push i = .locked t) :
      PushStep s i .reserve { s with
        q := s.q.reserve.2
        push := Function.update s.push i (.reserved t s.q.reserve.1 s.hist.items.length)
        hist := { s.hist with items := s.hist.items ++ [t] } }
  | unlock (t : T) (slot : ℤ) (k : ℕ) (h : s.push i = .reserved t slot k) :
      PushStep s i .unlock { s with
        q := { s.q with lock := s.q.lock + 1 }
        push := Function.update s.push i (.unlocked t slot k) }
  | copy (t : T) (slot : ℤ) (k : ℕ) (h : s.push i = .unlocked t slot k) :
      PushStep s i .copy { s with
        q := s.q.copyIn slot t
        push := Function.update s.push i (.copied t slot k)
        hist := { s.hist with writer := Function.update s.hist.writer slot (some k) } }
  | post (t : T) (slot : ℤ) (k : ℕ) (h : s.push i = .copied t slot k) :
      PushStep s i .post { s with
        q := { s.q with popSem := s.q.popSem + 1 }
        push := Function.update s.push i .idle
        hist := { s.hist with posted := insert k s.hist.posted } }

/-- The steps of `pop`, by program point. -/
inductive PopStep (s : State T P C) (i : Fin C) : PopAct → State T P C → Prop
  | timeout (h : s.pop i = .idle) : PopStep s i .timeout s
  | take (h : s.pop i = .idle) (hsem : 0 < s.q.popSem) :
      PopStep s i .take { s with
        q := { s.q with popSem := s.q.popSem - 1 }
        pop := Function.update s.pop i .took }
  | lock (h : s.pop i = .took) (hsem : 0 < s.q.lock) :
      PopStep s i .lock { s with
        q := { s.q with lock := s.q.lock - 1 }
        pop := Function.update s.pop i .locked }
  | claim (h : s.pop i = .locked) :
      PopStep s i .claim { s with
        q := s.q.claim.2
        pop := Function.update s.pop i (.claimed s.q.claim.1 s.hist.claims)
        hist := { s.hist with claims := s.hist.claims + 1 } }
  | unlock (slot : ℤ) (k : ℕ) (h : s.pop i = .claimed slot k) :
      PopStep s i .unlock { s with
        q := { s.q with lock := s.q.lock + 1 }
        pop := Function.update s.pop i (.unlocked slot k) }
  | copy (slot : ℤ) (k : ℕ) (h : s.pop i = .unlocked slot k) :
      PopStep s i .copy { s with pop := Function.update s.pop i (.copied (s.q.arr slot) k) }
  | post (target : T) (k : ℕ) (h : s.pop i = .copied target k) :
      PopStep s i .post { s with
        q := { s.q with pushSem := s.q.pushSem + 1 }
        pop := Function.update s.pop i .idle
        hist := { s.hist with
          freed := insert k s.hist.freed
          returned := s.hist.returned ++ [target] } }

theorem pushStep_iff {s s' : State T P C} {i : Fin P} {a : PushAct T} :
    pushStep s i a = some s' ↔ PushStep s i a s' := by
  constructor
  · intro h
    cases a with
    | timeout t =>
        simp only [pushStep] at h
        split at h
        · cases h; exact .timeout t ‹_›
        · cases h
    | take t =>
        simp only [pushStep] at h
        split at h
        · split at h
          · cases h; exact .take t ‹_› ‹_›
          · cases h
        · cases h
    | lock =>
        simp only [pushStep] at h
        split at h
        · split at h
          · cases h; exact .lock _ ‹_› ‹_›
          · cases h
        · cases h
    | reserve =>
        simp only [pushStep] at h
        split at h
        · cases h; exact .reserve _ ‹_›
        · cases h
    | unlock =>
        simp only [pushStep] at h
        split at h
        · cases h; exact .unlock _ _ _ ‹_›
        · cases h
    | copy =>
        simp only [pushStep] at h
        split at h
        · cases h; exact .copy _ _ _ ‹_›
        · cases h
    | post =>
        simp only [pushStep] at h
        split at h
        · cases h; exact .post _ _ _ ‹_›
        · cases h
  · intro h
    cases h <;> simp_all [pushStep]

theorem popStep_iff {s s' : State T P C} {i : Fin C} {a : PopAct} :
    popStep s i a = some s' ↔ PopStep s i a s' := by
  constructor
  · intro h
    cases a with
    | timeout =>
        simp only [popStep] at h
        split at h
        · cases h; exact .timeout ‹_›
        · cases h
    | take =>
        simp only [popStep] at h
        split at h
        · split at h
          · cases h; exact .take ‹_› ‹_›
          · cases h
        · cases h
    | lock =>
        simp only [popStep] at h
        split at h
        · split at h
          · cases h; exact .lock ‹_› ‹_›
          · cases h
        · cases h
    | claim =>
        simp only [popStep] at h
        split at h
        · cases h; exact .claim ‹_›
        · cases h
    | unlock =>
        simp only [popStep] at h
        split at h
        · cases h; exact .unlock _ _ ‹_›
        · cases h
    | copy =>
        simp only [popStep] at h
        split at h
        · cases h; exact .copy _ _ ‹_›
        · cases h
    | post =>
        simp only [popStep] at h
        split at h
        · cases h; exact .post _ _ ‹_›
        · cases h
  · intro h
    cases h <;> simp_all [popStep]

/-- An invariant of the queue is kept if every step of `push` and of `pop` keeps it. -/
theorem step_keeps {I : State T P C → Prop}
    (hpush : ∀ s i a s', I s → PushStep s i a s' → I s')
    (hpop : ∀ s i a s', I s → PopStep s i a s' → I s') :
    ∀ s l s', I s → step s l = some s' → I s'
  | s, .push i a, s', hI, h => hpush s i a s' hI (pushStep_iff.mp h)
  | s, .pop i a, s', hI, h => hpop s i a s' hI (popStep_iff.mp h)

theorem reachable_push {size : ℕ} {s s' : State T P C} {i : Fin P} {a : PushAct T}
    (h : (system T P C size).Reachable s) (hs : PushStep s i a s') :
    (system T P C size).Reachable s' := by
  have he : (system T P C size).step s (.push i a) = some s' := pushStep_iff.mpr hs
  exact h.next he

theorem reachable_pop {size : ℕ} {s s' : State T P C} {i : Fin C} {a : PopAct}
    (h : (system T P C size).Reachable s) (hs : PopStep s i a s') :
    (system T P C size).Reachable s' := by
  have he : (system T P C size).step s (.pop i a) = some s' := popStep_iff.mpr hs
  exact h.next he

/-! ### The invariant -/

/-- A call past its critical section works on the slot of its position, with its item. -/
def PushPc.Sound (size : ℕ) (items : List T) : PushPc T → Prop
  | reserved t slot k => slot = (k % size : ℕ) ∧ items[k]? = some t
  | unlocked t slot k => slot = (k % size : ℕ) ∧ items[k]? = some t
  | copied t slot k => slot = (k % size : ℕ) ∧ items[k]? = some t
  | _ => True

def PopPc.Sound (size : ℕ) : PopPc T → Prop
  | claimed slot k => slot = (k % size : ℕ)
  | unlocked slot k => slot = (k % size : ℕ)
  | _ => True

theorem PushPc.Sound.append {size : ℕ} {items : List T} {pc : PushPc T} (h : pc.Sound size items)
    (t : T) : pc.Sound size (items ++ [t]) := by
  have key : ∀ (k : ℕ) (x : T), items[k]? = some x → (items ++ [t])[k]? = some x := by
    intro k x hk
    obtain ⟨hlt, _⟩ := List.getElem?_eq_some_iff.mp hk
    rw [List.getElem?_append_left hlt, hk]
  cases pc with
  | reserved x slot k => exact ⟨h.1, key _ _ h.2⟩
  | unlocked x slot k => exact ⟨h.1, key _ _ h.2⟩
  | copied x slot k => exact ⟨h.1, key _ _ h.2⟩
  | idle | took | locked => trivial

/-- The accounting of the ring queue, for any number of threads. -/
structure Inv (size : ℕ) (s : State T P C) : Prop where
  size_eq : s.q.size = size
  sem : s.q.pushSem + s.q.popSem + tally PushPc.busy s.push + tally PopPc.busy s.pop = size
  lock : s.q.lock + tally PushPc.holdsLock s.push + tally PopPc.holdsLock s.pop = 1
  avail : s.hist.posted.card = s.hist.claims + s.q.popSem + tally PopPc.waiting s.pop
  pushTickets : Tickets s.hist.items.length (fun i => (s.push i).pos) s.hist.posted
  popTickets : Tickets s.hist.claims (fun i => (s.pop i).pos) s.hist.freed
  front : s.q.front = (s.hist.claims % size : ℕ)
  count : s.q.curCount + s.hist.claims = s.hist.items.length
  pushed : s.q.pushedCount = BitVec.ofNat 32 s.hist.items.length
  popped : s.q.poppedCount = BitVec.ofNat 32 s.hist.claims
  pushSound : ∀ i, (s.push i).Sound size s.hist.items
  popSound : ∀ i, (s.pop i).Sound size

namespace Inv
variable {size : ℕ} {s : State T P C}

theorem start (raw : ℤ → T) : Inv size (RingQueue.start size raw : State T P C) where
  size_eq := rfl
  sem := by simp [RingQueue.start, Queue.new, tally, PushPc.busy, PopPc.busy]
  lock := by simp [RingQueue.start, Queue.new, tally, PushPc.holdsLock, PopPc.holdsLock]
  avail := by simp [RingQueue.start, Queue.new, tally, PopPc.waiting]
  pushTickets := Tickets.start
  popTickets := Tickets.start
  front := by simp [RingQueue.start, Queue.new]
  count := by simp [RingQueue.start, Queue.new]
  pushed := rfl
  popped := rfl
  pushSound := fun _ => trivial
  popSound := fun _ => trivial

/-! ### Consequences -/

/-- Calls of `pop` wait for a position or have one. -/
theorem tally_busyPop (s : State T P C) : tally PopPc.busy s.pop =
    tally PopPc.waiting s.pop + tally holding (fun i => (s.pop i).pos) :=
  tally_eq_add fun i => (s.pop i).busy_eq

/-- Calls of `push` with a position are in progress. -/
theorem tally_posPush_le (s : State T P C) :
    tally holding (fun i => (s.push i).pos) ≤ tally PushPc.busy s.push :=
  tally_le_tally fun i => (s.push i).holding_pos_le

/-- Pops claim only positions whose push has posted, up to order. -/
theorem claims_le (h : Inv size s) : s.hist.claims ≤ s.hist.posted.card := by
  have := h.avail
  omega

/-- Pushes reserve only positions that pops have freed, up to order. -/
theorem items_le (h : Inv size s) : s.hist.items.length ≤ s.hist.freed.card + size := by
  have hb := tally_busyPop s
  have hp := tally_posPush_le s
  have := h.sem
  have := h.avail
  have := h.pushTickets.card
  have := h.popTickets.card
  omega

theorem freed_le (h : Inv size s) : s.hist.freed.card ≤ s.hist.claims := h.popTickets.card_le

theorem claims_le_items (h : Inv size s) : s.hist.claims ≤ s.hist.items.length :=
  h.claims_le.trans h.pushTickets.card_le

/-- A call at the modulo finds room: the sum it forms stays below twice the size. -/
theorem slot_sum (h : Inv size s) {i : Fin P} {t : T} (hi : s.push i = .locked t) :
    0 < size ∧ 0 ≤ s.q.front + s.q.curCount ∧ s.q.front + s.q.curCount < 2 * size := by
  have hsem := h.sem
  have hav := h.avail
  have hpt := h.pushTickets.card
  have hb := tally_busyPop s
  -- the caller is in progress without a position, so the others hold at most `size - 1`
  have hpos : tally holding (fun i => (s.push i).pos) + 1 ≤ tally PushPc.busy s.push := by
    have hu := tally_update PushPc.busy s.push i .idle
    have hp : tally holding (fun j => (Function.update s.push i .idle j).pos) ≤
        tally PushPc.busy (Function.update s.push i .idle) :=
      tally_posPush_le { s with push := Function.update s.push i .idle }
    rw [comp_update_of_eq PushPc.pos s.push (by rw [hi]; rfl)] at hp
    simp only [hi, PushPc.busy] at hu
    omega
  have hsize : 0 < size := by omega
  have hmod := Nat.mod_lt s.hist.claims hsize
  have hf := h.front
  have hc := h.count
  refine ⟨hsize, ?_, ?_⟩ <;> omega

/-- So up to `2 ^ 30` slots the sum fits the `int` in which it is formed. -/
theorem sum_fits (h : Inv size s) {i : Fin P} {t : T} (hi : s.push i = .locked t)
    (hsize : size ≤ 2 ^ 30) : s.q.front + s.q.curCount < 2 ^ 31 := by
  have hlt := (h.slot_sum hi).2.2
  omega

/-- The slot computed in the critical section of `push` is that of the next position. -/
theorem reserve_slot (h : Inv size s) {i : Fin P} {t : T} (hi : s.push i = .locked t) :
    s.q.reserve.1 = (s.hist.items.length % size : ℕ) := by
  have hnn := (h.slot_sum hi).2.1
  have hc := h.count
  have hsum : s.q.front + s.q.curCount =
      s.hist.items.length - (s.hist.claims - (s.hist.claims % size : ℕ) : ℤ) := by
    rw [h.front]; omega
  rw [Queue.reserve, h.size_eq, Int.tmod_eq_emod_of_nonneg hnn, hsum]
  have hdiv : (s.hist.claims : ℤ) - (s.hist.claims % size : ℕ) =
      size * (s.hist.claims / size : ℕ) := by
    have := Nat.div_add_mod s.hist.claims size
    omega
  rw [hdiv, Int.sub_mul_emod_self_left]
  rfl

/-! ### Preservation -/

/-- A step of `push` that neither draws nor returns a position. -/
theorem push_frame (h : Inv size s) {i : Fin P} (pc : PushPc T) {pushSem lock : ℕ}
    {arr : ℤ → T} {writer : ℤ → Option ℕ}
    (hsem : pushSem + pc.busy = s.q.pushSem + (s.push i).busy)
    (hlock : lock + pc.holdsLock = s.q.lock + (s.push i).holdsLock)
    (hpos : pc.pos = (s.push i).pos) (hsound : pc.Sound size s.hist.items) :
    Inv size { s with
      q := { s.q with arr := arr, pushSem := pushSem, lock := lock }
      push := Function.update s.push i pc
      hist := { s.hist with writer := writer } } := by
  have hb := tally_update PushPc.busy s.push i pc
  have hl := tally_update PushPc.holdsLock s.push i pc
  have h1 := h.sem
  have h2 := h.lock
  exact { h with
    sem := by simp only; omega
    lock := by simp only; omega
    pushTickets := by
      rw [comp_update_of_eq PushPc.pos s.push hpos]
      exact h.pushTickets
    pushSound := (Function.forall_update_iff s.push _).mpr
      ⟨hsound, fun j _ => h.pushSound j⟩ }

theorem push (h : Inv size s) {i : Fin P} {a : PushAct T} {s' : State T P C}
    (hs : PushStep s i a s') : Inv size s' := by
  have hsound := h.pushSound i
  cases hs with
  | timeout t hi => exact h
  | take t hi hsem =>
      exact h.push_frame (.took t) (by rw [hi]; simp only [PushPc.busy]; omega)
        (by rw [hi]; rfl) (by rw [hi]; rfl) trivial
  | lock t hi hsem =>
      exact h.push_frame (.locked t) (by rw [hi]; rfl)
        (by rw [hi]; simp only [PushPc.holdsLock]; omega) (by rw [hi]; rfl) trivial
  | unlock t slot k hi =>
      rw [hi] at hsound
      exact h.push_frame (.unlocked t slot k) (by rw [hi]; rfl) (by rw [hi]; rfl)
        (by rw [hi]; rfl) hsound
  | copy t slot k hi =>
      rw [hi] at hsound
      exact h.push_frame (.copied t slot k) (by rw [hi]; rfl) (by rw [hi]; rfl)
        (by rw [hi]; rfl) hsound
  | reserve t hi =>
      have hb := tally_update PushPc.busy s.push i
        (.reserved t s.q.reserve.1 s.hist.items.length)
      have hl := tally_update PushPc.holdsLock s.push i
        (.reserved t s.q.reserve.1 s.hist.items.length)
      simp only [hi, PushPc.busy, PushPc.holdsLock] at hb hl
      have h1 := h.sem
      have h2 := h.lock
      have h3 := h.count
      exact { h with
        sem := by simp only [Queue.reserve_pushSem, Queue.reserve_popSem]; omega
        lock := by simp only [Queue.reserve_lock]; omega
        pushTickets := by
          rw [comp_update PushPc.pos, List.length_append]
          exact h.pushTickets.issue (by rw [hi]; rfl)
        count := by
          simp only [Queue.reserve_curCount, List.length_append, List.length_singleton]
          omega
        pushed := by
          rw [Queue.reserve_pushedCount, List.length_append, List.length_singleton,
            BitVec.ofNat_add, h.pushed]
          rfl
        pushSound := (Function.forall_update_iff s.push _).mpr
          ⟨⟨h.reserve_slot hi, by simp⟩, fun j _ => (h.pushSound j).append t⟩ }
  | post t slot k hi =>
      have hb := tally_update PushPc.busy s.push i .idle
      have hl := tally_update PushPc.holdsLock s.push i .idle
      simp only [hi, PushPc.busy, PushPc.holdsLock] at hb hl
      have h1 := h.sem
      have h2 := h.lock
      have h3 := h.avail
      have hpos : (s.push i).pos = some k := by rw [hi]; rfl
      exact { h with
        sem := by simp only; omega
        lock := by simp only; omega
        avail := by
          simp only [Finset.card_insert_of_notMem (h.pushTickets.held_notMem i k hpos)]
          omega
        pushTickets := by
          rw [comp_update PushPc.pos]
          exact h.pushTickets.finish hpos
        pushSound := (Function.forall_update_iff s.push _).mpr
          ⟨trivial, fun j _ => h.pushSound j⟩ }

/-- A step of `pop` that neither draws nor returns a position. -/
theorem pop_frame (h : Inv size s) {i : Fin C} (pc : PopPc T) {popSem lock : ℕ}
    (hsem : popSem + pc.busy = s.q.popSem + (s.pop i).busy)
    (hlock : lock + pc.holdsLock = s.q.lock + (s.pop i).holdsLock)
    (hwait : popSem + pc.waiting = s.q.popSem + (s.pop i).waiting)
    (hpos : pc.pos = (s.pop i).pos) (hsound : pc.Sound size) :
    Inv size { s with
      q := { s.q with popSem := popSem, lock := lock }
      pop := Function.update s.pop i pc } := by
  have hb := tally_update PopPc.busy s.pop i pc
  have hl := tally_update PopPc.holdsLock s.pop i pc
  have hw := tally_update PopPc.waiting s.pop i pc
  have h1 := h.sem
  have h2 := h.lock
  have h3 := h.avail
  exact { h with
    sem := by simp only; omega
    lock := by simp only; omega
    avail := by simp only; omega
    popTickets := by
      rw [comp_update_of_eq PopPc.pos s.pop hpos]
      exact h.popTickets
    popSound := (Function.forall_update_iff s.pop _).mpr ⟨hsound, fun j _ => h.popSound j⟩ }

theorem pop (h : Inv size s) {i : Fin C} {a : PopAct} {s' : State T P C}
    (hs : PopStep s i a s') : Inv size s' := by
  have hsound := h.popSound i
  cases hs with
  | timeout hi => exact h
  | take hi hsem =>
      exact h.pop_frame .took (by rw [hi]; simp only [PopPc.busy]; omega) (by rw [hi]; rfl)
        (by rw [hi]; simp only [PopPc.waiting]; omega) (by rw [hi]; rfl) trivial
  | lock hi hsem =>
      exact h.pop_frame .locked (by rw [hi]; rfl)
        (by rw [hi]; simp only [PopPc.holdsLock]; omega) (by rw [hi]; rfl) (by rw [hi]; rfl)
        trivial
  | unlock slot k hi =>
      rw [hi] at hsound
      exact h.pop_frame (.unlocked slot k) (by rw [hi]; rfl) (by rw [hi]; rfl) (by rw [hi]; rfl)
        (by rw [hi]; rfl) hsound
  | copy slot k hi =>
      exact h.pop_frame (.copied (s.q.arr slot) k) (by rw [hi]; rfl) (by rw [hi]; rfl)
        (by rw [hi]; rfl) (by rw [hi]; rfl) trivial
  | claim hi =>
      have hb := tally_update PopPc.busy s.pop i (.claimed s.q.claim.1 s.hist.claims)
      have hl := tally_update PopPc.holdsLock s.pop i (.claimed s.q.claim.1 s.hist.claims)
      have hw := tally_update PopPc.waiting s.pop i (.claimed s.q.claim.1 s.hist.claims)
      simp only [hi, PopPc.busy, PopPc.holdsLock, PopPc.waiting] at hb hl hw
      have h1 := h.sem
      have h2 := h.lock
      have h3 := h.avail
      have h4 := h.count
      exact { h with
        sem := by simp only [Queue.claim_pushSem, Queue.claim_popSem]; omega
        lock := by simp only [Queue.claim_lock]; omega
        avail := by simp only [Queue.claim_popSem]; omega
        popTickets := by
          rw [comp_update PopPc.pos]
          exact h.popTickets.issue (by rw [hi]; rfl)
        front := by
          rw [Queue.claim_front, h.front, h.size_eq, Int.tmod_eq_emod_of_nonneg (by omega)]
          norm_cast
          rw [Nat.mod_add_mod]
        count := by simp only [Queue.claim_curCount]; omega
        popped := by
          rw [Queue.claim_poppedCount, BitVec.ofNat_add, h.popped]
          rfl
        popSound := (Function.forall_update_iff s.pop _).mpr
          ⟨h.front, fun j _ => h.popSound j⟩ }
  | post target k hi =>
      have hb := tally_update PopPc.busy s.pop i .idle
      have hl := tally_update PopPc.holdsLock s.pop i .idle
      have hw := tally_update PopPc.waiting s.pop i .idle
      simp only [hi, PopPc.busy, PopPc.holdsLock, PopPc.waiting] at hb hl hw
      have h1 := h.sem
      have h2 := h.lock
      have h3 := h.avail
      exact { h with
        sem := by simp only; omega
        lock := by simp only; omega
        avail := by simp only; omega
        popTickets := by
          rw [comp_update PopPc.pos]
          exact h.popTickets.finish (by rw [hi]; rfl)
        popSound := (Function.forall_update_iff s.pop _).mpr
          ⟨trivial, fun j _ => h.popSound j⟩ }

end Inv

/-- The accounting holds in every reachable state. -/
theorem reachable_inv {size : ℕ} {s : State T P C} (h : (system T P C size).Reachable s) :
    Inv size s := by
  apply h.invariant
  · rintro s ⟨raw, rfl⟩
    exact Inv.start raw
  · exact step_keeps (fun _ _ _ _ hI hs => hI.push hs) fun _ _ _ _ hI hs => hI.pop hs

/-! ### What the slots hold -/

/-- The last copy into a slot was made for a position of that slot, with its item. -/
def WriterSound (size : ℕ) (s : State T P C) : Prop :=
  ∀ slot j, s.hist.writer slot = some j →
    slot = (j % size : ℕ) ∧ s.hist.items[j]? = some (s.q.arr slot)

theorem WriterSound.push {size : ℕ} {s s' : State T P C} {i : Fin P} {a : PushAct T}
    (h : WriterSound size s) (hI : Inv size s) (hs : PushStep s i a s') : WriterSound size s' := by
  cases hs with
  | timeout | take | lock | unlock | post => exact h
  | reserve t hi =>
      intro slot j hj
      obtain ⟨hslot, hitem⟩ := h slot j hj
      obtain ⟨hlt, _⟩ := List.getElem?_eq_some_iff.mp hitem
      exact ⟨hslot, by rw [List.getElem?_append_left hlt]; exact hitem⟩
  | copy t slot k hi =>
      have hsound := hI.pushSound i
      rw [hi] at hsound
      intro slot' j hj
      simp only [Queue.copyIn]
      by_cases hsl : slot' = slot
      · subst hsl
        simp only [Function.update_self, Option.some.injEq] at hj ⊢
        rw [← hj]
        exact hsound
      · simp only [Function.update_of_ne hsl] at hj ⊢
        exact h slot' j hj

theorem WriterSound.pop {size : ℕ} {s s' : State T P C} {i : Fin C} {a : PopAct}
    (h : WriterSound size s) (hs : PopStep s i a s') : WriterSound size s' := by
  cases hs <;> exact h

theorem reachable_writerSound {size : ℕ} {s : State T P C}
    (h : (system T P C size).Reachable s) : WriterSound size s := by
  apply h.invariant'
  · rintro s ⟨raw, rfl⟩ slot j hj
    cases hj
  · rintro s (⟨i, a⟩ | ⟨i, a⟩) s' hr hI hs
    · exact hI.push (reachable_inv hr) (pushStep_iff.mp hs)
    · exact hI.pop (popStep_iff.mp hs)

/-- Two positions of one slot that are less than a lap apart are equal. -/
theorem eq_of_slot_eq {size j k : ℕ} (h : ((j % size : ℕ) : ℤ) = (k % size : ℕ))
    (hjk : j < k + size) (hkj : k < j + size) : j = k := by
  have hmod : j ≡ k [MOD size] := Int.ofNat_inj.mp h
  exact hmod.eq_of_abs_lt (by rw [abs_lt]; omega)

end LinuxProgramming.RingQueue
