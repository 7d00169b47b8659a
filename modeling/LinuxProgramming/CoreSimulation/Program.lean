import LinuxProgramming.ForkJoin
import LinuxProgramming.CoreSimulation.Lifecycle
import LinuxProgramming.CoreSimulation.Pipeline

/-! # The simulation as a whole

`main` of Chapter 12, the threads that it makes and the queues of the cores, in any interleaving.

* `main` executes the events of `CoreSimulation.Model` one after the other.  The constructor of the
  base starts the thread of an object, before the members of the object are stored; the destructor
  of the base clears `m_run` and waits in `pthread_join`, when the object is a `Producer` or a
  `Consumer` no more but its members are still there.
* A thread that has been started sleeps for two seconds and then repeats `work()`, which is the
  pipeline of its core.  It exits from the loop test once `m_run` is clear, that is while `main` is
  at its join.
* A thread that wakes up before the constructor of its object is over calls `work()` on members
  that are not stored yet, and leaves the queues in any state (`stray`).  `AwakeInTime` is the
  condition that no thread does; `Inv` holds along the runs that meet it.
* Left out: what the `work()` of the base prints, which a thread calls when it looks the function
  up while the base is being destroyed. -/

namespace LinuxProgramming.CoreSimulation

/-- The thread that an event starts, by its kind and its id. -/
def starts : Event → Option (Kind × ℕ)
  | .new (.thread kind t) => some (kind, t.id)
  | _ => none

def joins : Event → Option (Kind × ℕ)
  | .join kind t => some (kind, t.id)
  | _ => none

/-- The thread that moves in a step of a core. -/
def PipelineAct.party {P C : ℕ} : PipelineAct P C → Fin P ⊕ Fin C
  | .work i _ => .inl i
  | .push i _ => .inl i
  | .test i => .inl i
  | .receive j => .inr j
  | .pop j _ => .inr j
  | .consume j => .inr j

/-- The thread is at the test of its loop. -/
def Pipeline.atTest {P C : ℕ} (s : Pipeline P C) : Fin P ⊕ Fin C → Bool
  | .inl i =>
      match (s.producer i).pc with
      | .outside => true
      | _ => false
  | .inr j =>
      match s.consumer j with
      | .outside => true
      | _ => false

section atTest
variable {P C : ℕ} {s : Pipeline P C}

theorem Pipeline.atTest_inl {i : Fin P} :
    s.atTest (.inl i) = true ↔ (s.producer i).pc = .outside := by
  cases hpc : (s.producer i).pc <;> simp [Pipeline.atTest, hpc]

theorem Pipeline.atTest_inr {j : Fin C} : s.atTest (.inr j) = true ↔ s.consumer j = .outside := by
  cases hpc : s.consumer j <;> simp [Pipeline.atTest, hpc]

theorem Pipeline.outside_iff : s.Outside ↔ ∀ w, s.atTest w = true := by
  rw [Sum.forall]
  simp only [Pipeline.atTest_inl, Pipeline.atTest_inr]
  rfl

end atTest

namespace Program

/-- The threads of a core. -/
abbrev Party (perCore : Kind → ℕ) := Fin (perCore .producer) ⊕ Fin (perCore .consumer)

/-- The ids that `cur_producer_id` and `cur_consumer_id` give to the threads of a core. -/
def threadId (perCore : Kind → ℕ) (core : ℕ) : Party perCore → Kind × ℕ
  | .inl i => (.producer, core * perCore .producer + i)
  | .inr j => (.consumer, core * perCore .consumer + j)

/-- `main`, and the cores. -/
structure State (n : ℕ) (perCore : Kind → ℕ) where
  script : ForkJoin.State Event (Kind × ℕ)
  /-- `main` is in the constructor that its next event is, behind that of the base -/
  constructing : Bool
  core : Fin n → Pipeline (perCore .producer) (perCore .consumer)

inductive Act (n : ℕ) (perCore : Kind → ℕ) where
  | main
  | exit (core : Fin n) (w : Party perCore)
  | work (core : Fin n) (a : PipelineAct (perCore .producer) (perCore .consumer))
  /-- with the cores as they are left -/
  | stray (core : Fin n) (w : Party perCore)
      (left : Fin n → Pipeline (perCore .producer) (perCore .consumer))

variable {n : ℕ} {perCore : Kind → ℕ}

/-- The thread whose constructor is the next event of `main`. -/
def State.next (s : State n perCore) : Option (Kind × ℕ) := s.script.rest.head?.bind starts

/-- The thread has been started, and the constructor of its object is not over. -/
def State.inConstructor (s : State n perCore) (t : Kind × ℕ) : Bool :=
  s.constructing && decide (s.next = some t)

def step (s : State n perCore) : Act n perCore → Option (State n perCore)
  | .main =>
      if s.next.isSome && !s.constructing then some { s with constructing := true }
      else (ForkJoin.advance joins s.script).map fun script =>
        { s with script := script, constructing := false }
  | .exit core w =>
      if ForkJoin.running starts s.script (threadId perCore core w) &&
          ForkJoin.joining joins s.script (threadId perCore core w) && (s.core core).atTest w then
        some { s with script := ForkJoin.exit s.script (threadId perCore core w) }
      else none
  | .work core a =>
      if ForkJoin.running starts s.script (threadId perCore core a.party) then
        ((s.core core).step a).map fun p => { s with core := Function.update s.core core p }
      else none
  | .stray core w left =>
      if s.inConstructor (threadId perCore core w) then some { s with core := left } else none

/-- No thread leaves its `sleep(2)` before the constructor of its object is over. -/
def AwakeInTime (_ : State n perCore) : Act n perCore → Prop
  | .stray _ _ _ => False
  | _ => True

/-- The ids of the producers of a core. -/
def producerId (perCore : Kind → ℕ) (core : ℕ) (i : Fin (perCore .producer)) : ℕ :=
  core * perCore .producer + i

/-- `main` is about to begin; `raw` and `uninit` are in the memory of the queues and threads. -/
def start (size : ℕ) (raw : Fin n → ℤ → Items.WorkItem)
    (uninit : Fin n → Fin (perCore .producer) → Items.WorkItem) : State n perCore where
  script := ForkJoin.begin (main n perCore)
  constructing := false
  core c := Pipeline.start (producerId perCore c) size (raw c) (uninit c)

variable (n perCore) in
/-- The simulation on `n` cores with queues of the given size, under every interleaving. -/
def system (size : ℕ) : Lts (State n perCore) (Act n perCore) where
  init s := ∃ raw uninit, s = start size raw uninit
  step := step

/-- What the arrays of `main` can hold. -/
structure Fits (n : ℕ) (perCore : Kind → ℕ) : Prop where
  cores : n ≤ maxSystemCores
  threads : ∀ kind, n * perCore kind < 2 ^ 31

/-! ### The steps -/

inductive Step (s : State n perCore) : Act n perCore → State n perCore → Prop
  | enter (hnext : s.next.isSome = true) (hcon : s.constructing = false) :
      Step s .main { s with constructing := true }
  | main (script : ForkJoin.State Event (Kind × ℕ))
      (hcon : s.next.isSome = true → s.constructing = true)
      (h : ForkJoin.advance joins s.script = some script) :
      Step s .main { s with script := script, constructing := false }
  | exit (core : Fin n) (w : Party perCore)
      (hrun : ForkJoin.running starts s.script (threadId perCore core w) = true)
      (hjoin : ForkJoin.joining joins s.script (threadId perCore core w) = true)
      (htest : (s.core core).atTest w = true) :
      Step s (.exit core w)
        { s with script := ForkJoin.exit s.script (threadId perCore core w) }
  | work (core : Fin n) (a : PipelineAct (perCore .producer) (perCore .consumer))
      (p : Pipeline (perCore .producer) (perCore .consumer))
      (hrun : ForkJoin.running starts s.script (threadId perCore core a.party) = true)
      (hstep : Pipeline.Step (s.core core) a p) :
      Step s (.work core a) { s with core := Function.update s.core core p }
  | stray (core : Fin n) (w : Party perCore)
      (left : Fin n → Pipeline (perCore .producer) (perCore .consumer))
      (hcon : s.inConstructor (threadId perCore core w) = true) :
      Step s (.stray core w left) { s with core := left }

theorem step_iff {s s' : State n perCore} {l : Act n perCore} : step s l = some s' ↔ Step s l s' := by
  constructor
  · intro h
    cases l with
    | main =>
        simp only [step] at h
        split at h
        · next hguard =>
            cases h
            rw [Bool.and_eq_true, Bool.not_eq_true'] at hguard
            exact .enter hguard.1 hguard.2
        · next hguard =>
            obtain ⟨script, hscript, rfl⟩ := Option.map_eq_some_iff.mp h
            exact .main script (by simpa using hguard) hscript
    | exit core w =>
        simp only [step] at h
        split at h
        · next hguard =>
            cases h
            rw [Bool.and_eq_true, Bool.and_eq_true] at hguard
            exact .exit core w hguard.1.1 hguard.1.2 hguard.2
        · cases h
    | work core a =>
        simp only [step] at h
        split at h
        · next hrun =>
            obtain ⟨p, hp, rfl⟩ := Option.map_eq_some_iff.mp h
            exact .work core a p hrun (Pipeline.step_iff.mp hp)
        · cases h
    | stray core w left =>
        obtain ⟨hcon, h⟩ := Option.ite_none_right_eq_some.mp h
        cases h
        exact .stray core w left hcon
  · intro h
    cases h with
    | enter hnext hcon => simp [step, hnext, hcon]
    | main script hcon h =>
        have hguard : (s.next.isSome && !s.constructing) = false := by simpa using hcon
        simp [step, hguard, h]
    | exit core w hrun hjoin htest => simp [step, hrun, hjoin, htest]
    | work core a p hrun hstep => simp [step, hrun, Pipeline.step_iff.mpr hstep]
    | stray core w left hcon => simp [step, hcon]

/-- The ids of the threads are their own. -/
theorem threadId_inj {core core' : ℕ} {w w' : Party perCore}
    (h : threadId perCore core w = threadId perCore core' w') : core = core' ∧ w = w' := by
  have hblock : ∀ {m c c' : ℕ} (i i' : Fin m), c * m + i = c' * m + i' → c = c' ∧ i = i' := by
    intro m c c' i i' heq
    have hc : (c * m + i) / m = (c' * m + i') / m := by rw [heq]
    rw [div_eq_core (Nat.le_add_right _ _) (Nat.add_lt_add_left i.isLt _),
      div_eq_core (Nat.le_add_right _ _) (Nat.add_lt_add_left i'.isLt _)] at hc
    subst hc
    exact ⟨rfl, Fin.ext (Nat.add_left_cancel heq)⟩
  cases w with
  | inl i =>
      cases w' with
      | inl i' =>
          obtain ⟨rfl, rfl⟩ := hblock i i' (congrArg Prod.snd h)
          exact ⟨rfl, rfl⟩
      | inr j' => cases congrArg Prod.fst h
  | inr j =>
      cases w' with
      | inl i' => cases congrArg Prod.fst h
      | inr j' =>
          obtain ⟨rfl, rfl⟩ := hblock j j' (congrArg Prod.snd h)
          exact ⟨rfl, rfl⟩

/-- Only the thread that moves leaves the test of its loop. -/
theorem atTest_frame {P C : ℕ} {s s' : Pipeline P C} {a : PipelineAct P C}
    (h : Pipeline.Step s a s') {w : Fin P ⊕ Fin C} (hw : w ≠ a.party) :
    s'.atTest w = s.atTest w := by
  cases h with
  | retry i | cook i | push i | test i =>
      cases w with
      | inl i' =>
          have hi : i' ≠ i := fun heq => hw (by rw [heq]; rfl)
          simp only [Pipeline.atTest, Function.update_of_ne hi]
      | inr j => rfl
  | receive j | pop j | consume j =>
      cases w with
      | inl i => rfl
      | inr j' =>
          have hj : j' ≠ j := fun heq => hw (by rw [heq]; rfl)
          simp only [Pipeline.atTest, Function.update_of_ne hj]

/-! ### The invariant -/

/-- What holds in every run, also with threads that wake up early. -/
structure ScriptInv (s : State n perCore) : Prop where
  script : ForkJoin.Inv starts joins (main n perCore) s.script
  constructing : s.constructing = true → s.next.isSome = true

theorem ScriptInv.start (size : ℕ) (raw : Fin n → ℤ → Items.WorkItem)
    (uninit : Fin n → Fin (perCore .producer) → Items.WorkItem) :
    ScriptInv (Program.start size raw uninit : State n perCore) where
  script := .begin
  constructing := by
    intro h
    cases h

theorem ScriptInv.step {s s' : State n perCore} (h : ScriptInv s) {l : Act n perCore}
    (hs : Step s l s') : ScriptInv s' := by
  cases hs with
  | enter hnext => exact ⟨h.script, fun _ => hnext⟩
  | main script hcon hscript =>
      obtain ⟨e, -, -, -, hinv⟩ := h.script.advance hscript
      exact ⟨hinv, fun hcontra => by cases hcontra⟩
  | exit core w hrun => exact ⟨h.script.exit hrun, h.constructing⟩
  | work | stray => exact ⟨h.script, h.constructing⟩

theorem reachable_scriptInv {size : ℕ} {s : State n perCore}
    (h : (system n perCore size).Reachable s) : ScriptInv s := by
  apply h.invariant
  · rintro s ⟨raw, uninit, rfl⟩
    exact .start size raw uninit
  · intro s l s' hI hs
    exact hI.step (step_iff.mp hs)

structure Inv (size : ℕ) (s : State n perCore) : Prop extends ScriptInv s where
  core : ∀ c : Fin n, (Pipeline.system (perCore .consumer) (producerId perCore c) size).Reachable
    (s.core c)
  /-- a thread in a call of `work()` has been started and has not exited -/
  calls : ∀ (c : Fin n) w, (s.core c).atTest w = false →
    ForkJoin.running starts s.script (threadId perCore c w) = true

namespace Inv
variable {size : ℕ} {s s' : State n perCore}

theorem start (raw : Fin n → ℤ → Items.WorkItem)
    (uninit : Fin n → Fin (perCore .producer) → Items.WorkItem) :
    Inv size (Program.start size raw uninit : State n perCore) where
  toScriptInv := .start size raw uninit
  core := fun c => .of_init ⟨raw c, uninit c, rfl⟩
  calls := by
    intro c w hw
    cases w <;> cases hw

theorem step (h : Inv size s) {l : Act n perCore} (hl : AwakeInTime s l) (hs : Step s l s') :
    Inv size s' := by
  have hscript' := h.toScriptInv.step hs
  cases hs with
  | enter => exact ⟨hscript', h.core, h.calls⟩
  | main script hcon hscript =>
      obtain ⟨e, -, hdone, hexited, -⟩ := h.script.advance hscript
      refine ⟨hscript', h.core, fun c w hw => ?_⟩
      obtain ⟨⟨g, hg, hstart⟩, hlive⟩ := ForkJoin.Inv.running_iff.mp (h.calls c w hw)
      refine ForkJoin.Inv.running_iff.mpr ⟨⟨g, ?_, hstart⟩, ?_⟩
      · rw [hdone]
        exact List.mem_append_left _ hg
      · rw [hexited]
        exact hlive
  | exit core w hrun hjoin htest =>
      refine ⟨hscript', h.core, fun c w' hw' => ?_⟩
      have hne : threadId perCore c w' ≠ threadId perCore core w := by
        intro heq
        obtain ⟨hcore, rfl⟩ := threadId_inj heq
        rw [Fin.ext hcore, htest] at hw'
        cases hw'
      obtain ⟨hstart, hlive⟩ := ForkJoin.Inv.running_iff.mp (h.calls c w' hw')
      refine ForkJoin.Inv.running_iff.mpr ⟨hstart, ?_⟩
      simp only [ForkJoin.exit, Function.update_of_ne hne, hlive]
  | work core a p hrun hstep =>
      refine ⟨hscript', fun c => ?_, fun c w hw => ?_⟩
      · by_cases hc : c = core
        · subst hc
          simp only [Function.update_self]
          exact (h.core c).next (Pipeline.step_iff.mpr hstep)
        · simp only [Function.update_of_ne hc]
          exact h.core c
      · by_cases hc : c = core
        · subst hc
          by_cases hparty : w = a.party
          · rw [hparty]
            exact hrun
          · simp only [Function.update_self, atTest_frame hstep hparty] at hw
            exact h.calls c w hw
        · simp only [Function.update_of_ne hc] at hw
          exact h.calls c w hw
  | stray => exact hl.elim

end Inv

theorem reachable_inv {size : ℕ} {s : State n perCore}
    (h : (system n perCore size).ReachableBy AwakeInTime s) : Inv size s := by
  apply h.invariant
  · rintro s ⟨raw, uninit, rfl⟩
    exact Inv.start raw uninit
  · intro s l s' _ hI hl hs
    exact hI.step hl (step_iff.mp hs)

/-! ### What the script guards -/

/-- The core on whose queue a thread is made, and the core for which a queue is made. -/
def queueUsed : Event → Option ℕ
  | .new (.thread _ t) => t.queue
  | _ => none

def queueMade : Event → Option ℕ
  | .new (.queue core) => some core
  | _ => none

def threadOfObject : Object → Option (Kind × ℕ)
  | .thread kind t => some (kind, t.id)
  | .queue _ => none

/-- The thread that an event deletes. -/
def threadDeleted : Event → Option (Kind × ℕ)
  | .delete (.thread kind t) => some (kind, t.id)
  | _ => none

theorem joins_threadsDeleted {kind : Kind} {e : Event} (he : e ∈ threadsDeleted n perCore kind)
    {t : Kind × ℕ} (ht : joins e = some t) : ∃ i < n * perCore kind, t = (kind, i) := by
  obtain ⟨i, hi, he⟩ := List.mem_flatMap.mp he
  simp only [deleteEvents, List.mem_cons, List.not_mem_nil, or_false] at he
  rcases he with rfl | rfl | rfl
  · cases ht
  · cases ht
    exact ⟨i, List.mem_range.mp hi, rfl⟩
  · cases ht

section guards
variable (h : ∀ kind, 0 ≤ entries perCore n kind)
include h

/-- A thread that is made has a queue that has been made. -/
theorem guarded_queue : ForkJoin.Guarded queueUsed queueMade (main n perCore) := by
  have hmade : ∀ e ∈ main n perCore, ∀ core, queueUsed e = some core → core < n := by
    intro e he core hcore
    cases e with
    | new o =>
        cases o with
        | queue => cases hcore
        | thread kind t =>
            rcases (mem_made_iff h _).mp he with ⟨_, -, heq⟩ | ⟨kind', i, hi, heq⟩
            · cases heq
            · obtain ⟨rfl, rfl⟩ := Object.thread.inj heq
              cases hcore
              exact Nat.div_lt_of_lt_mul (by rwa [Nat.mul_comm])
    | _ => cases hcore
  obtain ⟨rest, hmain⟩ := exists_main_eq n perCore
  rw [hmain] at hmade ⊢
  refine ForkJoin.Guarded.of_before (.of_none fun e he => ?_) fun e he core hcore => ?_
  · rcases List.mem_append.mp he with he | he
    · obtain ⟨i, -, he⟩ := List.mem_flatMap.mp he
      simp only [queueEvents, List.mem_cons, List.not_mem_nil, or_false] at he
      rcases he with rfl | rfl | rfl <;> rfl
    · rw [List.mem_singleton.mp he]
      rfl
  · have hlt := hmade e (List.mem_append_right _ he) core hcore
    refine ⟨.new (.queue core), List.mem_append_left _ (List.mem_flatMap.mpr ?_), rfl⟩
    exact ⟨core, List.mem_range.mpr hlt, by simp [queueEvents]⟩

/-- Only threads that have been started are joined. -/
theorem guarded_join : ForkJoin.Guarded joins starts (main n perCore) := by
  have hsplit : main n perCore = (queuesLog n ++ threadsLog n perCore) ++
      ((threadsDeleted n perCore .producer ++ [.release .producer true] ++
        threadsDeleted n perCore .consumer ++ [.release .consumer false]) ++ queuesDeleted n) := by
    rw [main_eq h, logBefore]
    simp only [List.append_assoc]
  have hstarted : ∀ kind, ∀ i < n * perCore kind,
      ∃ g ∈ queuesLog n ++ threadsLog n perCore, starts g = some (kind, i) := by
    intro kind i hi
    have hmem : Object.thread kind (threadOf (perCore kind) i) ∈
        (threadsLog n perCore).filterMap Event.made := by
      refine (made_threadsLog n perCore).mem_iff.mpr (List.mem_append.mpr ?_)
      have hrange := List.mem_map_of_mem (f := fun i => Object.thread kind (threadOf (perCore kind) i))
        (List.mem_range.mpr hi)
      cases kind with
      | producer => exact .inl hrange
      | consumer => exact .inr hrange
    obtain ⟨g, hg, hgmade⟩ := List.mem_filterMap.mp hmem
    cases g with
    | new o =>
        cases hgmade
        exact ⟨_, List.mem_append_right _ hg, rfl⟩
    | _ => cases hgmade
  rw [hsplit]
  refine ForkJoin.Guarded.of_before (.of_none fun e he => ?_) fun e he t ht => ?_
  · rcases List.mem_append.mp he with he | he
    · rcases List.mem_append.mp he with he | he
      · obtain ⟨i, -, he⟩ := List.mem_flatMap.mp he
        simp only [queueEvents, List.mem_cons, List.not_mem_nil, or_false] at he
        rcases he with rfl | rfl | rfl <;> rfl
      · rw [List.mem_singleton.mp he]
        rfl
    · obtain ⟨core, -, he⟩ := List.mem_flatMap.mp he
      simp only [coreEvents, kindEvents, List.mem_append, List.mem_flatMap] at he
      rcases he with ⟨j, -, he⟩ | ⟨j, -, he⟩ <;>
      · simp only [threadEvents, List.mem_cons, List.not_mem_nil, or_false] at he
        rcases he with rfl | rfl | rfl | rfl <;> rfl
  · simp only [List.mem_append, List.mem_singleton] at he
    rcases he with (((he | rfl) | he) | rfl) | he
    · obtain ⟨i, hi, rfl⟩ := joins_threadsDeleted he ht
      exact hstarted .producer i hi
    · cases ht
    · obtain ⟨i, hi, rfl⟩ := joins_threadsDeleted he ht
      exact hstarted .consumer i hi
    · cases ht
    · obtain ⟨i, -, he⟩ := List.mem_flatMap.mp he
      simp only [List.mem_cons, List.not_mem_nil, or_false] at he
      rcases he with rfl | rfl <;> cases ht

/-- A thread is deleted after its join. -/
theorem guarded_delete : ForkJoin.Guarded threadDeleted joins (main n perCore) := by
  have hnone : ∀ l : List Event, l.filterMap Event.deleted = [] →
      ForkJoin.Guarded threadDeleted joins l := by
    intro l hl
    refine .of_none fun e he => ?_
    cases e with
    | delete o =>
        have hmem : o ∈ l.filterMap Event.deleted := List.mem_filterMap.mpr ⟨_, he, rfl⟩
        rw [hl] at hmem
        cases hmem
    | _ => rfl
  have hthreads : ∀ kind, ForkJoin.Guarded threadDeleted joins (threadsDeleted n perCore kind) := by
    intro kind
    refine .flatMap fun i _ => ?_
    intro before e after x hsplit hx
    match before with
    | [] => cases hsplit; cases hx
    | [_] => cases hsplit; cases hx
    | _ :: _ :: [] =>
        cases hsplit
        exact ⟨_, List.mem_cons_of_mem _ List.mem_cons_self, hx⟩
    | _ :: _ :: _ :: before =>
        have hlen := congrArg List.length hsplit
        simp [deleteEvents] at hlen
  rw [main_eq h, logBefore]
  refine .append (.append
    (.append (hnone _ (deleted_queuesLog n)) (hnone _ (deleted_threadsLog n perCore)))
    (.append (.append (.append (hthreads _) (hnone _ rfl)) (hthreads _)) (hnone _ rfl))) ?_
  refine .of_none fun e he => ?_
  obtain ⟨i, -, he⟩ := List.mem_flatMap.mp he
  simp only [List.mem_cons, List.not_mem_nil, or_false] at he
  rcases he with rfl | rfl <;> rfl

/-- No thread is started twice. -/
theorem nodup_starts : ((main n perCore).filterMap starts).Nodup := by
  have hstarts : (main n perCore).filterMap starts =
      ((main n perCore).filterMap Event.made).filterMap threadOfObject := by
    rw [List.filterMap_filterMap]
    congr 1
    funext e
    cases e with
    | new o => cases o <;> rfl
    | _ => rfl
  have hqueues : ((List.range n).map Object.queue).filterMap threadOfObject = [] := by
    rw [List.filterMap_map]
    exact List.filterMap_eq_nil_iff.mpr fun _ _ => rfl
  have hthreads : ∀ kind, (threadsOf n perCore kind).filterMap threadOfObject =
      (List.range (n * perCore kind)).map (kind, ·) := by
    intro kind
    unfold threadsOf
    rw [List.filterMap_map, ← List.filterMap_eq_map]
    rfl
  rw [hstarts, ((made_main h).filterMap threadOfObject).nodup_iff, List.filterMap_append,
    List.filterMap_append, hqueues, hthreads, hthreads, List.nil_append, List.nodup_append]
  refine ⟨List.nodup_range.map fun _ _ heq => congrArg Prod.snd heq,
    List.nodup_range.map fun _ _ heq => congrArg Prod.snd heq, fun x hx y hy heq => ?_⟩
  obtain ⟨i, -, rfl⟩ := List.mem_map.mp hx
  obtain ⟨j, -, rfl⟩ := List.mem_map.mp hy
  cases congrArg Prod.fst heq

end guards

/-! ### The life of the objects -/

/-- The thread has been started and has not exited, whether or not its constructor is over. -/
def State.Started (s : State n perCore) (t : Kind × ℕ) : Prop :=
  ForkJoin.running starts s.script t = true ∨ s.inConstructor t = true

/-- The object has been made and not deleted. -/
def Live (s : State n perCore) (o : Object) : Prop :=
  .new o ∈ s.script.done ∧ .delete o ∉ s.script.done

theorem Fits.entries_nonneg (h : Fits n perCore) (kind : Kind) :
    0 ≤ entries perCore n kind :=
  CoreSimulation.entries_nonneg h.threads kind

theorem threadId_eq (core : Fin n) (w : Party perCore) : ∃ kind, ∃ i < n * perCore kind,
    threadId perCore core w = (kind, i) ∧ i / perCore kind = core := by
  cases w with
  | inl i =>
      exact ⟨.producer, _, id_lt_product core.isLt i.isLt, rfl,
        div_eq_core (Nat.le_add_right _ _) (Nat.add_lt_add_left i.isLt _)⟩
  | inr j =>
      exact ⟨.consumer, _, id_lt_product core.isLt j.isLt, rfl,
        div_eq_core (Nat.le_add_right _ _) (Nat.add_lt_add_left j.isLt _)⟩

theorem exists_threadId {kind : Kind} {i : ℕ} (hi : i < n * perCore kind) :
    ∃ (core : Fin n) (w : Party perCore), threadId perCore core w = (kind, i) := by
  have hpos : 0 < perCore kind := Nat.pos_of_ne_zero fun hzero => by
    rw [hzero, Nat.mul_zero] at hi
    exact absurd hi (Nat.not_lt_zero i)
  have hcore : i / perCore kind < n := Nat.div_lt_of_lt_mul (by rwa [Nat.mul_comm])
  have hid : i / perCore kind * perCore kind + i % perCore kind = i := Nat.div_add_mod' ..
  cases kind with
  | producer => exact ⟨⟨_, hcore⟩, .inl ⟨_, Nat.mod_lt i hpos⟩, by rw [threadId, hid]⟩
  | consumer => exact ⟨⟨_, hcore⟩, .inr ⟨_, Nat.mod_lt i hpos⟩, by rw [threadId, hid]⟩

/-- The thread object of a party. -/
def threadObject (perCore : Kind → ℕ) (core : ℕ) (w : Party perCore) : Object :=
  .thread (threadId perCore core w).1
    (threadOf (perCore (threadId perCore core w).1) (threadId perCore core w).2)

section lifetimes
variable {size : ℕ} {s : State n perCore}

/-- A thread that is started is one of those that `main` makes. -/
theorem ScriptInv.made_of_starts (h : ScriptInv s) (hfits : Fits n perCore) {e : Event}
    (he : e ∈ s.script.done ∨ e ∈ s.script.rest) {t : Kind × ℕ} (hstart : starts e = some t) :
    ∃ kind, ∃ i < n * perCore kind, t = (kind, i) ∧
      e = .new (.thread kind (threadOf (perCore kind) i)) := by
  have hmain : e ∈ main n perCore := by
    rw [← h.script.whole]
    exact List.mem_append.mpr he
  cases e with
  | new o =>
      cases o with
      | queue => cases hstart
      | thread kind t =>
          rcases (mem_made_iff hfits.entries_nonneg _).mp hmain with ⟨_, -, heq⟩ | ⟨kind', i, hi, heq⟩
          · cases heq
          · obtain ⟨rfl, rfl⟩ := Object.thread.inj heq
            cases hstart
            exact ⟨kind, i, hi, rfl, rfl⟩
  | _ => cases hstart

theorem ScriptInv.made_of_running (h : ScriptInv s) (hfits : Fits n perCore) {t : Kind × ℕ}
    (hrun : ForkJoin.running starts s.script t = true) : ∃ kind, ∃ i < n * perCore kind,
      t = (kind, i) ∧ .new (.thread kind (threadOf (perCore kind) i)) ∈ s.script.done := by
  obtain ⟨⟨e, he, hstart⟩, -⟩ := ForkJoin.Inv.running_iff.mp hrun
  obtain ⟨kind, i, hi, rfl, rfl⟩ := h.made_of_starts hfits (.inl he) hstart
  exact ⟨kind, i, hi, rfl, he⟩

theorem State.next_cons {e : Event} {rest : List Event} (hrest : s.script.rest = e :: rest) :
    s.next = starts e := by
  unfold State.next
  rw [hrest]
  rfl

theorem State.exists_rest_of_next {t : Kind × ℕ} (hnext : s.next = some t) :
    ∃ e rest, s.script.rest = e :: rest ∧ starts e = some t := by
  obtain ⟨e, he, hstart⟩ := Option.bind_eq_some_iff.mp hnext
  cases hrest : s.script.rest with
  | nil =>
      rw [hrest] at he
      cases he
  | cons e' rest =>
      rw [hrest] at he
      cases he
      exact ⟨e, rest, rfl, hstart⟩

/-- The event that makes a thread which is started is over, or it is the next. -/
theorem State.Started.event {t : Kind × ℕ} (hs : s.Started t) : ∃ e, starts e = some t ∧
    (e ∈ s.script.done ∨ ∃ rest, s.script.rest = e :: rest) := by
  rcases hs with hrun | hcon
  · obtain ⟨⟨e, he, hstart⟩, -⟩ := ForkJoin.Inv.running_iff.mp hrun
    exact ⟨e, hstart, .inl he⟩
  · unfold State.inConstructor at hcon
    rw [Bool.and_eq_true, decide_eq_true_eq] at hcon
    obtain ⟨e, rest, hrest, hstart⟩ := State.exists_rest_of_next hcon.2
    exact ⟨e, hstart, .inr ⟨rest, hrest⟩⟩

/-- What `main` guards by joining a thread has not happened when the thread is started. -/
theorem ScriptInv.notMem_done (h : ScriptInv s) (hfits : Fits n perCore) {t : Kind × ℕ}
    (hs : s.Started t) {e : Event} (hguard : ∀ before after, main n perCore = before ++ e :: after →
      ∃ g ∈ before, joins g = some t) : e ∉ s.script.done := by
  rcases hs with hrun | hcon
  · exact h.script.notMem_done hrun hguard
  · unfold State.inConstructor at hcon
    rw [Bool.and_eq_true, decide_eq_true_eq] at hcon
    obtain ⟨e', rest, hrest, hstart⟩ := State.exists_rest_of_next hcon.2
    exact h.script.notMem_done_of_next (nodup_starts hfits.entries_nonneg) hrest hstart hguard

/-- As long as a thread is started, the queue of its core is live and its memory is not freed. -/
theorem ScriptInv.live (h : ScriptInv s) (hfits : Fits n perCore) {core : Fin n}
    {w : Party perCore} (hs : s.Started (threadId perCore core w)) :
    Live s (.queue core) ∧ .delete (threadObject perCore core w) ∉ s.script.done := by
  have hpos := hfits.entries_nonneg
  obtain ⟨kind, i, hi, hid, hcore⟩ := threadId_eq core w
  have hobject : threadObject perCore core w = .thread kind (threadOf (perCore kind) i) := by
    unfold threadObject
    rw [hid]
  rw [hid] at hs
  rw [hobject]
  have hqueue : .new (.queue core) ∈ s.script.done := by
    obtain ⟨e, hstart, hplace⟩ := hs.event
    obtain ⟨kind', i', -, heq, rfl⟩ := h.made_of_starts hfits
      (hplace.imp_right fun ⟨rest, hrest⟩ => hrest ▸ List.mem_cons_self) hstart
    cases heq
    have hused : queueUsed (.new (.thread kind (threadOf (perCore kind) i))) = some (core : ℕ) := by
      simp [queueUsed, threadOf, hcore]
    obtain ⟨g, hg, hmade⟩ : ∃ g ∈ s.script.done, queueMade g = some (core : ℕ) := by
      rcases hplace with he | ⟨rest, hrest⟩
      · exact h.script.guard_done (guarded_queue hpos) he hused
      · refine guarded_queue hpos _ _ rest _ ?_ hused
        rw [← h.script.whole, hrest]
    cases g with
    | new o => cases o with
      | queue c => cases hmade; exact hg
      | thread => cases hmade
    | _ => cases hmade
  refine ⟨⟨hqueue, h.notMem_done hfits hs fun before after hsplit => ?_⟩,
    h.notMem_done hfits hs fun before after hsplit => ?_⟩
  · rw [main_eq hpos] at hsplit
    exact ⟨_, mem_before hsplit (join_mem_logBefore hi), rfl⟩
  · exact guarded_delete hpos before _ after (kind, i) hsplit rfl

/-- While a thread runs, the constructor of its object is over. -/
theorem ScriptInv.made (h : ScriptInv s) (hfits : Fits n perCore) {core : Fin n}
    {w : Party perCore}
    (hrun : ForkJoin.running starts s.script (threadId perCore core w) = true) :
    .new (threadObject perCore core w) ∈ s.script.done := by
  obtain ⟨kind, i, hi, hid, hcore⟩ := threadId_eq core w
  obtain ⟨kind', i', -, heq, he⟩ := h.made_of_running hfits hrun
  unfold threadObject
  rw [hid] at heq ⊢
  cases heq
  exact he

/-- When `main` has come to its end all threads have exited. -/
theorem ScriptInv.exited (h : ScriptInv s) (hfits : Fits n perCore) (hend : s.script.rest = [])
    (core : Fin n) (w : Party perCore) :
    s.script.exited (threadId perCore core w) = true := by
  obtain ⟨kind, i, hi, hid, -⟩ := threadId_eq core w
  have hwhole := h.script.whole
  rw [hend, List.append_nil] at hwhole
  rw [hid]
  refine h.script.joined (.join kind (threadOf (perCore kind) i)) ?_ _ rfl
  rw [hwhole, main_eq hfits.entries_nonneg]
  exact List.mem_append_left _ (join_mem_logBefore hi)

theorem Inv.atTest_of_exited (h : Inv size s) {core : Fin n} {w : Party perCore}
    (hexited : s.script.exited (threadId perCore core w) = true) :
    (s.core core).atTest w = true := by
  by_contra htest
  have hrun := h.calls core w (Bool.eq_false_of_not_eq_true htest)
  rw [(ForkJoin.Inv.running_iff.mp hrun).2] at hexited
  cases hexited

end lifetimes

/-- **Life of the objects.**  Whatever `main` and the threads do in any order, on cores and threads
that fit the arrays: from when the constructor of the base starts a thread until the thread exits,
the queue of its core is live and the memory of its object is not freed; and when `main` has come to
its end every thread has exited.  In a run in which no thread wakes up before its constructor is
over, a thread in a call of `work()` is one whose object and queue are live, and every thread has
exited from the test of its loop. -/
theorem lifetimes (hfits : Fits n perCore) {size : ℕ} {s : State n perCore}
    (h : (system n perCore size).Reachable s) :
    (∀ (core : Fin n) w, s.Started (threadId perCore core w) →
      Live s (.queue core) ∧ .delete (threadObject perCore core w) ∉ s.script.done) ∧
    (s.script.rest = [] →
      ∀ (core : Fin n) w, s.script.exited (threadId perCore core w) = true) ∧
    ((system n perCore size).ReachableBy AwakeInTime s →
      (∀ (core : Fin n) w, (s.core core).atTest w = false →
        Live s (.queue core) ∧ Live s (threadObject perCore core w)) ∧
      (s.script.rest = [] → ∀ core, (s.core core).Outside)) := by
  have hscript := reachable_scriptInv h
  refine ⟨fun core w hs => hscript.live hfits hs,
    fun hend core w => hscript.exited hfits hend core w, fun hawake => ⟨fun core w hw => ?_, ?_⟩⟩
  · have hrun := (reachable_inv hawake).calls core w hw
    obtain ⟨hqueue, hdelete⟩ := hscript.live hfits (.inl hrun)
    exact ⟨hqueue, hscript.made hfits hrun, hdelete⟩
  · exact fun hend core => Pipeline.outside_iff.mpr fun w =>
      (reachable_inv hawake).atTest_of_exited (hscript.exited hfits hend core w)

/-- A single core with one producer and one consumer, and queues of two items. -/
def oneCore : State 1 (fun _ => 1) :=
  start 2 (fun _ _ => ⟨0, fun _ => 'z'⟩) fun _ _ => ⟨0, fun _ => 'z'⟩

/-- The consumer has been started and its constructor is not over: it may wake up too early, but its
queue is there. -/
theorem lifetimes_inConstructor : ∃ s : State 1 (fun _ => 1),
    (system 1 (fun _ => 1) 2).exec oneCore (List.replicate 7 .main) = some s ∧
    (step s (.stray ⟨0, by decide⟩ (.inr ⟨0, by decide⟩) s.core)).isSome ∧
    Live s (.queue 0) ∧
    .new (threadObject (fun _ => 1) 0 (.inr ⟨0, by decide⟩)) ∉ s.script.done := by
  have hrun : ∃ s : State 1 (fun _ => 1),
      (system 1 (fun _ => 1) 2).exec oneCore (List.replicate 7 .main) = some s ∧
      (step s (.stray ⟨0, by decide⟩ (.inr ⟨0, by decide⟩) s.core)).isSome ∧
      s.Started (.consumer, 0) ∧
      .new (threadObject (fun _ => 1) 0 (.inr ⟨0, by decide⟩)) ∉ s.script.done :=
    ⟨_, rfl, rfl, .inr rfl, by decide⟩
  obtain ⟨s, hs, hstray, hstarted, hnew⟩ := hrun
  have hlife := lifetimes ⟨by decide, fun _ => by decide⟩
    (Lts.Reachable.exec (.of_init ⟨_, _, rfl⟩) hs)
  exact ⟨s, hs, hstray, (hlife.1 ⟨0, by decide⟩ (.inr ⟨0, by decide⟩) hstarted).1, hnew⟩

end Program

end LinuxProgramming.CoreSimulation
