import LinuxProgramming.CoreSimulation.Program
import LinuxProgramming.Items.Uniqueness
import Mathlib.Data.Fintype.Sum
import Mathlib.Data.Fintype.Prod

/-! # How the simulation ends, and what it has delivered

The simulation of `CoreSimulation.Program` can always be brought to its end, as long as no thread
has woken up before the constructor of its object was over: without another call of `work()` being
begun, the calls in progress return, `main` comes to its joins, and the threads that it waits for
exit.  `left` counts these steps.

`deliveries` puts the cores together: what the consumers of all cores have got is what the
producers have cooked, each item once, and as long as the producers keep to their blocks of ids no
two items delivered on any cores have one id. -/

namespace LinuxProgramming.CoreSimulation.Program

variable {n : ℕ} {perCore : Kind → ℕ} {size : ℕ} {s : State n perCore}

/-! ### The end -/

/-- A step that brings the simulation nearer to its end. -/
def Completing : Act n perCore → Prop
  | .work _ a => Pipeline.Completing a
  | .stray _ _ _ => False
  | _ => True

theorem Completing.awakeInTime {l : Act n perCore} (hl : Completing l) : AwakeInTime s l := by
  cases l with
  | stray => exact hl
  | _ => trivial

/-- The steps of `main` that are left.  A constructor that starts a thread takes two. -/
def mainLeft (s : State n perCore) : ℕ :=
  s.script.rest.length + (s.script.rest.filterMap starts).length - if s.constructing then 1 else 0

/-- The threads that have not exited, started or not. -/
def alive (s : State n perCore) : ℕ :=
  tally (fun exited : Bool => if exited then 0 else 1)
    fun x : Fin n × Party perCore => s.script.exited (threadId perCore x.1 x.2)

/-- The steps that are left until the end. -/
def left (s : State n perCore) : ℕ :=
  mainLeft s + alive s + tally Pipeline.left s.core

/-- `main` has come to its end. -/
def Ended (s : State n perCore) : Prop := s.script.rest = []

theorem mainLeft_eq_zero (h : ScriptInv s) : mainLeft s = 0 ↔ Ended s := by
  unfold mainLeft Ended
  cases hrest : s.script.rest with
  | nil => simp
  | cons e rest =>
      have hnext : s.next = starts e := State.next_cons hrest
      refine ⟨fun hzero => ?_, fun hend => by cases hend⟩
      cases hcon : s.constructing with
      | false => simp [hcon] at hzero
      | true =>
          obtain ⟨t, ht⟩ := Option.isSome_iff_exists.mp (h.constructing hcon)
          rw [hnext] at ht
          simp [hcon, ht] at hzero

/-- `main` in the constructor of the base, and over it. -/
theorem mainLeft_enter (hnext : s.next.isSome = true) (hcon : s.constructing = false) :
    mainLeft { s with constructing := true } + 1 = mainLeft s := by
  obtain ⟨t, ht⟩ := Option.isSome_iff_exists.mp hnext
  obtain ⟨e, rest, hrest, hstart⟩ := State.exists_rest_of_next ht
  simp only [mainLeft, hcon, hrest, List.filterMap_cons, hstart, List.length_cons, if_true,
    Bool.false_eq_true, if_false]
  omega

theorem mainLeft_advance (h : ScriptInv s) {script : ForkJoin.State Event (Kind × ℕ)}
    (hcon : s.next.isSome = true → s.constructing = true)
    (hscript : ForkJoin.advance joins s.script = some script) :
    mainLeft { s with script := script, constructing := false } + 1 = mainLeft s := by
  obtain ⟨e, hrest, -, -, -⟩ := h.script.advance hscript
  have hnext : s.next = starts e := State.next_cons hrest
  rw [hnext] at hcon
  have hconstructing := h.constructing
  rw [hnext] at hconstructing
  cases hstart : starts e with
  | none =>
      have hnot : s.constructing = false := by
        rw [hstart] at hconstructing
        exact Bool.eq_false_of_not_eq_true fun hc => by cases hconstructing hc
      simp only [mainLeft, hnot, hrest, List.filterMap_cons, hstart, List.length_cons,
        Bool.false_eq_true, if_false]
      omega
  | some t =>
      have hin : s.constructing = true := hcon (by rw [hstart]; rfl)
      simp only [mainLeft, hin, hrest, List.filterMap_cons, hstart, List.length_cons, if_true,
        Bool.false_eq_true, if_false]
      omega

theorem step_left {s' : State n perCore} {l : Act n perCore} (h : Inv size s) (hs : Step s l s')
    (hl : Completing l) : left s' + 1 = left s := by
  unfold left alive
  cases hs with
  | enter hnext hcon =>
      have hmain := mainLeft_enter hnext hcon
      simp only
      omega
  | main script hcon hscript =>
      obtain ⟨-, -, -, hexited, -⟩ := h.script.advance hscript
      have hmain := mainLeft_advance h.toScriptInv hcon hscript
      simp only [hexited]
      omega
  | stray => exact hl.elim
  | exit core w hrun hjoin htest =>
      have hlive := (ForkJoin.Inv.running_iff.mp hrun).2
      have hfamily : (fun x : Fin n × Party perCore =>
          Function.update s.script.exited (threadId perCore core w) true
            (threadId perCore x.1 x.2)) =
          Function.update (fun x : Fin n × Party perCore =>
            s.script.exited (threadId perCore x.1 x.2)) (core, w) true := by
        funext x
        by_cases hx : x = (core, w)
        · rw [hx, Function.update_self, Function.update_self]
        · have hne : threadId perCore x.1 x.2 ≠ threadId perCore core w := by
            intro heq
            obtain ⟨hcore, hparty⟩ := threadId_inj heq
            exact hx (Prod.ext (Fin.ext hcore) hparty)
          rw [Function.update_of_ne hne, Function.update_of_ne hx]
      have hu := tally_update (fun exited : Bool => if exited then 0 else 1)
        (fun x : Fin n × Party perCore => s.script.exited (threadId perCore x.1 x.2)) (core, w) true
      simp only [hlive, Bool.false_eq_true, if_true, if_false] at hu
      simp only [mainLeft, ForkJoin.exit, hfamily]
      omega
  | work core a p hrun hstep =>
      have hu := tally_update Pipeline.left s.core core p
      have hp := Pipeline.step_left hstep hl
      simp only [mainLeft]
      omega

theorem Inv.outside_of_ended (h : Inv size s) (hfits : Fits n perCore) (hend : Ended s)
    (core : Fin n) : (s.core core).Outside :=
  Pipeline.outside_iff.mpr fun w => h.atTest_of_exited (h.toScriptInv.exited hfits hend core w)

theorem Inv.left_eq_zero (h : Inv size s) (hfits : Fits n perCore) : left s = 0 ↔ Ended s := by
  constructor
  · intro hzero
    unfold left at hzero
    exact (mainLeft_eq_zero h.toScriptInv).mp (by omega)
  · intro hend
    have halive : alive s = 0 := tally_eq_zero _ fun x => by
      rw [h.toScriptInv.exited hfits hend x.1 x.2]
      rfl
    have hcores : tally Pipeline.left s.core = 0 := tally_eq_zero _ fun core =>
      Pipeline.left_eq_zero.mpr (h.outside_of_ended hfits hend core)
    have hmain := (mainLeft_eq_zero h.toScriptInv).mpr hend
    unfold left
    omega

/-- A step that completes a call of `work()` is made by a thread in one. -/
theorem atTest_of_completing {P C : ℕ} {p p' : Pipeline P C} {a : PipelineAct P C}
    (hs : Pipeline.Step p a p') (ha : Pipeline.Completing a) : p.atTest a.party = false := by
  rw [← Bool.not_eq_true]
  cases hs with
  | retry | cook | receive => exact ha.elim
  | push i a ring hpc | test i ok hpc =>
      intro htest
      rw [PipelineAct.party, Pipeline.atTest_inl, hpc] at htest
      cases htest
  | pop j a ring hpc | consume j item hpc =>
      intro htest
      rw [PipelineAct.party, Pipeline.atTest_inr, hpc] at htest
      cases htest

/-- Whoever waits waits for somebody who can move. -/
theorem Inv.moves (h : Inv size s) (hfits : Fits n perCore) (hend : ¬ Ended s) :
    ∃ l s', Completing l ∧ Program.step s l = some s' := by
  by_cases hout : ∀ core, (s.core core).Outside
  · rcases h.script.next (guarded_join hfits.entries_nonneg) hend with
      ⟨script, hscript⟩ | ⟨t, hrun, hjoin⟩
    · by_cases hcon : s.next.isSome = true ∧ s.constructing = false
      · exact ⟨.main, _, trivial, step_iff.mpr (.enter hcon.1 hcon.2)⟩
      · exact ⟨.main, _, trivial, step_iff.mpr (.main script (by simpa using hcon) hscript)⟩
    · obtain ⟨kind, i, hi, rfl, -⟩ := h.toScriptInv.made_of_running hfits hrun
      obtain ⟨core, w, hid⟩ := exists_threadId hi
      rw [← hid] at hrun hjoin
      exact ⟨.exit core w, _, trivial,
        step_iff.mpr (.exit core w hrun hjoin (Pipeline.outside_iff.mp (hout core) w))⟩
  · obtain ⟨core, hcore⟩ := not_forall.mp hout
    obtain ⟨a, p, ha, hp⟩ := (Pipeline.reachable_inv (h.core core)).moves hcore
    have hstep := Pipeline.step_iff.mp hp
    have hrun := h.calls core a.party (atTest_of_completing hstep ha)
    exact ⟨.work core a, _, ha, step_iff.mpr (.work core a p hrun hstep)⟩

theorem countsDown (hfits : Fits n perCore) (size : ℕ) :
    (system n perCore size).CountsDown ((system n perCore size).ReachableBy AwakeInTime) Completing
      left where
  keep := fun _ _ _ hs hl hstep => hs.step hl.awakeInTime hstep
  lower := fun _ _ _ hs hl hstep => step_left (reachable_inv hs) (step_iff.mp hstep) hl
  enabled := by
    intro s hs hpos
    have hI := reachable_inv hs
    apply hI.moves hfits
    intro hend
    rw [(hI.left_eq_zero hfits).mpr hend] at hpos
    exact absurd hpos (lt_irrefl 0)

/-- **The end of the simulation.**  From every state reached on cores and threads that fit the
arrays, if no thread has woken up before its constructor was over: until `main` has come to its end
something can move that brings it nearer, `main`, a thread that exits or a call that was begun;
however these are interleaved the end comes after exactly the steps that are left, and it can always
be reached; and then every thread has exited, every queue is between calls with its semaphores in
balance, and everything made has been deleted. -/
theorem simulation_ends (hfits : Fits n perCore)
    (h : (system n perCore size).ReachableBy AwakeInTime s) :
    (Ended s ∨ ∃ l s', Completing l ∧ step s l = some s') ∧
    (∀ ls s', (∀ l ∈ ls, Completing l) → (system n perCore size).exec s ls = some s' →
      ls.length + left s' = left s) ∧
    (∃ ls s', (∀ l ∈ ls, Completing l) ∧ (system n perCore size).exec s ls = some s' ∧ Ended s') ∧
    (Ended s →
      (∀ (core : Fin n) w, s.script.exited (threadId perCore core w) = true) ∧
      (∀ o, .new o ∈ s.script.done → .delete o ∈ s.script.done) ∧
      ∀ core, (s.core core).Outside ∧ RingQueue.Idle (s.core core).ring ∧
        ((s.core core).ring.q.popSem : ℤ) = (s.core core).ring.q.curCount ∧
        ((s.core core).ring.q.pushSem : ℤ) = size - (s.core core).ring.q.curCount ∧
        BitVec.ofInt 32 (s.core core).ring.q.curCount =
          (s.core core).ring.q.pushedCount - (s.core core).ring.q.poppedCount) := by
  have hI := reachable_inv h
  have hdown := countsDown hfits size
  refine ⟨?_, fun ls s' hls he => hdown.length_add h hls he, ?_, fun hend => ⟨?_, ?_, ?_⟩⟩
  · by_cases hend : Ended s
    · exact .inl hend
    · exact .inr (hI.moves hfits hend)
  · obtain ⟨ls, s', hls, he, hzero⟩ := hdown.finish _ s h rfl
    have hs' := reachable_inv (hdown.exec h hls he)
    exact ⟨ls, s', hls, he, (hs'.left_eq_zero hfits).mp hzero⟩
  · exact fun core w => hI.toScriptInv.exited hfits hend core w
  · intro o ho
    have hwhole := hI.script.whole
    rw [hend, List.append_nil] at hwhole
    rw [hwhole] at ho ⊢
    have hmade : o ∈ (main n perCore).filterMap Event.made := List.mem_filterMap.mpr ⟨_, ho, rfl⟩
    obtain ⟨e, he, heq⟩ := List.mem_filterMap.mp
      ((perm_deleted hfits.entries_nonneg).mem_iff.mpr hmade)
    cases e with
    | delete o' =>
        cases heq
        exact he
    | _ => cases heq
  · intro core
    have hout := hI.outside_of_ended hfits hend core
    have hcore := Pipeline.reachable_inv (hI.core core)
    have hring := RingQueue.reachable_inv hcore.ring
    have hidle := hcore.ring_idle hout
    obtain ⟨hpopSem, hpushSem⟩ := hring.quiet hidle.1 hidle.2
    exact ⟨hout, hidle, hpopSem, hpushSem, hring.counters⟩

/-- Producer 0 is in its first call when everything is told to stop. -/
theorem simulation_ends_firstCall : ∃ s s' : State 1 (fun _ => 1),
    (system 1 (fun _ => 1) 2).exec oneCore
      (List.replicate 14 .main ++ [.work ⟨0, by decide⟩ (.work ⟨0, by decide⟩ id)]) = some s ∧
    (∃ ls, (system 1 (fun _ => 1) 2).exec s ls = some s' ∧ ls.length = 14) ∧ Ended s' ∧
    .delete (.queue 0) ∈ s'.script.done := by
  have hrun : ∃ s : State 1 (fun _ => 1),
      (system 1 (fun _ => 1) 2).exec oneCore
        (List.replicate 14 .main ++ [.work ⟨0, by decide⟩ (.work ⟨0, by decide⟩ id)]) = some s ∧
      left s = 14 ∧ .new (.queue 0) ∈ s.script.done := ⟨_, rfl, rfl, by decide⟩
  obtain ⟨s, hs, hleft, hmade⟩ := hrun
  have hfits : Fits 1 (fun _ => 1) := ⟨by decide, fun _ => by decide⟩
  have hr : (system 1 (fun _ => 1) 2).ReachableBy AwakeInTime s := by
    refine Lts.ReachableBy.exec (.init ⟨_, _, rfl⟩) (fun s l hl => ?_) hs
    simp only [List.mem_append, List.mem_replicate, List.mem_singleton] at hl
    rcases hl with ⟨-, rfl⟩ | rfl <;> trivial
  obtain ⟨-, hlen, ⟨ls, s', hls, he, hend⟩, -⟩ := simulation_ends hfits hr
  have hr' := (countsDown hfits 2).exec hr hls he
  obtain ⟨-, -, -, hlast⟩ := simulation_ends hfits hr'
  have hcount := hlen ls s' hls he
  rw [hleft, ((reachable_inv hr').left_eq_zero hfits).mpr hend, Nat.add_zero] at hcount
  refine ⟨s, s', hs, ⟨ls, he, hcount⟩, hend, (hlast hend).2.1 _ ?_⟩
  have hwhole := (reachable_inv hr').script.whole
  rw [hend, List.append_nil, ← (reachable_inv hr).script.whole] at hwhole
  rw [hwhole]
  exact List.mem_append_left _ hmade

/-! ### What has been delivered -/

/-- No thread wakes up early, and what it does in the queue of its core is in order. -/
def InOrder (s : State n perCore) : Act n perCore → Prop
  | .work core a => Pipeline.InOrder (s.core core) a
  | .stray _ _ _ => False
  | _ => True

instance InOrder.decidable (s : State n perCore) : ∀ l, Decidable (InOrder s l)
  | .work core a => inferInstanceAs (Decidable (Pipeline.InOrder (s.core core) a))
  | .stray _ _ _ => .isFalse id
  | .main | .exit _ _ => .isTrue trivial

theorem InOrder.awakeInTime {l : Act n perCore} (hl : InOrder s l) : AwakeInTime s l := by
  cases l with
  | stray => exact hl
  | _ => trivial

theorem awakeInTime_of_inOrder (h : (system n perCore size).ReachableBy InOrder s) :
    (system n perCore size).ReachableBy AwakeInTime s := h.mono fun _ _ hl => hl.awakeInTime

theorem inOrder_of_small (hsmall : size ≤ 1 ∨ perCore .producer ≤ 1 ∧ perCore .consumer ≤ 1)
    (h : (system n perCore size).ReachableBy AwakeInTime s) :
    (system n perCore size).ReachableBy InOrder s := by
  apply h.by_of_invariant (I := Inv size) fun s hs =>
    reachable_inv (awakeInTime_of_inOrder hs)
  intro s l s' hI hl hs
  cases step_iff.mp hs with
  | enter | main | exit => trivial
  | stray => exact hl.elim
  | work core a p hrun hstep =>
      exact Pipeline.inOrder_step hsmall (Pipeline.reachable_inv (hI.core core)) hstep

/-- The items that the producers of all cores have cooked. -/
def cooked (s : State n perCore) : Multiset Items.WorkItem :=
  ∑ core, ∑ i, ((s.core core).cooked i : Multiset Items.WorkItem)

/-- The items that the consumers of all cores have got. -/
def consumed (s : State n perCore) : Multiset Items.WorkItem :=
  ∑ core, ∑ j, ((s.core core).consumed j : Multiset Items.WorkItem)

/-- Two producers and one consumer on a core. -/
def twoProducers : Kind → ℕ
  | .producer => 2
  | .consumer => 1

def overlappingPushes (p q : Fin 2) (c : Fin 1) : List (PipelineAct 2 1) :=
  [.work p id, .work q id, .push p (.take ()), .push q (.take ()), .push p .lock, .push p .reserve,
   .push p .unlock, .push q .lock, .push q .reserve, .push q .unlock, .push q .copy, .push p .copy,
   .push p .post, .receive c, .pop c .take, .push q .post, .pop c .lock, .pop c .claim,
   .pop c .unlock, .pop c .copy, .pop c .post, .test p, .consume c, .receive c, .pop c .take,
   .pop c .lock, .pop c .claim, .pop c .unlock, .pop c .copy, .pop c .post, .consume c, .test q]

/-- Both producers push at a time, the second copies first, and the consumer receives twice. -/
def overlapping (core : Fin 1) (p q : Fin 2) (c : Fin 1) : List (Act 1 twoProducers) :=
  List.replicate 19 .main ++ (overlappingPushes p q c).map fun a : PipelineAct 2 1 => .work core a

end LinuxProgramming.CoreSimulation.Program
