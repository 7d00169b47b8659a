import LinuxProgramming.ThreadPool.Placement

/-! # Round robin is fair

The calls that go round a cursor are put in order by the lock of the cursor.  `turns` records,
along a run, who takes which lock and who gives it back with which worker; `Order` ties the two
to each other and to the numbers that the cursor has handed out, whatever the other calls and
the timer do in between.  `roundRobin_fair` is the law that follows for the global cursor and
for the cursor of each core. -/

namespace LinuxProgramming.ThreadPool

variable {n : ℕ}

/-! ### The order of the calls -/

/-- A call takes the lock of `r`, or gives it back and goes on with its worker. -/
inductive Turn (n : ℕ) where
  | locks (r : Option ℕ) (i : Fin n)
  | leaves (r : Option ℕ) (i : Fin n) (whichWorker : ℕ)

def RotationPc.turns (r : Option ℕ) (i : Fin n) : RotationPc → List (Turn n)
  | .wait => [.locks r i]
  | .post k => [.leaves r i k]
  | _ => []

def turns (s : State n) : Act n → List (Turn n)
  | .rotate i =>
      match s.thread i with
      | .rotate policy core pc => pc.turns (rotationOf policy core) i
      | _ => []
  | _ => []

def Turn.locked (r : Option ℕ) : Turn n → Option (Fin n)
  | .locks r' i => if r' = r then some i else none
  | .leaves _ _ _ => none

def Turn.served (r : Option ℕ) : Turn n → Option (Fin n × ℕ)
  | .locks _ _ => none
  | .leaves r' i k => if r' = r then some (i, k) else none

/-- The threads whose calls have held the lock of `r`, in the order in which they took it. -/
def locked (r : Option ℕ) (tr : List (Turn n)) : List (Fin n) := tr.filterMap (Turn.locked r)

/-- The calls that have left the lock of `r`, with the workers given to them. -/
def served (r : Option ℕ) (tr : List (Turn n)) : List (Fin n × ℕ) :=
  tr.filterMap (Turn.served r)

@[simp] theorem locked_append (r : Option ℕ) (tr es : List (Turn n)) :
    locked r (tr ++ es) = locked r tr ++ locked r es := List.filterMap_append

@[simp] theorem served_append (r : Option ℕ) (tr es : List (Turn n)) :
    served r (tr ++ es) = served r tr ++ served r es := List.filterMap_append

@[simp] theorem locked_locks (r : Option ℕ) (i : Fin n) : locked r [.locks r i] = [i] := by
  simp [locked, Turn.locked]

@[simp] theorem locked_leaves (r r' : Option ℕ) (i : Fin n) (k : ℕ) :
    locked r [.leaves r' i k] = [] := rfl

@[simp] theorem served_locks (r r' : Option ℕ) (i : Fin n) : served r [.locks r' i] = [] := rfl

@[simp] theorem served_leaves (r : Option ℕ) (i : Fin n) (k : ℕ) :
    served r [.leaves r i k] = [(i, k)] := by
  simp [served, Turn.served]

theorem locked_of_ne {r r' : Option ℕ} (h : r' ≠ r) (i : Fin n) (pc : RotationPc) :
    locked r (pc.turns r' i) = [] := by
  cases pc <;> simp [RotationPc.turns, locked, Turn.locked, h]

theorem served_of_ne {r r' : Option ℕ} (h : r' ≠ r) (i : Fin n) (pc : RotationPc) :
    served r (pc.turns r' i) = [] := by
  cases pc <;> simp [RotationPc.turns, served, Turn.served, h]

theorem turns_rotate {s : State n} {i : Fin n} {policy : JobAssignPolicy} {core : ℕ}
    {pc : RotationPc} (h : s.thread i = .rotate policy core pc) :
    turns s (.rotate i) = pc.turns (rotationOf policy core) i := by
  simp only [turns, h]

/-- What a thread under the lock of `r` has in hand; `none` if it is not under the lock. -/
def Pc.inSection (r : Option ℕ) : Pc → Option (Option ℕ)
  | .rotate policy core .hold => if rotationOf policy core = r then some none else none
  | .rotate policy core (.wrap k) => if rotationOf policy core = r then some (some k) else none
  | .rotate policy core (.post k) => if rotationOf policy core = r then some (some k) else none
  | _ => none

/-- The lock is free and all calls that have held it are served, or one call is under it. -/
inductive Order (r : Option ℕ) (s : State n) (tr : List (Turn n)) : Prop
  | free (lock : (s.stat.rotation r).lock = 1)
      (out : ∀ i, (s.thread i).inSection r = none)
      (order : locked r tr = (served r tr).map Prod.fst)
      (given : (s.stat.rotation r).given = (served r tr).map Prod.snd)
  | busy (i : Fin n) (hand : Option ℕ) (lock : (s.stat.rotation r).lock = 0)
      (mem : (s.thread i).inSection r = some hand)
      (out : ∀ j ≠ i, (s.thread j).inSection r = none)
      (order : locked r tr = (served r tr).map Prod.fst ++ [i])
      (given : (s.stat.rotation r).given = (served r tr).map Prod.snd ++ hand.toList)

/-! ### Steps outside the section -/

section steps
variable {env : Env} {p : Pool} {s s' : State n} {r : Option ℕ} {tr es : List (Turn n)}

theorem inSection_goto {i : Fin n} {pc : Pc} (h : pc.inSection r = (s.thread i).inSection r)
    (j : Fin n) : ((s.goto i pc).thread j).inSection r = (s.thread j).inSection r :=
  congrFun (comp_update_of_eq (Pc.inSection r) s.thread h) j

/-- A step with none of its parts in the section of `r`. -/
theorem Order.frame (h : Order r s tr) (hrotation : s'.stat.rotation r = s.stat.rotation r)
    (hthread : ∀ j, (s'.thread j).inSection r = (s.thread j).inSection r)
    (hlocked : locked r es = []) (hserved : served r es = []) : Order r s' (tr ++ es) := by
  cases h with
  | free lock out order given =>
      apply Order.free
      · rw [hrotation, lock]
      · intro i
        rw [hthread, out i]
      · rw [locked_append, served_append, hlocked, hserved, List.append_nil, List.append_nil, order]
      · rw [hrotation, served_append, hserved, List.append_nil, given]
  | busy i hand lock mem out order given =>
      apply Order.busy i hand
      · rw [hrotation, lock]
      · rw [hthread, mem]
      · intro j hj
        rw [hthread, out j hj]
      · rw [locked_append, served_append, hlocked, hserved, List.append_nil, List.append_nil, order]
      · rw [hrotation, served_append, hserved, List.append_nil, given]

/-- A step that no cursor sees. -/
structure Aside (s : State n) (a : Act n) (s' : State n) : Prop where
  rotation : s'.stat.rotation = s.stat.rotation
  thread : ∀ r j, (s'.thread j).inSection r = (s.thread j).inSection r
  turns : turns s a = []

theorem Aside.goto {a : Act n} {i : Fin n} {pc : Pc} (hturns : ThreadPool.turns s a = [])
    (hpc : ∀ r, pc.inSection r = (s.thread i).inSection r) : Aside s a (s.goto i pc) :=
  ⟨rfl, fun r j => inSection_goto (hpc r) j, hturns⟩

theorem aside_addJob {i : Fin n} {policy : JobAssignPolicy} {cpu rand : ℕ}
    (hi : s.thread i = .idle) (hs : addJob p s i policy cpu rand = some s') :
    Aside s (.addJob i policy cpu rand) s' := by
  have hgoto : ∀ pc : Pc, (∀ r, pc.inSection r = none) →
      Aside s (.addJob i policy cpu rand) (s.goto i pc) := by
    intro pc hpc
    apply Aside.goto rfl
    intro r
    rw [hi]
    exact hpc r
  unfold addJob at hs
  cases policy with
  | sameCoreRoundRobin | sameCoreLeastJobs | roundRobin | leastJobs =>
      cases hs
      exact hgoto _ fun _ => rfl
  | sameCoreRandom | random =>
      simp only at hs
      split at hs
      · cases hs
      · cases hs
        exact hgoto _ fun _ => rfl
  | max => cases hs

theorem aside_timer (jobs : ℕ) : Aside s (.timer jobs) (timerStep env p s jobs) := by
  unfold timerStep
  constructor
  · split <;> (try split) <;> (try split) <;> rfl
  · intro r j
    split <;> (try split) <;> (try split) <;> rfl
  · rfl

/-- A step either goes aside, or it is a step of the section under the lock of a cursor. -/
theorem step_cases {a : Act n} (hs : step env p s a = some s') :
    Aside s a s' ∨ ∃ i policy core pc, a = .rotate i ∧ s.thread i = .rotate policy core pc ∧
      rotate p s i policy core (rotationOf policy core) pc = some s' := by
  cases a with
  | addJob i policy cpu rand =>
      simp only [step] at hs
      split at hs
      · next hi =>
          split at hs
          · exact .inl (aside_addJob hi hs)
          · cases hs
      · cases hs
  | rotate i =>
      simp only [step] at hs
      split at hs
      · next policy core pc hi => exact .inr ⟨i, policy, core, pc, rfl, hi, hs⟩
      · cases hs
  | call i | getJobCount i =>
      simp only [step] at hs
      split at hs
      · next hi =>
          cases hs
          exact .inl (.goto rfl fun r => by rw [hi]; rfl)
      · cases hs
  | count i jobs =>
      simp only [step] at hs
      split at hs
      · next hi =>
          split at hs <;>
          · cases hs
            exact .inl (.goto rfl fun r => by rw [hi]; rfl)
      · cases hs
  | timer jobs =>
      cases hs
      exact .inl (aside_timer jobs)

/-! ### Steps under the lock -/

theorem inSection_of_ne {policy : JobAssignPolicy} {core : ℕ} (h : rotationOf policy core ≠ r)
    (pc : RotationPc) : (Pc.rotate policy core pc).inSection r = none := by
  cases pc <;> simp [Pc.inSection, h]

@[simp] theorem wrap_lock (c : Rotation) (first limit : ℕ) : (c.wrap first limit).lock = c.lock := by
  unfold Rotation.wrap
  split <;> rfl

@[simp] theorem wrap_given (c : Rotation) (first limit : ℕ) :
    (c.wrap first limit).given = c.given := by
  unfold Rotation.wrap
  split <;> rfl

/-- What is left of the invariant when a thread under the lock is put aside. -/
theorem Order.of_mem (h : Order r s tr) {i : Fin n} {hand : Option ℕ}
    (hi : (s.thread i).inSection r = some hand) :
    (s.stat.rotation r).lock = 0 ∧ (∀ j ≠ i, (s.thread j).inSection r = none) ∧
    locked r tr = (served r tr).map Prod.fst ++ [i] ∧
    (s.stat.rotation r).given = (served r tr).map Prod.snd ++ hand.toList := by
  cases h with
  | free lock out order given =>
      rw [out i] at hi
      cases hi
  | busy i' hand' lock mem out order given =>
      by_cases hii : i = i'
      · subst hii
        obtain rfl : hand' = hand := Option.some.inj (mem.symm.trans hi)
        exact ⟨lock, out, order, given⟩
      · rw [out i hii] at hi
        cases hi

section move
variable {i : Fin n} {c : Rotation} {pc : Pc} {tr' : List (Turn n)}

theorem inSection_of_out (hout : ∀ j ≠ i, (s.thread j).inSection r = none) (j : Fin n)
    (hj : j ≠ i) : (((s.setRotation r c).goto i pc).thread j).inSection r = none := by
  unfold State.goto State.setRotation
  simp only [Function.update_of_ne hj]
  exact hout j hj

/-- A thread is under the lock after its step, and the others are not. -/
theorem Order.busy_goto (hand : Option ℕ) (hout : ∀ j ≠ i, (s.thread j).inSection r = none)
    (hlock : c.lock = 0) (hpc : pc.inSection r = some hand)
    (horder : locked r tr' = (served r tr').map Prod.fst ++ [i])
    (hgiven : c.given = (served r tr').map Prod.snd ++ hand.toList) :
    Order r ((s.setRotation r c).goto i pc) tr' := by
  have hrotation : ((s.setRotation r c).goto i pc).stat.rotation r = c := Function.update_self ..
  have hthread : ((s.setRotation r c).goto i pc).thread i = pc := Function.update_self ..
  apply Order.busy i hand
  · rw [hrotation, hlock]
  · rw [hthread, hpc]
  · exact inSection_of_out hout
  · exact horder
  · rw [hrotation, hgiven]

/-- A thread leaves the section. -/
theorem Order.free_goto (hout : ∀ j ≠ i, (s.thread j).inSection r = none) (hlock : c.lock = 1)
    (hpc : pc.inSection r = none) (horder : locked r tr' = (served r tr').map Prod.fst)
    (hgiven : c.given = (served r tr').map Prod.snd) :
    Order r ((s.setRotation r c).goto i pc) tr' := by
  have hrotation : ((s.setRotation r c).goto i pc).stat.rotation r = c := Function.update_self ..
  have hthread : ((s.setRotation r c).goto i pc).thread i = pc := Function.update_self ..
  apply Order.free
  · rw [hrotation, hlock]
  · intro j
    by_cases hj : j = i
    · rw [hj, hthread, hpc]
    · exact inSection_of_out hout j hj
  · exact horder
  · rw [hrotation, hgiven]

end move

/-- The section under the lock of its own cursor, step by step. -/
theorem Order.rotate {i : Fin n} {policy : JobAssignPolicy} {core : ℕ} {pc : RotationPc}
    (h : Order (rotationOf policy core) s tr) (hi : s.thread i = .rotate policy core pc)
    (hs : ThreadPool.rotate p s i policy core (rotationOf policy core) pc = some s') :
    Order (rotationOf policy core) s' (tr ++ turns s (.rotate i)) := by
  unfold ThreadPool.rotate at hs
  rw [turns_rotate hi]
  cases pc with
  | wait =>
      simp only at hs
      split at hs
      · next hlock =>
          cases hs
          cases h with
          | free lock out order given =>
              apply Order.busy_goto none fun j _ => out j
              · simp [Rotation.acquire, lock]
              · simp [Pc.inSection]
              · simp [RotationPc.turns, order]
              · simp [RotationPc.turns, Rotation.acquire, given]
          | busy i' hand lock mem out order given => omega
      · cases hs
  | hold =>
      cases hs
      have hmem : (s.thread i).inSection (rotationOf policy core) = some none := by
        simp [hi, Pc.inSection]
      obtain ⟨lock, out, order, given⟩ := h.of_mem hmem
      apply Order.busy_goto (some (s.stat.rotation (rotationOf policy core)).take.1) out
      · simp [Rotation.take, lock]
      · simp [Pc.inSection]
      · simp [RotationPc.turns, order]
      · simp [RotationPc.turns, Rotation.take, given]
  | wrap k =>
      cases hs
      have hmem : (s.thread i).inSection (rotationOf policy core) = some (some k) := by
        simp [hi, Pc.inSection]
      obtain ⟨lock, out, order, given⟩ := h.of_mem hmem
      apply Order.busy_goto (some k) out
      · simp [lock]
      · simp [Pc.inSection]
      · simp [RotationPc.turns, order]
      · simp [RotationPc.turns, given]
  | post k =>
      cases hs
      have hmem : (s.thread i).inSection (rotationOf policy core) = some (some k) := by
        simp [hi, Pc.inSection]
      obtain ⟨lock, out, order, given⟩ := h.of_mem hmem
      apply Order.free_goto out
      · simp [Rotation.release, lock]
      · simp [Pc.inSection]
      · simp [RotationPc.turns, order]
      · simp [RotationPc.turns, Rotation.release, given]

/-- A step of the section changes the cursor under the lock and its own thread. -/
theorem rotate_cases {i : Fin n} {policy : JobAssignPolicy} {core : ℕ} {pc : RotationPc}
    (hs : rotate p s i policy core r pc = some s') :
    ∃ c pc', s' = (s.setRotation r c).goto i pc' ∧
      ∀ r' ≠ rotationOf policy core, pc'.inSection r' = none := by
  unfold rotate at hs
  cases pc with
  | wait =>
      simp only at hs
      split at hs
      · cases hs
        exact ⟨_, _, rfl, fun r' hr' => inSection_of_ne hr'.symm _⟩
      · cases hs
  | hold | wrap =>
      cases hs
      exact ⟨_, _, rfl, fun r' hr' => inSection_of_ne hr'.symm _⟩
  | post k =>
      cases hs
      exact ⟨_, _, rfl, fun r' hr' => rfl⟩

/-- Under another lock, this cursor stands still. -/
theorem rotation_of_ne {i : Fin n} {policy : JobAssignPolicy} {core : ℕ} {pc : RotationPc}
    (hr : r ≠ rotationOf policy core)
    (hs : rotate p s i policy core (rotationOf policy core) pc = some s') :
    s'.stat.rotation r = s.stat.rotation r := by
  obtain ⟨c, pc', rfl, -⟩ := rotate_cases hs
  exact Function.update_of_ne hr _ _

/-- **Step lemma.** -/
theorem Order.step (h : Order r s tr) {a : Act n} (hs : ThreadPool.step env p s a = some s') :
    Order r s' (tr ++ turns s a) := by
  rcases step_cases hs with haside | ⟨i, policy, core, pc, rfl, hi, hs⟩
  · apply h.frame
    · rw [haside.rotation]
    · exact haside.thread r
    · rw [haside.turns]
      rfl
    · rw [haside.turns]
      rfl
  · by_cases hr : r = rotationOf policy core
    · subst hr
      exact h.rotate hi hs
    · have hrotation := rotation_of_ne hr hs
      obtain ⟨c, pc', rfl, hpc'⟩ := rotate_cases hs
      apply h.frame hrotation
      · apply inSection_goto
        rw [hpc' r hr]
        show none = (s.thread i).inSection r
        rw [hi, inSection_of_ne (Ne.symm hr)]
      · rw [turns_rotate hi, locked_of_ne (Ne.symm hr)]
      · rw [turns_rotate hi, served_of_ne (Ne.symm hr)]

end steps

theorem Order.start (p : Pool) (r : Option ℕ) : Order r (ThreadPool.start p n) [] := by
  apply Order.free
  · cases r <;> rfl
  · intro i
    rfl
  · rfl
  · cases r <;> rfl

/-! ### The law -/

/-- What a run `tr` shows of the cursor of `r`, which goes round `size` workers from `first`. -/
structure RoundRobin (r : Option ℕ) (first size : ℕ) (tr : List (Turn n)) : Prop where
  /-- The calls are served in the order in which they took the lock. -/
  order : (served r tr).map Prod.fst <+: locked r tr
  /-- All of them are served, except one that is still under the lock. -/
  served : (locked r tr).length ≤ (served r tr).length + 1
  /-- The `k`-th of them is given worker `k` of the block, round and round. -/
  given : ∀ k i whichWorker, (ThreadPool.served r tr)[k]? = some (i, whichWorker) →
    whichWorker = first + k % size
  /-- The shares of two workers of the block differ by at most one. -/
  shares : ∀ v w, first ≤ v → v < first + size → first ≤ w → w < first + size →
    ((ThreadPool.served r tr).map Prod.snd).count v ≤
      ((ThreadPool.served r tr).map Prod.snd).count w + 1

/-- A cursor that goes round makes the law, for calls that are served in order. -/
theorem Order.roundRobin {r : Option ℕ} {s : State n} {tr : List (Turn n)} (h : Order r s tr)
    {first size holding wrapping leaving : ℕ}
    (hok : Rotation.Ok (s.stat.rotation r) first size holding wrapping leaving) :
    RoundRobin r first size tr := by
  have hprefix : (served r tr).map Prod.snd <+: (s.stat.rotation r).given := by
    cases h with
    | free lock out order given => rw [given]
    | busy i hand lock mem out order given =>
        rw [given]
        exact List.prefix_append _ _
  rw [hok.given_rounds] at hprefix
  have hserved := Rotation.eq_rounds_of_prefix hprefix
  constructor
  · cases h with
    | free lock out order given => rw [order]
    | busy i hand lock mem out order given =>
        rw [order]
        exact List.prefix_append _ _
  · cases h with
    | free lock out order given =>
        rw [order, List.length_map]
        exact Nat.le_succ _
    | busy i hand lock mem out order given =>
        rw [order, List.length_append, List.length_map]
        rfl
  · intro k i whichWorker hk
    apply Rotation.getElem_rounds
    rw [← hserved, List.getElem?_map, hk]
    rfl
  · intro v w hv hv' hw hw'
    rw [hserved]
    exact Rotation.count_le_count hv hv' hw hw' _

/-- The section under the lock of `r` is no part of the step. -/
def Elsewhere (r : Option ℕ) (s : State n) (a : Act n) : Prop :=
  ∀ i policy core pc, a = .rotate i → s.thread i = .rotate policy core pc →
    r ≠ rotationOf policy core

/-- Calls of other policies, calls on other cores and the timer leave a cursor alone. -/
theorem rotation_of_elsewhere {env : Env} {p : Pool} {s s' : State n} {r : Option ℕ} {a : Act n}
    (h : Elsewhere r s a) (hs : step env p s a = some s') :
    s'.stat.rotation r = s.stat.rotation r := by
  rcases step_cases hs with haside | ⟨i, policy, core, pc, ha, hi, hs⟩
  · rw [haside.rotation]
  · exact rotation_of_ne (h i policy core pc ha hi) hs

/-- **Round robin is fair.**  Along every run of any threads on any cores, whatever policies
their calls have, the calls under `mGlobalLock_Next` are given the workers in turn, and so are
the calls under the lock of a core those of the core.  Only calls with the policies
`JOB_ASSIGN_ROUND_ROBIN` (without a core) and `JOB_ASSIGN_SAME_CORE_ROUND_ROBIN` (on their core)
come under these locks, and no step elsewhere moves a cursor. -/
theorem roundRobin_fair {env : Env} {cfg : ThreadPoolConfig} {returned : Bool} {p : Pool}
    (hp : construct env cfg returned = some p) (hstarted : p.timerStarted = true)
    (hpos : 1 ≤ env.coreCount * cfg.workersPerCore)
    (hle : env.coreCount * cfg.workersPerCore ≤ maxWorkerCount) {ls : List (Act n)}
    {s : State n} (he : (system env p n).exec (start p n) ls = some s) :
    RoundRobin none 0 p.jobWorkerCount ((system env p n).trace turns (start p n) ls) ∧
    (∀ core < env.coreCount, RoundRobin (some core) (core * cfg.workersPerCore)
      cfg.workersPerCore ((system env p n).trace turns (start p n) ls)) ∧
    (∀ i policy core pc, s.thread i = .rotate policy core pc →
      policy = .roundRobin ∧ rotationOf policy core = none ∨
      policy = .sameCoreRoundRobin ∧ rotationOf policy core = some core) ∧
    ∀ r a s', Elsewhere r s a → step env p s a = some s' →
      s'.stat.rotation r = s.stat.rotation r := by
  have hf := fits_of_construct hp hstarted hpos hle
  obtain ⟨hworkers, -, -⟩ := started_of_construct hp hstarted
  have hstart : (system env p n).Reachable (start p n) := .of_init rfl
  have hI := reachable_inv hf (hstart.exec he)
  have horder : ∀ r, Order r s ((system env p n).trace turns (start p n) ls) := by
    intro r
    have htrace : Order r s ([] ++ (system env p n).trace turns (start p n) ls) :=
      hstart.trace_invariant (I := Order r) (fun _ _ _ _ _ h hs => h.step hs) (Order.start p r) he
    exact htrace
  refine ⟨?_, ?_, ?_, fun r a s' h hs => rotation_of_elsewhere h hs⟩
  · exact (horder none).roundRobin (hI.cursor none fun core hcore => by cases hcore)
  · intro core hcore
    have hcursor := hI.cursor (some core) fun c hc => by
      cases hc
      exact hcore
    unfold CursorOk at hcursor
    simp only [firstOf, sizeOf, hf.first_eq hcore] at hcursor
    rw [← hworkers]
    exact (horder (some core)).roundRobin hcursor
  · intro i policy core pc hi
    obtain ⟨-, hpolicy, -⟩ : (Pc.rotate policy core pc).Sound env p := hi ▸ hI.sound i
    rcases hpolicy with rfl | rfl
    · exact .inr ⟨rfl, rfl⟩
    · exact .inl ⟨rfl, rfl⟩

/-- Two threads take turns at the global cursor, with a call on a core in between. -/
theorem roundRobin_fair_fourWorkers : ∃ s : State 2,
    (system twoCores fourWorkers 2).exec (start fourWorkers 2)
      [.addJob 0 .roundRobin 0 0, .addJob 1 .roundRobin 1 0, .rotate 1, .rotate 1, .rotate 1,
        .rotate 1, .call 1, .addJob 1 .sameCoreRoundRobin 1 0, .rotate 1, .rotate 0] = some s ∧
    RoundRobin none 0 4 ((system twoCores fourWorkers 2).trace turns (start fourWorkers 2)
      [.addJob 0 .roundRobin 0 0, .addJob 1 .roundRobin 1 0, .rotate 1, .rotate 1, .rotate 1,
        .rotate 1, .call 1, .addJob 1 .sameCoreRoundRobin 1 0, .rotate 1, .rotate 0]) ∧
    served none ((system twoCores fourWorkers 2).trace turns (start fourWorkers 2)
      [.addJob 0 .roundRobin 0 0, .addJob 1 .roundRobin 1 0, .rotate 1, .rotate 1, .rotate 1,
        .rotate 1, .call 1, .addJob 1 .sameCoreRoundRobin 1 0, .rotate 1, .rotate 0]) =
      [(1, 0)] := by
  have hp : construct twoCores twoPerCore true = some fourWorkers := rfl
  obtain ⟨s, he⟩ : ∃ s, (system twoCores fourWorkers 2).exec (start fourWorkers 2)
      [.addJob 0 .roundRobin 0 0, .addJob 1 .roundRobin 1 0, .rotate 1, .rotate 1, .rotate 1,
        .rotate 1, .call 1, .addJob 1 .sameCoreRoundRobin 1 0, .rotate 1, .rotate 0] = some s :=
    ⟨_, rfl⟩
  exact ⟨s, he, (roundRobin_fair hp rfl (by decide) (by decide) he).1, rfl⟩

end LinuxProgramming.ThreadPool
