import LinuxProgramming.CoreSimulation.Model
import Mathlib.Data.List.Nodup
import Mathlib.Data.List.Perm.Basic

/-! # Threads, queues and the limit of the arrays

What the simulation of Chapter 12 is to do with its arrays, threads and queues from start to end,
and `sound_iff`, which says when it does: the machine has no more cores than the fixed arrays have
entries, and the lengths of the allocated ones are `int`s. -/

namespace LinuxProgramming.CoreSimulation

/-! ### What is to hold -/

/-- The number of entries of an array. -/
def size (numCores : ℕ) (perCore : Kind → ℕ) : Arr → ℤ
  | .policy => maxSystemCores
  | .queue => maxSystemCores
  | .thread kind => entries perCore numCores kind

def Event.made : Event → Option Object
  | .new o => some o
  | _ => none

def Event.deleted : Event → Option Object
  | .delete o => some o
  | _ => none

structure Sound (numCores : ℕ) (perCore : Kind → ℕ) : Prop where
  bounds : ∀ arr (index : ℕ), .access arr index ∈ main numCores perCore →
    (index : ℤ) < size numCores perCore arr
  queues : ∀ core < numCores, .new (.queue core) ∈ main numCores perCore
  threads : ∀ core < numCores, ∀ kind t,
    .new (.thread kind t) ∈ main numCores perCore ∧ t.queue = some core ↔
      ∃ j < perCore kind,
        t = ⟨some core, core * perCore kind + j, 1000, some (policyOf core), core⟩
  unlike : ((main numCores perCore).filterMap Event.made).Nodup
  deleted : ((main numCores perCore).filterMap Event.deleted).Perm
    ((main numCores perCore).filterMap Event.made)
  joined : ∀ before after core, main numCores perCore = before ++ .delete (.queue core) :: after →
    ∀ kind t, .new (.thread kind t) ∈ main numCores perCore → t.queue = some core →
      .join kind t ∈ before

/-! ### What is made and deleted -/

section objects
variable (numCores : ℕ) (perCore : Kind → ℕ)

/-- The threads of one kind, by their ids. -/
def threadsOf (kind : Kind) : List Object :=
  (List.range (numCores * perCore kind)).map fun i => .thread kind (threadOf (perCore kind) i)

/-- A range of a product in blocks. -/
theorem flatMap_range_mul {β : Type*} (f : ℕ → β) (n m : ℕ) :
    ((List.range n).flatMap fun i => (List.range m).map fun j => f (i * m + j)) =
      (List.range (n * m)).map f := by
  induction n with
  | zero =>
      rw [Nat.zero_mul]
      rfl
  | succ n ih =>
      rw [List.range_succ, List.flatMap_append, ih, Nat.succ_mul, List.range_add, List.map_append,
        List.flatMap_singleton, List.map_map]
      rfl

/-- A loop of which each round has one object in the log. -/
theorem filterMap_flatMap_one {l : List ℕ} {f : ℕ → List Event} {p : Event → Option Object}
    {g : ℕ → Object} (h : ∀ i, (f i).filterMap p = [g i]) :
    (l.flatMap f).filterMap p = l.map g := by
  rw [List.filterMap_flatMap, List.map_eq_flatMap]
  exact List.flatMap_congr fun i _ => h i

theorem filterMap_flatMap_nil {l : List ℕ} {f : ℕ → List Event} {p : Event → Option Object}
    (h : ∀ i, (f i).filterMap p = []) : (l.flatMap f).filterMap p = [] := by
  rw [List.filterMap_flatMap]
  exact List.flatMap_eq_nil_iff.mpr fun i _ => h i

theorem made_queuesLog :
    (queuesLog numCores).filterMap Event.made = (List.range numCores).map .queue := by
  unfold queuesLog
  rw [List.filterMap_append, filterMap_flatMap_one fun _ => rfl]
  exact List.append_nil _

theorem deleted_queuesLog : (queuesLog numCores).filterMap Event.deleted = [] := by
  unfold queuesLog
  rw [List.filterMap_append, filterMap_flatMap_nil fun _ => rfl]
  rfl

theorem made_kindEvents (kind : Kind) (m core : ℕ) :
    (kindEvents kind m core).filterMap Event.made =
      (List.range m).map fun j => .thread kind (threadOf m (core * m + j)) :=
  filterMap_flatMap_one fun _ => rfl

/-- The order in which the threads are made goes by cores. -/
theorem made_threadsLog :
    ((threadsLog numCores perCore).filterMap Event.made).Perm
      (threadsOf numCores perCore .producer ++ threadsOf numCores perCore .consumer) := by
  unfold threadsLog threadsOf
  rw [List.filterMap_flatMap, ← flatMap_range_mul, ← flatMap_range_mul]
  refine List.Perm.trans ?_ List.perm_append_comm
  refine List.Perm.trans ?_ (List.flatMap_append_perm _ _ _).symm
  apply List.Perm.of_eq
  apply List.flatMap_congr
  intro core _
  unfold coreEvents
  rw [List.filterMap_append, made_kindEvents, made_kindEvents]

theorem deleted_threadsLog : (threadsLog numCores perCore).filterMap Event.deleted = [] := by
  apply filterMap_flatMap_nil
  intro core
  unfold coreEvents kindEvents
  rw [List.filterMap_append, filterMap_flatMap_nil fun _ => rfl, filterMap_flatMap_nil fun _ => rfl]
  rfl

theorem made_threadsDeleted (kind : Kind) :
    (threadsDeleted numCores perCore kind).filterMap Event.made = [] :=
  filterMap_flatMap_nil fun _ => rfl

theorem deleted_threadsDeleted (kind : Kind) :
    (threadsDeleted numCores perCore kind).filterMap Event.deleted =
      threadsOf numCores perCore kind :=
  filterMap_flatMap_one fun _ => rfl

theorem made_queuesDeleted : (queuesDeleted numCores).filterMap Event.made = [] :=
  filterMap_flatMap_nil fun _ => rfl

theorem deleted_queuesDeleted :
    (queuesDeleted numCores).filterMap Event.deleted = (List.range numCores).map .queue :=
  filterMap_flatMap_one fun _ => rfl

/-- Before the queues are deleted all threads have been. -/
theorem deleted_logBefore : (logBefore numCores perCore).filterMap Event.deleted =
    threadsOf numCores perCore .producer ++ threadsOf numCores perCore .consumer := by
  have hrelease : ∀ kind brackets, [Event.release kind brackets].filterMap Event.deleted = [] :=
    fun _ _ => rfl
  unfold logBefore
  simp only [List.filterMap_append, deleted_queuesLog, deleted_threadsLog, deleted_threadsDeleted,
    hrelease, List.nil_append, List.append_nil]

variable {numCores perCore} (h : ∀ kind, 0 ≤ entries perCore numCores kind)
include h

theorem made_main : ((main numCores perCore).filterMap Event.made).Perm
    ((List.range numCores).map .queue ++
      (threadsOf numCores perCore .producer ++ threadsOf numCores perCore .consumer)) := by
  have hrest : ((threadsDeleted numCores perCore .producer ++ [Event.release .producer true] ++
      threadsDeleted numCores perCore .consumer ++ [Event.release .consumer false]) ++
      queuesDeleted numCores).filterMap Event.made = [] := by
    simp only [List.filterMap_append, made_threadsDeleted, made_queuesDeleted]
    rfl
  rw [main_eq h]
  unfold logBefore
  rw [List.append_assoc, List.filterMap_append, hrest, List.append_nil, List.filterMap_append,
    made_queuesLog]
  exact (made_threadsLog numCores perCore).append_left _

theorem deleted_main : (main numCores perCore).filterMap Event.deleted =
    threadsOf numCores perCore .producer ++ threadsOf numCores perCore .consumer ++
      (List.range numCores).map .queue := by
  rw [main_eq h, List.filterMap_append, deleted_logBefore, deleted_queuesDeleted]

omit h in
theorem nodup_threadsOf (kind : Kind) : (threadsOf numCores perCore kind).Nodup := by
  apply List.Nodup.map_on
  · intro i _ i' _ heq
    simp only [Object.thread.injEq, true_and] at heq
    exact congrArg Thread.id heq
  · exact List.nodup_range

/-- Every object is deleted once. -/
theorem nodup_deleted : ((main numCores perCore).filterMap Event.deleted).Nodup := by
  rw [deleted_main h, List.nodup_append, List.nodup_append]
  refine ⟨⟨nodup_threadsOf _, nodup_threadsOf _, ?_⟩, ?_, ?_⟩
  · intro o ho o' ho' heq
    obtain ⟨i, -, rfl⟩ := List.mem_map.mp ho
    obtain ⟨i', -, rfl⟩ := List.mem_map.mp ho'
    simp at heq
  · exact List.nodup_range.map fun _ _ heq => Object.queue.inj heq
  · intro o ho o' ho' heq
    obtain ⟨core, -, rfl⟩ := List.mem_map.mp ho'
    rcases List.mem_append.mp ho with ho | ho <;>
    · obtain ⟨i, -, hi⟩ := List.mem_map.mp ho
      rw [← hi] at heq
      contradiction

theorem perm_deleted : ((main numCores perCore).filterMap Event.deleted).Perm
    ((main numCores perCore).filterMap Event.made) := by
  rw [deleted_main h]
  exact List.perm_append_comm.trans (made_main h).symm

theorem mem_made_iff (o : Object) : .new o ∈ main numCores perCore ↔
    (∃ core < numCores, o = .queue core) ∨
      ∃ kind, ∃ i < numCores * perCore kind, o = .thread kind (threadOf (perCore kind) i) := by
  have hmade : .new o ∈ main numCores perCore ↔
      o ∈ (main numCores perCore).filterMap Event.made := by
    rw [List.mem_filterMap]
    constructor
    · exact fun ho => ⟨_, ho, rfl⟩
    · rintro ⟨e, he, heo⟩
      cases e <;> simp [Event.made] at heo
      rwa [← heo]
  rw [hmade, (made_main h).mem_iff]
  unfold threadsOf
  simp only [List.mem_append, List.mem_map, List.mem_range]
  constructor
  · rintro (⟨core, hcore, rfl⟩ | ⟨i, hi, rfl⟩ | ⟨i, hi, rfl⟩)
    · exact .inl ⟨core, hcore, rfl⟩
    · exact .inr ⟨.producer, i, hi, rfl⟩
    · exact .inr ⟨.consumer, i, hi, rfl⟩
  · rintro (⟨core, hcore, rfl⟩ | ⟨kind, i, hi, rfl⟩)
    · exact .inl ⟨core, hcore, rfl⟩
    · cases kind with
      | producer => exact .inr (.inl ⟨i, hi, rfl⟩)
      | consumer => exact .inr (.inr ⟨i, hi, rfl⟩)

omit h in
theorem id_lt_product {core j : ℕ} (hcore : core < numCores) {kind : Kind} (hj : j < perCore kind) :
    core * perCore kind + j < numCores * perCore kind :=
  calc core * perCore kind + j < core * perCore kind + perCore kind := by omega
    _ = (core + 1) * perCore kind := (Nat.succ_mul _ _).symm
    _ ≤ numCores * perCore kind := Nat.mul_le_mul_right _ hcore

/-- The threads of a core are those whose ids are in its block. -/
theorem threads_of_core {core : ℕ} (hcore : core < numCores) (kind : Kind) (t : Thread) :
    .new (.thread kind t) ∈ main numCores perCore ∧ t.queue = some core ↔
      ∃ j < perCore kind,
        t = ⟨some core, core * perCore kind + j, 1000, some (policyOf core), core⟩ := by
  rw [mem_made_iff h]
  constructor
  · rintro ⟨⟨_, -, hqueue⟩ | ⟨kind', i, hi, ht⟩, hcore'⟩
    · contradiction
    · obtain ⟨rfl, rfl⟩ := Object.thread.inj ht
      have hdiv : i / perCore kind = core := Option.some.inj hcore'
      have hpos : 0 < perCore kind := Nat.pos_of_ne_zero fun hzero => by
        rw [hzero, Nat.mul_zero] at hi
        exact absurd hi (Nat.not_lt_zero i)
      refine ⟨i % perCore kind, Nat.mod_lt i hpos, ?_⟩
      unfold threadOf
      rw [hdiv, ← hdiv, Nat.div_add_mod']
  · rintro ⟨j, hj, rfl⟩
    refine ⟨.inr ⟨kind, _, id_lt_product hcore hj, ?_⟩, rfl⟩
    unfold threadOf
    rw [div_eq_core (Nat.le_add_right _ _) (by omega)]

end objects

/-! ### The order of the deletions -/

section order
variable {numCores : ℕ} {perCore : Kind → ℕ}

variable (numCores perCore) in
theorem no_queue_deleted (core : ℕ) : .delete (.queue core) ∉ logBefore numCores perCore := by
  intro hmem
  have hobject : Object.queue core ∈ (logBefore numCores perCore).filterMap Event.deleted :=
    List.mem_filterMap.mpr ⟨_, hmem, rfl⟩
  rw [deleted_logBefore, List.mem_append] at hobject
  rcases hobject with hobject | hobject <;>
  · obtain ⟨i, -, hi⟩ := List.mem_map.mp hobject
    contradiction

theorem threadsDeleted_subset (kind : Kind) :
    threadsDeleted numCores perCore kind ⊆ logBefore numCores perCore := by
  intro e he
  unfold logBefore
  simp only [List.mem_append]
  cases kind with
  | producer => exact .inr (.inl (.inl (.inl he)))
  | consumer => exact .inr (.inl (.inr he))

theorem join_mem_logBefore {kind : Kind} {i : ℕ} (hi : i < numCores * perCore kind) :
    .join kind (threadOf (perCore kind) i) ∈ logBefore numCores perCore := by
  have hjoin : .join kind (threadOf (perCore kind) i) ∈ threadsDeleted numCores perCore kind := by
    unfold threadsDeleted
    rw [List.mem_flatMap]
    exact ⟨i, List.mem_range.mpr hi, List.mem_cons_of_mem _ List.mem_cons_self⟩
  exact threadsDeleted_subset kind hjoin

/-- What comes before the deletion of a queue. -/
theorem mem_before {before after : List Event} {core : ℕ}
    (h : logBefore numCores perCore ++ queuesDeleted numCores =
      before ++ .delete (.queue core) :: after) {e : Event}
    (he : e ∈ logBefore numCores perCore) : e ∈ before := by
  rcases List.append_eq_append_iff.mp h with ⟨rest, rfl, -⟩ | ⟨rest, hlog, hrest⟩
  · exact List.mem_append_left _ he
  · rcases rest with _ | ⟨x, rest⟩
    · rwa [hlog, List.append_nil] at he
    · obtain ⟨rfl, -⟩ := List.cons.inj hrest
      exact absurd (hlog ▸ List.mem_append_right _ List.mem_cons_self)
        (no_queue_deleted numCores perCore core)

end order

/-! ### The lengths of the arrays -/

section lengths
variable {numCores : ℕ} {perCore : Kind → ℕ}

theorem entries_eq {kind : Kind} (h : numCores * perCore kind < 2 ^ 31) :
    entries perCore numCores kind = (numCores * perCore kind : ℕ) := by
  have hnat : (BitVec.ofNat 32 (numCores * perCore kind)).toNat = numCores * perCore kind := by
    rw [BitVec.toNat_ofNat, Nat.mod_eq_of_lt (by omega)]
  have hint := BitVec.toInt_eq_toNat_cond (BitVec.ofNat 32 (numCores * perCore kind))
  rw [hnat, if_pos (by omega)] at hint
  exact hint

theorem entries_nonneg (hlen : ∀ kind, numCores * perCore kind < 2 ^ 31) (kind : Kind) :
    0 ≤ entries perCore numCores kind := by
  rw [entries_eq (hlen kind)]
  exact Int.natCast_nonneg _

/-- No array is longer than the greatest `int`. -/
theorem entries_lt (numCores : ℕ) (perCore : Kind → ℕ) (kind : Kind) :
    entries perCore numCores kind < 2 ^ 31 :=
  BitVec.toInt_lt

/-- The accesses are inside the arrays. -/
def Event.InBounds (numCores : ℕ) (perCore : Kind → ℕ) : Event → Prop
  | .access arr index => (index : ℤ) < size numCores perCore arr
  | _ => True

section bounded
variable (hmax : numCores ≤ maxSystemCores) (hlen : ∀ kind, numCores * perCore kind < 2 ^ 31)

include hmax in
theorem core_lt {core : ℕ} (hcore : core < numCores) : (core : ℤ) < maxSystemCores := by
  omega

include hlen in
theorem id_lt (kind : Kind) {i : ℕ} (hi : i < numCores * perCore kind) :
    (i : ℤ) < entries perCore numCores kind := by
  rw [entries_eq (hlen kind)]
  exact_mod_cast hi

include hmax

theorem inBounds_queuesLog : ∀ e ∈ queuesLog numCores, e.InBounds numCores perCore := by
  intro e he
  rcases List.mem_append.mp he with he | he
  · obtain ⟨i, hi, he⟩ := List.mem_flatMap.mp he
    have hlt := core_lt hmax (List.mem_range.mp hi)
    simp only [queueEvents, List.mem_cons, List.not_mem_nil, or_false] at he
    rcases he with rfl | rfl | rfl
    · exact hlt
    · trivial
    · exact hlt
  · rw [List.mem_singleton.mp he]
    exact (by decide : ((0 : ℕ) : ℤ) < maxSystemCores)

theorem inBounds_queuesDeleted : ∀ e ∈ queuesDeleted numCores, e.InBounds numCores perCore := by
  intro e he
  obtain ⟨i, hi, he⟩ := List.mem_flatMap.mp he
  simp only [List.mem_cons, List.not_mem_nil, or_false] at he
  rcases he with rfl | rfl
  · exact core_lt hmax (List.mem_range.mp hi)
  · trivial

include hlen

theorem inBounds_kindEvents (kind : Kind) {core : ℕ} (hcore : core < numCores) :
    ∀ e ∈ kindEvents kind (perCore kind) core, e.InBounds numCores perCore := by
  intro e he
  obtain ⟨j, hj, he⟩ := List.mem_flatMap.mp he
  have hid := id_lt hlen kind (id_lt_product hcore (List.mem_range.mp hj))
  simp only [threadEvents, List.mem_cons, List.not_mem_nil, or_false] at he
  rcases he with rfl | rfl | rfl | rfl
  · exact core_lt hmax hcore
  · exact core_lt hmax hcore
  · trivial
  · exact hid

omit hmax in
theorem inBounds_threadsDeleted (kind : Kind) :
    ∀ e ∈ threadsDeleted numCores perCore kind, e.InBounds numCores perCore := by
  intro e he
  obtain ⟨i, hi, he⟩ := List.mem_flatMap.mp he
  simp only [deleteEvents, List.mem_cons, List.not_mem_nil, or_false] at he
  rcases he with rfl | rfl | rfl
  · exact id_lt hlen kind (List.mem_range.mp hi)
  · trivial
  · trivial

theorem inBounds_main : ∀ e ∈ main numCores perCore, e.InBounds numCores perCore := by
  intro e he
  rw [main_eq (entries_nonneg hlen)] at he
  unfold logBefore at he
  simp only [List.mem_append, List.mem_singleton] at he
  rcases he with ((he | he) | (((he | rfl) | he) | rfl)) | he
  · exact inBounds_queuesLog hmax e he
  · obtain ⟨core, hcore, he⟩ := List.mem_flatMap.mp he
    rcases List.mem_append.mp he with he | he
    · exact inBounds_kindEvents hmax hlen .consumer (List.mem_range.mp hcore) e he
    · exact inBounds_kindEvents hmax hlen .producer (List.mem_range.mp hcore) e he
  · exact inBounds_threadsDeleted hlen .producer e he
  · trivial
  · exact inBounds_threadsDeleted hlen .consumer e he
  · trivial
  · exact inBounds_queuesDeleted hmax e he

end bounded

/-- With a core too many its policy is stored behind the array. -/
theorem cores_le (h : Sound numCores perCore) : numCores ≤ maxSystemCores := by
  by_contra hgt
  obtain ⟨rest, hmain⟩ := exists_main_eq numCores perCore
  have haccess : .access .policy maxSystemCores ∈ main numCores perCore := by
    rw [hmain]
    refine List.mem_append_left _ (List.mem_append_left _ (List.mem_flatMap.mpr ?_))
    exact ⟨_, List.mem_range.mpr (not_le.mp hgt), List.mem_cons_self⟩
  exact Int.lt_irrefl _ (h.bounds _ _ haccess)

/-- Each thread is looked up for its deletion. -/
theorem access_mem_main (hpos : ∀ kind, 0 ≤ entries perCore numCores kind) {kind : Kind} {i : ℕ}
    (hi : i < numCores * perCore kind) : .access (.thread kind) i ∈ main numCores perCore := by
  have hdeleted : .access (.thread kind) i ∈ threadsDeleted numCores perCore kind :=
    List.mem_flatMap.mpr ⟨i, List.mem_range.mpr hi, List.mem_cons_self⟩
  rw [main_eq hpos]
  exact List.mem_append_left _ (threadsDeleted_subset kind hdeleted)

/-- A product that is no `int` makes an array that is too short, or none. -/
theorem product_lt (h : Sound numCores perCore) (kind : Kind) :
    numCores * perCore kind < 2 ^ 31 := by
  by_contra hge
  have hproduct : 0 < numCores * perCore kind := by omega
  by_cases hpos : ∀ kind, 0 ≤ entries perCore numCores kind
  · obtain ⟨length, hlength⟩ := Int.eq_ofNat_of_zero_le (hpos kind)
    have hlt := entries_lt numCores perCore kind
    have hbound := h.bounds (.thread kind) length (access_mem_main hpos (by omega))
    rw [show size numCores perCore (.thread kind) = entries perCore numCores kind from rfl,
      hlength] at hbound
    exact Int.lt_irrefl _ hbound
  · obtain ⟨kind', hneg⟩ := not_forall.mp hpos
    obtain ⟨kind'', hmain⟩ := main_eq_of_neg (Int.not_le.mp hneg)
    -- nothing runs on core 0
    have hthread := ((h.threads 0 (Nat.pos_of_mul_pos_right hproduct) kind _).mpr
      ⟨0, Nat.pos_of_mul_pos_left hproduct, rfl⟩).1
    have hobject : .thread kind _ ∈ (main numCores perCore).filterMap Event.made :=
      List.mem_filterMap.mpr ⟨_, hthread, rfl⟩
    rw [hmain, List.filterMap_append, made_queuesLog] at hobject
    simp [Event.made] at hobject

end lengths

/-- **Life of the simulation.**  All accesses are inside the arrays, every core has its threads,
and everything is deleted once and in order, exactly if the cores fit the fixed arrays and the
numbers of threads are `int`s. -/
theorem sound_iff (numCores : ℕ) (perCore : Kind → ℕ) :
    Sound numCores perCore ↔
      numCores ≤ maxSystemCores ∧ ∀ kind, numCores * perCore kind < 2 ^ 31 := by
  constructor
  · intro h
    exact ⟨cores_le h, product_lt h⟩
  · rintro ⟨hmax, hlen⟩
    have hpos := entries_nonneg hlen
    have hperm := perm_deleted hpos
    refine ⟨fun arr index haccess => inBounds_main hmax hlen _ haccess, ?_,
      fun core hcore => threads_of_core hpos hcore, hperm.nodup_iff.mp (nodup_deleted hpos), hperm, ?_⟩
    · intro core hcore
      exact (mem_made_iff hpos _).mpr (.inl ⟨core, hcore, rfl⟩)
    · intro before after core hmain kind t ht _
      rw [main_eq hpos] at hmain
      rcases (mem_made_iff hpos _).mp ht with ⟨_, -, hqueue⟩ | ⟨kind', i, hi, hthread⟩
      · contradiction
      · obtain ⟨rfl, rfl⟩ := Object.thread.inj hthread
        exact mem_before hmain (join_mem_logBefore hi)

/-- One producer and one consumer on each of 33 cores: the last policy and the last queue are
stored behind their arrays. -/
theorem arrays_overrun :
    .access .policy 32 ∈ main 33 (fun _ => 1) ∧ .access .queue 32 ∈ main 33 (fun _ => 1) ∧
    ¬ Sound 33 (fun _ => 1) := by
  refine ⟨by decide +kernel, by decide +kernel, fun h => ?_⟩
  exact absurd (cores_le h) (by decide)

end LinuxProgramming.CoreSimulation
