import LinuxProgramming.ClientServer.Steps
import LinuxProgramming.Records

/-! # Framing

TCP keeps no record boundaries; the server relies on reading whole records.

* Soundness (`framing_sound`) holds in every run: a short read closes the connection, so what
  reaches `validate` is always the next whole record of one client.
* Completeness (`framing_complete`) does not: on a non-blocking socket `MSG_WAITALL` does not
  wait, so an arrival that ends inside a record is a short read.  It holds in the runs in which
  every read finds a whole record or the end of the stream, and no others: a short read loses
  the record for good. -/

namespace LinuxProgramming.ClientServer

/-! ### Soundness -/

/-- The bytes of a connection are conserved until the server closes it, and what has been read
stays a prefix of what was sent. -/
structure ConnInv (k : Conn) : Prop where
  conserved : k.stage ≠ .closed → k.consumed ++ k.received ++ k.inFlight = k.stream
  consumed_le : k.consumed <+: k.stream
  cut_lt : k.cut.length < itemSize
  cut_nil : k.clientClosed = false → k.cut = []
  written_valid : ∀ w ∈ k.written, w.validate = true
  answers : ∀ p ∈ k.validated, p.2 = p.1.validate

theorem Conn.consumed_append (k : Conn) (w : WorkItem) (ok : Bool) :
    ((k.validated ++ [(w, ok)]).map Prod.fst).flatMap WorkItem.toBytes =
      k.consumed ++ w.toBytes := by
  unfold Conn.consumed
  rw [List.map_append, List.flatMap_append]
  simp

theorem Conn.stream_append {k : Conn} (h : k.cut = []) (w : WorkItem) :
    (k.written ++ [w]).flatMap WorkItem.toBytes ++ k.cut = k.stream ++ w.toBytes := by
  unfold Conn.stream
  rw [h, List.flatMap_append, List.append_nil, List.append_nil]
  simp

/-- Bytes that arrive move from the network to the buffer. -/
theorem conserved_arrive {a b c d : List Byte} (n : ℕ) (h : a ++ b ++ c = d) :
    a ++ (b ++ c.take n) ++ c.drop n = d := by
  rw [List.append_assoc, List.append_assoc, List.take_append_drop, ← List.append_assoc, h]

/-- A whole record moves from the buffer to `validate`. -/
theorem conserved_whole {a b c d w : List Byte} (hw : w = b.take itemSize)
    (h : a ++ b ++ c = d) : a ++ w ++ b.drop itemSize ++ c = d := by
  rw [hw, List.append_assoc a, List.take_append_drop, h]

theorem ConnInv.fresh : ConnInv .fresh where
  conserved := fun _ => rfl
  consumed_le := List.nil_prefix
  cut_lt := by decide
  cut_nil := fun _ => rfl
  written_valid := by
    intro w hw
    cases hw
  answers := by
    intro p hp
    cases hp

theorem ConnInv.step {k k' : Conn} {cutOff short : Prop} (h : ConnInv k)
    (hs : ConnStep cutOff short k k') : ConnInv k' := by
  cases hs with
  | connect hst => exact { h with conserved := fun _ => h.conserved (by rw [hst]; decide) }
  | write item ho =>
      have hnil := h.cut_nil ho
      refine { h with conserved := fun hst => ?_, consumed_le := ?_, written_valid := ?_ }
      · unfold Conn.stream
        rw [Conn.stream_append hnil, ← h.conserved hst]
        exact (List.append_assoc _ _ _).symm
      · unfold Conn.stream
        rw [Conn.stream_append hnil]
        exact h.consumed_le.trans (List.prefix_append _ _)
      · intro w hw
        rcases List.mem_append.mp hw with hw | hw
        · exact h.written_valid w hw
        · rw [List.mem_singleton.mp hw]
          exact WorkItem.validate_new _ _ item.fits
  | cutOff hc item n ho hn =>
      have hnil := h.cut_nil ho
      have hstream : k.stream = k.written.flatMap WorkItem.toBytes := by
        unfold Conn.stream
        rw [hnil, List.append_nil]
      refine { h with
        conserved := fun hst => ?_
        consumed_le := ?_
        cut_lt := ?_
        cut_nil := fun hcl => by cases hcl }
      · unfold Conn.stream
        rw [← hstream, ← h.conserved hst]
        exact (List.append_assoc _ _ _).symm
      · unfold Conn.stream
        rw [← hstream]
        exact h.consumed_le.trans (List.prefix_append _ _)
      · rw [List.length_take]
        omega
  | close ho => exact { h with cut_nil := fun hcl => by cases hcl }
  | arrive n hst => exact { h with conserved := fun _ => conserved_arrive n (h.conserved hst) }
  | finArrive hcl hi => exact { h with }
  | accept hst => exact { h with conserved := fun _ => h.conserved (by rw [hst]; decide) }
  | eof hst hr hf => exact { h with conserved := fun hcl => absurd rfl hcl }
  | short hs hst h0 hn => exact { h with conserved := fun hcl => absurd rfl hcl }
  | whole hst hn w hw =>
      have hcons := conserved_whole hw (h.conserved (by rw [hst]; decide))
      refine { h with conserved := fun _ => ?_, consumed_le := ?_, answers := ?_ }
      · unfold Conn.consumed
        rw [Conn.consumed_append]
        exact hcons
      · unfold Conn.consumed
        rw [Conn.consumed_append]
        refine ⟨k.received.drop itemSize ++ k.inFlight, ?_⟩
        rw [← List.append_assoc]
        exact hcons
      · intro p hp
        rcases List.mem_append.mp hp with hp | hp
        · exact h.answers p hp
        · rw [List.mem_singleton.mp hp]

theorem ConnInv.validated_le {k : Conn} (h : ConnInv k) :
    k.validated.map Prod.fst <+: k.written :=
  isPrefix_of_flatMap_isPrefix WorkItem.length_toBytes (fun _ _ => WorkItem.toBytes_injective)
    h.cut_lt h.consumed_le

theorem reachable_connInv {s : State} (h : system.Reachable s) (c : ℕ) : ConnInv (s.conn c) :=
  reachable_conn True True (fun _ _ _ _ => trivial) (fun _ _ _ _ => trivial) ConnInv.fresh
    (fun _ _ hI hs => hI.step hs) h c

/-- A client sends one record, of which the first `n` bytes arrive before the server reads. -/
def sendOne (k : Cooked) (n : ℕ) : List Act :=
  [.connect 0, .write 0 k, .arrive 0 n, .epollWait [⟨3, true⟩], .handle (some 5),
   .epollWait [⟨5, true⟩], .handle none]

/-- The state in which the server is about to read. -/
def beforeRead (k : Cooked) (n : ℕ) : State where
  conn := Function.update (fun _ => .fresh) 0
    ⟨.accepted, [k.item], [], false, k.item.toBytes.drop n, false, k.item.toBytes.take n, []⟩
  fds := Function.update (fun _ => none) 5 (some 0)
  mSocket := 3
  backlog := []
  events := [⟨5, true⟩]
  witem := .new defaultName [] (Nat.zero_le _)

theorem exec_sendOne (k : Cooked) {n : ℕ} (hpos : 0 < n) (hle : n ≤ itemSize) :
    system.exec (start 3) (sendOne k n) = step (beforeRead k n) (.handle none) := by
  have hlen := k.item.length_toBytes
  have hne : k.item.toBytes.take n ≠ [] := by
    intro hnil
    have := congrArg List.length hnil
    rw [List.length_take, hlen, List.length_nil] at this
    omega
  unfold sendOne beforeRead
  simp [Lts.exec, system, step, start, Conn.writable, Conn.fresh, State.setConn, State.handle,
    State.accept, State.ready, maxEventsReceived, hpos, hlen, hle, hne]

theorem exec_sendOne_whole (k : Cooked) :
    system.exec (start 3) (sendOne k itemSize) =
      some ((State.recv { beforeRead k itemSize with events := [] } 0).validate 0) := by
  rw [exec_sendOne k (by decide) le_rfl]
  have hlen : itemSize ≤ (k.item.toBytes.take itemSize).length := by
    rw [List.length_take, k.item.length_toBytes, min_self]
  have hserve : State.serve { beforeRead k itemSize with events := [] } 5 = _ :=
    serve_of_le _ (c := 0) rfl hlen
  rw [← hserve]
  rfl

theorem exec_sendOne_short (k : Cooked) {n : ℕ} (hpos : 0 < n) (hlt : n < itemSize) :
    system.exec (start 3) (sendOne k n) =
      some ((State.recv { beforeRead k n with events := [] } 0).close 5 0) := by
  rw [exec_sendOne k hpos hlt.le]
  have hlen : (k.item.toBytes.take n).length < itemSize := by
    rw [List.length_take]
    omega
  have hserve : State.serve { beforeRead k n with events := [] } 5 = _ :=
    serve_of_lt _ (c := 0) rfl hlen
  rw [← hserve]
  rfl

/-- **Soundness of framing.**  In every run the buffers handed to `validate` for a connection
are the first records of its client, in order, each the whole slice of the client's stream at
its multiple of the record size, and `validate` accepts them. -/
theorem framing_sound {s : State} (h : system.Reachable s) (c : ℕ) :
    (s.conn c).validated.map Prod.fst <+: (s.conn c).written ∧
    ∀ i w ok, (s.conn c).validated[i]? = some (w, ok) → ok = true ∧
      w.toBytes = ((s.conn c).stream.drop (itemSize * i)).take itemSize := by
  have hI := reachable_connInv h c
  refine ⟨hI.validated_le, fun i w ok hi => ?_⟩
  have hw : ((s.conn c).validated.map Prod.fst)[i]? = some w := by
    rw [List.getElem?_map, hi]
    rfl
  obtain ⟨rest, hrest⟩ := hI.validated_le
  have hwritten : (s.conn c).written[i]? = some w := by
    obtain ⟨hlt, _⟩ := List.getElem?_eq_some_iff.mp hw
    rw [← hrest, List.getElem?_append_left hlt, hw]
  constructor
  · have hok : ok = w.validate := hI.answers _ (List.mem_of_getElem? hi)
    rw [hok]
    exact hI.written_valid w (List.mem_of_getElem? hwritten)
  · unfold Conn.stream
    rw [slice_flatMap WorkItem.length_toBytes hwritten]

/-- A round of the server that looks at one descriptor. -/
def oneEvent (fd : ℕ) (newFd : Option ℕ) : List Act := [.epollWait [⟨fd, true⟩], .handle newFd]

/-- Of two records of client 0 the server gets one and 100 bytes of the other, and closes; the
descriptor goes to client 1, whose record the object then receives. -/
def shortThenReused (k : Cooked) : List Act :=
  [.connect 0, .write 0 k, .write 0 k, .connect 1, .arrive 0 itemSize] ++
    oneEvent 3 (some 5) ++ oneEvent 5 none ++ [.write 1 k, .arrive 0 100] ++ oneEvent 5 none ++
    oneEvent 3 (some 5) ++ [.arrive 1 itemSize] ++ oneEvent 5 none

theorem framing_sound_shortThenReused : ∃ s, system.Reachable s ∧
    (s.conn 0).stage = .closed ∧ (s.conn 0).written.length = 2 ∧
    (s.conn 0).validated.length = 1 ∧ s.fds 5 = some 1 ∧ (s.conn 1).validated.length = 1 ∧
    ∀ c, (s.conn c).validated.map Prod.fst <+: (s.conn c).written := by
  have hrun : (system.exec (start 3) (shortThenReused ⟨[65], [66], by decide⟩)).map (fun s =>
      ((s.conn 0).stage, (s.conn 0).written.length, (s.conn 0).validated.length, s.fds 5,
        (s.conn 1).validated.length)) = some (.closed, 2, 1, some 1, 1) := by
    decide +kernel
  obtain ⟨s, hs, hend⟩ := Option.map_eq_some_iff.mp hrun
  simp only [Prod.mk.injEq] at hend
  obtain ⟨hclosed, hwritten, hone, hfd, hother⟩ := hend
  have hr : system.Reachable s := Lts.Reachable.exec (.of_init ⟨3, rfl⟩) hs
  exact ⟨s, hr, hclosed, hwritten, hone, hfd, hother, fun c => (framing_sound hr c).1⟩

/-! ### Completeness -/

/-- What the server owes a connection: to close it only after its client, with every record
handed to `validate`, and to have handed over every record once nothing is left to read. -/
structure Complete (k : Conn) : Prop where
  closed : k.stage = .closed → k.clientClosed = true ∧ k.validated.map Prod.fst = k.written
  delivered : k.received = [] → k.inFlight = [] → k.validated.map Prod.fst = k.written

/-- A connection of a client that writes whole records, served by full reads only. -/
structure FullyRead (k : Conn) : Prop where
  uncut : k.cut = []
  conserved : k.consumed ++ k.received ++ k.inFlight = k.stream
  fin : k.fin = true → k.clientClosed = true ∧ k.inFlight = []
  closed : k.stage = .closed → k.fin = true ∧ k.received = []

theorem FullyRead.fresh : FullyRead .fresh where
  uncut := rfl
  conserved := rfl
  fin := by
    intro h
    cases h
  closed := by
    intro h
    cases h

theorem FullyRead.step {k k' : Conn} (h : FullyRead k) (hs : ConnStep False False k k') :
    FullyRead k' := by
  cases hs with
  | connect hst => exact { h with closed := fun hcl => by cases hcl }
  | write item ho =>
      refine { h with conserved := ?_, fin := fun hf => ?_ }
      · unfold Conn.stream
        rw [Conn.stream_append h.uncut, ← h.conserved]
        exact (List.append_assoc _ _ _).symm
      · have hcl := (h.fin hf).1
        rw [ho] at hcl
        cases hcl
  | cutOff hc => exact hc.elim
  | close ho => exact { h with fin := fun hf => ⟨rfl, (h.fin hf).2⟩ }
  | arrive n hst =>
      refine { h with
        conserved := conserved_arrive n h.conserved
        fin := fun hf => ⟨(h.fin hf).1, ?_⟩
        closed := fun hcl => absurd hcl hst }
      simp only [(h.fin hf).2, List.drop_nil]
  | finArrive hcl hi =>
      exact { h with
        fin := fun _ => ⟨hcl, hi⟩
        closed := fun hst => ⟨rfl, (h.closed hst).2⟩ }
  | accept hst => exact { h with closed := fun hcl => by cases hcl }
  | eof hst hr hf =>
      refine { h with conserved := ?_, closed := fun _ => ⟨hf, ?_⟩ }
      · have hcons := h.conserved
        rw [hr] at hcons
        simp only [hr, List.drop_nil]
        exact hcons
      · simp only [hr, List.drop_nil]
  | short hs => exact hs.elim
  | whole hst hn w hw =>
      refine { h with conserved := ?_, closed := fun hcl => ?_ }
      · unfold Conn.consumed
        rw [Conn.consumed_append]
        exact conserved_whole hw h.conserved
      · rw [hst] at hcl
        cases hcl

theorem FullyRead.complete {k : Conn} (h : FullyRead k) : Complete k := by
  have hall : k.received = [] → k.inFlight = [] → k.validated.map Prod.fst = k.written := by
    intro hr hi
    have hcons := h.conserved
    unfold Conn.stream at hcons
    rw [hr, hi, h.uncut, List.append_nil, List.append_nil, List.append_nil] at hcons
    exact eq_of_flatMap_eq WorkItem.length_toBytes (fun _ _ => WorkItem.toBytes_injective)
      (by decide) hcons
  refine ⟨fun hst => ?_, hall⟩
  obtain ⟨hf, hr⟩ := h.closed hst
  exact ⟨(h.fin hf).1, hall hr (h.fin hf).2⟩

/-! ### A short read loses a record -/

/-- The server has closed the connection with records outstanding. -/
structure Lost (k : Conn) : Prop where
  closed : k.stage = .closed
  missing : k.validated.length < k.written.length

theorem Lost.step {k k' : Conn} {cutOff short : Prop} (h : Lost k)
    (hs : ConnStep cutOff short k k') : Lost k' := by
  have hcl := h.closed
  cases hs with
  | connect hst | accept hst | eof hst | short hs hst | whole hst =>
      rw [hcl] at hst
      cases hst
  | write item ho =>
      refine ⟨hcl, ?_⟩
      rw [List.length_append]
      exact Nat.lt_add_right _ h.missing
  | cutOff | close | finArrive => exact ⟨hcl, h.missing⟩
  | arrive n hst => exact absurd hcl hst

theorem Lost.exec {s s' : State} (hr : system.Reachable s) {c : ℕ} (h : Lost (s.conn c))
    {ls : List Act} (he : system.exec s ls = some s') : Lost (s'.conn c) := by
  induction ls generalizing s with
  | nil =>
      rw [Lts.exec_nil] at he
      cases he
      exact h
  | cons a ls ih =>
      rw [Lts.exec_cons] at he
      obtain ⟨s₁, hs, he⟩ := Option.bind_eq_some_iff.mp he
      refine ih (hr.next hs) ?_ he
      rcases (step_spec (reachable_wired hr) hs).2 c with heq | hc
      · rw [heq]
        exact h
      · exact h.step hc

theorem Lost.not_complete {k : Conn} (h : Lost k) : ¬ Complete k := by
  intro hc
  have hlen := congrArg List.length (hc.closed h.closed).2
  rw [List.length_map] at hlen
  have := h.missing
  omega

/-- A read that finds a part of a record closes the connection with that record outstanding. -/
theorem lost_of_short {s s' : State}
    (h : system.ReachableBy (fun _ a => WholeRecords a) s) {newFd : Option ℕ}
    (hs : step s (.handle newFd) = some s') (hshort : ¬ FullRead s (.handle newFd)) :
    ∃ c, (s.conn c).stage = .accepted ∧ Lost (s'.conn c) := by
  have hW := reachable_wired h.reachable
  unfold FullRead at hshort
  cases he : s.events with
  | nil => simp only [he, not_true_eq_false] at hshort
  | cons e es =>
      simp only [he] at hshort
      push Not at hshort
      obtain ⟨hne, hin, c, hfd, hnil, hlt⟩ := hshort
      refine ⟨c, hW.accepted _ _ hfd, ?_⟩
      have hs' : s' = State.serve { s with events := es } e.fd := by
        simp only [step, State.handle, he, if_neg hne, hin, if_true] at hs
        exact (Option.some.inj hs).symm
      rw [hs', serve_of_lt { s with events := es } hfd hlt, recv_close]
      refine ⟨by simp only [Function.update_self], ?_⟩
      simp only [Function.update_self]
      have hcons := (reachable_connInv h.reachable c).conserved
        (by rw [hW.accepted _ _ hfd]; decide)
      have huncut : (s.conn c).cut = [] :=
        reachable_conn (I := fun k => k.cut = []) False True
          (fun _ _ hw hc => hc hw) (fun _ _ _ _ => trivial) rfl
          (fun k k' hk hstep => by cases hstep <;> first | exact hk | contradiction) h c
      have hlen := congrArg List.length hcons
      unfold Conn.stream Conn.consumed at hlen
      rw [huncut, List.append_nil, List.length_append, List.length_append,
        length_flatMap_of_size WorkItem.length_toBytes,
        length_flatMap_of_size WorkItem.length_toBytes, List.length_map] at hlen
      have hpos := List.length_pos_iff.mpr hnil
      by_contra hge
      have := Nat.mul_le_mul_left itemSize (Nat.le_of_not_lt hge)
      omega

/-- **Completeness of framing.**  When clients write whole records and every read finds a whole
record or nothing, the server closes a connection only after its client and hands every record
to `validate`.  A read that finds a part of a record loses that record in every continuation. -/
theorem framing_complete (s : State) :
    (system.ReachableBy (fun s a => WholeRecords a ∧ FullRead s a) s →
      ∀ c, Complete (s.conn c)) ∧
    (system.ReachableBy (fun _ a => WholeRecords a) s →
      ∀ newFd s', step s (.handle newFd) = some s' → ¬ FullRead s (.handle newFd) →
      ∃ c, (s.conn c).stage = .accepted ∧ ∀ ls s'', system.exec s' ls = some s'' →
        (s''.conn c).stage = .closed ∧ ¬ Complete (s''.conn c)) := by
  refine ⟨fun h c => ?_, fun h newFd s' hs hshort => ?_⟩
  · have hfull := reachable_conn (I := FullyRead) False False
      (fun _ _ hφ hc => hc hφ.1) (fun _ _ hφ hf => hf hφ.2) FullyRead.fresh
      (fun _ _ hk hstep => hk.step hstep) h c
    exact hfull.complete
  · obtain ⟨c, hst, hlost⟩ := lost_of_short h hs hshort
    refine ⟨c, hst, fun ls s'' he => ?_⟩
    have hl := hlost.exec (h.reachable.next (l := .handle newFd) hs) he
    exact ⟨hl.closed, hl.not_complete⟩

/-- The first 100 bytes of a record arrive, the server reads, and closes the connection of a
client that has not closed. -/
theorem record_lost :
    (∃ s, system.exec (start 3) (sendOne ⟨[65], [66], by decide⟩ 100) = some s ∧
      (s.conn 0).stage = .closed ∧ (s.conn 0).clientClosed = false ∧
      (s.conn 0).validated = [] ∧ (s.conn 0).written.length = 1) ∧
    ¬ ∀ s, system.ReachableBy (fun _ a => WholeRecords a) s → ∀ c, Complete (s.conn c) := by
  have hrun := exec_sendOne_short ⟨[65], [66], by decide⟩ (n := 100) (by decide) (by decide)
  refine ⟨⟨_, hrun, rfl, rfl, rfl, rfl⟩, fun hall => ?_⟩
  have hr := Lts.ReachableBy.exec (M := system) (φ := fun _ a => WholeRecords a) (.init ⟨3, rfl⟩)
    (by simp [sendOne, WholeRecords]) hrun
  have hclosed := ((hall _ hr 0).closed rfl).1
  cases hclosed

end LinuxProgramming.ClientServer
