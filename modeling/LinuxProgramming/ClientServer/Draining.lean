import LinuxProgramming.ClientServer.Framing
import LinuxProgramming.ClientServer.Progress
import LinuxProgramming.Countdown

/-! # The server catches up with its clients

Nothing holds the network and the server up before their work is done: descriptors, backlog and
events account for every connection (`Accounted`), so a useful step is enabled until nothing is
left that could arrive, be accepted or be read (`Drained`).  However these steps are interleaved,
that is where they end (`catches_up`); and as long as reads find whole records, everything that the
clients have written has then been read (`all_read`). -/

namespace LinuxProgramming.ClientServer

/-! ### Nobody is forgotten -/

/-- Every connection that the server has still to look at can be reported to it. -/
structure Accounted (s : State) : Prop where
  queued : ∀ c, (s.conn c).stage = .queued → c ∈ s.backlog
  accepted : ∀ c, (s.conn c).stage = .accepted → ∃ fd, s.fds fd = some c
  listening : ∀ e ∈ s.events, e.fd = s.mSocket → s.backlog ≠ []

/-- A stage that a changed connection does not have is that of another connection. -/
theorem stage_of_update {f : ℕ → Conn} {c c' : ℕ} {k : Conn} {stage : Stage}
    (h : (Function.update f c k c').stage = stage) (hk : k.stage ≠ stage) :
    c' ≠ c ∧ (f c').stage = stage := by
  have hne : c' ≠ c := by
    rintro rfl
    rw [Function.update_self] at h
    exact hk h
  rw [Function.update_of_ne hne] at h
  exact ⟨hne, h⟩

namespace Accounted
variable {s s' : State}

theorem start (mSocket : ℕ) : Accounted (ClientServer.start mSocket) where
  queued := by
    intro c h
    cases h
  accepted := by
    intro c h
    cases h
  listening := by
    intro e h
    cases h

theorem setConn (h : Accounted s) {c : ℕ} {k : Conn} (hstage : k.stage = (s.conn c).stage) :
    Accounted (s.setConn c k) where
  queued c' hc' := h.queued c' ((Wired.stage_update hstage c').symm.trans hc')
  accepted c' hc' := h.accepted c' ((Wired.stage_update hstage c').symm.trans hc')
  listening := h.listening

theorem connect (h : Accounted s) (c : ℕ) :
    Accounted { s with
      conn := Function.update s.conn c { s.conn c with stage := .queued }
      backlog := s.backlog ++ [c] } where
  queued := by
    intro c' hc'
    by_cases hcc : c' = c
    · rw [hcc]
      exact List.mem_append_right _ List.mem_cons_self
    · simp only [Function.update_of_ne hcc] at hc'
      exact List.mem_append_left _ (h.queued c' hc')
  accepted c' hc' := h.accepted c' (stage_of_update hc' (by simp)).2
  listening _ _ _ := List.append_ne_nil_of_right_ne_nil _ (List.cons_ne_nil c [])

theorem epollWait (h : Accounted s) {es : List Event} (hready : es.all s.ready = true) :
    Accounted { s with events := es } where
  queued := h.queued
  accepted := h.accepted
  listening := by
    intro e he hlisten hnil
    have hr := List.all_eq_true.mp hready e he
    have hlisten : e.fd = s.mSocket := hlisten
    have hnil : s.backlog = [] := hnil
    simp [State.ready, hlisten, hnil] at hr

theorem tail (h : Accounted s) {e : Event} {es : List Event} (he : s.events = e :: es) :
    Accounted { s with events := es } where
  queued := h.queued
  accepted := h.accepted
  listening e' he' := h.listening e' (he ▸ List.mem_cons_of_mem e he')

/-- The connection behind an open descriptor is served. -/
theorem serve (h : Accounted s) (hW : Wired s) {fd c : ℕ} (hfd : s.fds fd = some c) :
    Accounted (s.serve fd) := by
  have hst := hW.accepted fd c hfd
  rcases Nat.lt_or_ge (s.conn c).received.length itemSize with hlt | hle
  · rw [serve_of_lt s hfd hlt, recv_close]
    refine ⟨fun c' hc' => ?_, fun c' hc' => ?_, h.listening⟩
    · exact h.queued c' (stage_of_update hc' (by simp)).2
    · obtain ⟨hcc, hc'⟩ := stage_of_update hc' (by simp)
      obtain ⟨fd', hfd'⟩ := h.accepted c' hc'
      have hne : fd' ≠ fd := by
        rintro rfl
        rw [hfd, Option.some.injEq] at hfd'
        exact hcc hfd'.symm
      exact ⟨fd', by simpa only [Function.update_of_ne hne] using hfd'⟩
  · rw [serve_of_le s hfd hle, recv_validate]
    exact { h.setConn (c := c) (k := { s.conn c with
      received := (s.conn c).received.drop itemSize
      validated := _ }) rfl with }

/-- The first connection of the backlog gets a descriptor that was not in use. -/
theorem accept (h : Accounted s) {c : ℕ} {cs : List ℕ} (hb : s.backlog = c :: cs) {newFd : ℕ}
    (hfree : s.fds newFd = none) (hlisten : ∀ e ∈ s.events, e.fd ≠ s.mSocket) :
    Accounted { s with
      conn := Function.update s.conn c { s.conn c with stage := .accepted }
      fds := Function.update s.fds newFd (some c)
      backlog := cs } where
  queued := by
    intro c' hc'
    obtain ⟨hcc, hc'⟩ := stage_of_update hc' (by simp)
    have hmem := h.queued c' hc'
    rw [hb] at hmem
    exact (List.mem_cons.mp hmem).resolve_left hcc
  accepted := by
    intro c' hc'
    by_cases hcc : c' = c
    · exact ⟨newFd, by simp only [hcc, Function.update_self]⟩
    · simp only [Function.update_of_ne hcc] at hc'
      obtain ⟨fd, hfd⟩ := h.accepted c' hc'
      have hne : fd ≠ newFd := by
        rintro rfl
        rw [hfree] at hfd
        cases hfd
      exact ⟨fd, by simpa only [Function.update_of_ne hne] using hfd⟩
  listening e he hfd := absurd hfd (hlisten e he)

theorem handle (h : Accounted s) (hW : Wired s) {newFd : Option ℕ}
    (hs : s.handle newFd = some s') : Accounted s' := by
  unfold State.handle at hs
  cases he : s.events with
  | nil =>
      rw [he] at hs
      cases hs
  | cons e es =>
      rw [he] at hs
      simp only at hs
      have htail := h.tail he
      have hWtail := hW.tail he
      by_cases hlisten : e.fd = s.mSocket
      · rw [if_pos hlisten] at hs
        unfold State.accept at hs
        cases newFd with
        | none =>
            cases hs
            exact htail
        | some fd =>
            cases hb : s.backlog with
            | nil => simp only [hb, reduceCtorEq] at hs
            | cons c cs =>
                simp only [hb] at hs
                split at hs
                · next hfree =>
                    cases hs
                    refine htail.accept hb hfree.1 fun e' he' hfd => ?_
                    have hnodup := hW.events_nodup
                    rw [he, List.map_cons, List.nodup_cons] at hnodup
                    exact hnodup.1 (hlisten ▸ hfd ▸ List.mem_map_of_mem he')
                · cases hs
      · rw [if_neg hlisten] at hs
        split at hs
        · cases hs
          obtain ⟨c, hfd, -⟩ := hW.events_ready e (by rw [he]; exact List.mem_cons_self) hlisten
          exact htail.serve hWtail hfd
        · cases hs
          exact htail

theorem step (h : Accounted s) (hW : Wired s) {a : Act} (hs : step s a = some s') :
    Accounted s' := by
  cases a with
  | connect c =>
      obtain ⟨-, hs⟩ := Option.ite_none_right_eq_some.mp hs
      cases hs
      exact h.connect c
  | write | cutOff | close | arrive | finArrive =>
      obtain ⟨-, hs⟩ := Option.ite_none_right_eq_some.mp hs
      cases hs
      exact h.setConn rfl
  | epollWait es =>
      obtain ⟨hes, hs⟩ := Option.ite_none_right_eq_some.mp hs
      cases hs
      exact h.epollWait hes.2.2.2
  | handle newFd => exact h.handle hW hs

end Accounted

theorem reachable_accounted {s : State} (h : system.Reachable s) : Accounted s := by
  refine h.invariant' ?_ fun s a s' hr hA hs => hA.step (reachable_wired hr) hs
  rintro s ⟨mSocket, rfl⟩
  exact Accounted.start mSocket

/-- Before its client connects a connection is fresh, and its stream ends after its client. -/
structure Begun (k : Conn) : Prop where
  absent : k.stage = .absent → k = .fresh
  fin : k.fin = true → k.clientClosed = true

theorem Begun.step {k k' : Conn} {a : ConnAct} (h : Begun k) (hs : k.step a = some k') :
    Begun k' := by
  have hpresent : k.writable = true → k.stage ≠ .absent := by
    intro hw
    simpa using (Bool.and_eq_true_iff.mp hw).1
  cases a with
  | connect | accept =>
      obtain ⟨-, hs⟩ := Option.ite_none_right_eq_some.mp hs
      cases hs
      exact { h with absent := fun hst => by cases hst }
  | write item =>
      obtain ⟨hw, hs⟩ := Option.ite_none_right_eq_some.mp hs
      cases hs
      exact { h with absent := fun hst => absurd hst (hpresent hw) }
  | cutOff item n =>
      obtain ⟨hw, hs⟩ := Option.ite_none_right_eq_some.mp hs
      cases hs
      exact ⟨fun hst => absurd hst (hpresent hw.1), fun _ => rfl⟩
  | close =>
      obtain ⟨hw, hs⟩ := Option.ite_none_right_eq_some.mp hs
      cases hs
      exact ⟨fun hst => absurd hst (hpresent hw), fun _ => rfl⟩
  | arrive n =>
      obtain ⟨hn, hs⟩ := Option.ite_none_right_eq_some.mp hs
      cases hs
      refine { h with absent := fun hst => ?_ }
      have hlen := hn.2.1
      rw [h.absent hst] at hlen
      exact absurd hn.1 (Nat.not_lt_of_le hlen)
  | finArrive =>
      obtain ⟨hf, hs⟩ := Option.ite_none_right_eq_some.mp hs
      cases hs
      refine ⟨fun hst => ?_, fun _ => hf.1⟩
      have hcl := hf.1
      rw [h.absent hst] at hcl
      cases hcl
  | recv =>
      obtain ⟨hready, hs⟩ := Option.ite_none_right_eq_some.mp hs
      cases hs
      unfold Conn.recv
      cases k.wholeRecord with
      | none => exact { h with absent := fun hst => by cases hst }
      | some w =>
          refine { h with absent := fun hst => ?_ }
          rw [hready.1] at hst
          cases hst

theorem reachable_begun {s : State} (h : system.Reachable s) (c : ℕ) : Begun (s.conn c) := by
  refine h.invariant' (I := fun s => Begun (s.conn c)) ?_ ?_
  · rintro s ⟨mSocket, rfl⟩
    exact ⟨fun _ => rfl, fun hf => by cases hf⟩
  · intro s a s' hr hB hs
    rcases conn_cases (reachable_wired hr) hs c with ⟨-, heq⟩ | ⟨b, -, hstep⟩
    · rw [heq]
      exact hB
    · exact hB.step hstep

/-- A descriptor is always free: the open ones belong to different connections. -/
theorem exists_free {s : State} (h : system.Reachable s) :
    ∃ fd, s.fds fd = none ∧ fd ≠ s.mSocket := by
  have hW := reachable_wired h
  obtain ⟨N, hN⟩ := exists_fresh h
  have hmaps : Set.MapsTo (fun fd => (s.fds fd).getD 0) {fd | s.fds fd ≠ none} (Set.Iio N) := by
    intro fd hfd
    obtain ⟨c, hc⟩ := Option.ne_none_iff_exists'.mp hfd
    simp only [hc, Option.getD_some, Set.mem_Iio]
    by_contra hge
    have hst := hW.accepted fd c hc
    rw [hN c (by omega)] at hst
    cases hst
  have hinj : Set.InjOn (fun fd => (s.fds fd).getD 0) {fd | s.fds fd ≠ none} := by
    intro fd hfd fd' hfd' heq
    obtain ⟨c, hc⟩ := Option.ne_none_iff_exists'.mp hfd
    obtain ⟨c', hc'⟩ := Option.ne_none_iff_exists'.mp hfd'
    simp only [hc, hc', Option.getD_some] at heq
    exact hW.inj fd fd' c hc (heq ▸ hc')
  have hfinite := Set.Finite.of_injOn hmaps hinj (Set.finite_Iio N)
  obtain ⟨fd, -, hfd⟩ := Set.infinite_univ.exists_notMem_finite (hfinite.insert s.mSocket)
  simp only [Set.mem_insert_iff, Set.mem_ofPred_eq, not_or, not_not] at hfd
  exact ⟨fd, hfd.2, hfd.1⟩

/-! ### The drained server -/

/-- The server and the network have nothing left to do. -/
structure Drained (s : State) : Prop where
  events : s.events = []
  backlog : s.backlog = []
  absorbed : ∀ c, (s.conn c).stage ≠ .closed →
    (s.conn c).inFlight = [] ∧ (s.conn c).received = []
  ended : ∀ c, (s.conn c).clientClosed = true → (s.conn c).stage = .closed

section drained
variable {s : State}

theorem Drained.blocked (hd : Drained s) (h : system.Reachable s) {a : Act} (hu : Useful s a) :
    step s a = none := by
  have hW := reachable_wired h
  cases hs : step s a with
  | none => rfl
  | some s' =>
      exfalso
      cases a with
      | connect | write | cutOff | close => exact hu
      | arrive c n =>
          obtain ⟨⟨hpos, hle, hst⟩, -⟩ := Option.ite_none_right_eq_some.mp hs
          rw [(hd.absorbed c hst).1] at hle
          exact absurd hpos (Nat.not_lt_of_le hle)
      | finArrive c =>
          obtain ⟨⟨hcl, -⟩, -⟩ := Option.ite_none_right_eq_some.mp hs
          exact hu.2 (hd.ended c hcl)
      | epollWait es =>
          obtain ⟨⟨-, -, -, hready⟩, -⟩ := Option.ite_none_right_eq_some.mp hs
          obtain ⟨e, he, hinput⟩ := List.any_eq_true.mp hu
          have hr := List.all_eq_true.mp hready e he
          unfold State.ready at hr
          by_cases hlisten : e.fd = s.mSocket
          · rw [if_pos hlisten, hd.backlog] at hr
            cases hr
          · rw [if_neg hlisten] at hr
            have hin : e.epollin = true := by simpa [State.input, hlisten] using hinput
            cases hfd : s.fds e.fd with
            | none => simp [hfd] at hr
            | some c =>
                have hst := hW.accepted e.fd c hfd
                have hopen : (s.conn c).stage ≠ .closed := by simp [hst]
                have hfin : (s.conn c).fin = true := by
                  simpa [hfd, hin, (hd.absorbed c hopen).2] using hr
                exact hopen (hd.ended c ((reachable_begun h c).fin hfin))
      | handle newFd =>
          have hhandle : s.handle newFd = some s' := hs
          unfold State.handle at hhandle
          rw [hd.events] at hhandle
          cases hhandle

/-- The call of `epoll_wait` that reports one descriptor. -/
theorem not_ready_of_blocked (hblocked : ∀ a, Useful s a → step s a = none)
    (hevents : s.events = []) {e : Event} (hinput : s.input e = true) : s.ready e = false := by
  by_contra hready
  have hnone := hblocked (.epollWait [e]) (by simp [Useful, hinput])
  simp [step, hevents, maxEventsReceived, hready] at hnone

theorem events_of_blocked (h : system.Reachable s)
    (hblocked : ∀ a, Useful s a → step s a = none) : s.events = [] := by
  cases he : s.events with
  | nil => rfl
  | cons e es =>
      exfalso
      obtain ⟨fd, hfree, hne⟩ := exists_free h
      have hnone : s.handle (some fd) = none :=
        hblocked (.handle (some fd)) fun _ _ _ _ => rfl
      unfold State.handle at hnone
      simp only [he] at hnone
      by_cases hlisten : e.fd = s.mSocket
      · have hbacklog := (reachable_accounted h).listening e (by rw [he]; exact List.mem_cons_self)
          hlisten
        obtain ⟨c, cs, hb⟩ := List.exists_cons_of_ne_nil hbacklog
        simp [hlisten, State.accept, hb, hfree, hne] at hnone
      · rw [if_neg hlisten] at hnone
        split at hnone <;> cases hnone

theorem Drained.of_blocked (h : system.Reachable s)
    (hblocked : ∀ a, Useful s a → step s a = none) : Drained s := by
  have hevents := events_of_blocked h hblocked
  have hA := reachable_accounted h
  have hready : ∀ e, s.input e = true → s.ready e = false :=
    fun e => not_ready_of_blocked hblocked hevents
  have hbacklog : s.backlog = [] := by
    have hr := hready ⟨s.mSocket, true⟩ (by simp [State.input])
    simpa [State.ready] using hr
  have hflight : ∀ c, (s.conn c).stage ≠ .closed → (s.conn c).inFlight = [] := by
    intro c hst
    by_contra hne
    have hnone := hblocked (.arrive c 1) trivial
    simp [step, hst, Nat.succ_le_iff, List.length_pos_iff.mpr hne] at hnone
  -- an accepted connection has nothing to read, not even the end of its stream
  have hread : ∀ c, (s.conn c).stage = .accepted →
      (s.conn c).received = [] ∧ (s.conn c).fin = false := by
    intro c hst
    obtain ⟨fd, hfd⟩ := hA.accepted c hst
    have hne : fd ≠ s.mSocket := by
      rintro rfl
      rw [(reachable_wired h).listening] at hfd
      cases hfd
    have hr := hready ⟨fd, true⟩ (by simp [State.input])
    simpa [State.ready, hne, hfd] using hr
  have hopen : ∀ c, (s.conn c).stage ≠ .closed →
      (s.conn c).received = [] ∧ (s.conn c).fin = false := by
    intro c hst
    cases hstage : (s.conn c).stage with
    | absent =>
        rw [(reachable_begun h c).absent hstage]
        exact ⟨rfl, rfl⟩
    | queued =>
        have hmem := hA.queued c hstage
        rw [hbacklog] at hmem
        cases hmem
    | accepted => exact hread c hstage
    | closed => exact absurd hstage hst
  refine ⟨hevents, hbacklog, fun c hst => ⟨hflight c hst, (hopen c hst).1⟩, fun c hcl => ?_⟩
  by_contra hst
  have hnone := hblocked (.finArrive c) ⟨(hopen c hst).2, hst⟩
  simp [step, hcl, hflight c hst] at hnone

end drained

/-! ### The server catches up -/

/-- What useful steps keep and lower. -/
structure Settling (N : ℕ) (s : State) : Prop where
  reachable : system.Reachable s
  fresh : ∀ c, N ≤ c → s.conn c = .fresh

theorem Settling.step {N : ℕ} {s s' : State} {a : Act} (h : Settling N s) (hu : Useful s a)
    (hs : step s a = some s') : Settling N s' where
  reachable := h.reachable.next (l := a) hs
  fresh c hc :=
    fresh_of_ne_connect (reachable_wired h.reachable) hs (h.fresh c hc) (hu.ne_connect c)

/-- **The server catches up.**  From every reachable state, while the clients do nothing, the steps
of the network and the server that get on with what there is are bounded in number in whatever order
they are taken, and they stop only where the server is drained. -/
theorem catches_up {s : State} (h : system.Reachable s) : ∃ bound, ∀ acts s',
    system.exec s acts = some s' → system.Along Useful s acts →
    acts.length ≤ bound ∧ (Drained s' ↔ ∀ a, Useful s' a → step s' a = none) := by
  obtain ⟨N, hN⟩ := exists_fresh h
  refine ⟨s.remaining N, fun acts s' he halong => ⟨?_, ?_⟩⟩
  · have hlen := halong.length_add_le (I := Settling N) (μ := fun s => s.remaining N)
      (fun _ _ _ hI hu hs => hI.step hu hs)
      (fun _ _ _ hI hu hs => hu.remaining_lt (reachable_wired hI.reachable) hI.fresh hs)
      ⟨h, hN⟩ he
    omega
  · have hr : system.Reachable s' := h.exec he
    exact ⟨fun hd a hu => hd.blocked hr hu, Drained.of_blocked hr⟩

/-- A client has connected and written one record. -/
def writeOne (k : Cooked) : List Act := [.connect 0, .write 0 k]

theorem exec_writeOne (k : Cooked) : ∃ s, system.exec (start 3) (writeOne k) = some s ∧
    (s.conn 0).written = [k.item] ∧ (s.conn 0).validated = [] := ⟨_, rfl, rfl, rfl⟩

theorem catches_up_writeOne : ∃ s,
    system.exec (start 3) (writeOne ⟨[65], [66], by decide⟩) = some s ∧
    (s.conn 0).written.length = 1 ∧ ∃ bound, ∀ acts s', system.exec s acts = some s' →
      system.Along Useful s acts →
      acts.length ≤ bound ∧ (Drained s' ↔ ∀ a, Useful s' a → step s' a = none) := by
  obtain ⟨s, hs, hwritten, -⟩ := exec_writeOne ⟨[65], [66], by decide⟩
  have hr : system.Reachable s := Lts.Reachable.exec (.of_init ⟨3, rfl⟩) hs
  exact ⟨s, hs, by rw [hwritten]; rfl, catches_up hr⟩

/-! ### Without a short read everything is read -/

/-- Every record has been handed to `validate`, and the connection is closed if its client has. -/
def Conn.Finished (k : Conn) : Prop :=
  k.validated.map Prod.fst = k.written ∧ (k.stage = .closed ↔ k.clientClosed = true)

theorem FullyRead.received_whole {k : Conn} (h : FullyRead k) (hflight : k.inFlight = []) :
    k.received = [] ∨ itemSize ≤ k.received.length := by
  have hcons := congrArg List.length h.conserved
  unfold Conn.stream Conn.consumed at hcons
  rw [hflight, h.uncut, List.append_nil, List.append_nil, List.length_append,
    length_flatMap_of_size WorkItem.length_toBytes,
    length_flatMap_of_size WorkItem.length_toBytes, List.length_map] at hcons
  rcases Nat.lt_or_ge k.validated.length k.written.length with hlt | hle
  · right
    have hmul := Nat.mul_le_mul_left itemSize hlt
    rw [Nat.mul_succ] at hmul
    omega
  · left
    have hmul := Nat.mul_le_mul_left itemSize hle
    exact List.length_eq_zero_iff.mp (by omega)

theorem reachable_fullyRead {s : State}
    (h : system.ReachableBy (fun s a => WholeRecords a ∧ FullRead s a) s) (c : ℕ) :
    FullyRead (s.conn c) :=
  reachable_conn False False (fun _ _ hφ hc => hc hφ.1) (fun _ _ hφ hf => hf hφ.2)
    FullyRead.fresh (fun _ _ hk hstep => hk.step hstep) h c

theorem Useful.wholeRecords {s : State} {a : Act} (hu : Useful s a) : WholeRecords a := by
  cases a with
  | cutOff => exact hu.elim
  | connect | write | close | arrive | finArrive | epollWait | handle => trivial

/-- When the bytes of the open connections have arrived, no read finds a part of a record. -/
theorem fullRead_of_absorbed {s : State} (hW : Wired s) (hfull : ∀ c, FullyRead (s.conn c))
    (hflight : ∀ c, (s.conn c).stage ≠ .closed → (s.conn c).inFlight = []) (a : Act) :
    FullRead s a := by
  cases a with
  | handle newFd =>
      cases he : s.events with
      | nil => simp only [FullRead, he]
      | cons e es =>
          simp only [FullRead, he]
          intro _ _ c hfd
          have hst := hW.accepted _ c hfd
          exact (hfull c).received_whole (hflight c (by simp [hst]))
  | connect | write | cutOff | close | arrive | finArrive | epollWait => trivial

/-- Where no full read gets on, nothing does: what can arrive could arrive first. -/
theorem Drained.of_fullRead {s : State}
    (h : system.ReachableBy (fun s a => WholeRecords a ∧ FullRead s a) s)
    (hblocked : ∀ a, Useful s a ∧ FullRead s a → step s a = none) : Drained s := by
  have hflight : ∀ c, (s.conn c).stage ≠ .closed → (s.conn c).inFlight = [] := by
    intro c hst
    by_contra hne
    have hnone := hblocked (.arrive c 1) ⟨trivial, trivial⟩
    simp [step, hst, Nat.succ_le_iff, List.length_pos_iff.mpr hne] at hnone
  exact .of_blocked h.reachable fun a hu => hblocked a
    ⟨hu, fullRead_of_absorbed (reachable_wired h.reachable) (reachable_fullyRead h) hflight a⟩

theorem Drained.finished {s : State} (hd : Drained s) {c : ℕ} (hk : FullyRead (s.conn c)) :
    (s.conn c).Finished := by
  by_cases hst : (s.conn c).stage = .closed
  · obtain ⟨hcl, hall⟩ := hk.complete.closed hst
    exact ⟨hall, fun _ => hcl, fun _ => hst⟩
  · obtain ⟨hflight, hreceived⟩ := hd.absorbed c hst
    exact ⟨hk.complete.delivered hreceived hflight, fun h => absurd h hst, hd.ended c⟩

/-- **Everything is read.**  After a run in which the clients write whole records and every read
finds a whole record or nothing, the network and the server can go on like this until the server is
drained, and whenever they have gone on like this and it is drained, every record that has been
written has been handed to `validate` and exactly the connections of the clients that have closed
are closed. -/
theorem all_read {s : State}
    (h : system.ReachableBy (fun s a => WholeRecords a ∧ FullRead s a) s) :
    (∃ acts s', system.exec s acts = some s' ∧
      system.Along (fun s a => Useful s a ∧ FullRead s a) s acts ∧ Drained s') ∧
    ∀ acts s', system.exec s acts = some s' →
      system.Along (fun s a => Useful s a ∧ FullRead s a) s acts → Drained s' →
      ∀ c, (s'.conn c).Finished ∧ (s'.conn c).written = (s.conn c).written := by
  have hkeep : ∀ t a t', system.ReachableBy (fun s a => WholeRecords a ∧ FullRead s a) t →
      Useful t a ∧ FullRead t a → system.step t a = some t' →
      system.ReachableBy (fun s a => WholeRecords a ∧ FullRead s a) t' :=
    fun _ _ _ hr hφ hs => hr.step ⟨hφ.1.wholeRecords, hφ.2⟩ hs
  constructor
  · obtain ⟨N, hN⟩ := exists_fresh h.reachable
    obtain ⟨acts, s', he, halong, hblocked⟩ := Lts.exists_blocked (M := system)
      (I := Settling N) (φ := fun s a => Useful s a ∧ FullRead s a)
      (μ := fun s => s.remaining N)
      (fun _ _ _ hI hφ hs => hI.step hφ.1 hs)
      (fun _ _ _ hI hφ hs => hφ.1.remaining_lt (reachable_wired hI.reachable) hI.fresh hs)
      _ s ⟨h.reachable, hN⟩ rfl
    exact ⟨acts, s', he, halong, .of_fullRead (halong.invariant hkeep h he) hblocked⟩
  · intro acts s' he halong hd c
    refine ⟨hd.finished (reachable_fullyRead (halong.invariant hkeep h he) c), ?_⟩
    exact (halong.invariant
      (I := fun t => system.Reachable t ∧ (t.conn c).written = (s.conn c).written)
      (fun t a t' hI hφ hs => ⟨hI.1.next hs,
        (hφ.1.client_eq (reachable_wired hI.1) hs c).1.trans hI.2⟩)
      ⟨h.reachable, rfl⟩ he).2

theorem all_read_writeOne : ∃ s,
    system.exec (start 3) (writeOne ⟨[65], [66], by decide⟩) = some s ∧
    (s.conn 0).validated.length = 0 ∧ ∃ acts s', system.exec s acts = some s' ∧ Drained s' ∧
      (s'.conn 0).validated.length = 1 := by
  obtain ⟨s, hs, hwritten, hvalidated⟩ := exec_writeOne ⟨[65], [66], by decide⟩
  have hr : system.ReachableBy (fun s a => WholeRecords a ∧ FullRead s a) s :=
    Lts.ReachableBy.exec (.init ⟨3, rfl⟩) (by simp [writeOne, WholeRecords, FullRead]) hs
  obtain ⟨⟨acts, s', he, halong, hd⟩, hall⟩ := all_read hr
  obtain ⟨hfinished, heq⟩ := hall acts s' he halong hd 0
  refine ⟨s, hs, by rw [hvalidated]; rfl, acts, s', he, hd, ?_⟩
  have hlen := congrArg List.length hfinished.1
  rw [List.length_map, heq, hwritten] at hlen
  exact hlen

end LinuxProgramming.ClientServer
