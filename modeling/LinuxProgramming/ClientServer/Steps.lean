import LinuxProgramming.ClientServer.Model

/-! # What one step does to one connection

`Wired` is the bookkeeping of the loop: descriptors and open connections correspond, and every
event still to be looked at stands for a descriptor that is open and ready, however many
descriptors were closed and reused since `epoll_wait` returned.  `step_conn` then says what a
step can do to a connection, in the connection's own terms (`ConnStep`); the two laws of framing
are read off it. -/

namespace LinuxProgramming.ClientServer

/-- The client writes whole records only. -/
def WholeRecords : Act → Prop
  | .cutOff _ _ _ => False
  | _ => True

/-- A step that receives finds a whole record, or nothing at all. -/
def FullRead (s : State) : Act → Prop
  | .handle _ =>
      match s.events with
      | [] => True
      | e :: _ => e.fd ≠ s.mSocket → e.epollin = true → ∀ c, s.fds e.fd = some c →
          (s.conn c).received = [] ∨ itemSize ≤ (s.conn c).received.length
  | _ => True

/-- What a step does to the connection that it touches; `cutOff` says whether a client may die
within a record, `short` whether a receive may find a part of one. -/
inductive ConnStep (cutOff short : Prop) (k : Conn) : Conn → Prop
  | connect (h : k.stage = .absent) : ConnStep cutOff short k { k with stage := .queued }
  | write (item : Cooked) (h : k.clientClosed = false) :
      ConnStep cutOff short k { k with
        written := k.written ++ [item.item]
        inFlight := k.inFlight ++ item.item.toBytes }
  | cutOff (hc : cutOff) (item : Cooked) (n : ℕ) (h : k.clientClosed = false)
      (hn : n < itemSize) :
      ConnStep cutOff short k { k with
        cut := item.item.toBytes.take n
        inFlight := k.inFlight ++ item.item.toBytes.take n
        clientClosed := true }
  | close (h : k.clientClosed = false) : ConnStep cutOff short k { k with clientClosed := true }
  | arrive (n : ℕ) (h : k.stage ≠ .closed) :
      ConnStep cutOff short k { k with
        inFlight := k.inFlight.drop n
        received := k.received ++ k.inFlight.take n }
  | finArrive (h : k.clientClosed = true) (hi : k.inFlight = []) :
      ConnStep cutOff short k { k with fin := true }
  | accept (h : k.stage = .queued) : ConnStep cutOff short k { k with stage := .accepted }
  | eof (h : k.stage = .accepted) (hr : k.received = []) (hf : k.fin = true) :
      ConnStep cutOff short k { k with received := k.received.drop itemSize, stage := .closed }
  | short (hs : short) (h : k.stage = .accepted) (h0 : k.received ≠ [])
      (hn : k.received.length < itemSize) :
      ConnStep cutOff short k { k with received := k.received.drop itemSize, stage := .closed }
  | whole (h : k.stage = .accepted) (hn : itemSize ≤ k.received.length) (w : WorkItem)
      (hw : w.toBytes = k.received.take itemSize) :
      ConnStep cutOff short k { k with
        received := k.received.drop itemSize
        validated := k.validated ++ [(w, w.validate)] }

/-! ### Descriptors and events -/

/-- Descriptors name the accepted connections, and the remaining events are still ready. -/
structure Wired (s : State) : Prop where
  listening : s.fds s.mSocket = none
  accepted : ∀ fd c, s.fds fd = some c → (s.conn c).stage = .accepted
  inj : ∀ fd fd' c, s.fds fd = some c → s.fds fd' = some c → fd = fd'
  queued : ∀ c ∈ s.backlog, (s.conn c).stage = .queued
  backlog_nodup : s.backlog.Nodup
  events_nodup : (s.events.map Event.fd).Nodup
  events_ready : ∀ e ∈ s.events, e.fd ≠ s.mSocket → ∃ c, s.fds e.fd = some c ∧
    (e.epollin = true → (s.conn c).received ≠ [] ∨ (s.conn c).fin = true)

namespace Wired
variable {s : State}

theorem start (mSocket : ℕ) : Wired (ClientServer.start mSocket) where
  listening := rfl
  accepted := by
    intro fd c h
    cases h
  inj := by
    intro fd fd' c h
    cases h
  queued := by
    intro c h
    cases h
  backlog_nodup := List.nodup_nil
  events_nodup := List.nodup_nil
  events_ready := by
    intro e h
    cases h

/-- A change of one connection that keeps its stage keeps all stages. -/
theorem stage_update {f : ℕ → Conn} {c : ℕ} {k : Conn} (h : k.stage = (f c).stage) (c' : ℕ) :
    (Function.update f c k c').stage = (f c').stage := by
  by_cases hc : c' = c
  · rw [hc, Function.update_self, h]
  · rw [Function.update_of_ne hc]

/-- A change of one connection that keeps it ready keeps all ready. -/
theorem ready_update {f : ℕ → Conn} {c : ℕ} {k : Conn}
    (hreceived : (f c).received ≠ [] → k.received ≠ []) (hfin : (f c).fin = true → k.fin = true)
    {c' : ℕ} (h : (f c').received ≠ [] ∨ (f c').fin = true) :
    (Function.update f c k c').received ≠ [] ∨ (Function.update f c k c').fin = true := by
  by_cases hc : c' = c
  · subst hc
    rw [Function.update_self]
    exact h.imp hreceived hfin
  · rwa [Function.update_of_ne hc]

theorem ready_setStage {f : ℕ → Conn} (c : ℕ) (stage : Stage) {c' : ℕ}
    (h : (f c').received ≠ [] ∨ (f c').fin = true) :
    (Function.update f c { f c with stage := stage } c').received ≠ [] ∨
      (Function.update f c { f c with stage := stage } c').fin = true := by
  apply ready_update _ _ h
  · exact id
  · exact id

/-- The connection behind a descriptor is not in the backlog. -/
theorem queued_update (h : Wired s) {fd c : ℕ} (hc : s.fds fd = some c) (k : Conn) :
    ∀ c' ∈ s.backlog, (Function.update s.conn c k c').stage = .queued := by
  intro c' hc'
  have hst := h.queued c' hc'
  have hne : c' ≠ c := by
    rintro rfl
    rw [h.accepted _ _ hc] at hst
    cases hst
  rw [Function.update_of_ne hne]
  exact hst

/-- A connection changes behind the descriptors' back: its stage stays, and it stays ready. -/
theorem setConn (h : Wired s) {c : ℕ} {k : Conn} (hstage : k.stage = (s.conn c).stage)
    (hreceived : (s.conn c).received ≠ [] → k.received ≠ [])
    (hfin : (s.conn c).fin = true → k.fin = true) : Wired (s.setConn c k) where
  listening := h.listening
  accepted := fun fd c' hfd => (stage_update hstage c').trans (h.accepted fd c' hfd)
  inj := h.inj
  queued := fun c' hc' => (stage_update hstage c').trans (h.queued c' hc')
  backlog_nodup := h.backlog_nodup
  events_nodup := h.events_nodup
  events_ready := by
    intro e he hne
    obtain ⟨c', hfd, hready⟩ := h.events_ready e he hne
    exact ⟨c', hfd, fun hin => ready_update hreceived hfin (hready hin)⟩

theorem connect (h : Wired s) {c : ℕ} (hc : (s.conn c).stage = .absent) :
    Wired { s with
      conn := Function.update s.conn c { s.conn c with stage := .queued }
      backlog := s.backlog ++ [c] } where
  listening := h.listening
  accepted := by
    intro fd c' hfd
    have hst := h.accepted fd c' hfd
    have hne : c' ≠ c := by
      rintro rfl
      rw [hc] at hst
      cases hst
    simp only [Function.update_of_ne hne]
    exact hst
  inj := h.inj
  queued := by
    intro c' hc'
    by_cases hcc : c' = c
    · simp only [hcc, Function.update_self]
    · simp only [Function.update_of_ne hcc]
      rcases List.mem_append.mp hc' with hc' | hc'
      · exact h.queued c' hc'
      · exact absurd (List.mem_singleton.mp hc') hcc
  backlog_nodup := by
    apply h.backlog_nodup.append (List.nodup_singleton c)
    intro c' hc' hc''
    have hst := h.queued c' hc'
    rw [List.mem_singleton.mp hc'', hc] at hst
    cases hst
  events_nodup := h.events_nodup
  events_ready := by
    intro e he hne
    obtain ⟨c', hfd, hready⟩ := h.events_ready e he hne
    exact ⟨c', hfd, fun hin => ready_setStage c _ (hready hin)⟩

/-- The first event is dropped. -/
theorem tail (h : Wired s) {e : Event} {es : List Event} (he : s.events = e :: es) :
    Wired { s with events := es } := by
  have hnodup := h.events_nodup
  rw [he, List.map_cons, List.nodup_cons] at hnodup
  exact { h with
    events_nodup := hnodup.2
    events_ready := fun e' he' => h.events_ready e' (he ▸ List.mem_cons_of_mem e he') }

/-- No other event in the batch stands for the connection of the first. -/
theorem other_event (h : Wired s) {e : Event} {es : List Event} (he : s.events = e :: es)
    {c : ℕ} (hc : s.fds e.fd = some c) {e' : Event} (he' : e' ∈ es) : e'.fd ≠ e.fd ∧
      ∀ c', s.fds e'.fd = some c' → c' ≠ c := by
  have hnodup := h.events_nodup
  rw [he, List.map_cons, List.nodup_cons] at hnodup
  have hne : e'.fd ≠ e.fd := fun heq => hnodup.1 (heq ▸ List.mem_map_of_mem he')
  refine ⟨hne, ?_⟩
  rintro c' hc' rfl
  exact hne (h.inj _ _ _ hc' hc)

/-- The connection of the first event was served and stays open. -/
theorem served (h : Wired s) {e : Event} {es : List Event} (he : s.events = e :: es)
    {c : ℕ} (hc : s.fds e.fd = some c) {k : Conn} (hk : k.stage = .accepted) (w : WorkItem) :
    Wired { s with conn := Function.update s.conn c k, events := es, witem := w } where
  listening := h.listening
  accepted := by
    intro fd c' hfd
    by_cases hcc : c' = c
    · simp only [hcc, Function.update_self, hk]
    · simp only [Function.update_of_ne hcc]
      exact h.accepted fd c' hfd
  inj := h.inj
  queued := h.queued_update hc k
  backlog_nodup := h.backlog_nodup
  events_nodup := (h.tail he).events_nodup
  events_ready := by
    intro e' he' hne
    obtain ⟨c', hfd, hready⟩ := (h.tail he).events_ready e' he' hne
    have hcc := (h.other_event he hc he').2 c' hfd
    refine ⟨c', hfd, fun hin => ?_⟩
    simp only [Function.update_of_ne hcc]
    exact hready hin

/-- The connection of the first event was closed. -/
theorem closed (h : Wired s) {e : Event} {es : List Event} (he : s.events = e :: es)
    {c : ℕ} (hc : s.fds e.fd = some c) (k : Conn) (w : WorkItem) :
    Wired { s with
      conn := Function.update s.conn c k
      fds := Function.update s.fds e.fd none
      events := es
      witem := w } where
  listening := by
    have hne : s.mSocket ≠ e.fd := by
      intro heq
      rw [← heq, h.listening] at hc
      cases hc
    simp only [Function.update_of_ne hne]
    exact h.listening
  accepted := by
    intro fd c' hfd
    by_cases hfe : fd = e.fd
    · simp only [hfe, Function.update_self, reduceCtorEq] at hfd
    · simp only [Function.update_of_ne hfe] at hfd
      have hcc : c' ≠ c := by
        rintro rfl
        exact hfe (h.inj _ _ _ hfd hc)
      simp only [Function.update_of_ne hcc]
      exact h.accepted fd c' hfd
  inj := by
    intro fd fd' c' hfd hfd'
    by_cases hfe : fd = e.fd
    · simp only [hfe, Function.update_self, reduceCtorEq] at hfd
    · by_cases hfe' : fd' = e.fd
      · simp only [hfe', Function.update_self, reduceCtorEq] at hfd'
      · simp only [Function.update_of_ne hfe] at hfd
        simp only [Function.update_of_ne hfe'] at hfd'
        exact h.inj fd fd' c' hfd hfd'
  queued := h.queued_update hc k
  backlog_nodup := h.backlog_nodup
  events_nodup := (h.tail he).events_nodup
  events_ready := by
    intro e' he' hne
    obtain ⟨c', hfd, hready⟩ := (h.tail he).events_ready e' he' hne
    obtain ⟨hfe, hcc⟩ := h.other_event he hc he'
    refine ⟨c', by simpa only [Function.update_of_ne hfe] using hfd, fun hin => ?_⟩
    simp only [Function.update_of_ne (hcc c' hfd)]
    exact hready hin

/-- A queued connection gets a descriptor that was not in use. -/
theorem accept (h : Wired s) {c : ℕ} {cs : List ℕ} (hb : s.backlog = c :: cs) {newFd : ℕ}
    (hfree : s.fds newFd = none) (hne : newFd ≠ s.mSocket) :
    Wired { s with
      conn := Function.update s.conn c { s.conn c with stage := .accepted }
      fds := Function.update s.fds newFd (some c)
      backlog := cs } := by
  have hq : (s.conn c).stage = .queued := h.queued c (by rw [hb]; exact List.mem_cons_self)
  have hunused : ∀ fd, s.fds fd ≠ some c := by
    intro fd hfd
    rw [h.accepted fd c hfd] at hq
    cases hq
  have hnodup := h.backlog_nodup
  rw [hb, List.nodup_cons] at hnodup
  constructor
  · simp only [Function.update_of_ne hne.symm]
    exact h.listening
  · intro fd c' hfd
    by_cases hcc : c' = c
    · simp only [hcc, Function.update_self]
    · simp only [Function.update_of_ne hcc]
      by_cases hfe : fd = newFd
      · simp only [hfe, Function.update_self, Option.some.injEq] at hfd
        exact absurd hfd.symm hcc
      · simp only [Function.update_of_ne hfe] at hfd
        exact h.accepted fd c' hfd
  · intro fd fd' c' hfd hfd'
    by_cases hfe : fd = newFd <;> by_cases hfe' : fd' = newFd
    · rw [hfe, hfe']
    · simp only [hfe, Function.update_self, Option.some.injEq] at hfd
      simp only [Function.update_of_ne hfe', ← hfd] at hfd'
      exact absurd hfd' (hunused fd')
    · simp only [hfe', Function.update_self, Option.some.injEq] at hfd'
      simp only [Function.update_of_ne hfe, ← hfd'] at hfd
      exact absurd hfd (hunused fd)
    · simp only [Function.update_of_ne hfe] at hfd
      simp only [Function.update_of_ne hfe'] at hfd'
      exact h.inj fd fd' c' hfd hfd'
  · intro c' hc'
    have hcc : c' ≠ c := fun heq => hnodup.1 (heq ▸ hc')
    simp only [Function.update_of_ne hcc]
    exact h.queued c' (by rw [hb]; exact List.mem_cons_of_mem c hc')
  · exact hnodup.2
  · exact h.events_nodup
  · intro e he hlisten
    obtain ⟨c', hfd, hready⟩ := h.events_ready e he hlisten
    have hfe : e.fd ≠ newFd := by
      intro heq
      rw [heq, hfree] at hfd
      cases hfd
    exact ⟨c', by simpa only [Function.update_of_ne hfe] using hfd,
      fun hin => ready_setStage c _ (hready hin)⟩

end Wired

/-! ### The branches of the loop -/

theorem length_overwrite (w : WorkItem) {got : List Byte} (h : got.length = itemSize) :
    (w.overwrite got).toBytes = got := by
  unfold WorkItem.overwrite
  rw [WorkItem.toBytes_ofBytes, List.take_append_of_le_length h.ge, List.take_of_length_le h.le]

section serve
variable (s : State) {fd c : ℕ}

theorem recv_close :
    (s.recv c).close fd c = { s with
      conn := Function.update s.conn c { s.conn c with
        received := (s.conn c).received.drop itemSize
        stage := .closed }
      fds := Function.update s.fds fd none
      witem := s.witem.overwrite ((s.conn c).received.take itemSize) } := by
  unfold State.recv State.close
  simp only [Function.update_self, Function.update_idem]

theorem recv_validate :
    (s.recv c).validate c = { s with
      conn := Function.update s.conn c { s.conn c with
        received := (s.conn c).received.drop itemSize
        validated := (s.conn c).validated ++
          [(s.witem.overwrite ((s.conn c).received.take itemSize),
            (s.witem.overwrite ((s.conn c).received.take itemSize)).validate)] }
      witem := s.witem.overwrite ((s.conn c).received.take itemSize) } := by
  unfold State.recv State.validate State.setConn
  simp only [Function.update_self, Function.update_idem]

/-- The server closes the connection unless it has received a whole record. -/
theorem serve_of_lt (hfd : s.fds fd = some c) (hlt : (s.conn c).received.length < itemSize) :
    s.serve fd = (s.recv c).close fd c := by
  unfold State.serve
  rw [hfd]
  simp only
  split
  · rfl
  · next h0 =>
      rw [if_pos]
      unfold Conn.recvResult
      split
      · split <;> decide
      · rw [List.length_take]
        omega

theorem serve_of_le (hfd : s.fds fd = some c) (hle : itemSize ≤ (s.conn c).received.length) :
    s.serve fd = (s.recv c).validate c := by
  have hresult : (s.conn c).recvResult = itemSize := by
    unfold Conn.recvResult
    rw [if_neg, List.length_take, min_eq_left hle]
    intro hnil
    rw [hnil] at hle
    exact absurd hle (by decide)
  unfold State.serve
  rw [hfd]
  simp only [hresult]
  rw [if_neg (by decide), if_neg (by simp)]

end serve

section step
variable {s s' : State}

/-- An update of one connection is a step of that connection. -/
theorem conn_update {R : Conn → Conn → Prop} {f : ℕ → Conn} {c : ℕ} {k : Conn} (h : R (f c) k)
    (c' : ℕ) : Function.update f c k c' = f c' ∨ R (f c') (Function.update f c k c') := by
  by_cases hc : c' = c
  · subst hc
    rw [Function.update_self]
    exact .inr h
  · exact .inl (Function.update_of_ne hc k f)

theorem serve_spec (h : Wired s) {e : Event} {es : List Event} (he : s.events = e :: es)
    (hne : e.fd ≠ s.mSocket) (hin : e.epollin = true) (newFd : Option ℕ) :
    Wired (State.serve { s with events := es } e.fd) ∧
    ∀ c, (State.serve { s with events := es } e.fd).conn c = s.conn c ∨
      ConnStep (¬ WholeRecords (.handle newFd)) (¬ FullRead s (.handle newFd)) (s.conn c)
        ((State.serve { s with events := es } e.fd).conn c) := by
  obtain ⟨c, hfd, hready⟩ := h.events_ready e (by rw [he]; exact List.mem_cons_self) hne
  have hst := h.accepted e.fd c hfd
  rcases Nat.lt_or_ge (s.conn c).received.length itemSize with hlt | hle
  · rw [serve_of_lt { s with events := es } hfd hlt, recv_close]
    refine ⟨h.closed he hfd _ _, conn_update ?_⟩
    by_cases hnil : (s.conn c).received = []
    · exact .eof hst hnil ((hready hin).resolve_left fun hn => hn hnil)
    · refine .short ?_ hst hnil hlt
      intro hfull
      unfold FullRead at hfull
      simp only [he] at hfull
      rcases hfull hne hin c hfd with hnil' | hle
      · exact hnil hnil'
      · omega
  · rw [serve_of_le { s with events := es } hfd hle, recv_validate]
    have hlen : ((s.conn c).received.take itemSize).length = itemSize := by
      rw [List.length_take, min_eq_left hle]
    exact ⟨h.served he hfd (by exact hst) _, conn_update (.whole hst hle _ (length_overwrite _ hlen))⟩

theorem handle_spec (h : Wired s) {newFd : Option ℕ} (hs : s.handle newFd = some s') :
    Wired s' ∧ ∀ c, s'.conn c = s.conn c ∨
      ConnStep (¬ WholeRecords (.handle newFd)) (¬ FullRead s (.handle newFd)) (s.conn c)
        (s'.conn c) := by
  unfold State.handle at hs
  cases he : s.events with
  | nil =>
      rw [he] at hs
      cases hs
  | cons e es =>
      rw [he] at hs
      simp only at hs
      have htail := h.tail he
      by_cases hlisten : e.fd = s.mSocket
      · rw [if_pos hlisten] at hs
        unfold State.accept at hs
        cases newFd with
        | none =>
            cases hs
            exact ⟨htail, fun c => .inl rfl⟩
        | some fd =>
            cases hb : s.backlog with
            | nil =>
                simp only [hb, reduceCtorEq] at hs
            | cons c cs =>
                simp only [hb] at hs
                split at hs
                · next hfree =>
                    cases hs
                    refine ⟨htail.accept hb hfree.1 hfree.2, conn_update (.accept ?_)⟩
                    exact h.queued c (by rw [hb]; exact List.mem_cons_self)
                · cases hs
      · rw [if_neg hlisten] at hs
        split at hs
        · next hin =>
            cases hs
            exact serve_spec h he hlisten hin newFd
        · cases hs
          exact ⟨htail, fun c => .inl rfl⟩

theorem epollWait_spec (h : Wired s) {es : List Event}
    (hs : step s (.epollWait es) = some s') : Wired s' ∧ s'.conn = s.conn := by
  simp only [step] at hs
  split at hs
  · next hes =>
      cases hs
      obtain ⟨-, -, hnodup, hready⟩ := hes
      refine ⟨{ h with events_nodup := hnodup, events_ready := fun e he hne => ?_ }, rfl⟩
      have hr := List.all_eq_true.mp hready e he
      unfold State.ready at hr
      rw [if_neg hne] at hr
      cases hfd : s.fds e.fd with
      | none =>
          rw [hfd] at hr
          cases hr
      | some c =>
          rw [hfd] at hr
          refine ⟨c, rfl, fun hin => ?_⟩
          simpa [hin] using hr
  · cases hs

/-- What a step does, for the bookkeeping and for every connection. -/
theorem step_spec (h : Wired s) {a : Act} (hs : step s a = some s') :
    Wired s' ∧ ∀ c, s'.conn c = s.conn c ∨
      ConnStep (¬ WholeRecords a) (¬ FullRead s a) (s.conn c) (s'.conn c) := by
  cases a with
  | connect c =>
      simp only [step] at hs
      split at hs
      · next hc =>
          cases hs
          exact ⟨h.connect hc, conn_update (.connect hc)⟩
      · cases hs
  | write c k =>
      simp only [step] at hs
      split at hs
      · next hw =>
          cases hs
          have hopen : (s.conn c).clientClosed = false := by
            simpa using (Bool.and_eq_true_iff.mp hw).2
          exact ⟨h.setConn rfl id id, conn_update (.write k hopen)⟩
      · cases hs
  | cutOff c k n =>
      simp only [step] at hs
      split at hs
      · next hw =>
          cases hs
          have hopen : (s.conn c).clientClosed = false := by
            simpa using (Bool.and_eq_true_iff.mp hw.1).2
          exact ⟨h.setConn rfl id id, conn_update (.cutOff id k n hopen hw.2)⟩
      · cases hs
  | close c =>
      simp only [step] at hs
      split at hs
      · next hw =>
          cases hs
          have hopen : (s.conn c).clientClosed = false := by
            simpa using (Bool.and_eq_true_iff.mp hw).2
          exact ⟨h.setConn rfl id id, conn_update (.close hopen)⟩
      · cases hs
  | arrive c n =>
      simp only [step] at hs
      split at hs
      · next hn =>
          cases hs
          refine ⟨h.setConn rfl (fun hr => ?_) id, conn_update (.arrive n hn.2.2)⟩
          exact List.append_ne_nil_of_left_ne_nil hr _
      · cases hs
  | finArrive c =>
      simp only [step] at hs
      split at hs
      · next hf =>
          cases hs
          exact ⟨h.setConn rfl id fun _ => rfl, conn_update (.finArrive hf.1 hf.2)⟩
      · cases hs
  | epollWait es =>
      obtain ⟨hW, hconn⟩ := epollWait_spec h hs
      exact ⟨hW, fun c => .inl (congrFun hconn c)⟩
  | handle newFd => exact handle_spec h hs

end step

theorem reachable_wired {s : State} (h : system.Reachable s) : Wired s := by
  apply h.invariant
  · rintro s ⟨mSocket, rfl⟩
    exact Wired.start mSocket
  · intro s a s' hW hs
    exact (step_spec hW hs).1

theorem ConnStep.mono {cutOff cutOff' short short' : Prop} (hcut : cutOff → cutOff')
    (hshort : short → short') {k k' : Conn} (h : ConnStep cutOff short k k') :
    ConnStep cutOff' short' k k' := by
  cases h with
  | connect h => exact .connect h
  | write item h => exact .write item h
  | cutOff hc item n h hn => exact .cutOff (hcut hc) item n h hn
  | close h => exact .close h
  | arrive n h => exact .arrive n h
  | finArrive h hi => exact .finArrive h hi
  | accept h => exact .accept h
  | eof h hr hf => exact .eof h hr hf
  | short hs h h0 hn => exact .short (hshort hs) h h0 hn
  | whole h hn w hw => exact .whole h hn w hw

/-- What holds of a fresh connection and is kept by the steps of a connection holds of every
connection in a run whose steps are of those kinds. -/
theorem reachable_conn {φ : State → Act → Prop} {I : Conn → Prop} (cutOff short : Prop)
    (hcut : ∀ s a, φ s a → ¬ WholeRecords a → cutOff)
    (hshort : ∀ s a, φ s a → ¬ FullRead s a → short) (hfresh : I .fresh)
    (hstep : ∀ k k', I k → ConnStep cutOff short k k' → I k') {s : State}
    (h : system.ReachableBy φ s) (c : ℕ) : I (s.conn c) := by
  refine h.invariant (I := fun s => ∀ c, I (s.conn c)) (fun s hs => ?_)
    (fun s a s' hr hI hφ hs => ?_) c
  · obtain ⟨mSocket, rfl⟩ := hs
    exact fun _ => hfresh
  · intro c
    rcases (step_spec (reachable_wired hr.reachable) hs).2 c with heq | hc
    · rw [heq]
      exact hI c
    · exact hstep _ _ (hI c) (hc.mono (hcut s a hφ) (hshort s a hφ))

end LinuxProgramming.ClientServer
