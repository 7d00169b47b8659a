import LinuxProgramming.ClientServer.Alone
import LinuxProgramming.ClientServer.Framing
import LinuxProgramming.ClientServer.ItemNames

/-! # What the log of the server says

From `cook_data` in the clients to the lines that the server prints.  As far as a connection is
concerned, the log is that of the server with its client alone, so its laws are laws of `alone`:
the log has the answers for the records read, in order, and at most one complaint, which is the
last line and the end of the connection (`Silent`, `Complained`).  `log_names` puts this together
with framing and with the names of the items. -/

namespace LinuxProgramming.ClientServer

/-- The line about a record and the answer of `validate`. -/
def answer (p : WorkItem × Bool) : Line :=
  if p.2 then .valid p.1.getName else .corrupted p.1.getName

def Line.validName : Line → Option (List Byte)
  | .valid name => some name
  | _ => none

/-- The names that the server has reported as valid, with their connections. -/
def validNames (log : List (Option ℕ × Line)) : List (Option ℕ × List Byte) :=
  log.filterMap fun e => e.2.validName.map (e.1, ·)

/-! ### The log of one connection -/

/-- The server has not complained about the connection, and no byte is lost. -/
structure Silent (k : Conn) (lines : List Line) : Prop where
  lines_eq : lines = k.validated.map answer
  conserved : k.consumed ++ k.received ++ k.inFlight = k.stream
  cut_nil : k.clientClosed = false → k.cut = []
  fin : k.fin = true → k.clientClosed = true ∧ k.inFlight = []
  closed : k.stage = .closed → k.fin = true ∧ k.received = []

/-- The server has found a part of a record and closed the connection. -/
structure Complained (k : Conn) (lines : List Line) : Prop where
  lines_eq : ∃ n : ℕ, 0 < n ∧ n < itemSize ∧
    lines = k.validated.map answer ++ [.nonIntegrated n]
  closed : k.stage = .closed

theorem wholeRecord_eq_some {k : Conn} {w : WorkItem} (h : k.wholeRecord = some w) :
    w.toBytes = k.received.take itemSize := by
  unfold Conn.wholeRecord at h
  split at h
  · cases h
    exact WorkItem.toBytes_ofBytes _ _
  · cases h

theorem wholeRecord_eq_none {k : Conn} (h : k.wholeRecord = none) :
    k.received.length < itemSize := by
  unfold Conn.wholeRecord at h
  split at h
  · cases h
  · next hlt => exact not_le.mp hlt

theorem Silent.fresh : Silent .fresh [] where
  lines_eq := rfl
  conserved := rfl
  cut_nil := fun _ => rfl
  fin := by
    intro h
    cases h
  closed := by
    intro h
    cases h

theorem clientClosed_of_writable {k : Conn} (h : k.writable = true) : k.clientClosed = false := by
  simpa using (Bool.and_eq_true_iff.mp h).2

section step
variable {k k' : Conn} {lines : List Line} {a : ConnAct}

/-- More bytes are put on the stream. -/
theorem Silent.stream_append {written : List WorkItem} {cut bytes : List Byte}
    {clientClosed : Bool} (h : Silent k lines) (ho : k.clientClosed = false)
    (hstream : written.flatMap WorkItem.toBytes ++ cut = k.stream ++ bytes)
    (hcut : clientClosed = false → cut = []) :
    Silent { k with
      written := written
      cut := cut
      clientClosed := clientClosed
      inFlight := k.inFlight ++ bytes } lines where
  lines_eq := h.lines_eq
  conserved := by
    unfold Conn.stream
    rw [hstream, ← h.conserved]
    exact (List.append_assoc _ _ _).symm
  cut_nil := hcut
  fin := by
    intro hf
    rw [(h.fin hf).1] at ho
    cases ho
  closed := h.closed

theorem Silent.recv (h : Silent k lines) (hst : k.stage = .accepted)
    (hready : k.received ≠ [] ∨ k.fin = true) :
    Silent k.recv (lines ++ k.recvLines) ∨ Complained k.recv (lines ++ k.recvLines) := by
  unfold Conn.recv Conn.recvLines
  cases hw : k.wholeRecord with
  | none =>
      have hlt := wholeRecord_eq_none hw
      by_cases hnil : k.received = []
      · left
        have hfin := hready.resolve_left fun hne => hne hnil
        simp only [if_pos hnil, List.append_nil]
        refine { h with conserved := ?_, closed := fun _ => ⟨hfin, ?_⟩ }
        · have hcons := h.conserved
          rw [hnil] at hcons
          simp only [hnil, List.drop_nil]
          exact hcons
        · simp only [hnil, List.drop_nil]
      · right
        simp only [if_neg hnil]
        refine ⟨⟨k.received.length, List.length_pos_iff.mpr hnil, hlt, ?_⟩, rfl⟩
        rw [h.lines_eq]
  | some w =>
      left
      refine { h with lines_eq := ?_, conserved := ?_, closed := fun hcl => ?_ }
      · rw [h.lines_eq, List.map_append]
        congr 1
        unfold answer
        simp only [List.map_cons, List.map_nil]
        cases w.validate <;> rfl
      · unfold Conn.consumed
        rw [Conn.consumed_append]
        exact conserved_whole (wholeRecord_eq_some hw) h.conserved
      · rw [hst] at hcl
        cases hcl

theorem Silent.step (h : Silent k lines) (hs : k.step a = some k') :
    Silent k' (lines ++ k.printed a) ∨ Complained k' (lines ++ k.printed a) := by
  cases a with
  | recv =>
      obtain ⟨hready, hs⟩ := Option.ite_none_right_eq_some.mp hs
      cases hs
      exact h.recv hready.1 hready.2
  | connect =>
      obtain ⟨-, hs⟩ := Option.ite_none_right_eq_some.mp hs
      cases hs
      left
      simp only [Conn.printed, List.append_nil]
      exact { h with closed := fun hcl => by cases hcl }
  | write item =>
      obtain ⟨hw, hs⟩ := Option.ite_none_right_eq_some.mp hs
      cases hs
      left
      have ho := clientClosed_of_writable hw
      simp only [Conn.printed, List.append_nil]
      exact h.stream_append ho (Conn.stream_append (h.cut_nil ho) _) h.cut_nil
  | cutOff item n =>
      obtain ⟨hw, hs⟩ := Option.ite_none_right_eq_some.mp hs
      cases hs
      left
      have ho := clientClosed_of_writable hw.1
      simp only [Conn.printed, List.append_nil]
      refine h.stream_append ho ?_ fun hcl => by cases hcl
      unfold Conn.stream
      rw [h.cut_nil ho, List.append_nil]
  | close =>
      obtain ⟨hw, hs⟩ := Option.ite_none_right_eq_some.mp hs
      cases hs
      left
      simp only [Conn.printed, List.append_nil]
      exact { h with
        cut_nil := fun hcl => by cases hcl
        fin := fun hf => ⟨rfl, (h.fin hf).2⟩ }
  | arrive n =>
      obtain ⟨hn, hs⟩ := Option.ite_none_right_eq_some.mp hs
      cases hs
      left
      simp only [Conn.printed, List.append_nil]
      refine { h with
        conserved := conserved_arrive n h.conserved
        fin := fun hf => ⟨(h.fin hf).1, ?_⟩
        closed := fun hcl => absurd hcl hn.2.2 }
      simp only [(h.fin hf).2, List.drop_nil]
  | finArrive =>
      obtain ⟨hf, hs⟩ := Option.ite_none_right_eq_some.mp hs
      cases hs
      left
      simp only [Conn.printed, List.append_nil]
      exact { h with
        fin := fun _ => hf
        closed := fun hcl => ⟨rfl, (h.closed hcl).2⟩ }
  | accept =>
      obtain ⟨-, hs⟩ := Option.ite_none_right_eq_some.mp hs
      cases hs
      left
      simp only [Conn.printed, List.append_nil]
      exact { h with closed := fun hcl => by cases hcl }

theorem Complained.step (h : Complained k lines) (hs : k.step a = some k') :
    Complained k' (lines ++ k.printed a) := by
  have hcl := h.closed
  cases a with
  | connect | accept =>
      obtain ⟨hst, -⟩ := Option.ite_none_right_eq_some.mp hs
      rw [hcl] at hst
      cases hst
  | recv =>
      obtain ⟨hst, -⟩ := Option.ite_none_right_eq_some.mp hs
      rw [hcl] at hst
      cases hst.1
  | arrive n =>
      obtain ⟨hn, -⟩ := Option.ite_none_right_eq_some.mp hs
      exact absurd hcl hn.2.2
  | write | cutOff | close | finArrive =>
      obtain ⟨-, hs⟩ := Option.ite_none_right_eq_some.mp hs
      cases hs
      simp only [Conn.printed, List.append_nil]
      exact ⟨h.lines_eq, hcl⟩

end step

theorem alone_log {k : Conn} {as : List ConnAct} (h : alone.exec .fresh as = some k) :
    Silent k (alone.trace Conn.printed .fresh as) ∨
    Complained k (alone.trace Conn.printed .fresh as) := by
  have hstart : alone.Reachable .fresh := .of_init rfl
  have hrun : Silent k ([] ++ alone.trace Conn.printed .fresh as) ∨
      Complained k ([] ++ alone.trace Conn.printed .fresh as) :=
    hstart.trace_invariant (I := fun k lines => Silent k lines ∨ Complained k lines)
      (fun k a k' lines _ hI hs => hI.elim (fun hk => hk.step hs) fun hk => .inr (hk.step hs))
      (.inl Silent.fresh) h
  exact hrun

/-- A connection read to its end without a complaint has been read completely. -/
theorem Silent.validated_eq {k : Conn} {lines : List Line} (h : Silent k lines) (hI : ConnInv k)
    (hend : k.stage = .closed ∨ k.received = [] ∧ k.inFlight = []) :
    k.validated.length = k.written.length := by
  have hdrained : k.received = [] ∧ k.inFlight = [] := by
    rcases hend with hcl | hdrained
    · obtain ⟨hf, hr⟩ := h.closed hcl
      exact ⟨hr, (h.fin hf).2⟩
    · exact hdrained
  have hcons := congrArg List.length h.conserved
  have hcut := hI.cut_lt
  have hle := hI.validated_le.length_le
  unfold Conn.stream Conn.consumed at hcons
  rw [hdrained.1, hdrained.2, List.append_nil, List.append_nil, List.length_append,
    length_flatMap_of_size WorkItem.length_toBytes,
    length_flatMap_of_size WorkItem.length_toBytes, List.length_map] at hcons
  rw [List.length_map] at hle
  by_contra hne
  have hmul := Nat.mul_le_mul_left itemSize (show k.validated.length + 1 ≤ k.written.length by omega)
  rw [Nat.mul_succ] at hmul
  omega

/-! ### The whole log -/

theorem answers_eq {k : Conn} (hI : ConnInv k) :
    k.validated.map answer = (k.validated.map Prod.fst).map fun w => .valid w.getName := by
  rw [List.map_map]
  apply List.map_congr_left
  intro p hp
  have hmem : p.1 ∈ k.written := hI.validated_le.subset (List.mem_map_of_mem hp)
  have htrue : p.2 = true := by rw [hI.answers p hp, hI.written_valid _ hmem]
  unfold answer
  rw [if_pos htrue]
  rfl

/-- The first of the items that a client has sent. -/
theorem eq_map_range_of_prefix {α : Type*} {f : ℕ → α} {l : List α} {n : ℕ}
    (h : l <+: (List.range n).map f) : l = (List.range l.length).map f := by
  have hle := h.length_le
  rw [List.length_map, List.length_range] at hle
  have htake := List.prefix_iff_eq_take.mp h
  rw [← List.map_take, List.take_range, min_eq_left hle] at htake
  exact htake

/-- Without a connection there is only the line about a new client. -/
theorem printed_none {behind : State → List Byte} {s : State} (hW : Wired s) (a : Act) {line : Line}
    (h : (none, line) ∈ printed behind s a) : line = .established := by
  cases a with
  | handle newFd =>
      unfold printed at h
      cases he : s.events with
      | nil =>
          rw [he] at h
          cases h
      | cons e es =>
          simp only [he] at h
          split at h
          · simpa using h
          · next hlisten =>
              split at h
              · obtain ⟨c, hfd, -⟩ :=
                  hW.events_ready e (by rw [he]; exact List.mem_cons_self) hlisten
                cases serveLines_tag { s with events := es } hfd h
              · cases h
  | connect | write | cutOff | close | arrive | finArrive | epollWait => cases h

theorem log_none {mSocket : ℕ} {ls : List Act} {s : State}
    (h : system.exec (start mSocket) ls = some s) (behind : State → List Byte) :
    ∀ line ∈ part (system.trace (printed behind) (start mSocket) ls) none,
      line = .established := by
  have hstart : system.Reachable (start mSocket) := .of_init ⟨mSocket, rfl⟩
  have hrun : ∀ line ∈ part ([] ++ system.trace (printed behind) (start mSocket) ls) none,
      line = .established :=
    hstart.trace_invariant (I := fun _ log => ∀ line ∈ part log none, line = Line.established)
      (fun s a s' log hr hI hs line hline => by
        rw [part_append] at hline
        rcases List.mem_append.mp hline with hline | hline
        · exact hI line hline
        · exact printed_none (reachable_wired hr) a (mem_part.mp hline))
      (show ∀ line ∈ [], line = Line.established from List.forall_mem_nil _) h
  exact hrun

/-- The lines about a connection whose client sends items with the given names. -/
structure Reports (k : Conn) (name : ℕ → List Byte) (lines : List Line) : Prop where
  le : k.validated.length ≤ k.written.length
  /-- either all is well, or the last line is a complaint -/
  ending : (lines = (List.range k.validated.length).map (fun i => .valid (name i)) ∧
      (k.stage = .closed ∨ k.received = [] ∧ k.inFlight = [] →
        k.validated.length = k.written.length)) ∨
    (k.stage = .closed ∧ ∃ n : ℕ, 0 < n ∧ n < itemSize ∧
      lines = (List.range k.validated.length).map (fun i => .valid (name i)) ++ [.nonIntegrated n])

theorem filterMap_validName {α : Type*} (l : List α) (name : α → List Byte) :
    (l.map fun a => Line.valid (name a)).filterMap Line.validName = l.map name := by
  rw [List.filterMap_map, ← List.filterMap_eq_map]
  rfl

theorem Reports.names {k : Conn} {name : ℕ → List Byte} {lines : List Line}
    (h : Reports k name lines) :
    lines.filterMap Line.validName = (List.range k.validated.length).map name := by
  rcases h.ending with ⟨hlines, -⟩ | ⟨-, n, -, -, hlines⟩
  · rw [hlines, filterMap_validName]
  · rw [hlines, List.filterMap_append, filterMap_validName]
    exact List.append_nil _

theorem reports {k : Conn} {lines : List Line} (h : Silent k lines ∨ Complained k lines)
    (hI : ConnInv k) {item : ℕ → WorkItem} {name : ℕ → List Byte}
    (hwritten : k.written = (List.range k.written.length).map item)
    (hname : ∀ i < k.written.length, (item i).getName = name i) : Reports k name lines := by
  have hle := hI.validated_le.length_le
  rw [List.length_map] at hle
  have hitems : k.validated.map Prod.fst = (List.range k.validated.length).map item := by
    have hprefix := hI.validated_le
    rw [hwritten] at hprefix
    have heq := eq_map_range_of_prefix hprefix
    rwa [List.length_map] at heq
  have hanswers : k.validated.map answer =
      (List.range k.validated.length).map fun i => .valid (name i) := by
    rw [answers_eq hI, hitems, List.map_map]
    apply List.map_congr_left
    intro i hi
    show Line.valid (item i).getName = _
    rw [hname i ((List.mem_range.mp hi).trans_le hle)]
  rcases h with hs | hc
  · exact ⟨hle, .inl ⟨by rw [hs.lines_eq, hanswers], hs.validated_eq hI⟩⟩
  · obtain ⟨n, hpos, hlt, hlines⟩ := hc.lines_eq
    exact ⟨hle, .inr ⟨hc.closed, n, hpos, hlt, by rw [hlines, hanswers]⟩⟩

/-- Names that differ within each connection and between any two differ in the whole log. -/
theorem nodup_validNames {log : List (Option ℕ × Line)} {conn : ℕ → Conn}
    {name : ℕ → ℕ → List Byte} (hnone : ∀ line ∈ part log none, line = .established)
    (hsome : ∀ c, Reports (conn c) (name c) (part log (some c)))
    (hwithin : ∀ c k k', k < (conn c).validated.length → k' < (conn c).validated.length →
      name c k = name c k' → k = k')
    (hbetween : ∀ c c' k k', k < (conn c).validated.length → k' < (conn c').validated.length →
      name c k = name c' k' → c = c') :
    ((validNames log).map Prod.snd).Nodup := by
  have hempty : part (validNames log) none = [] := by
    refine (part_filterMap _ _ _).trans (List.filterMap_eq_nil_iff.mpr fun line hline => ?_)
    rw [hnone line hline]
    rfl
  have hpart : ∀ c, part (validNames log) (some c) =
      (List.range (conn c).validated.length).map (name c) :=
    fun c => (part_filterMap _ _ _).trans (hsome c).names
  have horigin : ∀ x ∈ validNames log, ∃ c k, x.1 = some c ∧
      k < (conn c).validated.length ∧ name c k = x.2 := by
    rintro ⟨_ | c, text⟩ hx
    · have hmem := mem_part.mpr hx
      rw [hempty] at hmem
      cases hmem
    · have hmem := mem_part.mpr hx
      rw [hpart] at hmem
      obtain ⟨k, hk, htext⟩ := List.mem_map.mp hmem
      exact ⟨c, k, rfl, List.mem_range.mp hk, htext⟩
  refine nodup_of_parts (fun text => text) (fun i => ?_) fun x hx y hy hne heq => ?_
  · rw [List.map_id']
    cases i with
    | none =>
        rw [hempty]
        exact List.nodup_nil
    | some c =>
        rw [hpart]
        refine List.nodup_range.map_on fun k hk k' hk' heq => ?_
        exact hwithin c k k' (List.mem_range.mp hk) (List.mem_range.mp hk') heq
  · obtain ⟨c, k, hc, hk, hx⟩ := horigin x hx
    obtain ⟨c', k', hc', hk', hy⟩ := horigin y hy
    apply hne
    rw [hc, hc', hbetween c c' k k' hk hk' (by rw [hx, hy, heq])]

/-- With so few digits every name ends within `m_name`. -/
theorem names_end {k : Conn} {id : ClientId} {work : Work}
    (hwritten : k.written = (List.range k.written.length).map (itemAt id work))
    (hdigits : ∀ i < k.written.length, digits id + digits i ≤ 7) :
    ∀ w ∈ k.written, 0#8 ∈ w.name := by
  intro w hw
  rw [hwritten] at hw
  obtain ⟨i, hi, rfl⟩ := List.mem_map.mp hw
  exact zero_mem_name _ _ (fits_of_digits _ _ (hdigits i (List.mem_range.mp hi)))

/-- **The log.**  When every client sends the items of `Client::Work`, with ids that differ and
numbers of at most seven digits together, the log says of each connection in order the names that
the client gave its items, as many as have been read, and nothing else but at the end one complaint
about a part of a record, with which the connection is closed.  A connection that ends without a
complaint has been read completely, no record is ever reported as corrupted, and no name comes
twice in the whole log.  Whatever lies in the memory behind the server's object. -/
theorem log_names {mSocket : ℕ} {ls : List Act} {s : State}
    (h : system.exec (start mSocket) ls = some s) (behind : State → List Byte)
    (id : ℕ → ClientId) (work : ℕ → Work)
    (hwritten : ∀ c, (s.conn c).written =
      (List.range (s.conn c).written.length).map (itemAt (id c) (work c)))
    (hdigits : ∀ c, ∀ k < (s.conn c).written.length, digits (id c) + digits k ≤ 7)
    (hids : ∀ c c', (s.conn c).written ≠ [] → (s.conn c').written ≠ [] → id c = id c' → c = c') :
    (∀ line ∈ part (system.trace (printed behind) (start mSocket) ls) none,
      line = .established) ∧
    (∀ c, Reports (s.conn c) (textAt (id c) (work c))
      (part (system.trace (printed behind) (start mSocket) ls) (some c))) ∧
    ((validNames (system.trace (printed behind) (start mSocket) ls)).map Prod.snd).Nodup := by
  have hr : system.Reachable s := Lts.Reachable.exec (.of_init ⟨mSocket, rfl⟩) h
  have hreports : ∀ c, Reports (s.conn c) (textAt (id c) (work c))
      (part (system.trace (printed behind) (start mSocket) ls) (some c)) := by
    intro c
    rw [lines_alone (.of_init ⟨mSocket, rfl⟩) h (names_end (hwritten c) (hdigits c)) behind]
    exact reports (alone_log (exec_alone h c)) (reachable_connInv hr c) (hwritten c)
      fun k hk => getName_itemAt _ _ (fits_of_digits _ _ (hdigits c k hk))
  refine ⟨log_none h behind, hreports, nodup_validNames (log_none h behind) hreports ?_ ?_⟩
  · intro c k k' hk hk' htext
    have hle := (hreports c).le
    exact (textAt_inj (lt_of_digits (hdigits c k (by omega)))
      (lt_of_digits (hdigits c k' (by omega))) htext).2
  · intro c c' k k' hk hk' htext
    have hle := (hreports c).le
    have hle' := (hreports c').le
    have hid := (textAt_inj (lt_of_digits (hdigits c k (by omega)))
      (lt_of_digits (hdigits c' k' (by omega))) htext).1
    refine hids c c' ?_ ?_ hid
    · exact List.ne_nil_of_length_pos (by omega)
    · exact List.ne_nil_of_length_pos (by omega)

theorem length_zeros : (List.replicate buffersSize 0#8).length = buffersSize :=
  List.length_replicate

/-- A client whose `rand` always says 0. -/
def zeroWork : Work :=
  ⟨fun _ _ => 0, Fin.last dataLen, List.replicate buffersSize 0#8, length_zeros, 1⟩

/-- What it hands to the constructor for its first item. -/
def firstCooked (id : ClientId) : Cooked where
  name := (clientAt id zeroWork 1).buffers
  data := ((clientAt id zeroWork 1).buffers.drop nameLen).take
    (clientAt id zeroWork 1).workitemDataLen
  fits := by
    rw [List.length_take]
    have hlt := (clientAt id zeroWork 1).workitemDataLen.isLt
    omega

/-- Client 7 sends its first item, and the server reads it. -/
theorem log_names_sendOne : ∃ s, system.exec (start 3) (sendOne (firstCooked 7) itemSize) = some s ∧
    (s.conn 0).validated.length = 1 ∧
    Reports (s.conn 0) (textAt 7 zeroWork)
      (part (system.trace (printed fun _ => []) (start 3) (sendOne (firstCooked 7) itemSize))
        (some 0)) := by
  have hrun := exec_sendOne_whole (firstCooked 7)
  have hzero : ∀ c ≠ 0, ((State.recv { beforeRead (firstCooked 7) itemSize with events := [] }
      0).validate 0).conn c = .fresh := by
    intro c hc
    simp [State.validate, State.recv, State.setConn, beforeRead, hc]
  refine ⟨_, hrun, rfl, (log_names hrun _ (fun _ => 7) (fun _ => zeroWork) ?_ ?_ ?_).2.1 0⟩
  · intro c
    by_cases hc : c = 0
    · subst hc
      rfl
    · rw [hzero c hc]
      rfl
  · intro c k hk
    by_cases hc : c = 0
    · subst hc
      have hk0 : k = 0 := Nat.lt_one_iff.mp hk
      subst hk0
      decide
    · rw [hzero c hc] at hk
      cases hk
  · intro c c' hc hc' _
    have hc0 : c = 0 := by_contra fun hne => hc (by rw [hzero c hne]; rfl)
    have hc0' : c' = 0 := by_contra fun hne => hc' (by rw [hzero c' hne]; rfl)
    rw [hc0, hc0']

end LinuxProgramming.ClientServer
