import LinuxProgramming.ClientServer.Alone
import LinuxProgramming.Tally

/-! # What is left to do for the clients

While the clients pause, the network and the server have only so much to do.  `Useful` are their
steps that get on with it.  Every byte is delivered and read once, and every connection is accepted
and ended once (`Conn.left`); a round of events is spent on each such piece of work at most
(`State.remaining`), so each useful step leaves less to do. -/

namespace LinuxProgramming.ClientServer

/-! ### What is left to do for a connection -/

/-- How often the loop has still to turn to a connection that sends nothing. -/
def Stage.left : Stage → ℕ
  | .absent => 0
  | .queued => 2
  | .accepted => 1
  | .closed => 0

/-- Bytes to deliver and to read, the end of the stream, and the stages to come. -/
def Conn.left (k : Conn) : ℕ :=
  2 * k.inFlight.length + k.received.length + (if k.fin then 0 else 1) + k.stage.left

/-- A step that is not the client's, and does not repeat the end of the stream. -/
def Conn.Served (k : Conn) : ConnAct → Prop
  | .connect | .write _ | .cutOff _ _ | .close => False
  | .arrive _ | .accept | .recv => True
  | .finArrive => k.fin = false ∧ k.stage ≠ .closed

section conn
variable {k k' : Conn} {a : ConnAct}

theorem Conn.left_recv (hst : k.stage = .accepted) : k.recv.left < k.left := by
  unfold Conn.recv Conn.left
  rcases Nat.lt_or_ge k.received.length itemSize with hlt | hle
  · rw [wholeRecord_of_lt hlt]
    simp only [hst, Stage.left, List.length_drop]
    omega
  · have hpos : 0 < itemSize := by decide
    rw [wholeRecord_of_le hle (start 0).witem]
    simp only [List.length_drop]
    omega

theorem Conn.left_lt (hserved : k.Served a) (hs : k.step a = some k') : k'.left < k.left := by
  cases a with
  | connect | write | cutOff | close => exact hserved.elim
  | arrive n =>
      obtain ⟨hn, hs⟩ := Option.ite_none_right_eq_some.mp hs
      cases hs
      simp only [Conn.left, List.length_drop, List.length_append, List.length_take]
      omega
  | finArrive =>
      obtain ⟨-, hs⟩ := Option.ite_none_right_eq_some.mp hs
      cases hs
      simp only [Conn.left, hserved.1, if_true, Bool.false_eq_true, if_false]
      omega
  | accept =>
      obtain ⟨hst, hs⟩ := Option.ite_none_right_eq_some.mp hs
      cases hs
      simp only [Conn.left, hst, Stage.left]
      omega
  | recv =>
      obtain ⟨hready, hs⟩ := Option.ite_none_right_eq_some.mp hs
      cases hs
      exact Conn.left_recv hready.1

/-- Only its client can begin a connection. -/
theorem eq_connect_of_fresh (hs : Conn.fresh.step a = some k) : a = .connect := by
  cases a with
  | connect => rfl
  | write | cutOff | close | finArrive | accept | recv =>
      simp [Conn.step, Conn.fresh, Conn.writable] at hs
  | arrive n =>
      obtain ⟨hn, -⟩ := Option.ite_none_right_eq_some.mp hs
      have hlen : n ≤ 0 := hn.2.1
      omega

/-- A served connection keeps what its client has done. -/
theorem Conn.Served.client_eq (hserved : k.Served a) (hs : k.step a = some k') :
    k'.written = k.written ∧ k'.clientClosed = k.clientClosed := by
  cases a with
  | connect | write | cutOff | close => exact hserved.elim
  | arrive | finArrive | accept =>
      obtain ⟨-, hs⟩ := Option.ite_none_right_eq_some.mp hs
      cases hs
      exact ⟨rfl, rfl⟩
  | recv =>
      obtain ⟨-, hs⟩ := Option.ite_none_right_eq_some.mp hs
      cases hs
      unfold Conn.recv
      cases k.wholeRecord <;> exact ⟨rfl, rfl⟩

end conn

/-! ### Useful steps -/

/-- The loop does something about the event. -/
def State.input (s : State) (e : Event) : Bool := decide (e.fd = s.mSocket) || e.epollin

/-- The network and the server get on: bytes arrive, or the end of a stream that had not arrived
before; `epoll_wait` returns with something to do; and `accept` does not fail. -/
def Useful (s : State) : Act → Prop
  | .connect _ | .write _ _ | .cutOff _ _ _ | .close _ => False
  | .arrive _ _ => True
  | .finArrive c => (s.conn c).fin = false ∧ (s.conn c).stage ≠ .closed
  | .epollWait es => es.any s.input = true
  | .handle newFd => ∀ e es, s.events = e :: es → e.fd = s.mSocket → newFd.isSome = true

/-- An iteration of the inner loop concerns a connection in one of two ways, or not at all. -/
theorem observe_handle (c : ℕ) (s : State) (newFd : Option ℕ) :
    observe c s (.handle newFd) = [] ∨ observe c s (.handle newFd) = [.accept] ∨
      observe c s (.handle newFd) = [.recv] := by
  cases he : s.events with
  | nil => simp only [observe, he, true_or]
  | cons e es =>
      simp only [observe, he]
      split <;> split <;> simp only [reduceCtorEq, List.cons.injEq, or_true, true_or, and_true]

theorem observe_cases (c : ℕ) (s : State) (a : Act) :
    observe c s a = [] ∨ ∃ b, observe c s a = [b] := by
  cases a with
  | connect c' | write c' | cutOff c' | close c' | arrive c' | finArrive c' =>
      simp only [observe]
      split
      · exact .inr ⟨_, rfl⟩
      · exact .inl rfl
  | epollWait es => exact .inl rfl
  | handle newFd =>
      rcases observe_handle c s newFd with h | h | h
      · exact .inl h
      · exact .inr ⟨_, h⟩
      · exact .inr ⟨_, h⟩

theorem eq_connect_of_observe {c : ℕ} {s : State} {a : Act} (h : observe c s a = [.connect]) :
    a = .connect c := by
  cases a with
  | connect c' =>
      by_cases hc : c' = c
      · rw [hc]
      · simp only [observe, if_neg hc, reduceCtorEq] at h
  | write c' | cutOff c' | close c' | arrive c' | finArrive c' =>
      simp only [observe] at h
      split at h <;> cases h
  | epollWait es => cases h
  | handle newFd =>
      rcases observe_handle c s newFd with h' | h' | h' <;> rw [h'] at h <;> cases h

section step
variable {s s' : State} {a : Act}

theorem Useful.served (hu : Useful s a) {c : ℕ} {b : ConnAct} (hb : observe c s a = [b]) :
    (s.conn c).Served b := by
  cases a with
  | connect | write | cutOff | close => exact hu.elim
  | arrive c' n =>
      simp only [observe] at hb
      split at hb
      · cases hb
        trivial
      · cases hb
  | finArrive c' =>
      simp only [observe] at hb
      split at hb
      · next hc =>
          cases hb
          exact hc ▸ hu
      · cases hb
  | epollWait es => cases hb
  | handle newFd =>
      rcases observe_handle c s newFd with h | h | h <;> rw [h] at hb <;> cases hb <;> trivial

/-- A step as one connection sees it. -/
theorem conn_cases (hW : Wired s) (hs : step s a = some s') (c : ℕ) :
    observe c s a = [] ∧ s'.conn c = s.conn c ∨
    ∃ b, observe c s a = [b] ∧ (s.conn c).step b = some (s'.conn c) := by
  have halone := (step_alone hW hs c).1
  rcases observe_cases c s a with hnil | ⟨b, hb⟩
  · rw [hnil, Lts.exec_nil, Option.some.injEq] at halone
    exact .inl ⟨hnil, halone.symm⟩
  · rw [hb, Lts.exec_cons] at halone
    obtain ⟨k, hk, hexec⟩ := Option.bind_eq_some_iff.mp halone
    rw [Lts.exec_nil, Option.some.injEq] at hexec
    exact .inr ⟨b, hb, hexec ▸ hk⟩

theorem fresh_of_ne_connect (hW : Wired s) (hs : step s a = some s') {c : ℕ}
    (hc : s.conn c = .fresh) (ha : a ≠ .connect c) : s'.conn c = .fresh := by
  rcases conn_cases hW hs c with ⟨-, heq⟩ | ⟨b, hb, hstep⟩
  · rw [heq, hc]
  · rw [hc] at hstep
    rw [eq_connect_of_fresh hstep] at hb
    exact absurd (eq_connect_of_observe hb) ha

theorem Useful.ne_connect (hu : Useful s a) (c : ℕ) : a ≠ .connect c := by
  rintro rfl
  exact hu

theorem Useful.client_eq (hW : Wired s) (hu : Useful s a) (hs : step s a = some s') (c : ℕ) :
    (s'.conn c).written = (s.conn c).written ∧
      (s'.conn c).clientClosed = (s.conn c).clientClosed := by
  rcases conn_cases hW hs c with ⟨-, heq⟩ | ⟨b, hb, hstep⟩
  · rw [heq]
    exact ⟨rfl, rfl⟩
  · exact (hu.served hb).client_eq hstep

theorem Useful.left_le (hW : Wired s) (hu : Useful s a) (hs : step s a = some s') (c : ℕ) :
    (s'.conn c).left ≤ (s.conn c).left := by
  rcases conn_cases hW hs c with ⟨-, heq⟩ | ⟨b, hb, hstep⟩
  · rw [heq]
  · exact (Conn.left_lt (hu.served hb) hstep).le

end step

/-- Only finitely many clients have come so far. -/
theorem exists_fresh {s : State} (h : system.Reachable s) :
    ∃ N, ∀ c, N ≤ c → s.conn c = .fresh := by
  refine h.invariant' (I := fun s => ∃ N, ∀ c, N ≤ c → s.conn c = .fresh) ?_ ?_
  · rintro s ⟨mSocket, rfl⟩
    exact ⟨0, fun _ _ => rfl⟩
  · rintro s a s' hr ⟨N, hN⟩ hs
    have hW := reachable_wired hr
    have hs : step s a = some s' := hs
    by_cases ha : ∃ c, a = .connect c
    · obtain ⟨c, rfl⟩ := ha
      refine ⟨max N (c + 1), fun c' hc' => fresh_of_ne_connect hW hs (hN c' (by omega)) ?_⟩
      simp only [ne_eq, Act.connect.injEq]
      omega
    · refine ⟨N, fun c' hc' => fresh_of_ne_connect hW hs (hN c' hc') ?_⟩
      exact fun heq => ha ⟨c', heq⟩

/-! ### A run of useful steps is bounded -/

namespace State

/-- What is left to do for the first `N` connections. -/
def work (s : State) (N : ℕ) : ℕ := tally Conn.left fun c : Fin N => s.conn c

/-- The events still to be looked at, and a call of `epoll_wait` when nothing is among them. -/
def pending (s : State) : ℕ :=
  s.events.length + if s.events.any s.input then 0 else maxEventsReceived + 1

/-- Each piece of work may need another round of events. -/
def remaining (s : State) (N : ℕ) : ℕ := (maxEventsReceived + 1) * s.work N + s.pending

end State

section bound
variable {s s' : State} {a : Act} {N : ℕ}

theorem work_le (hW : Wired s) (hu : Useful s a) (hs : step s a = some s') :
    s'.work N ≤ s.work N := tally_le_tally fun c => hu.left_le hW hs c

theorem work_lt (hW : Wired s) (hN : ∀ c, N ≤ c → s.conn c = .fresh) (hu : Useful s a)
    (hs : step s a = some s') {c : ℕ} (hc : observe c s a ≠ []) : s'.work N < s.work N := by
  rcases conn_cases hW hs c with ⟨hnil, -⟩ | ⟨b, hb, hstep⟩
  · exact absurd hnil hc
  · have hlt : c < N := by
      by_contra hge
      rw [hN c (by omega)] at hstep
      rw [eq_connect_of_fresh hstep] at hb
      exact hu.ne_connect c (eq_connect_of_observe hb)
    exact tally_lt_tally (fun c => hu.left_le hW hs c) (i := ⟨c, hlt⟩)
      (Conn.left_lt (hu.served hb) hstep)

theorem serve_frame (s : State) (fd : ℕ) : (s.serve fd).events = s.events ∧
    (s.serve fd).mSocket = s.mSocket ∧ (s.serve fd).backlog = s.backlog := by
  unfold State.serve
  cases s.fds fd with
  | none => exact ⟨rfl, rfl, rfl⟩
  | some c =>
      simp only
      split
      · exact ⟨rfl, rfl, rfl⟩
      · split <;> exact ⟨rfl, rfl, rfl⟩

/-- One iteration of the inner loop. -/
theorem handle_cases (hW : Wired s) {newFd : Option ℕ} (hu : Useful s (.handle newFd))
    (hs : s.handle newFd = some s') : ∃ e es, s.events = e :: es ∧ s'.events = es ∧
      s'.mSocket = s.mSocket ∧
      (s.input e = true → ∃ c, observe c s (.handle newFd) ≠ []) := by
  unfold State.handle at hs
  cases he : s.events with
  | nil =>
      rw [he] at hs
      cases hs
  | cons e es =>
      rw [he] at hs
      simp only at hs
      refine ⟨e, es, rfl, ?_⟩
      unfold State.input observe
      simp only [he]
      by_cases hlisten : e.fd = s.mSocket
      · rw [if_pos hlisten] at hs
        obtain ⟨fd, rfl⟩ := Option.isSome_iff_exists.mp (hu e es he hlisten)
        unfold State.accept at hs
        cases hb : s.backlog with
        | nil => simp only [hb, reduceCtorEq] at hs
        | cons c cs =>
            simp only [hb] at hs
            split at hs
            · cases hs
              exact ⟨rfl, rfl, fun _ => ⟨c, by simp [hlisten]⟩⟩
            · cases hs
      · rw [if_neg hlisten] at hs
        by_cases hin : e.epollin = true
        · rw [if_pos hin] at hs
          cases hs
          obtain ⟨c, hfd, -⟩ := hW.events_ready e (by rw [he]; exact List.mem_cons_self) hlisten
          obtain ⟨hevents, hsocket, -⟩ := serve_frame { s with events := es } e.fd
          exact ⟨hevents, hsocket, fun _ => ⟨c, by simp [hlisten, hin, hfd]⟩⟩
        · rw [if_neg hin] at hs
          cases hs
          exact ⟨rfl, rfl, by simp [hlisten, hin]⟩

theorem pending_tail {e : Event} {es : List Event} (he : s.events = e :: es)
    (he' : s'.events = es) (hsocket : s'.mSocket = s.mSocket) :
    s'.pending + 1 ≤ s.pending + if s.input e then maxEventsReceived + 1 else 0 := by
  have hinput : s'.input = s.input := by
    funext e'
    unfold State.input
    rw [hsocket]
  unfold State.pending
  rw [he, he', hinput, List.any_cons, List.length_cons]
  cases s.input e with
  | false => simp only [Bool.false_or, Bool.false_eq_true, if_false]; omega
  | true => simp only [Bool.true_or, if_true]; split <;> omega

theorem remaining_lt_of_work (hwork : s'.work N < s.work N)
    (hpending : s'.pending ≤ s.pending + maxEventsReceived) : s'.remaining N < s.remaining N := by
  have hmul := Nat.mul_le_mul_left (maxEventsReceived + 1) hwork
  rw [Nat.mul_succ] at hmul
  unfold State.remaining
  omega

/-- A useful step leaves less to do. -/
theorem Useful.remaining_lt (hW : Wired s) (hN : ∀ c, N ≤ c → s.conn c = .fresh)
    (hu : Useful s a) (hs : step s a = some s') : s'.remaining N < s.remaining N := by
  have hle := Nat.mul_le_mul_left (maxEventsReceived + 1) (work_le (N := N) hW hu hs)
  have hlt : ∀ c, observe c s a ≠ [] → s'.work N < s.work N :=
    fun c hc => work_lt hW hN hu hs hc
  cases a with
  | connect | write | cutOff | close => exact hu.elim
  | arrive c | finArrive c =>
      refine remaining_lt_of_work (hlt c (by simp [observe])) (Nat.le_add_right_of_le ?_)
      obtain ⟨-, hs⟩ := Option.ite_none_right_eq_some.mp hs
      cases hs
      exact le_rfl
  | epollWait es =>
      obtain ⟨⟨hnil, hlen, -⟩, hs⟩ := Option.ite_none_right_eq_some.mp hs
      cases hs
      have hany : es.any (State.input { s with events := es }) = true := hu
      unfold State.remaining State.pending
      simp only [hnil, hany, if_true, List.any_nil, List.length_nil, Bool.false_eq_true, if_false]
      exact Nat.lt_of_le_of_lt (Nat.add_le_add hle hlen) (by omega)
  | handle newFd =>
      obtain ⟨e, es, he, he', hsocket, hinput⟩ := handle_cases hW hu hs
      have hpending := pending_tail he he' hsocket
      cases hin : s.input e with
      | true =>
          obtain ⟨c, hc⟩ := hinput hin
          rw [hin, if_pos rfl] at hpending
          exact remaining_lt_of_work (hlt c hc) (by omega)
      | false =>
          rw [hin] at hpending
          simp only [Bool.false_eq_true, if_false] at hpending
          unfold State.remaining
          omega

end bound

end LinuxProgramming.ClientServer
