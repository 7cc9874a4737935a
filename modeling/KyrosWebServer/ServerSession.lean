import KyrosWebServer.HalfDuplex
import KyrosWebServer.SendPending

/-!
# Sessions

The handlers of net/Server with whatever callbacks are registered, on one
connection from `accept` to `CloseConn`. A callback that only queues an answer
and arms the descriptor makes the connection a half-duplex endpoint: it is
armed for reading when nothing is queued, and for writing until all that was
queued is sent.
-/

namespace KyrosWebServer.Net

open CMemory Base TransitionSystem HalfDuplex

variable {χ α : Type}

/-- A connection with its context and its registration. -/
structure Session (χ : Type) where
  /-- The connection. -/
  conn : Connection
  /-- What `setContext` left in the connection. -/
  mContext : χ
  /-- What the kernel keeps for its descriptor. -/
  mEpoll : Registration

/-- The bytes of the send buffer and of the attached file that are not sent. -/
def Connection.pending (conn : Connection) : List UInt8 :=
  conn.mWriteBuffer.unread ++ conn.m_iv1.bytes

namespace Session

/-- `epoll_mod`: fails when the descriptor has been deleted. -/
def epollMod (s : Session χ) (ev : Interest) : Session χ :=
  if s.mEpoll = .absent then s else { s with mEpoll := .armed ev }

/-- `enableConnRead`. -/
def enableConnRead (s : Session χ) : Session χ := s.epollMod .EPOLLIN

/-- `enableConnWrite`. -/
def enableConnWrite (s : Session χ) : Session χ := s.epollMod .EPOLLOUT

/-- `CloseConn`, as far as the connection is concerned. -/
def CloseConn (s : Session χ) : Session χ := { s with mEpoll := .absent }

@[simp] theorem epollMod_conn (s : Session χ) (ev : Interest) : (s.epollMod ev).conn = s.conn := by
  unfold epollMod
  split <;> rfl

@[simp] theorem epollMod_mContext (s : Session χ) (ev : Interest) :
    (s.epollMod ev).mContext = s.mContext := by
  unfold epollMod
  split <;> rfl

/-- A descriptor that is registered gets the new interest. -/
theorem epollMod_mEpoll (s : Session χ) (ev : Interest) :
    (s.epollMod ev).mEpoll = if s.mEpoll = .absent then .absent else .armed ev := by
  unfold epollMod
  split
  · assumption
  · rfl

end Session

/-- The callbacks of a server. `α` is what the read callback depends on besides
the connection. -/
structure Callbacks (χ α : Type) where
  /-- `setReadCallBack`, if it was called. -/
  rCallBack : Option (α → Session χ → Except Fault (Session χ))
  /-- `setWriteCallBack`, if it was called. -/
  wCallBack : Option (Session χ → Session χ)

namespace Callbacks

variable (H : Callbacks χ α)

/-- `handleRead` against the reports of its `recv` calls; `none` while the
last one has not come back. -/
def handleRead (a : α) (rs : List RecvResult) (s : Session χ) :
    Except Fault (Option (Session χ)) := do
  let ((ret, _), mReadBuffer) ← s.conn.mReadBuffer.readFd rs
  let s := { s with conn := { s.conn with mReadBuffer := mReadBuffer } }
  match ret with
  | none => return none
  | some ret =>
    if ret ≤ 0 then return some s.CloseConn
    else
      match H.rCallBack with
      | some rCallBack => some <$> rCallBack a s
      | none => return some s

/-- `wCallBack`, where there is one. -/
def written (s : Session χ) : Session χ :=
  match H.wCallBack with
  | some wCallBack => wCallBack s
  | none => s

/-- `handleWrite` against the reports of its `writev` calls. -/
def handleWrite (rs : List WritevResult) (s : Session χ) : Except Fault (Option (Session χ)) := do
  let ((ret, _), conn) ← s.conn.send rs
  let s := { s with conn := conn }
  match ret with
  | none => return none
  | some ret =>
    if ret = -1 then return some s.CloseConn
    else if ret > 0 then return some s.enableConnWrite
    else if ret = 0 then return some (H.written s).enableConnRead
    else return some s

end Callbacks

/-- What happens to a session: events of its descriptor, each with the whole
handler that it leads to. -/
inductive SessionMove
  /-- `handleRead`: the bytes received and the bytes queued. -/
  | read (got queued : List UInt8)
  /-- `handleWrite`: the bytes sent. -/
  | write (sent : List UInt8)
  /-- `EventLoop` closes the connection for `EPOLLRDHUP`, `EPOLLHUP` or `EPOLLERR`. -/
  | hangup

/-- A session as an endpoint. -/
def SessionMove.move : SessionMove → Move UInt8
  | read _ queued => .reply queued
  | write sent => .emit sent
  | hangup => .close

/-- The bytes that a move receives. -/
def SessionMove.received : SessionMove → List UInt8
  | read got _ => got
  | _ => []

/-- No answer has 2 GiB or more. -/
def SessionMove.Fits : SessionMove → Prop
  | read _ queued => queued.length < 2147483648
  | _ => True

/-- An event disarms the descriptor, and its handler runs to the end. -/
inductive Session.Step (H : Callbacks χ α) : Session χ → SessionMove → Session χ → Prop
  | read {s s' : Session χ} {a : α} {rs rest : List RecvResult} {ret : Option ℤ} {b : FixedBuffer}
      {got : List UInt8} (harmed : s.mEpoll = .armed .EPOLLIN)
      (hrecv : s.conn.mReadBuffer.readFd rs = .ok ((ret, rest), b))
      (hgot : b.unread = s.conn.mReadBuffer.unread ++ got)
      (hcall : H.handleRead a rs { s with mEpoll := .disarmed } = .ok (some s')) :
      Step H s (.read got s'.conn.pending) s'
  | write {s s' : Session χ} {rs rest : List WritevResult} {ret : Option ℤ} {out : List UInt8}
      {conn : Connection} (harmed : s.mEpoll = .armed .EPOLLOUT) (hrs : Outcomes s.conn rs)
      (hsend : s.conn.send rs = .ok ((ret, out, rest), conn))
      (hcall : H.handleWrite rs { s with mEpoll := .disarmed } = .ok (some s')) :
      Step H s (.write out) s'
  | hangup {s : Session χ} {ev : Interest} (harmed : s.mEpoll = .armed ev) :
      Step H s .hangup s.CloseConn

/-- All runs of sessions that begin as `start` says. -/
def session (H : Callbacks χ α) (start : Session χ → Prop) : System (Session χ) SessionMove where
  start := start
  step := Session.Step H

/-- All bytes received in a run. -/
def receivedBytes (ms : List SessionMove) : List UInt8 := ms.flatMap SessionMove.received

/-- All bytes sent in a run. -/
def sentBytes (ms : List SessionMove) : List UInt8 := emitted (ms.map SessionMove.move)

/-- All bytes queued in a run. -/
def queuedBytes (ms : List SessionMove) : List UInt8 := replied (ms.map SessionMove.move)

theorem Pending.pending_eq {conn : Connection} {rest : List UInt8} (h : Pending conn rest) :
    conn.pending = rest := h.stream_eq.symm

/-- A call of `send` that comes back took a prefix off the pending stream. It
returned zero when nothing was left, a positive number when bytes were left,
or `-1`. -/
theorem Pending.send_outcomes {conn conn' : Connection} {pending : List UInt8}
    (h : Pending conn pending) (hlt : pending.length < 2147483648) {rs rest : List WritevResult}
    (hrs : Outcomes conn rs) {ret : ℤ} {out : List UInt8}
    (hsend : conn.send rs = .ok ((some ret, out, rest), conn')) :
    ∃ left, pending = out ++ left ∧
      (ret = 0 ∧ left = [] ∧ Pending conn' [] ∨ 0 < ret ∧ Pending conn' left ∨ ret = -1) := by
  induction rs generalizing conn pending out with
  | nil => cases hsend
  | cons r rs ih =>
    obtain ⟨hr, hnext⟩ := hrs
    cases r with
    | count n =>
      obtain ⟨bytes, hoffered, hpos, hle, -⟩ := hr
      rw [h.offered_eq] at hoffered
      cases hoffered
      obtain ⟨conn₁, h₁, hturn⟩ := h.sendTurn_count hpos hle
      obtain ⟨out₁, hsend₁, rfl⟩ := (send_cons hturn).mp hsend
      obtain ⟨left, hleft, hcase⟩ :=
        ih h₁ (by rw [List.length_drop]; omega) (hnext _ _ _ hturn) hsend₁
      refine ⟨left, ?_, hcase⟩
      rw [List.append_assoc, ← hleft, List.take_append_drop]
    | again =>
      rw [send_of_turn h.sendTurn_again rs] at hsend
      obtain ⟨hout, rfl⟩ := Prod.mk.inj (Except.ok.inj hsend)
      obtain ⟨hret, hrest⟩ := Prod.mk.inj hout
      obtain ⟨rfl, rfl⟩ := Prod.mk.inj hrest
      have hint : ret = pending.length := by
        rw [← Option.some.inj hret]
        unfold toInt
        omega
      refine ⟨pending, rfl, ?_⟩
      by_cases hempty : pending = []
      · subst hempty
        exact .inl ⟨hint, rfl, h⟩
      · have hpos := List.length_pos_iff.mpr hempty
        exact .inr (.inl ⟨by omega, h⟩)
    | zero =>
      have hnil : pending = [] := h.pre_of_reportable (r := .zero) hr
      subst hnil
      have hturn : conn.sendTurn .zero = .ok ((some 0, []), { conn with m_iv1 := Iovec.null }) := by
        rw [Connection.sendTurn, h.offered_eq, ok_bind]
        rfl
      rw [send_of_turn hturn rs] at hsend
      cases hsend
      have hsplit := List.append_eq_nil_iff.mp h.stream_eq.symm
      refine ⟨[], rfl, .inl ⟨rfl, rfl, h.valid, ?_, rfl, by simp [Iovec.null]⟩⟩
      rw [hsplit.1]
      rfl
    | failed =>
      have hturn : conn.sendTurn .failed =
          .ok ((some (-1), []), { conn with m_iv1 := Iovec.null }) := by
        rw [Connection.sendTurn, h.offered_eq, ok_bind]
        rfl
      rw [send_of_turn hturn rs] at hsend
      cases hsend
      exact ⟨pending, rfl, .inr (.inr rfl)⟩

/-- Where a session stands as an endpoint; `I` is what the callbacks keep of the
receive buffer and the context. -/
inductive Session.Stands (I : FixedBuffer → χ → Prop) (s : Session χ) : Phase UInt8 → Prop
  | reading : s.mEpoll = .armed .EPOLLIN → Pending s.conn [] →
      I s.conn.mReadBuffer s.mContext → Stands I s .reading
  | writing {rest : List UInt8} : s.mEpoll = .armed .EPOLLOUT → Pending s.conn rest →
      rest.length < 2147483648 → I s.conn.mReadBuffer s.mContext → Stands I s (.writing rest)
  | closed {lost : List UInt8} : s.mEpoll = .absent → Stands I s (.closed lost)

/-- What a read callback leaves: an answer and a descriptor armed for writing,
or no answer and a descriptor armed for reading. -/
structure Session.Answered (I : FixedBuffer → χ → Prop) (s : Session χ) : Prop where
  /-- The file attached, if any, can be sent as a whole. -/
  pending : Pending s.conn s.conn.pending
  /-- The invariant is kept. -/
  inv : I s.conn.mReadBuffer s.mContext
  /-- The descriptor is armed. -/
  armed : s.mEpoll = .armed .EPOLLOUT ∨ s.mEpoll = .armed .EPOLLIN ∧ s.conn.pending = []

/-- What the handlers need to know of the callbacks. -/
structure Callbacks.Keeps (H : Callbacks χ α) (I : FixedBuffer → χ → Prop) : Prop where
  /-- Received bytes do not matter to the invariant. -/
  received : ∀ b x rs out b', I b x → b.readFd rs = .ok (out, b') → I b' x
  /-- There is a read callback. -/
  registered : H.rCallBack ≠ none
  /-- Called when nothing is queued, it answers. -/
  answers : ∀ rCallBack, H.rCallBack = some rCallBack → ∀ a s s', s.mEpoll = .disarmed →
    Pending s.conn [] → I s.conn.mReadBuffer s.mContext → rCallBack a s = .ok s' → s'.Answered I
  /-- The write callback may close the connection and does nothing else. -/
  finishes : ∀ s : Session χ, H.written s = s ∨ H.written s = s.CloseConn

section Handlers

variable {H : Callbacks χ α} {I : FixedBuffer → χ → Prop} {s s' : Session χ}

/-- `handleRead` closes the connection or calls the callback. -/
theorem Callbacks.handleRead_cases {a : α} {rs : List RecvResult}
    (h : H.handleRead a rs s = .ok (some s')) :
    ∃ out b, s.conn.mReadBuffer.readFd rs = .ok (out, b) ∧
      (s' = Session.CloseConn { s with conn := { s.conn with mReadBuffer := b } } ∨
        H.rCallBack = none ∨ ∃ rCallBack, H.rCallBack = some rCallBack ∧
          rCallBack a { s with conn := { s.conn with mReadBuffer := b } } = .ok s') := by
  obtain ⟨⟨⟨ret, rest⟩, b⟩, hrecv, h⟩ := bind_eq_ok h
  refine ⟨_, b, hrecv, ?_⟩
  cases ret with
  | none => cases h
  | some ret =>
    dsimp only at h
    by_cases hret : ret ≤ 0
    · rw [if_pos hret] at h
      cases h
      exact .inl rfl
    · rw [if_neg hret] at h
      cases hcb : H.rCallBack with
      | none => exact .inr (.inl rfl)
      | some rCallBack =>
        rw [hcb] at h
        dsimp only at h
        refine .inr (.inr ⟨rCallBack, rfl, ?_⟩)
        cases hcall : rCallBack a { s with conn := { s.conn with mReadBuffer := b } } with
        | error e =>
          rw [hcall] at h
          cases h
        | ok t =>
          rw [hcall] at h
          cases h
          rfl

/-- A handler for bytes that came in leaves the session at one of its places. -/
theorem Callbacks.Keeps.handleRead (hH : H.Keeps I) {a : α} {rs : List RecvResult}
    (hdisarmed : s.mEpoll = .disarmed) (hpending : Pending s.conn [])
    (hI : I s.conn.mReadBuffer s.mContext) (hfits : s'.conn.pending.length < 2147483648)
    (h : H.handleRead a rs s = .ok (some s')) :
    ∃ p : Phase UInt8, p.rest = s'.conn.pending ∧ s'.Stands I p := by
  obtain ⟨out, b, hrecv, hcase⟩ := Callbacks.handleRead_cases h
  have hpending' : Pending { s.conn with mReadBuffer := b } [] :=
    ⟨hpending.valid, hpending.stream_eq, hpending.len_eq, hpending.len_lt⟩
  rcases hcase with rfl | hnone | ⟨rCallBack, hcb, hcall⟩
  · exact ⟨.closed [], hpending'.pending_eq.symm, .closed rfl⟩
  · exact absurd hnone hH.registered
  · have hans := hH.answers rCallBack hcb a
      { s with conn := { s.conn with mReadBuffer := b } } s' hdisarmed hpending'
      (hH.received _ _ _ _ _ hI hrecv) hcall
    rcases hans.armed with hwrite | ⟨hread, hempty⟩
    · exact ⟨.writing s'.conn.pending, rfl, .writing hwrite hans.pending hfits hans.inv⟩
    · refine ⟨.reading, hempty.symm, .reading hread ?_ hans.inv⟩
      rw [← hempty]
      exact hans.pending

/-- Sending leaves the receive buffer alone. -/
theorem Callbacks.Keeps.handleWrite_mReadBuffer (hH : H.Keeps I) {rs : List WritevResult}
    (h : H.handleWrite rs s = .ok (some s')) : s'.conn.mReadBuffer = s.conn.mReadBuffer := by
  obtain ⟨⟨⟨ret, out⟩, conn⟩, hsend, h⟩ := bind_eq_ok h
  have hread : conn.mReadBuffer = s.conn.mReadBuffer := (Connection.send_frame hsend).1
  have hwritten : (H.written { s with conn := conn }).conn = conn := by
    rcases hH.finishes { s with conn := conn } with hsame | hclosed
    · rw [hsame]
    · rw [hclosed]
      rfl
  cases ret with
  | none => cases h
  | some ret =>
    dsimp only at h
    split at h
    · cases h
      exact hread
    · split at h
      · cases h
        rw [Session.enableConnWrite, Session.epollMod_conn]
        exact hread
      · split at h
        · cases h
          rw [Session.enableConnRead, Session.epollMod_conn, hwritten]
          exact hread
        · cases h
          exact hread

/-- A handler for room in the socket sends a prefix of what is pending. -/
theorem Callbacks.Keeps.handleWrite (hH : H.Keeps I) {rs rest : List WritevResult} {ret : Option ℤ}
    {out pending : List UInt8} {conn : Connection} (hdisarmed : s.mEpoll = .disarmed)
    (hpending : Pending s.conn pending) (hlt : pending.length < 2147483648)
    (hI : I s.conn.mReadBuffer s.mContext) (hrs : Outcomes s.conn rs)
    (hsend : s.conn.send rs = .ok ((ret, out, rest), conn))
    (h : H.handleWrite rs s = .ok (some s')) :
    ∃ p : Phase UInt8, pending = out ++ p.rest ∧ s'.Stands I p := by
  have hread : conn.mReadBuffer = s.conn.mReadBuffer := (Connection.send_frame hsend).1
  rw [Callbacks.handleWrite, hsend, ok_bind] at h
  cases ret with
  | none => cases h
  | some ret =>
    obtain ⟨left, hleft, hcase⟩ := hpending.send_outcomes hlt hrs hsend
    have hle : left.length ≤ pending.length := by
      rw [hleft, List.length_append]
      omega
    have hI' : I conn.mReadBuffer s.mContext := hread ▸ hI
    rcases hcase with ⟨rfl, rfl, hconn⟩ | ⟨hpos, hconn⟩ | rfl
    · -- everything is sent
      have hs' : s' = (H.written { s with conn := conn }).enableConnRead := by
        cases h
        rfl
      rcases hH.finishes { s with conn := conn } with hsame | hclosed
      · refine ⟨.reading, hleft, ?_⟩
        rw [hs', hsame]
        refine .reading ?_ ?_ ?_
        · rw [Session.enableConnRead, Session.epollMod_mEpoll, hdisarmed]
          rfl
        · rw [Session.enableConnRead, Session.epollMod_conn]
          exact hconn
        · rw [Session.enableConnRead, Session.epollMod_conn, Session.epollMod_mContext]
          exact hI'
      · refine ⟨.closed [], hleft, ?_⟩
        rw [hs', hclosed]
        exact .closed (by rw [Session.enableConnRead, Session.epollMod_mEpoll]; rfl)
    · have hs' : s' = Session.enableConnWrite { s with conn := conn } := by
        dsimp only at h
        rw [if_neg (by omega), if_pos hpos] at h
        cases h
        rfl
      refine ⟨.writing left, hleft, ?_⟩
      rw [hs']
      refine .writing ?_ ?_ (by omega) ?_
      · rw [Session.enableConnWrite, Session.epollMod_mEpoll, hdisarmed]
        rfl
      · rw [Session.enableConnWrite, Session.epollMod_conn]
        exact hconn
      · rw [Session.enableConnWrite, Session.epollMod_conn, Session.epollMod_mContext]
        exact hI'
    · refine ⟨.closed left, hleft, ?_⟩
      cases h
      exact .closed rfl

end Handlers

/-- With callbacks that answer, a session is a half-duplex endpoint. -/
theorem session_refines {H : Callbacks χ α} {I : FixedBuffer → χ → Prop} (hH : H.Keeps I)
    {start : Session χ → Prop} (hstart : ∀ s, start s → s.Stands I .reading) :
    System.Simulation ((session H start).restrict SessionMove.Fits) (endpoint UInt8)
      (fun m => some m.move) (Session.Stands I) where
  start s hs := ⟨.reading, rfl, hstart s hs⟩
  silent s m t p _ _ hvis := by cases hvis
  visible s m t p m' hs hstep hvis := by
    obtain ⟨hfits, hstep⟩ := hstep
    cases hvis
    cases hstep with
    | read harmed hrecv hgot hcall =>
      cases hs with
      | reading _ hpending hI =>
        obtain ⟨q, hq, hstands⟩ := hH.handleRead (s := { s with mEpoll := .disarmed })
          rfl hpending hI hfits hcall
        refine ⟨q, ?_, hstands⟩
        rw [SessionMove.move, ← hq]
        exact .reply q
      | writing hother => rw [harmed] at hother; cases hother
      | closed hother => rw [harmed] at hother; cases hother
    | write harmed hrs hsend hcall =>
      cases hs with
      | reading hother => rw [harmed] at hother; cases hother
      | writing _ hpending hlt hI =>
        obtain ⟨q, hq, hstands⟩ := hH.handleWrite (s := { s with mEpoll := .disarmed })
          rfl hpending hlt hI hrs hsend hcall
        refine ⟨q, ?_, hstands⟩
        rw [hq]
        exact .emit _ q
      | closed hother => rw [harmed] at hother; cases hother
    | hangup harmed => exact ⟨.closed p.rest, .close p, .closed rfl⟩

/-- What is out of all that was queued, by the place where the session stands. -/
theorem Session.Stands.output {I : FixedBuffer → χ → Prop} {s : Session χ} {p : Phase UInt8}
    (hp : s.Stands I p) {sent queued : List UInt8} (hall : sent ++ p.rest = queued) :
    sent <+: queued ∧ (s.mEpoll ≠ .absent → sent ++ s.conn.pending = queued) ∧
      (s.mEpoll = .armed .EPOLLIN → s.conn.pending = []) := by
  refine ⟨⟨p.rest, hall⟩, fun hopen => ?_, fun harmed => ?_⟩
  · cases hp with
    | reading _ hpending _ => rwa [hpending.pending_eq]
    | writing _ hpending _ _ => rwa [hpending.pending_eq]
    | closed habsent => exact absurd habsent hopen
  · cases hp with
    | reading _ hpending _ => exact hpending.pending_eq
    | writing hother _ _ _ =>
      rw [harmed] at hother
      cases hother
    | closed habsent =>
      rw [harmed] at habsent
      cases habsent

/-- In every run, the bytes sent and those that the session still owes or has
lost by being closed are the bytes queued. -/
theorem session_output {H : Callbacks χ α} {I : FixedBuffer → χ → Prop} (hH : H.Keeps I)
    {start : Session χ → Prop} (hstart : ∀ s, start s → s.Stands I .reading) {s₀ s : Session χ}
    {ms : List SessionMove} (hrun : ((session H start).restrict SessionMove.Fits).Run s₀ ms s)
    (hs₀ : start s₀) : ∃ p : Phase UInt8, s.Stands I p ∧ sentBytes ms ++ p.rest = queuedBytes ms := by
  obtain ⟨p, hrun', hp⟩ := (session_refines hH hstart).run hrun (hstart s₀ hs₀)
  have hmoves : ms.filterMap (fun m => some m.move) = ms.map SessionMove.move :=
    congrFun List.filterMap_eq_map ms
  rw [hmoves] at hrun'
  exact ⟨p, hp, run_conserves hrun'⟩

/-- So what is sent is what was queued, from the front, and all of it whenever
the session is armed for reading. -/
theorem session_output_order {H : Callbacks χ α} {I : FixedBuffer → χ → Prop} (hH : H.Keeps I)
    {start : Session χ → Prop} (hstart : ∀ s, start s → s.Stands I .reading) {s₀ s : Session χ}
    {ms : List SessionMove} (hrun : ((session H start).restrict SessionMove.Fits).Run s₀ ms s)
    (hs₀ : start s₀) :
    sentBytes ms <+: queuedBytes ms ∧
      (s.mEpoll ≠ .absent → sentBytes ms ++ s.conn.pending = queuedBytes ms) ∧
      (s.mEpoll = .armed .EPOLLIN → s.conn.pending = []) := by
  obtain ⟨p, hp, hall⟩ := session_output hH hstart hrun hs₀
  exact hp.output hall

end KyrosWebServer.Net
