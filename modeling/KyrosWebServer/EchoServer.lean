import KyrosWebServer.ByteQueue
import KyrosWebServer.ServerSession

/-!
# The echo server

The read callback of example/echoserver_test, under the handlers of net/Server.
It takes at most 128 bytes out of the receive buffer for each event, so what a
burst brings beyond that stays there until more bytes arrive. The bytes sent,
those queued and those left over are at all times the bytes received.
-/

namespace KyrosWebServer.Net

open CMemory Base TransitionSystem HalfDuplex

/-- `Connection::Write`; whether `append` refused the bytes is not looked at. -/
def Connection.Write (conn : Connection) (buf : List UInt8) : Except Fault Connection := do
  let (_, b) ← conn.mWriteBuffer.append buf
  return { conn with mWriteBuffer := b }

/-- `cb`: `Read` into `buf[128]`, `Write`, `enableConnWrite`. -/
def cb (s : Session Unit) : Except Fault (Session Unit) := do
  let ((_, buf), conn) ← s.conn.Read 128
  let conn ← conn.Write buf
  return Session.enableConnWrite { s with conn := conn }

/-- The callbacks that `main` registers. -/
def echoCallbacks : Callbacks Unit Unit := ⟨some fun _ => cb, none⟩

/-- The sessions of the echo server, from new connections on. -/
def echoServer : System (Session Unit) SessionMove :=
  session echoCallbacks fun s => s.mEpoll = .armed .EPOLLIN ∧ s.conn.mReadBuffer.Valid ∧
    s.conn.mReadBuffer.unread = [] ∧ Pending s.conn []

/-- The bytes that an event leaves in the receive buffer. -/
def SessionMove.backlog (n : ℕ) : SessionMove → ℕ
  | read got _ => n + got.length - 128
  | _ => n

/-- The bytes that a run leaves in the receive buffer. -/
def backlog (ms : List SessionMove) : ℕ := ms.foldl SessionMove.backlog 0

/-- `Read` touches the receive buffer only. -/
theorem Connection.Read_frame {conn conn' : Connection} {len : ℕ} {out : ℕ × List UInt8}
    (h : conn.Read len = .ok (out, conn')) :
    conn'.mWriteBuffer = conn.mWriteBuffer ∧ conn'.m_iv1 = conn.m_iv1 := by
  unfold Connection.Read at h
  split at h
  · obtain ⟨bytes, -, h⟩ := bind_eq_ok h
    cases h
    exact ⟨rfl, rfl⟩
  · obtain ⟨bytes, -, h⟩ := bind_eq_ok h
    cases h
    exact ⟨rfl, rfl⟩

/-- With nothing queued, `cb` queues the first 128 bytes of the receive buffer
and leaves the others there. -/
theorem cb_eq {s : Session Unit} (hdisarmed : s.mEpoll = .disarmed) (hpending : Pending s.conn [])
    (hvalid : s.conn.mReadBuffer.Valid) :
    ∃ s', cb s = .ok s' ∧ s'.mEpoll = .armed .EPOLLOUT ∧ s'.conn.mReadBuffer.Valid ∧
      s'.conn.mReadBuffer.unread = s.conn.mReadBuffer.unread.drop 128 ∧
      Pending s'.conn (s.conn.mReadBuffer.unread.take 128) := by
  have hk := kBufferSize_eq
  obtain ⟨consumed, free, h⟩ := hvalid.holds
  obtain ⟨conn₁, consumed₁, free₁, hread, h₁⟩ := Read_holds h 128
  obtain ⟨hwb, hiv⟩ := Connection.Read_frame hread
  obtain ⟨hunread, hbytes⟩ := List.append_eq_nil_iff.mp hpending.stream_eq.symm
  obtain ⟨consumedW, freeW, hW⟩ := hpending.valid.holds
  rw [hunread] at hW
  have hshort : (s.conn.mReadBuffer.unread.take 128).length ≤ kBufferSize - ([] : List UInt8).length := by
    rw [List.length_take, List.length_nil]
    omega
  obtain ⟨b, consumed₂, free₂, happend, h₂⟩ := hW.append_room hshort
  have hwrite : conn₁.Write (s.conn.mReadBuffer.unread.take 128) =
      .ok { conn₁ with mWriteBuffer := b } := by
    rw [Connection.Write, hwb, happend]
    rfl
  refine ⟨Session.enableConnWrite { s with conn := { conn₁ with mWriteBuffer := b } }, ?_, ?_, ?_,
    ?_, ?_⟩
  · rw [cb, hread, ok_bind]
    dsimp only
    rw [hwrite]
    rfl
  · rw [Session.enableConnWrite, Session.epollMod_mEpoll, hdisarmed]
    rfl
  · rw [Session.enableConnWrite, Session.epollMod_conn]
    exact h₁.valid
  · rw [Session.enableConnWrite, Session.epollMod_conn]
    exact h₁.unread_eq
  · rw [Session.enableConnWrite, Session.epollMod_conn]
    refine ⟨h₂.valid, ?_, ?_, ?_⟩
    · rw [h₂.unread_eq, hiv, hbytes]
      simp
    · exact hiv ▸ hpending.len_eq
    · exact hiv ▸ hpending.len_lt

/-- The callback answers as the sessions of the server need it. -/
theorem echoCallbacks_keep : echoCallbacks.Keeps fun b _ => b.Valid where
  received b x rs out b' hvalid hrecv := by
    obtain ⟨consumed, free, h⟩ := hvalid.holds
    obtain ⟨out₁, b₁, consumed₁, got, free₁, hread, h₁⟩ := h.readFd rs
    rw [hread] at hrecv
    cases hrecv
    exact h₁.valid
  registered := nofun
  answers rCallBack hcb a s s' hdisarmed hpending hvalid hcall := by
    cases hcb
    obtain ⟨s₁, hs₁, harmed, hvalid₁, -, hpending₁⟩ := cb_eq hdisarmed hpending hvalid
    have hsame : s₁ = s' := Except.ok.inj (hs₁.symm.trans hcall)
    subst hsame
    exact ⟨hpending₁.pending_eq.symm ▸ hpending₁, hvalid₁, .inl harmed⟩
  finishes s := .inl rfl

/-- The books of a run: what was taken out of the receive buffer has been
queued, and what is left over is counted by `backlog`. -/
structure Echoes (ms : List SessionMove) (s : Session Unit) : Prop where
  /-- The pointers of the receive buffer are in order. -/
  valid : s.conn.mReadBuffer.Valid
  /-- Every byte received is queued or left over. -/
  taken : queuedBytes ms ++ s.conn.mReadBuffer.unread = receivedBytes ms
  /-- What is left over in an open connection. -/
  left : s.mEpoll ≠ .absent → s.conn.mReadBuffer.unread.length = backlog ms

theorem queuedBytes_snoc (ms : List SessionMove) (m : SessionMove) :
    queuedBytes (ms ++ [m]) = queuedBytes ms ++ m.move.replied := by
  rw [queuedBytes, List.map_append, replied_append]
  simp [queuedBytes, replied]

theorem receivedBytes_snoc (ms : List SessionMove) (m : SessionMove) :
    receivedBytes (ms ++ [m]) = receivedBytes ms ++ m.received := by
  simp [receivedBytes]

theorem backlog_snoc (ms : List SessionMove) (m : SessionMove) :
    backlog (ms ++ [m]) = m.backlog (backlog ms) := by
  rw [backlog, List.foldl_append]
  rfl

/-- `handleRead` closes the connection and takes nothing, or it queues the
first 128 bytes. -/
theorem echo_handleRead {s s' : Session Unit} {rs rest : List RecvResult} {ret : Option ℤ}
    {b : FixedBuffer} {got : List UInt8} (hpending : Pending s.conn [])
    (hvalid : s.conn.mReadBuffer.Valid)
    (hrecv : s.conn.mReadBuffer.readFd rs = .ok ((ret, rest), b))
    (hgot : b.unread = s.conn.mReadBuffer.unread ++ got)
    (hcall : echoCallbacks.handleRead () rs { s with mEpoll := .disarmed } = .ok (some s')) :
    s'.conn.mReadBuffer.Valid ∧
      (s'.mEpoll = .absent ∧ s'.conn.pending = [] ∧
          s'.conn.mReadBuffer.unread = s.conn.mReadBuffer.unread ++ got ∨
        s'.conn.pending = (s.conn.mReadBuffer.unread ++ got).take 128 ∧
          s'.conn.mReadBuffer.unread = (s.conn.mReadBuffer.unread ++ got).drop 128) := by
  obtain ⟨out, b', hrecv', hcase⟩ := Callbacks.handleRead_cases hcall
  obtain rfl : b = b' := (Prod.mk.inj (Except.ok.inj (hrecv.symm.trans hrecv'))).2
  have hb : b.Valid := echoCallbacks_keep.received _ () _ _ _ hvalid hrecv
  have hpending' : Pending { s.conn with mReadBuffer := b } [] :=
    ⟨hpending.valid, hpending.stream_eq, hpending.len_eq, hpending.len_lt⟩
  rcases hcase with rfl | hnone | ⟨rCallBack, hcb, hcall⟩
  · exact ⟨hb, .inl ⟨rfl, hpending'.pending_eq, hgot⟩⟩
  · cases hnone
  · cases hcb
    obtain ⟨s₁, hs₁, -, hvalid₁, hleft, hpending₁⟩ := cb_eq
      (s := ⟨{ s.conn with mReadBuffer := b }, s.mContext, .disarmed⟩) rfl hpending' hb
    have hsame : s₁ = s' := Except.ok.inj (hs₁.symm.trans hcall)
    subst hsame
    exact ⟨hvalid₁, .inr ⟨hgot ▸ hpending₁.pending_eq, hgot ▸ hleft⟩⟩

/-- One event keeps the books. -/
theorem Echoes.step {ms : List SessionMove} {s s' : Session Unit} {m : SessionMove}
    (hs : Echoes ms s) (hidle : s.mEpoll = .armed .EPOLLIN → Pending s.conn [])
    (h : Session.Step echoCallbacks s m s') : m.Fits ∧ Echoes (ms ++ [m]) s' := by
  cases h with
  | @read _ a rs rest ret b got harmed hrecv hgot hcall =>
    obtain ⟨hvalid, hcase⟩ := echo_handleRead (hidle harmed) hs.valid hrecv hgot hcall
    have hleft := hs.left (by rw [harmed]; exact Registration.noConfusion)
    rcases hcase with ⟨habsent, hqueued, hunread⟩ | ⟨hqueued, hunread⟩
    · refine ⟨?_, hvalid, ?_, fun hopen => absurd habsent hopen⟩
      · rw [SessionMove.Fits, hqueued]
        exact Nat.zero_lt_succ _
      · rw [queuedBytes_snoc, receivedBytes_snoc, SessionMove.move, Move.replied, hqueued, hunread,
          List.append_nil, ← List.append_assoc, hs.taken]
        rfl
    · refine ⟨?_, hvalid, ?_, fun _ => ?_⟩
      · rw [SessionMove.Fits, hqueued, List.length_take]
        omega
      · rw [queuedBytes_snoc, receivedBytes_snoc, SessionMove.move, Move.replied, hqueued, hunread,
          List.append_assoc, List.take_append_drop, ← List.append_assoc, hs.taken]
        rfl
      · rw [backlog_snoc, hunread, List.length_drop, List.length_append, hleft]
        rfl
  | write harmed hrs hsend hcall =>
    have hsame : s'.conn.mReadBuffer = s.conn.mReadBuffer :=
      echoCallbacks_keep.handleWrite_mReadBuffer (s := { s with mEpoll := .disarmed }) hcall
    refine ⟨trivial, hsame ▸ hs.valid, ?_, fun _ => ?_⟩
    · rw [queuedBytes_snoc, receivedBytes_snoc, hsame]
      simpa [SessionMove.move, Move.replied, SessionMove.received] using hs.taken
    · rw [backlog_snoc, hsame]
      exact hs.left (by rw [harmed]; exact Registration.noConfusion)
  | hangup harmed =>
    refine ⟨trivial, hs.valid, ?_, fun hopen => absurd rfl hopen⟩
    rw [queuedBytes_snoc, receivedBytes_snoc]
    simpa [SessionMove.move, Move.replied, SessionMove.received, Session.CloseConn] using hs.taken

/-- Every run keeps the books, and no answer in it is too long to be sent. -/
theorem echo_run {s₀ s : Session Unit} {ms : List SessionMove} (hs₀ : echoServer.start s₀)
    (hrun : echoServer.Run s₀ ms s) :
    (echoServer.restrict SessionMove.Fits).Run s₀ ms s ∧ Echoes ms s := by
  induction hrun with
  | nil =>
    obtain ⟨-, hvalid, hempty, -⟩ := hs₀
    exact ⟨.nil, hvalid, hempty, fun _ => by rw [hempty]; rfl⟩
  | @snoc t u ms m _ hstep ih =>
    obtain ⟨hfits, hechoes⟩ := ih
    obtain ⟨p, hp, -⟩ := session_output echoCallbacks_keep
      (fun s ⟨harmed, hvalid, _, hpending⟩ => .reading harmed hpending hvalid) hfits hs₀
    have hidle : t.mEpoll = .armed .EPOLLIN → Pending t.conn [] := by
      intro hread
      cases hp with
      | reading _ hpending _ => exact hpending
      | writing hwrite =>
        rw [hread] at hwrite
        cases hwrite
      | closed habsent =>
        rw [hread] at habsent
        cases habsent
    obtain ⟨hm, hechoes'⟩ := hechoes.step hidle hstep
    exact ⟨hfits.snoc ⟨hm, hstep⟩, hechoes'⟩

/-- What has been sent of the bytes queued. -/
theorem echo_output {s₀ s : Session Unit} {ms : List SessionMove} (hs₀ : echoServer.start s₀)
    (hrun : echoServer.Run s₀ ms s) :
    sentBytes ms <+: queuedBytes ms ∧ (s.mEpoll ≠ .absent →
      sentBytes ms ++ s.conn.pending ++ s.conn.mReadBuffer.unread = receivedBytes ms) ∧
      (s.mEpoll = .armed .EPOLLIN → s.conn.pending = []) := by
  obtain ⟨hfits, hechoes⟩ := echo_run hs₀ hrun
  obtain ⟨hfront, hopen, hdone⟩ := session_output_order echoCallbacks_keep
    (fun s ⟨harmed, hvalid, _, hpending⟩ => .reading harmed hpending hvalid) hfits hs₀
  refine ⟨hfront, fun h => ?_, hdone⟩
  rw [hopen h, hechoes.taken]

/-- What the server sends is what it received, from the front, in every run;
in an open connection what is missing of it is pending or left over. -/
theorem echo_integrity {s₀ s : Session Unit} {ms : List SessionMove} (hs₀ : echoServer.start s₀)
    (hrun : echoServer.Run s₀ ms s) :
    sentBytes ms <+: receivedBytes ms ∧ (s.mEpoll ≠ .absent →
      sentBytes ms ++ s.conn.pending ++ s.conn.mReadBuffer.unread = receivedBytes ms) := by
  obtain ⟨-, hechoes⟩ := echo_run hs₀ hrun
  obtain ⟨hfront, hopen, -⟩ := echo_output hs₀ hrun
  exact ⟨hfront.trans ⟨_, hechoes.taken⟩, hopen⟩

/-- Bursts of at most 128 bytes leave nothing over. -/
theorem backlog_small {ms : List SessionMove} (h : ∀ m ∈ ms, m.received.length ≤ 128) :
    backlog ms = 0 := by
  induction ms using List.reverseRecOn with
  | nil => rfl
  | append_singleton ms m ih =>
    rw [backlog_snoc, ih fun x hx => h x (List.mem_append_left _ hx)]
    have hm := h m (List.mem_append_right _ (List.mem_singleton_self m))
    cases m with
    | read got queued =>
      have hgot : got.length ≤ 128 := hm
      change 0 + got.length - 128 = 0
      omega
    | write sent => rfl
    | hangup => rfl

/-- A buffer that is full closes the connection on the next event, since
`readFd` reports zero bytes. -/
theorem echo_full {s s' : Session Unit} {m : SessionMove} (hvalid : s.conn.mReadBuffer.Valid)
    (hfull : s.conn.mReadBuffer.unread.length = kBufferSize) (harmed : s.mEpoll = .armed .EPOLLIN)
    (h : Session.Step echoCallbacks s m s') : s'.mEpoll = .absent ∧ m.received = [] := by
  obtain ⟨consumed, free, hb⟩ := hvalid.holds
  have havail : s.conn.mReadBuffer.avail = 0 := by
    rw [hb.avail_eq, hfull, Nat.sub_self]
  cases h with
  | @read _ a rs rest ret b got _ hrecv hgot hcall =>
    have hnone : s.conn.mReadBuffer.readFd rs = .ok ((some 0, rs), s.conn.mReadBuffer) :=
      if_pos havail
    rw [hnone] at hrecv
    cases hrecv
    constructor
    · rw [Callbacks.handleRead, hnone, ok_bind] at hcall
      cases hcall
      rfl
    · exact List.append_cancel_left (hgot.symm.trans (List.append_nil _).symm)
  | write hwrite =>
    rw [harmed] at hwrite
    cases hwrite
  | hangup => exact ⟨rfl, rfl⟩

/-- A connection that waits for input has echoed all but its backlog: nothing is
missing when every burst had at most 128 bytes, and a backlog of the size of
the buffer loses the connection with the next event. -/
theorem echo_backlog {s₀ s : Session Unit} {ms : List SessionMove} (hs₀ : echoServer.start s₀)
    (hrun : echoServer.Run s₀ ms s) (harmed : s.mEpoll = .armed .EPOLLIN) :
    (sentBytes ms).length + backlog ms = (receivedBytes ms).length ∧ backlog ms ≤ kBufferSize ∧
      ((∀ m ∈ ms, m.received.length ≤ 128) → sentBytes ms = receivedBytes ms) ∧
      (backlog ms = kBufferSize → ∀ m s', echoServer.step s m s' →
        s'.mEpoll = .absent ∧ m.received = []) := by
  obtain ⟨-, hechoes⟩ := echo_run hs₀ hrun
  have hopen : s.mEpoll ≠ .absent := by
    rw [harmed]
    exact Registration.noConfusion
  obtain ⟨-, houtput, hdone⟩ := echo_output hs₀ hrun
  have hall := houtput hopen
  rw [hdone harmed, List.append_nil] at hall
  have hleft := hechoes.left hopen
  obtain ⟨consumed, free, hb⟩ := hechoes.valid.holds
  have hlen := hb.length_eq
  refine ⟨?_, by omega, fun hsmall => ?_, fun hfull m s' hstep => ?_⟩
  · rw [← hleft, ← hall, List.length_append]
  · rw [backlog_small hsmall] at hleft
    rw [List.length_eq_zero_iff.mp hleft, List.append_nil] at hall
    exact hall
  · exact echo_full hechoes.valid (hleft.trans hfull) harmed hstep

/-- The session of a connection just accepted. -/
def echoAccept : Session Unit := ⟨.create FixedBuffer.blank FixedBuffer.blank, (), .armed .EPOLLIN⟩

theorem echoAccept_start : echoServer.start echoAccept := by
  have hblank := FixedBuffer.create_holds (List.replicate kBufferSize 0) length_zeros
  refine ⟨rfl, hblank.valid, hblank.unread_eq, hblank.valid, ?_, rfl, Nat.zero_lt_succ _⟩
  change [] = FixedBuffer.blank.unread ++ []
  rw [show FixedBuffer.blank.unread = [] from hblank.unread_eq]
  rfl

/-- A burst of two bytes comes in and goes out. -/
theorem echo_exchange : ∃ s out, echoServer.Run echoAccept [.read [7, 8] [7, 8], .write out] s ∧
    s.mEpoll = .armed .EPOLLIN := by
  let rs : List RecvResult := [.bytes [7, 8], .again]
  let ws : List WritevResult := [.count 2, .again]
  have hrun : (do
      let received ← echoAccept.conn.mReadBuffer.readFd rs
      let s₁ ← echoCallbacks.handleRead () rs { echoAccept with mEpoll := .disarmed }
      let bytes ← (s₁.getD echoAccept).conn.offered
      let _ ← (s₁.getD echoAccept).conn.send ws
      let s₂ ← echoCallbacks.handleWrite ws { s₁.getD echoAccept with mEpoll := .disarmed }
      return ([received.2.unread, (s₁.getD echoAccept).conn.pending], bytes.length,
        s₁.map fun t => t.mEpoll, s₂.map fun t => t.mEpoll)) =
        Except.ok (ε := Fault) ([[7, 8], [7, 8]], 2, some (Registration.armed .EPOLLOUT),
          some (Registration.armed .EPOLLIN)) := by
    decide +kernel
  obtain ⟨⟨⟨ret, rest⟩, b⟩, hrecv, hrun⟩ := bind_eq_ok hrun
  obtain ⟨t₁, hread, hrun⟩ := bind_eq_ok hrun
  obtain ⟨bytes, hoffered, hrun⟩ := bind_eq_ok hrun
  obtain ⟨⟨⟨ret', out, rest'⟩, conn⟩, hsend, hrun⟩ := bind_eq_ok hrun
  obtain ⟨t₂, hwrite, hrun⟩ := bind_eq_ok hrun
  simp only [pure, Except.pure, Except.ok.injEq, Prod.mk.injEq, Option.map_eq_some_iff,
    List.cons.injEq] at hrun
  obtain ⟨⟨hgot, hpending, -⟩, hbytes, ⟨s₁, rfl, harmed₁⟩, s₂, rfl, harmed₂⟩ := hrun
  have hempty : echoAccept.conn.mReadBuffer.unread = [] := echoAccept_start.2.2.1
  have hfirst : Session.Step echoCallbacks echoAccept (.read [7, 8] s₁.conn.pending) s₁ :=
    .read rfl hrecv (by rw [hempty]; exact hgot) hread
  rw [show s₁.conn.pending = [7, 8] from hpending] at hfirst
  have hscript : Outcomes s₁.conn ws :=
    ⟨⟨bytes, hoffered, by decide, by omega, by decide⟩, fun _ _ _ _ => ⟨trivial, fun _ _ _ _ => trivial⟩⟩
  have hsecond : Session.Step echoCallbacks s₁ (.write out) s₂ := .write harmed₁ hscript hsend hwrite
  have hone : echoServer.Run echoAccept ([] ++ [.read [7, 8] [7, 8]]) s₁ := .snoc .nil hfirst
  exact ⟨s₂, out, hone.snoc hsecond, harmed₂⟩

/-- In that run nothing is missing. -/
theorem echo_integrity_exchange :
    ∃ (s : Session Unit) (out : List UInt8), s.mEpoll = .armed .EPOLLIN ∧
      out ++ s.conn.pending ++ s.conn.mReadBuffer.unread = [7, 8] := by
  obtain ⟨s, out, hrun, harmed⟩ := echo_exchange
  obtain ⟨-, hopen⟩ := echo_integrity echoAccept_start hrun
  have hall := hopen (by rw [harmed]; exact Registration.noConfusion)
  refine ⟨s, out, harmed, ?_⟩
  simpa [sentBytes, emitted, receivedBytes, SessionMove.move, Move.emitted,
    SessionMove.received] using hall

/-- And the two bytes are out. -/
theorem echo_backlog_exchange :
    ∃ (s : Session Unit) (out : List UInt8), s.mEpoll = .armed .EPOLLIN ∧ out = [7, 8] := by
  obtain ⟨s, out, hrun, harmed⟩ := echo_exchange
  obtain ⟨-, -, hsmall, -⟩ := echo_backlog echoAccept_start hrun harmed
  have hall := hsmall (by
    rintro m hm
    rcases List.mem_pair.mp hm with rfl | rfl
    · exact Nat.le_of_ble_eq_true rfl
    · exact Nat.zero_le _)
  refine ⟨s, out, harmed, ?_⟩
  simpa [sentBytes, emitted, receivedBytes, SessionMove.move, Move.emitted,
    SessionMove.received] using hall

end KyrosWebServer.Net
