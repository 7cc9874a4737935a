import KyrosWebServer.ServerSchedule
import KyrosWebServer.StreamReply

/-!
# Every connection of the server is a conversation

Whatever the threads do in between, what happens on one connection is a
conversation in which every event is handled at once. A handler is counted as
done at its last access to the connection; from there to its end it only hands
the connection on. So all that is known of conversations holds of every
connection of a server with any number of workers, and every conversation
happens on one.
-/

namespace KyrosWebServer.Http

open CMemory Base FixedBuffer Net TransitionSystem HttpConnection

variable {HttpCallback : HttpServeFunc} {disk : MappedFiles → Prop}

/-- The contents of a connection are those that the conversation `ms` has left in `t`. -/
structure Explains (ms : List Exchange) (t : HttpConnection) (d : Traffic) : Prop where
  /-- Buffers, flag and file. -/
  conn : d.conn = t.conn
  /-- Request and response. -/
  mContext : d.mContext = t.mContext
  /-- The bytes that came in. -/
  received : d.received = heard ms
  /-- The bytes that went out. -/
  sent : d.sent = wire ms

/-- A handler has received bytes that are not in the conversation yet. -/
structure Receives (ms : List Exchange) (t : HttpConnection) (d : Traffic) : Prop where
  /-- The conversation waits for input. -/
  armed : t.mEpoll = .armed .EPOLLIN
  /-- Only the receive buffer has changed. -/
  conn : d.conn = { t.conn with mReadBuffer := d.conn.mReadBuffer }
  /-- The context has not. -/
  mContext : d.mContext = t.mContext
  /-- The bytes are new in the buffer. -/
  recv : ∃ rs rest ret got, t.conn.mReadBuffer.readFd rs = .ok ((some ret, rest), d.conn.mReadBuffer) ∧
    ¬ ret ≤ 0 ∧ d.conn.mReadBuffer.unread = t.conn.mReadBuffer.unread ++ got ∧
      d.received = heard ms ++ got
  /-- Nothing has gone out. -/
  sent : d.sent = wire ms

/-- How far a handler has come with the next exchange. `closed` says whether
`CloseConn` has been called. -/
inductive Underway (ms : List Exchange) (t : HttpConnection) (closed : Prop) :
    HandlerAt → Traffic → Prop
  | handleRead {d : Traffic} (h : Explains ms t d) (harmed : t.mEpoll = .armed .EPOLLIN) :
      Underway ms t closed .handleRead d
  | logRead {d : Traffic} (h : Receives ms t d) : Underway ms t closed .logRead d
  | readCb {d : Traffic} (h : Receives ms t d) : Underway ms t closed .readCb d
  | badRequest {d : Traffic} {req : HttpRequest} {b : FixedBuffer} (h : Receives ms t d)
      (hread : processRead d.mContext.Request d.conn.mReadBuffer = .ok (BAD_REQUEST, req, b)) :
      Underway ms t closed .badRequest (d.parsed req b)
  | getRequest {d : Traffic} {req : HttpRequest} {b : FixedBuffer} (h : Receives ms t d)
      (hread : processRead d.mContext.Request d.conn.mReadBuffer = .ok (GET_REQUEST, req, b)) :
      Underway ms t closed .getRequest (d.parsed req b)
  | handleWrite {d : Traffic} (h : Explains ms t d) (harmed : t.mEpoll = .armed .EPOLLOUT) :
      Underway ms t closed .handleWrite d
  | writeCb {d : Traffic} (h : Explains ms t d)
      (hreg : t.mEpoll = if d.conn.mAlive then .armed .EPOLLIN else .absent) :
      Underway ms t closed .writeCb d
  | enableConnRead {d : Traffic} (h : Explains ms t d) (hreg : t.mEpoll = .armed .EPOLLIN ∨ closed) :
      Underway ms t closed .enableConnRead d
  | enableConnWrite {d : Traffic} (h : Explains ms t d) (harmed : t.mEpoll = .armed .EPOLLOUT) :
      Underway ms t closed .enableConnWrite d
  | closeDel {d : Traffic} {b : Bool} (h : Explains ms t d) (hclosed : closed) :
      Underway ms t closed (.closeDel b) d
  | closeErase {d : Traffic} {b : Bool} (h : Explains ms t d) (hclosed : closed) :
      Underway ms t closed (.closeErase b) d

theorem wire_snoc (ms : List Exchange) (m : Exchange) :
    wire (ms ++ [m]) = wire ms ++ m.move.move.emitted := by
  simp [wire, sentBytes, HalfDuplex.emitted]

/-- A closed connection stays closed. -/
theorem Underway.mono {ms : List Exchange} {t : HttpConnection} {closed closed' : Prop} {pc : HandlerAt}
    {d : Traffic} (h : Underway ms t closed pc d) (hclosed : closed → closed') :
    Underway ms t closed' pc d := by
  cases h with
  | handleRead h harmed => exact .handleRead h harmed
  | logRead h => exact .logRead h
  | readCb h => exact .readCb h
  | badRequest h hread => exact .badRequest h hread
  | getRequest h hread => exact .getRequest h hread
  | handleWrite h harmed => exact .handleWrite h harmed
  | writeCb h hreg => exact .writeCb h hreg
  | enableConnRead h hreg => exact .enableConnRead h (hreg.imp_right hclosed)
  | enableConnWrite h harmed => exact .enableConnWrite h harmed
  | closeDel h hdone => exact .closeDel h (hclosed hdone)
  | closeErase h hdone => exact .closeErase h (hclosed hdone)

/-- Received bytes that `readCb` works off are an exchange. -/
theorem Receives.converses {ms : List Exchange} {t t' : HttpConnection} {d : Traffic}
    (h : Receives ms t d) {table : MappedFiles}
    (hcall : ReadCb HttpCallback table.files ⟨d.conn, d.mContext, .disarmed⟩ t') :
    ∃ m, Converses HttpCallback t m t' ∧ d.received = heard (ms ++ [m]) ∧ d.sent = wire (ms ++ [m]) ∧
      ∀ resp, .answer resp ∈ m.replies → resp = t'.mContext.Response := by
  obtain ⟨rs, rest, ret, got, hrecv, hret, hgot, hreceived⟩ := h.recv
  obtain ⟨r, hreply⟩ := hcall.exists_reply
  have hstate : (⟨d.conn, d.mContext, .disarmed⟩ : HttpConnection) =
      { t with conn := { t.conn with mReadBuffer := d.conn.mReadBuffer }, mEpoll := .disarmed } := by
    rw [← h.conn, h.mContext]
  rw [hstate] at hcall hreply
  have hread : t.readReply HttpCallback table.files rs = .ok r := by
    rw [readReply, hrecv, ok_bind]
    dsimp only
    rw [if_neg hret]
    exact hreply
  have hhandle : HttpConnection.handleRead HttpCallback table.files rs { t with mEpoll := .disarmed } =
      .ok (some t') := by
    rw [HttpConnection.handleRead, hrecv, ok_bind]
    dsimp only
    rw [if_neg hret, readCb_eq_ok.mpr hcall]
    rfl
  refine ⟨.read got r, .read h.armed hrecv hgot hread hhandle, ?_, ?_, ?_⟩
  · rw [heard_snoc, hreceived]
    rfl
  · rw [wire_snoc, h.sent]
    exact (List.append_nil _).symm
  · intro resp hresp
    rcases hcall.reply_cases hreply with ⟨rfl, -⟩ | ⟨rfl, -⟩ | ⟨rfl, -⟩
    · cases hresp
    · cases List.mem_singleton.mp hresp
    · cases List.mem_singleton.mp hresp
      rfl

/-- What must be known of the user's callback and of the files for the exchanges
of all connections to be `allowed`. -/
structure Admits (HttpCallback : HttpServeFunc) (disk : MappedFiles → Prop)
    (small : HttpResponse → Prop) (allowed : Exchange → Prop) : Prop where
  /-- A new response. -/
  create : small HttpResponse.create
  /-- The status does not matter. -/
  status : ∀ resp code, small resp → small (resp.setStatusCode code)
  /-- The callback keeps to it. -/
  callback : ∀ table, disk table → ∀ req resp, small resp → small (HttpCallback table.files req resp)
  /-- Exchanges that answer with such responses. -/
  exchange : ∀ m : Exchange, (∀ resp, .answer resp ∈ m.replies → small resp) → allowed m

/-- The conversation goes on by one exchange at most. -/
def Grows (HttpCallback : HttpServeFunc) (allowed : Exchange → Prop) (ms : List Exchange)
    (t : HttpConnection) (ms' : List Exchange) (t' : HttpConnection) : Prop :=
  ms' = ms ∧ t' = t ∨ ∃ m, allowed m ∧ Converses HttpCallback t m t' ∧ ms' = ms ++ [m]

/-- What an exchange grows from is kept. -/
theorem Grows.run {allowed : Exchange → Prop} {s₀ t t' : HttpConnection} {ms ms' : List Exchange}
    (h : Grows HttpCallback allowed ms t ms' t')
    (hrun : ((conversation HttpCallback).restrict allowed).Run s₀ ms t) :
    ((conversation HttpCallback).restrict allowed).Run s₀ ms' t' := by
  rcases h with ⟨rfl, rfl⟩ | ⟨m, hm, hstep, rfl⟩
  · exact hrun
  · exact hrun.snoc ⟨hm, hstep⟩

/-- How the contents of a connection fit the conversation behind a move of its handler. -/
structure Continues (ms : List Exchange) (t : HttpConnection) (closed : Prop) (pc pc' : HandlerAt)
    (d : Traffic) : Prop where
  /-- All that has gone out is in the conversation. -/
  sent : d.sent = wire ms
  /-- What has come in is in it, but for what a handler has just received. -/
  received : heard ms <+: d.received
  /-- The handler goes on with the next exchange. -/
  underway : pc' ≠ .returned → Underway ms t closed pc' d
  /-- At its end it arms the descriptor as the conversation says. -/
  armed : ∀ armed, pc = .enableConnRead ∧ armed = .EPOLLIN ∨ pc = .enableConnWrite ∧ armed = .EPOLLOUT →
    Explains ms t d ∧ (t.mEpoll = .armed armed ∨ closed)

/-- A handler that is not about to arm its descriptor. -/
theorem Continues.of_underway {ms : List Exchange} {t : HttpConnection} {closed : Prop}
    {pc pc' : HandlerAt} {d : Traffic} (hsent : d.sent = wire ms) (hreceived : heard ms <+: d.received)
    (hpc : pc ≠ .enableConnRead ∧ pc ≠ .enableConnWrite)
    (hnext : pc' ≠ .returned → Underway ms t closed pc' d) : Continues ms t closed pc pc' d where
  sent := hsent
  received := hreceived
  underway := hnext
  armed _ h := by
    rcases h with ⟨h, -⟩ | ⟨h, -⟩
    · exact absurd h hpc.1
    · exact absurd h hpc.2

/-- `readCb` is done with the connection and is about to arm its descriptor. -/
theorem Receives.finish {small : HttpResponse → Prop} {allowed : Exchange → Prop}
    (hadmits : Admits HttpCallback disk small allowed) {ms : List Exchange} {t t' : HttpConnection}
    {d d' : Traffic} {closed : Prop} {pc pc' : HandlerAt} (h : Receives ms t d) {table : MappedFiles}
    (hcall : ReadCb HttpCallback table.files ⟨d.conn, d.mContext, .disarmed⟩ t')
    (hsmall : small t'.mContext.Response) (hconn : d'.conn = t'.conn) (hcontext : d'.mContext = t'.mContext)
    (hreceived : d'.received = d.received) (hsent : d'.sent = d.sent)
    (hpc : pc ≠ .enableConnRead ∧ pc ≠ .enableConnWrite)
    (hnext : ∀ ms, Explains ms t' d' → Underway ms t' closed pc' d') :
    ∃ ms' t', Grows HttpCallback allowed ms t ms' t' ∧ Continues ms' t' closed pc pc' d' := by
  obtain ⟨m, hstep, hheard, hwire, hanswer⟩ := h.converses hcall
  have hallowed : allowed m := hadmits.exchange m fun resp hresp => by
    rw [hanswer resp hresp]
    exact hsmall
  have hexplains : Explains (ms ++ [m]) t' d' :=
    ⟨hconn, hcontext, hreceived.trans hheard, hsent.trans hwire⟩
  exact ⟨ms ++ [m], t', .inr ⟨m, hallowed, hstep, rfl⟩, .of_underway hexplains.sent
    (by rw [hexplains.received]) hpc fun _ => hnext _ hexplains⟩

/-- `recv` closes the connection or leaves new bytes. -/
theorem Explains.recv {small : HttpResponse → Prop} {allowed : Exchange → Prop}
    (hadmits : Admits HttpCallback disk small allowed) {ms : List Exchange} {t : HttpConnection}
    {d : Traffic} {closed : Prop} (h : Explains ms t d) (harmed : t.mEpoll = .armed .EPOLLIN)
    {rs rest : List RecvResult} {ret : ℤ} {b : FixedBuffer} {got : List UInt8}
    (hrecv : d.conn.mReadBuffer.readFd rs = .ok ((some ret, rest), b))
    (hgot : b.unread = d.conn.mReadBuffer.unread ++ got)
    (hclosed : ∀ b, afterRecv ret = .closeDel b → closed) :
    ∃ ms' t', Grows HttpCallback allowed ms t ms' t' ∧
      Continues ms' t' closed .handleRead (afterRecv ret) (d.receive b got) := by
  rw [h.conn] at hrecv hgot
  by_cases hret : ret ≤ 0
  · have hreply : t.readReply HttpCallback noFiles.files rs = .ok none := by
      rw [readReply, hrecv, ok_bind]
      exact if_pos hret
    have hhandle : HttpConnection.handleRead HttpCallback noFiles.files rs
        { t with mEpoll := .disarmed } = .ok (some (HttpConnection.CloseConn
          { t with conn := { t.conn with mReadBuffer := b }, mEpoll := .disarmed })) := by
      rw [HttpConnection.handleRead, hrecv, ok_bind]
      exact if_pos hret
    have hpc : afterRecv ret = .closeDel false := if_pos hret
    have hexplains : Explains (ms ++ [.read got none]) (HttpConnection.CloseConn
        { t with conn := { t.conn with mReadBuffer := b }, mEpoll := .disarmed }) (d.receive b got) := by
      refine ⟨?_, h.mContext, ?_, ?_⟩
      · rw [Traffic.receive, h.conn]
        rfl
      · rw [heard_snoc, Traffic.receive, h.received]
        rfl
      · rw [wire_snoc, Traffic.receive, h.sent]
        exact (List.append_nil _).symm
    refine ⟨_, _, .inr ⟨_, ?_, .read harmed hrecv hgot hreply hhandle, rfl⟩, ?_⟩
    · exact hadmits.exchange _ fun resp hresp => by cases hresp
    · refine .of_underway hexplains.sent (by rw [hexplains.received])
        ⟨HandlerAt.noConfusion, HandlerAt.noConfusion⟩ fun _ => ?_
      rw [hpc]
      exact .closeDel hexplains (hclosed false hpc)
  · have hpc : afterRecv ret = .logRead := if_neg hret
    have hreceives : Receives ms t (d.receive b got) :=
      ⟨harmed, by rw [Traffic.receive, h.conn], h.mContext,
        ⟨rs, rest, ret, got, hrecv, hret, hgot, by rw [Traffic.receive, h.received]⟩, h.sent⟩
    refine ⟨ms, t, .inl ⟨rfl, rfl⟩, .of_underway h.sent ?_
      ⟨HandlerAt.noConfusion, HandlerAt.noConfusion⟩ fun _ => ?_⟩
    · rw [Traffic.receive, h.received]
      exact List.prefix_append _ _
    · rw [hpc]
      exact .logRead hreceives

/-- `send` takes bytes out, and what it returned decides how the handler goes on. -/
theorem Explains.send {small : HttpResponse → Prop} {allowed : Exchange → Prop}
    (hadmits : Admits HttpCallback disk small allowed) {ms : List Exchange} {t : HttpConnection}
    {d : Traffic} {closed : Prop} (h : Explains ms t d) (harmed : t.mEpoll = .armed .EPOLLOUT)
    {rs rest : List WritevResult} {ret : ℤ} {out : List UInt8} {conn : Connection}
    (hrs : Outcomes d.conn rs) (hsend : d.conn.send rs = .ok ((some ret, out, rest), conn))
    (hclosed : ∀ b, afterSend ret = .closeDel b → closed) :
    ∃ ms' t', Grows HttpCallback allowed ms t ms' t' ∧
      Continues ms' t' closed .handleWrite (afterSend ret)
        { d with conn := conn, sent := d.sent ++ out } := by
  rw [h.conn] at hrs hsend
  obtain ⟨t', hhandle, hconn, hcontext, hcase⟩ :=
    handleWrite_afterSend (s := { t with mEpoll := .disarmed }) rfl hsend
  have hexplains : Explains (ms ++ [.write out]) t' { d with conn := conn, sent := d.sent ++ out } := by
    refine ⟨hconn.symm, ?_, ?_, ?_⟩
    · rw [hcontext]
      exact h.mContext
    · rw [heard_snoc, h.received]
      exact (List.append_nil _).symm
    · rw [wire_snoc, h.sent]
      rfl
  refine ⟨_, t', .inr ⟨_, ?_, .write harmed hrs hsend hhandle, rfl⟩, ?_⟩
  · exact hadmits.exchange _ fun resp hresp => by cases hresp
  refine .of_underway hexplains.sent (by rw [hexplains.received])
    ⟨HandlerAt.noConfusion, HandlerAt.noConfusion⟩ fun hne => ?_
  rcases hcase with ⟨hpc, -⟩ | ⟨hpc, hreg⟩ | ⟨hpc, hreg⟩ | ⟨hpc, -⟩
  · rw [hpc]
    exact .closeDel hexplains (hclosed false hpc)
  · rw [hpc]
    exact .enableConnWrite hexplains hreg
  · rw [hpc]
    exact .writeCb hexplains hreg
  · exact absurd hpc hne

/-- What `processRead` returned decides whether the handler replies. -/
theorem Receives.processRead {small : HttpResponse → Prop} {allowed : Exchange → Prop}
    (hadmits : Admits HttpCallback disk small allowed) {ms : List Exchange} {t : HttpConnection}
    {d : Traffic} {closed : Prop} (h : Receives ms t d) (hsmall : small d.mContext.Response)
    {code : HTTP_CODE} {req : HttpRequest} {b : FixedBuffer}
    (hread : processRead d.mContext.Request d.conn.mReadBuffer = .ok (code, req, b)) :
    ∃ ms' t', Grows HttpCallback allowed ms t ms' t' ∧
      Continues ms' t' closed .readCb (afterProcessRead code) (d.parsed req b) := by
  have hprefix : heard ms <+: d.received := by
    obtain ⟨-, -, -, got, -, -, -, hreceived⟩ := h.recv
    rw [hreceived]
    exact List.prefix_append _ _
  have hstays : (afterProcessRead code ≠ .returned →
      Underway ms t closed (afterProcessRead code) (d.parsed req b)) →
      ∃ ms' t', Grows HttpCallback allowed ms t ms' t' ∧
        Continues ms' t' closed .readCb (afterProcessRead code) (d.parsed req b) := fun hunderway =>
    ⟨ms, t, .inl ⟨rfl, rfl⟩, .of_underway h.sent hprefix
      ⟨HandlerAt.noConfusion, HandlerAt.noConfusion⟩ hunderway⟩
  by_cases hbad : code = BAD_REQUEST
  · subst hbad
    exact hstays fun _ => .badRequest h hread
  by_cases hget : code = GET_REQUEST
  · subst hget
    exact hstays fun _ => .getRequest h hread
  have hcall : ReadCb HttpCallback noFiles.files ⟨d.conn, d.mContext, .disarmed⟩ _ :=
    .waiting hread hbad hget
  refine h.finish hadmits hcall (by rw [epollMod_mContext]; exact hsmall) (by rw [epollMod_conn]; rfl)
    (by rw [epollMod_mContext]; rfl) rfl rfl ⟨HandlerAt.noConfusion, HandlerAt.noConfusion⟩
    fun ms' hexplains => ?_
  cases code with
  | BAD_REQUEST => exact absurd rfl hbad
  | GET_REQUEST => exact absurd rfl hget
  | NO_REQUEST => exact .enableConnRead hexplains (.inl rfl)
  | _ => exact .enableConnWrite hexplains rfl

/-- One move of a handler takes the conversation on by one exchange at most. -/
theorem Work.continues {small : HttpResponse → Prop} {allowed : Exchange → Prop}
    (hadmits : Admits HttpCallback disk small allowed) {ms : List Exchange} {t : HttpConnection}
    {d d' : Traffic} {pc pc' : HandlerAt} {closed closed' : Prop}
    (hwork : Work HttpCallback disk pc d pc' d') (h : Underway ms t closed pc d)
    (hsmall : small d.mContext.Response) (hmono : closed → closed')
    (hclosed : ∀ b, pc' = .closeDel b → closed') :
    ∃ ms' t', Grows HttpCallback allowed ms t ms' t' ∧ Continues ms' t' closed' pc pc' d' := by
  cases hwork with
  | recv hrecv hgot =>
    cases h with
    | handleRead h harmed => exact h.recv hadmits harmed hrecv hgot hclosed
  | log =>
    cases h with
    | logRead h =>
      obtain ⟨-, -, -, got, -, -, -, hreceived⟩ := h.recv
      refine ⟨ms, t, .inl ⟨rfl, rfl⟩, .of_underway h.sent ?_
        ⟨HandlerAt.noConfusion, HandlerAt.noConfusion⟩ fun _ => .readCb h⟩
      rw [hreceived]
      exact List.prefix_append _ _
  | processRead hread =>
    cases h with
    | readCb h => exact h.processRead hadmits hsmall hread
  | badRequest hresp happend =>
    cases h with
    | badRequest h hread =>
      subst hresp
      have hcall : ReadCb HttpCallback noFiles.files ⟨_, _, .disarmed⟩ _ := .rejected hread happend
      exact h.finish hadmits hcall (hadmits.status _ _ hsmall) rfl rfl rfl rfl
        ⟨HandlerAt.noConfusion, HandlerAt.noConfusion⟩ fun _ hexplains => .enableConnWrite hexplains rfl
  | @getRequest _ table _ _ _ hdisk hresp happend hiv =>
    cases h with
    | @getRequest d req b h hread =>
      have hsame : ∀ (c : Prop) [Decidable c] (F : Base.FileSystem),
          (if c then Http.setFile (d.parsed req b).conn F else (d.parsed req b).conn).m_iv1 =
            (if c then Http.setFile d.conn F else d.conn).m_iv1 := by
        intro c _ F
        split <;> rfl
      have hcall : ReadCb HttpCallback table.files ⟨_, _, .disarmed⟩ _ :=
        .answered hread hresp happend (hiv.trans (hsame _ _))
      refine h.finish hadmits hcall ?_ rfl rfl rfl rfl
        ⟨HandlerAt.noConfusion, HandlerAt.noConfusion⟩ fun _ hexplains => .enableConnWrite hexplains rfl
      rw [HttpConnection.enableConnWrite, epollMod_mContext, hresp]
      exact hadmits.callback table hdisk _ _ (hadmits.status _ _ hsmall)
  | send hrs hsend =>
    cases h with
    | handleWrite h harmed => exact h.send hadmits harmed hrs hsend hclosed
  | writeCb =>
    cases h with
    | writeCb h hreg =>
      refine ⟨ms, t, .inl ⟨rfl, rfl⟩, .of_underway h.sent (by rw [h.received])
        ⟨HandlerAt.noConfusion, HandlerAt.noConfusion⟩ fun _ => ?_⟩
      cases halive : d.conn.mAlive with
      | true =>
        rw [halive] at hreg
        exact .enableConnRead h (.inl hreg)
      | false => exact .closeDel h (hclosed true (by rw [halive]; rfl))
  | enableConnRead =>
    cases h with
    | enableConnRead h hreg =>
      refine ⟨ms, t, .inl ⟨rfl, rfl⟩, h.sent, by rw [h.received], fun hne => absurd rfl hne, ?_⟩
      rintro armed (⟨-, rfl⟩ | ⟨hpc, -⟩)
      · exact ⟨h, hreg.imp_right hmono⟩
      · cases hpc
  | enableConnWrite =>
    cases h with
    | enableConnWrite h harmed =>
      refine ⟨ms, t, .inl ⟨rfl, rfl⟩, h.sent, by rw [h.received], fun hne => absurd rfl hne, ?_⟩
      rintro armed (⟨hpc, -⟩ | ⟨-, rfl⟩)
      · cases hpc
      · exact ⟨h, .inl harmed⟩
  | closeDel =>
    cases h with
    | closeDel h hdone =>
      exact ⟨ms, t, .inl ⟨rfl, rfl⟩, .of_underway h.sent (by rw [h.received])
        ⟨HandlerAt.noConfusion, HandlerAt.noConfusion⟩ fun _ => .closeErase h (hmono hdone)⟩
  | @closeErase _ b =>
    cases h with
    | closeErase h hdone =>
      refine ⟨ms, t, .inl ⟨rfl, rfl⟩, .of_underway h.sent (by rw [h.received])
        ⟨HandlerAt.noConfusion, HandlerAt.noConfusion⟩ fun hne => ?_⟩
      cases b with
      | true => exact .enableConnRead h (.inr (hmono hdone))
      | false => exact absurd rfl hne

/-- What a handler does keeps a response small. -/
theorem Work.small {small : HttpResponse → Prop} {allowed : Exchange → Prop}
    (hadmits : Admits HttpCallback disk small allowed) {d d' : Traffic} {pc pc' : HandlerAt}
    (hwork : Work HttpCallback disk pc d pc' d') (h : small d.mContext.Response) :
    small d'.mContext.Response := by
  cases hwork with
  | badRequest hresp happend =>
    subst hresp
    exact hadmits.status _ _ h
  | getRequest hdisk hresp happend hiv =>
    subst hresp
    exact hadmits.callback _ hdisk _ _ (hadmits.status _ _ h)
  | _ => exact h

/-- A handler starts on the event that it waits for. -/
theorem react_addTask_asked {mListenFd : ℤ} {ev : EpollEvent} {armed : Interest} {pc : HandlerAt}
    (h : react mListenFd ev = .addTask pc) (hasked : Asked armed ev.events) :
    pc = .handleRead ∧ armed = .EPOLLIN ∨ pc = .handleWrite ∧ armed = .EPOLLOUT := by
  unfold react at h
  split at h
  · cases h
  split at h
  · cases h
  · next herr =>
    split at h
    · next hin =>
      cases h
      exact .inl ⟨rfl, hasked.input hin⟩
    split at h
    · next hout =>
      cases h
      exact .inr ⟨rfl, hasked.output hout⟩
    · simp only [Bool.or_eq_true, not_or] at herr
      rw [if_neg herr.2] at h
      cases h

/-- A conversation leaves one thing in its connection. -/
theorem Explains.unique {ms : List Exchange} {t : HttpConnection} {d d' : Traffic} (h : Explains ms t d)
    (h' : Explains ms t d') : d = d' := by
  obtain ⟨conn, mContext, received, sent⟩ := d
  obtain ⟨conn', mContext', received', sent'⟩ := d'
  obtain ⟨rfl, rfl, rfl, rfl⟩ := h
  obtain ⟨rfl, rfl, rfl, rfl⟩ := h'
  rfl

namespace HttpServer

variable {W : ℕ} {mListenFd : ℤ} {small : HttpResponse → Prop} {allowed : Exchange → Prop}

/-- Whoever holds a connection finds in it what the conversation has left. -/
def Finds (s : HttpServer W) (conn : ConnPtr) (ms : List Exchange) (t : HttpConnection) : Holder → Prop
  | .loop => Explains ms t (s.traffic conn) ∧ t.mEpoll = .armed .EPOLLIN
  | .epoll armed => Explains ms t (s.traffic conn) ∧ t.mEpoll = .armed armed
  | .array ev => Explains ms t (s.traffic conn) ∧ ∃ armed, t.mEpoll = .armed armed ∧ Asked armed ev.events
  | .handler pc => Underway ms t (s.mServer.Closed conn) pc (s.traffic conn)

/-- A connection has gone through the conversation `ms`, which has led to `t`. -/
structure Follows (HttpCallback : HttpServeFunc) (allowed : Exchange → Prop) (mListenFd : ℤ)
    (s : HttpServer W) (conn : ConnPtr) (ms : List Exchange) (t : HttpConnection) : Prop where
  /-- It began with new buffers. -/
  begun : ∃ rb wb : FixedBuffer, Created rb ∧ Created wb ∧
    ((conversation HttpCallback).restrict allowed).Run (.accept rb wb) ms t
  /-- All that has gone out is in it. -/
  sent : (s.traffic conn).sent = wire ms
  /-- What has come in is in it, but for what a handler has just received. -/
  received : heard ms <+: (s.traffic conn).received
  /-- Whoever holds the connection goes on from there. -/
  held : ∀ x, s.mServer.HeldBy mListenFd conn x → s.Finds conn ms t x

/-- Every connection of the server goes through a conversation. -/
structure Conversing (HttpCallback : HttpServeFunc) (small : HttpResponse → Prop)
    (allowed : Exchange → Prop) (mListenFd : ℤ) (s : HttpServer W) : Prop where
  /-- What holds of the threads and the descriptors. -/
  inv : Server.Inv mListenFd s.mServer
  /-- Descriptors tell connections apart. -/
  owners : Server.Owners mListenFd s.mServer
  /-- Identities are used once. -/
  made : Server.Made s.mServer
  /-- All responses are small. -/
  responses : ∀ conn, small (s.traffic conn).mContext.Response
  /-- There is a conversation for each connection. -/
  follows : ∀ conn, ∃ ms t, Follows HttpCallback allowed mListenFd s conn ms t

/-- A connection that somebody holds has been made before. -/
theorem id_lt {s : HttpServer W} (hs : Server.Made s.mServer) {conn : ConnPtr} {x : Holder}
    (hx : s.mServer.HeldBy mListenFd conn x) : conn.id < s.mServer.created := by
  cases x with
  | loop => exact hs.new conn hx
  | epoll armed => exact hs.mapped _ conn hx.2
  | array ev => exact hs.mapped _ conn hx.2.2
  | handler pc => exact hs.bound _ hx.1

/-- It began with empty buffers. -/
theorem Follows.run {s : HttpServer W} {conn : ConnPtr} {ms : List Exchange} {t : HttpConnection}
    (h : Follows HttpCallback allowed mListenFd s conn ms t) :
    ∃ rb wb : FixedBuffer, (rb.Valid ∧ rb.unread = []) ∧ (wb.Valid ∧ wb.unread = []) ∧
      ((conversation HttpCallback).restrict allowed).Run (.accept rb wb) ms t := by
  obtain ⟨rb, wb, hrb, hwb, hrun⟩ := h.begun
  exact ⟨rb, wb, hrb.empty, hwb.empty, hrun⟩

/-- A new connection has an empty conversation. -/
theorem follows_new {s : HttpServer W} {conn : ConnPtr} {rb wb : FixedBuffer} (hrb : Created rb)
    (hwb : Created wb)
    (htraffic : s.traffic conn = .accept rb wb)
    (hheld : ∀ x, s.mServer.HeldBy mListenFd conn x → x = .loop) :
    Follows HttpCallback allowed mListenFd s conn [] (.accept rb wb) := by
  refine ⟨⟨rb, wb, hrb, hwb, .nil⟩, ?_, ?_, fun x hx => ?_⟩
  · rw [htraffic]
    rfl
  · exact List.nil_prefix
  · rw [hheld x hx]
    refine ⟨?_, rfl⟩
    rw [htraffic]
    exact ⟨rfl, rfl, rfl, rfl⟩

/-- A move that leaves the contents of a connection alone leaves its conversation alone. -/
theorem Follows.keep {s s' : HttpServer W} {a : Server.Label W} {conn : ConnPtr} {ms : List Exchange}
    {t : HttpConnection} (h : Follows HttpCallback allowed mListenFd s conn ms t)
    (hstep : Server.Step mListenFd s.mServer a s'.mServer) (hinv : Server.Inv mListenFd s.mServer)
    (howners : Server.Owners mListenFd s.mServer) (htraffic : s'.traffic conn = s.traffic conn)
    (hasked : ∀ ev armed, a = .deliver ev → s.mServer.mEpoll ev.fd = .armed armed → Asked armed ev.events)
    (haccept : ∀ ev, a = .event ev → react mListenFd ev = .accept → s'.mServer.loop ≠ .inserting conn)
    (hhandler : ∀ i pc, a ≠ .handler i conn pc) :
    Follows HttpCallback allowed mListenFd s' conn ms t := by
  refine ⟨h.begun, by rw [htraffic]; exact h.sent, by rw [htraffic]; exact h.received, fun x hx => ?_⟩
  rcases hstep.held hinv howners hx with ⟨hold, -⟩ | hpass
  · have hfinds := h.held x hold
    cases x with
    | handler pc =>
      change Underway ms t _ pc (s'.traffic conn)
      rw [htraffic]
      exact Underway.mono hfinds fun hclosed => hclosed.step hinv hstep
    | _ =>
      unfold Finds at hfinds ⊢
      rw [htraffic]
      exact hfinds
  · unfold Finds
    rw [htraffic]
    cases hpass with
    | accept hreact hloop hid => exact absurd hloop (haccept _ rfl hreact)
    | register hheld => exact h.held .loop hheld
    | deliver hheld hfd =>
      obtain ⟨hexplains, harmed⟩ := h.held (.epoll _) hheld
      exact ⟨hexplains, _, harmed, hasked _ _ rfl (by rw [hfd]; exact hheld.1)⟩
    | dispatch hheld hreact =>
      obtain ⟨hexplains, armed, harmed, hflags⟩ := h.held (.array _) hheld
      rcases react_addTask_asked hreact hflags with ⟨rfl, rfl⟩ | ⟨rfl, rfl⟩
      · exact .handleRead hexplains harmed
      · exact .handleWrite hexplains harmed
    | handler hrun hpc => exact absurd rfl (hhandler _ _)
    | armRead hrun hreg => exact absurd rfl (hhandler _ _)
    | armWrite hrun hreg => exact absurd rfl (hhandler _ _)

/-- A move of its handler takes the conversation of a connection on. -/
theorem Follows.work (hadmits : Admits HttpCallback disk small allowed) {s : HttpServer W}
    {server : Server W} {i : Fin W} {task : Task} {pc : HandlerAt} {d : Traffic} {ms : List Exchange}
    {t : HttpConnection} (h : Follows HttpCallback allowed mListenFd s task.conn ms t)
    (hs : Conversing HttpCallback small allowed mListenFd s)
    (hrun : s.mServer.mThreadpool.workers i = .running task)
    (hstep : Server.HandlerStep task.conn task.pc s.mServer pc server)
    (hwork : Work HttpCallback disk task.pc (s.traffic task.conn) pc d) :
    ∃ ms' t', Follows HttpCallback allowed mListenFd
      ⟨server.setTask i ⟨task.conn, pc⟩, Function.update s.traffic task.conn d⟩ task.conn ms' t' := by
  have hmove : Server.Step mListenFd s.mServer (.handler i task.conn pc)
      (server.setTask i ⟨task.conn, pc⟩) := .handler hrun hstep
  have hinv := hmove.inv hs.inv
  have hhas : s.mServer.mThreadpool.Has ⟨task.conn, task.pc⟩ := .inr ⟨i, hrun⟩
  have hnext : (server.setTask i ⟨task.conn, pc⟩).mThreadpool.Has ⟨task.conn, pc⟩ :=
    .inr ⟨i, Function.update_self ..⟩
  have hbusy : task.pc ≠ .returned := by
    intro hpc
    have htoken := hstep.token
    rw [hpc] at htoken
    cases htoken
  have hunderway : Underway ms t (s.mServer.Closed task.conn) task.pc (s.traffic task.conn) :=
    h.held (.handler task.pc) ⟨hhas, hbusy⟩
  obtain ⟨ms', t', hgrows, hcont⟩ := hwork.continues hadmits hunderway (hs.responses task.conn)
    (fun hclosed => hclosed.step hs.inv hmove) fun b hpc => by
      subst hpc
      exact hinv.closed_by_worker (hmove.made hs.made) hnext
  refine ⟨ms', t', ?_, ?_, ?_, ?_⟩
  · obtain ⟨rb, wb, hrb, hwb, hconv⟩ := h.begun
    exact ⟨rb, wb, hrb, hwb, hgrows.run hconv⟩
  · dsimp only
    rw [Function.update_self]
    exact hcont.sent
  · dsimp only
    rw [Function.update_self]
    exact hcont.received
  · intro x hx
    have hpass := hstep.passes hs.inv hrun hx
    unfold Finds
    dsimp only
    rw [Function.update_self]
    have harm : ∀ armed, x = .epoll armed → (task.pc = .enableConnRead ∧ armed = .EPOLLIN ∨
        task.pc = .enableConnWrite ∧ armed = .EPOLLOUT) →
        Explains ms' t' d ∧ t'.mEpoll = .armed armed := by
      rintro armed rfl hpc
      obtain ⟨hexplains, harmed | hclosed⟩ := hcont.armed armed hpc
      · exact ⟨hexplains, harmed⟩
      · exact absurd hx (hclosed.not_armed hinv (hmove.owners hs.inv hs.owners) armed)
    have hat : ∀ pc', s.mServer.mThreadpool.workers i = .running ⟨task.conn, pc'⟩ → task.pc = pc' := by
      intro pc' hrun'
      rw [hrun] at hrun'
      exact congrArg Task.pc (WorkerAt.running.inj hrun')
    cases hpass with
    | handler hrun' hpc => exact hcont.underway hpc
    | armRead hrun' hreg => exact harm _ rfl (.inl ⟨hat _ hrun', rfl⟩)
    | armWrite hrun' hreg => exact harm _ rfl (.inr ⟨hat _ hrun', rfl⟩)

/-- An accepted connection has the next identity. -/
theorem accepts_next {s s' : Server W} {ev : EpollEvent} {conn : ConnPtr}
    (h : Server.Step mListenFd s (.event ev) s') (hreact : react mListenFd ev = .accept)
    (hloop : s'.loop = .inserting conn) : conn.id = s.created := by
  obtain ⟨connfd, hinserting, -⟩ := h.accepts hreact
  rw [LoopAt.inserting.inj (hloop.symm.trans hinserting)]

/-- Every move keeps every connection in a conversation. -/
theorem Step.conversing (hadmits : Admits HttpCallback disk small allowed) {s s' : HttpServer W}
    {a : Server.Label W} (h : Step HttpCallback disk mListenFd s a s')
    (hs : Conversing HttpCallback small allowed mListenFd s) :
    Conversing HttpCallback small allowed mListenFd s' := by
  have hmove := h.server
  have hkeep : ∀ conn, s'.traffic conn = s.traffic conn →
      (∀ ev armed, a = .deliver ev → s.mServer.mEpoll ev.fd = .armed armed → Asked armed ev.events) →
      (∀ ev, a = .event ev → react mListenFd ev = .accept → s'.mServer.loop ≠ .inserting conn) →
      (∀ i pc, a ≠ .handler i conn pc) →
      ∃ ms t, Follows HttpCallback allowed mListenFd s' conn ms t := by
    intro conn htraffic hasked haccept hhandler
    obtain ⟨ms, t, hfollows⟩ := hs.follows conn
    exact ⟨ms, t, hfollows.keep hmove hs.inv hs.owners htraffic hasked haccept hhandler⟩
  refine ⟨hmove.inv hs.inv, hmove.owners hs.inv hs.owners, hmove.made hs.made, fun conn => ?_,
    fun conn => ?_⟩
  · cases h with
    | @accept _ _ new raw raw' hraw hraw' hstep hreact hloop =>
      dsimp only
      by_cases hconn : conn = new
      · rw [hconn, Function.update_self]
        exact hadmits.create
      · rw [Function.update_of_ne hconn]
        exact hs.responses conn
    | @handler _ i task pc d hrun hstep hwork halive =>
      dsimp only
      by_cases hconn : conn = task.conn
      · rw [hconn, Function.update_self]
        exact hwork.small hadmits (hs.responses task.conn)
      · rw [Function.update_of_ne hconn]
        exact hs.responses conn
    | _ => exact hs.responses conn
  · cases h with
    | deliver hstep hasked =>
      refine hkeep conn rfl ?_ nofun nofun
      intro ev armed hlabel
      cases hlabel
      exact hasked armed
    | @accept ev server new raw raw' hraw hraw' hstep hreact hloop =>
      by_cases hconn : conn = new
      · subst hconn
        refine ⟨[], _, follows_new ⟨raw, hraw, rfl⟩ ⟨raw', hraw', rfl⟩ (Function.update_self ..) ?_⟩
        intro x hx
        rcases hmove.held hs.inv hs.owners hx with ⟨hold, -⟩ | hpass
        · have hid := id_lt hs.made hold
          rw [accepts_next hstep hreact hloop] at hid
          exact absurd hid (Nat.lt_irrefl _)
        · cases hpass with
          | accept hreact' hloop' hid => rfl
          | dispatch hheld hreact' =>
            rw [hreact] at hreact'
            cases hreact'
      · refine hkeep conn (Function.update_of_ne hconn ..) nofun ?_ nofun
        intro ev' _ _ hnew
        dsimp only at hnew
        rw [hloop] at hnew
        cases hnew
        exact hconn rfl
    | event hstep hreact =>
      refine hkeep conn rfl nofun ?_ nofun
      intro ev hlabel haccept
      cases hlabel
      exact absurd haccept hreact
    | loop hstep => exact hkeep conn rfl nofun nofun nofun
    | pool hstep => exact hkeep conn rfl nofun nofun nofun
    | @handler _ i task pc d hrun hstep hwork halive =>
      by_cases hconn : conn = task.conn
      · subst hconn
        obtain ⟨ms, t, hfollows⟩ := hs.follows task.conn
        exact hfollows.work hadmits hs hrun hstep hwork
      · refine hkeep conn (Function.update_of_ne hconn ..) nofun nofun ?_
        rintro j pc' hlabel
        cases hlabel
        exact hconn rfl

/-- Nothing has happened on the connections of a new server. -/
theorem new_conversing (hadmits : Admits HttpCallback disk small allowed) (W : ℕ) (mListenFd : ℤ) :
    Conversing HttpCallback small allowed mListenFd (new W) := by
  have hblank : Created FixedBuffer.blank := ⟨_, length_zeros, rfl⟩
  refine ⟨Server.new_inv W mListenFd, Server.new_owners W mListenFd, ?_, fun _ => hadmits.create,
    fun conn => ⟨[], .accept FixedBuffer.blank FixedBuffer.blank, ?_⟩⟩
  · refine ⟨?_, fun task hhas => absurd hhas (Server.new_has W task), ?_⟩
    · intro fd conn hmap
      cases hmap
    · intro conn hloop
      cases hloop
  · refine follows_new hblank hblank rfl ?_
    intro x hx
    cases x with
    | loop => rfl
    | epoll armed => cases hx.1
    | array ev => cases hx.1
    | handler pc => exact absurd hx.1 (Server.new_has W _)

/-- In every run, all connections go through conversations. -/
theorem reachable_conversing (hadmits : Admits HttpCallback disk small allowed) {s : HttpServer W}
    (h : (system W HttpCallback disk mListenFd).Reachable s) :
    Conversing HttpCallback small allowed mListenFd s := by
  refine h.invariant ?_ ?_
  · rintro s rfl
    exact new_conversing hadmits W mListenFd
  · intro s a t hs hstep
    exact Step.conversing hadmits hstep hs

/-- Any exchange is allowed when nothing is asked of it. -/
theorem admits_all (HttpCallback : HttpServeFunc) (disk : MappedFiles → Prop) :
    Admits HttpCallback disk (fun _ => True) (fun _ => True) :=
  ⟨trivial, fun _ _ _ => trivial, fun _ _ _ _ _ => trivial, fun _ _ => trivial⟩

/-- In every interleaving of the loop and the workers, each connection goes
through a conversation in which every event is handled at once: what the socket
has carried is what the conversation has sent and heard, and whenever the
connection is armed in epoll, its buffers, its context and its file are those
that the conversation has left. -/
theorem connections_converse {s : HttpServer W} (h : (system W HttpCallback disk mListenFd).Reachable s)
    (conn : ConnPtr) :
    ∃ s₀ ms t, (conversation HttpCallback).start s₀ ∧ (conversation HttpCallback).Run s₀ ms t ∧
      (s.traffic conn).sent = wire ms ∧ heard ms <+: (s.traffic conn).received ∧
      ∀ armed, s.mServer.HeldBy mListenFd conn (.epoll armed) → heard ms = (s.traffic conn).received ∧
        t = ⟨(s.traffic conn).conn, (s.traffic conn).mContext, .armed armed⟩ := by
  obtain ⟨ms, t, hfollows⟩ := (reachable_conversing (admits_all HttpCallback disk) h).follows conn
  obtain ⟨rb, wb, hrb, hwb, hrun⟩ := hfollows.run
  refine ⟨_, ms, t, ⟨rb, wb, hwb.1, hwb.2, rfl⟩, hrun.of_restrict, hfollows.sent, hfollows.received, ?_⟩
  intro armed hheld
  obtain ⟨hexplains, hreg⟩ := hfollows.held (.epoll armed) hheld
  refine ⟨hexplains.received.symm, ?_⟩
  rw [hexplains.conn, hexplains.mContext, ← hreg]

/-- So it is where a client has sent a request and got its answer. -/
theorem connections_converse_keepAliveGet : ∃ (s : HttpServer 1) (conn : ConnPtr),
    (s.traffic conn).received = keepAliveGet ∧ (s.traffic conn).sent.length = 62 ∧
    s.mServer.HeldBy 3 conn (.epoll .EPOLLIN) ∧
    ∃ s₀ ms t, (conversation ServerHttp).start s₀ ∧ (conversation ServerHttp).Run s₀ ms t ∧
      (s.traffic conn).sent = wire ms ∧ heard ms <+: (s.traffic conn).received ∧
      ∀ armed, s.mServer.HeldBy 3 conn (.epoll armed) → heard ms = (s.traffic conn).received ∧
        t = ⟨(s.traffic conn).conn, (s.traffic conn).mContext, .armed armed⟩ := by
  obtain ⟨s, conn, h, hheld, hreceived, hsent⟩ := @armed_keepAliveGet (fun _ => True) trivial
  exact ⟨s, conn, hreceived, hsent, hheld, connections_converse h conn⟩

/-- An idle server takes a connection through the next exchange of its conversation. -/
theorem Quiet.converses (hW : 0 < W) {conn : ConnPtr} (hlisten : conn.mConnfd ≠ mListenFd)
    {ms : List Exchange} {m : Exchange} {t t' : HttpConnection} {d : Traffic} {s : HttpServer W}
    (hs : Quiet (ThreadPool.started fun _ => []) conn d t.mEpoll s) (hd : Explains ms t d)
    (h : Converses HttpCallback t m t') :
    ∃ s' d', (system W HttpCallback (fun _ => True) mListenFd).Leads s s' ∧
      Quiet (ThreadPool.started fun _ => []) conn d' t'.mEpoll s' ∧ Explains (ms ++ [m]) t' d' := by
  have hstate : { t with mEpoll := .disarmed } = (⟨d.conn, d.mContext, .disarmed⟩ : HttpConnection) := by
    rw [hd.conn, hd.mContext]
  cases h with
  | @read _ table rs rest ret b got reply harmed hrecv hgot hreply hcall =>
    rw [harmed] at hs
    rw [← hd.conn] at hrecv hgot
    rw [hstate] at hcall
    obtain ⟨s', hleads, hs'⟩ : ∃ s', (system W HttpCallback (fun _ => True) mListenFd).Leads s s' ∧
        Quiet _ conn _ t'.mEpoll s' := hs.reads hW hlisten trivial hrecv hgot hcall
    refine ⟨s', _, hleads, hs', rfl, rfl, ?_, ?_⟩
    · rw [heard_snoc, ← hd.received]
      rfl
    · rw [wire_snoc, ← hd.sent]
      exact (List.append_nil _).symm
  | @write _ rs rest ret out conn' harmed hrs hsend hcall =>
    rw [harmed] at hs
    rw [← hd.conn] at hrs hsend
    rw [hstate] at hcall
    obtain ⟨s', hleads, hs'⟩ := hs.writes hW hlisten hrs hsend hcall
    refine ⟨s', _, hleads, hs', rfl, rfl, ?_, ?_⟩
    · rw [heard_snoc, ← hd.received]
      exact (List.append_nil _).symm
    · rw [wire_snoc, ← hd.sent]
      rfl
  | hangup harmed =>
    rw [harmed] at hs
    obtain ⟨s', hleads, hs'⟩ := hs.hangup hlisten
    refine ⟨s', d, hleads, hs', hd.conn, hd.mContext, ?_, ?_⟩
    · rw [heard_snoc, ← hd.received]
      exact (List.append_nil _).symm
    · rw [wire_snoc, ← hd.sent]
      exact (List.append_nil _).symm

/-- Every conversation happens on some connection of the server. -/
theorem exists_conversation (hW : 0 < W) (HttpCallback : HttpServeFunc) (mListenFd : ℤ)
    {rb wb : FixedBuffer} (hrb : Created rb) (hwb : Created wb) {ms : List Exchange} {t : HttpConnection}
    (hrun : (conversation HttpCallback).Run (.accept rb wb) ms t) :
    ∃ (s : HttpServer W) (conn : ConnPtr) (d : Traffic),
      (system W HttpCallback (fun _ => True) mListenFd).Reachable s ∧ conn.mConnfd ≠ mListenFd ∧
      Quiet (ThreadPool.started fun _ => []) conn d t.mEpoll s ∧ Explains ms t d := by
  induction hrun with
  | nil =>
    obtain ⟨s, conn, hreach, hne, hs⟩ :=
      accepts_quiet W HttpCallback (fun _ => True) mListenFd hrb hwb
    exact ⟨s, conn, _, hreach, hne, hs, rfl, rfl, rfl, rfl⟩
  | snoc _ hstep ih =>
    obtain ⟨s, conn, d, hreach, hne, hs, hd⟩ := ih
    obtain ⟨s', d', hleads, hs', hd'⟩ := hs.converses hW hne hd hstep
    exact ⟨s', conn, d', hreach.leads hleads, hne, hs', hd'⟩

/-- The connections of a server with any number of workers can do exactly what
conversations do: what is in an armed connection, and what its socket has
carried, is what some conversation leaves, and every conversation leaves it in
some connection. -/
theorem armed_iff_conversation (W : ℕ) (HttpCallback : HttpServeFunc) (mListenFd : ℤ) (armed : Interest)
    (d : Traffic) :
    (∃ (s : HttpServer (W + 1)) (conn : ConnPtr),
      (system (W + 1) HttpCallback (fun _ => True) mListenFd).Reachable s ∧
        s.mServer.HeldBy mListenFd conn (.epoll armed) ∧ s.traffic conn = d) ↔
    ∃ rb wb ms t, Created rb ∧ Created wb ∧ (conversation HttpCallback).Run (.accept rb wb) ms t ∧
      t.mEpoll = .armed armed ∧ Explains ms t d := by
  constructor
  · rintro ⟨s, conn, hreach, hheld, rfl⟩
    obtain ⟨ms, t, hfollows⟩ := (reachable_conversing (admits_all HttpCallback _) hreach).follows conn
    obtain ⟨rb, wb, hrb, hwb, hrun⟩ := hfollows.begun
    obtain ⟨hexplains, harmed⟩ := hfollows.held (.epoll armed) hheld
    exact ⟨rb, wb, ms, t, hrb, hwb, hrun.of_restrict, harmed, hexplains⟩
  · rintro ⟨rb, wb, ms, t, hrb, hwb, hrun, harmed, hd⟩
    obtain ⟨s, conn, d', hreach, -, hs, hd'⟩ :=
      exists_conversation (Nat.succ_pos W) HttpCallback mListenFd hrb hwb hrun
    rw [harmed] at hs
    have hsame : s.traffic conn = d := by
      rw [hs.traffic]
      exact hd'.unique hd
    exact ⟨s, conn, hreach, ⟨hs.mEpoll, hs.mapped Registration.noConfusion⟩, hsame⟩

end HttpServer

end KyrosWebServer.Http
