import KyrosWebServer.HttpResponse
import KyrosWebServer.Server

/-!
# One connection of the HTTP server

`HttpServer` from net/HttpServer with the handlers of net/Server, on the bytes
of one connection: its two buffers, its scatter list, the request and the
response in its context, and its registration with epoll. What the kernel
answers to `recv` and `writev` is the input of a handler. The user's callback
is a function of the request and the response; it may ask for files.
-/

namespace KyrosWebServer.Http

open CMemory Base Net

/-- The context `connectedCb` gives to a connection. -/
structure HttpContext where
  /-- The request under way. -/
  Request : HttpRequest
  /-- The response, which lives as long as the connection. -/
  Response : HttpResponse

/-- A connection with its context and its registration. -/
structure HttpConnection where
  /-- The connection. -/
  conn : Connection
  /-- Its context. -/
  mContext : HttpContext
  /-- What the kernel keeps for its descriptor. -/
  mEpoll : Registration

/-- The user's callback, given the files there are when it is called. -/
abbrev HttpServeFunc : Type := FileTable → HttpRequest → HttpResponse → HttpResponse

/-- `setFile` with the file of a response; of a mapping that failed no byte
can be read. -/
def setFile (conn : Connection) (F : Base.FileSystem) : Connection :=
  { conn with m_iv1 := ⟨F.getAddr.getD [], F.getLength⟩ }

namespace HttpConnection

/-- After `accept`: a new connection with a new context, armed for reading. -/
def accept (rb wb : FixedBuffer) : HttpConnection :=
  ⟨Connection.create rb wb, ⟨HttpRequest.fresh, HttpResponse.create⟩, .armed .EPOLLIN⟩

/-- `epoll_mod`: fails when the descriptor has been deleted. -/
def epollMod (s : HttpConnection) (ev : Interest) : HttpConnection :=
  if s.mEpoll = .absent then s else { s with mEpoll := .armed ev }

/-- `enableConnRead`. -/
def enableConnRead (s : HttpConnection) : HttpConnection := s.epollMod .EPOLLIN

/-- `enableConnWrite`. -/
def enableConnWrite (s : HttpConnection) : HttpConnection := s.epollMod .EPOLLOUT

/-- `CloseConn`, as far as the connection is concerned. -/
def CloseConn (s : HttpConnection) : HttpConnection := { s with mEpoll := .absent }

/-- `readCb`. The parser has no results besides the first three. -/
def readCb (HttpCallback : HttpServeFunc) (files : FileTable) (s : HttpConnection) :
    Except Fault HttpConnection := do
  let (ret, req, mReadBuffer) ← processRead s.mContext.Request s.conn.mReadBuffer
  let conn := { s.conn with mReadBuffer := mReadBuffer }
  let resp := s.mContext.Response
  match ret with
  | NO_REQUEST => return enableConnRead { s with conn := conn, mContext := ⟨req, resp⟩ }
  | BAD_REQUEST =>
    let resp := resp.setStatusCode CLIENT_ERROR_BAD_REQUEST
    let mWriteBuffer ← resp.appendToBuffer conn.mWriteBuffer
    let conn := { conn with mAlive := false, mWriteBuffer := mWriteBuffer }
    return enableConnWrite { s with conn := conn, mContext := ⟨req, resp⟩ }
  | GET_REQUEST =>
    let resp := HttpCallback files req (resp.setStatusCode SUCCESS_OK)
    let mWriteBuffer ← resp.appendToBuffer conn.mWriteBuffer
    let conn := { conn with mWriteBuffer := mWriteBuffer }
    let conn := if resp.hasFile then setFile conn resp.mFile else conn
    let conn := { conn with mAlive := resp.isAlive && req.isAlive }
    return enableConnWrite { s with conn := conn, mContext := ⟨req.Init, resp⟩ }
  | _ => return enableConnWrite { s with conn := conn, mContext := ⟨req, resp⟩ }

/-- `WriteCb`. -/
def WriteCb (s : HttpConnection) : HttpConnection := if ¬ s.conn.mAlive then s.CloseConn else s

/-- `handleRead` against the reports of its `recv` calls; `none` while the
last one has not come back. -/
def handleRead (HttpCallback : HttpServeFunc) (files : FileTable) (rs : List RecvResult)
    (s : HttpConnection) : Except Fault (Option HttpConnection) := do
  let ((ret, _), mReadBuffer) ← s.conn.mReadBuffer.readFd rs
  let s := { s with conn := { s.conn with mReadBuffer := mReadBuffer } }
  match ret with
  | none => return none
  | some ret =>
    if ret ≤ 0 then return some s.CloseConn
    else some <$> s.readCb HttpCallback files

/-- `handleWrite` against the reports of its `writev` calls. -/
def handleWrite (rs : List WritevResult) (s : HttpConnection) :
    Except Fault (Option HttpConnection) := do
  let ((ret, _), conn) ← s.conn.send rs
  let s := { s with conn := conn }
  match ret with
  | none => return none
  | some ret =>
    if ret = -1 then return some s.CloseConn
    else if ret > 0 then return some s.enableConnWrite
    else if ret = 0 then return some s.WriteCb.enableConnRead
    else return some s

@[simp] theorem epollMod_conn (s : HttpConnection) (ev : Interest) : (s.epollMod ev).conn = s.conn := by
  unfold epollMod
  split <;> rfl

@[simp] theorem epollMod_mContext (s : HttpConnection) (ev : Interest) :
    (s.epollMod ev).mContext = s.mContext := by
  unfold epollMod
  split <;> rfl

/-- A descriptor that has been deleted is not armed again. -/
theorem epollMod_absent (s : HttpConnection) (ev : Interest) (h : s.mEpoll = .absent) :
    (s.epollMod ev).mEpoll = .absent := by
  rw [epollMod, if_pos h]
  exact h

/-- What a call of `readCb` does, by the result of the parser. -/
inductive ReadCb (HttpCallback : HttpServeFunc) (files : FileTable) (s : HttpConnection) :
    HttpConnection → Prop
  | waiting {code : HTTP_CODE} {req : HttpRequest} {b : FixedBuffer} :
      processRead s.mContext.Request s.conn.mReadBuffer = .ok (code, req, b) →
      code ≠ BAD_REQUEST → code ≠ GET_REQUEST →
      ReadCb HttpCallback files s
        (epollMod { s with conn := { s.conn with mReadBuffer := b },
                           mContext := ⟨req, s.mContext.Response⟩ }
          (if code = NO_REQUEST then .EPOLLIN else .EPOLLOUT))
  | rejected {req : HttpRequest} {b wb : FixedBuffer} :
      processRead s.mContext.Request s.conn.mReadBuffer = .ok (BAD_REQUEST, req, b) →
      (s.mContext.Response.setStatusCode CLIENT_ERROR_BAD_REQUEST).appendToBuffer
        s.conn.mWriteBuffer = .ok wb →
      ReadCb HttpCallback files s
        (enableConnWrite { s with
          conn := { s.conn with mReadBuffer := b, mAlive := false, mWriteBuffer := wb }
          mContext := ⟨req, s.mContext.Response.setStatusCode CLIENT_ERROR_BAD_REQUEST⟩ })
  | answered {req : HttpRequest} {b wb : FixedBuffer} {resp : HttpResponse} {iv : Iovec} :
      processRead s.mContext.Request s.conn.mReadBuffer = .ok (GET_REQUEST, req, b) →
      resp = HttpCallback files req (s.mContext.Response.setStatusCode SUCCESS_OK) →
      resp.appendToBuffer s.conn.mWriteBuffer = .ok wb →
      iv = (if resp.hasFile then setFile s.conn resp.mFile else s.conn).m_iv1 →
      ReadCb HttpCallback files s
        (enableConnWrite { s with
          conn := { s.conn with mReadBuffer := b, mAlive := resp.isAlive && req.isAlive,
                                mWriteBuffer := wb, m_iv1 := iv }
          mContext := ⟨req.Init, resp⟩ })

theorem readCb_eq_ok {HttpCallback : HttpServeFunc} {files : FileTable} {s s' : HttpConnection} :
    s.readCb HttpCallback files = .ok s' ↔ ReadCb HttpCallback files s s' := by
  constructor
  · intro h
    obtain ⟨⟨code, req, b⟩, hread, h⟩ := bind_eq_ok h
    cases code with
    | NO_REQUEST =>
      cases h
      exact .waiting hread HTTP_CODE.noConfusion HTTP_CODE.noConfusion
    | BAD_REQUEST =>
      obtain ⟨wb, happend, h⟩ := bind_eq_ok h
      cases h
      exact .rejected hread happend
    | GET_REQUEST =>
      obtain ⟨wb, happend, h⟩ := bind_eq_ok h
      cases h
      have hanswered := ReadCb.answered (s := s) hread rfl happend rfl
      by_cases hfile :
          (HttpCallback files req (s.mContext.Response.setStatusCode SUCCESS_OK)).hasFile = true
      · simp only [if_pos hfile] at hanswered ⊢
        exact hanswered
      · simp only [if_neg hfile] at hanswered ⊢
        exact hanswered
    | NO_RESOURCE | FORBIDDEN_REQUEST | FILE_REQUEST | INTERNAL_ERROR | CLOSED_CONNECTION =>
      cases h
      exact .waiting hread HTTP_CODE.noConfusion HTTP_CODE.noConfusion
  · intro h
    cases h with
    | @waiting code req b hread hbad hget =>
      cases code with
      | BAD_REQUEST => exact absurd rfl hbad
      | GET_REQUEST => exact absurd rfl hget
      | NO_REQUEST | NO_RESOURCE | FORBIDDEN_REQUEST | FILE_REQUEST | INTERNAL_ERROR
        | CLOSED_CONNECTION =>
        rw [readCb, hread, ok_bind]
        rfl
    | rejected hread happend =>
      rw [readCb, hread, ok_bind]
      dsimp only
      rw [happend, ok_bind]
      rfl
    | @answered req b wb resp iv hread hresp happend hiv =>
      subst hresp
      rw [readCb, hread, ok_bind]
      dsimp only
      rw [happend, ok_bind]
      by_cases hfile :
          (HttpCallback files req (s.mContext.Response.setStatusCode SUCCESS_OK)).hasFile = true
      · rw [if_pos hfile] at hiv ⊢
        subst hiv
        rfl
      · rw [if_neg hfile] at hiv ⊢
        subst hiv
        rfl

section Outcome

variable {HttpCallback : HttpServeFunc} {files : FileTable} {s s' : HttpConnection}
  {req : HttpRequest} {b : FixedBuffer}

/-- Without a complete request the connection waits for more. -/
theorem ReadCb.of_noRequest (h : ReadCb HttpCallback files s s')
    (hread : processRead s.mContext.Request s.conn.mReadBuffer = .ok (NO_REQUEST, req, b)) :
    s' = enableConnRead { s with conn := { s.conn with mReadBuffer := b },
                                 mContext := ⟨req, s.mContext.Response⟩ } := by
  cases h with
  | waiting hread' _ _ =>
    rw [hread] at hread'
    cases hread'
    rfl
  | rejected hread' _ =>
    rw [hread] at hread'
    cases hread'
  | answered hread' _ _ _ =>
    rw [hread] at hread'
    cases hread'

/-- A complete request is answered, and the parser is reset. -/
theorem ReadCb.of_getRequest (h : ReadCb HttpCallback files s s')
    (hread : processRead s.mContext.Request s.conn.mReadBuffer = .ok (GET_REQUEST, req, b)) :
    s'.conn.mReadBuffer = b ∧ s'.mContext.Request = req.Init ∧
      s'.conn.mAlive = (s'.mContext.Response.isAlive && req.isAlive) := by
  cases h with
  | waiting hread' _ hget =>
    rw [hread] at hread'
    cases hread'
    exact absurd rfl hget
  | rejected hread' _ =>
    rw [hread] at hread'
    cases hread'
  | answered hread' _ _ _ =>
    rw [hread] at hread'
    cases hread'
    simp only [enableConnWrite, epollMod_conn, epollMod_mContext]
    exact ⟨trivial, trivial, trivial⟩

/-- What `recv` returned decides between `CloseConn` and `readCb`. -/
theorem handleRead_cases {rs : List RecvResult}
    (h : s.handleRead HttpCallback files rs = .ok (some s')) :
    ∃ ret rest b, s.conn.mReadBuffer.readFd rs = .ok ((some ret, rest), b) ∧
      (ret ≤ 0 ∧ s' = CloseConn { s with conn := { s.conn with mReadBuffer := b } } ∨
        ReadCb HttpCallback files { s with conn := { s.conn with mReadBuffer := b } } s') := by
  obtain ⟨⟨⟨ret, rest⟩, b⟩, hrecv, h⟩ := bind_eq_ok h
  cases ret with
  | none => cases h
  | some ret =>
    refine ⟨ret, rest, b, hrecv, ?_⟩
    dsimp only at h
    by_cases hret : ret ≤ 0
    · rw [if_pos hret] at h
      cases h
      exact .inl ⟨hret, rfl⟩
    · rw [if_neg hret] at h
      cases hcall : readCb HttpCallback files { s with conn := { s.conn with mReadBuffer := b } } with
      | error e =>
        rw [hcall] at h
        cases h
      | ok t =>
        rw [hcall] at h
        cases h
        exact .inr (readCb_eq_ok.mp hcall)

/-- `handleWrite` leaves the receive buffer and the request alone. -/
theorem handleWrite_frame {rs : List WritevResult} (h : s.handleWrite rs = .ok (some s')) :
    s'.conn.mReadBuffer = s.conn.mReadBuffer ∧ s'.mContext = s.mContext ∧
      (s.mEpoll = .absent → s'.mEpoll = .absent) := by
  obtain ⟨⟨⟨ret, out⟩, conn⟩, hsend, h⟩ := bind_eq_ok h
  have hread := (Connection.send_frame hsend).1
  cases ret with
  | none => cases h
  | some ret =>
    dsimp only at h
    split at h
    · cases h
      exact ⟨hread, rfl, fun _ => rfl⟩
    split at h
    · cases h
      exact ⟨by rw [enableConnWrite, epollMod_conn]; exact hread,
        by rw [enableConnWrite, epollMod_mContext], fun habsent => epollMod_absent _ .EPOLLOUT habsent⟩
    split at h
    · cases h
      refine ⟨?_, ?_, fun habsent => epollMod_absent _ .EPOLLIN ?_⟩
      · rw [enableConnRead, epollMod_conn, WriteCb]
        split <;> exact hread
      · rw [enableConnRead, epollMod_mContext, WriteCb]
        split <;> rfl
      · rw [WriteCb]
        split
        · rfl
        · exact habsent
    · cases h
      exact ⟨hread, rfl, id⟩

/-- No call arms a descriptor that has been deleted. -/
theorem ReadCb.absent (h : ReadCb HttpCallback files s s') (hs : s.mEpoll = .absent) :
    s'.mEpoll = .absent := by
  cases h with
  | waiting _ _ _ => exact epollMod_absent _ _ hs
  | rejected _ _ | answered _ _ _ _ => exact epollMod_absent _ .EPOLLOUT hs

end Outcome

/-- Behind `send`, the handler closes the connection, arms it for writing or goes
on with `WriteCb`; the whole of `handleWrite` does the same at once. -/
theorem handleWrite_afterSend {s : HttpConnection} (hs : s.mEpoll = .disarmed) {rs rest : List WritevResult}
    {ret : ℤ} {out : List UInt8} {conn : Connection}
    (hsend : s.conn.send rs = .ok ((some ret, out, rest), conn)) :
    ∃ t, s.handleWrite rs = .ok (some t) ∧ t.conn = conn ∧ t.mContext = s.mContext ∧
      (afterSend ret = .closeDel false ∧ t.mEpoll = .absent ∨
        afterSend ret = .enableConnWrite ∧ t.mEpoll = .armed .EPOLLOUT ∨
        afterSend ret = .writeCb ∧ t.mEpoll = (if conn.mAlive then .armed .EPOLLIN else .absent) ∨
        afterSend ret = .returned ∧ t.mEpoll = .disarmed) := by
  have harm : ∀ ev, (HttpConnection.epollMod { s with conn := conn } ev).mEpoll = .armed ev := by
    intro ev
    rw [HttpConnection.epollMod, if_neg (by rw [hs]; exact Registration.noConfusion)]
  rw [HttpConnection.handleWrite, hsend, ok_bind]
  dsimp only
  unfold afterSend
  by_cases hfailed : ret = -1
  · rw [if_pos hfailed, if_pos hfailed]
    exact ⟨_, rfl, rfl, rfl, .inl ⟨rfl, rfl⟩⟩
  rw [if_neg hfailed, if_neg hfailed]
  by_cases hmore : ret > 0
  · rw [if_pos hmore, if_pos hmore]
    exact ⟨_, rfl, HttpConnection.epollMod_conn .., HttpConnection.epollMod_mContext ..,
      .inr (.inl ⟨rfl, harm .EPOLLOUT⟩)⟩
  rw [if_neg hmore, if_neg hmore]
  by_cases hdone : ret = 0
  · rw [if_pos hdone, if_pos hdone]
    refine ⟨_, rfl, ?_, ?_, .inr (.inr (.inl ⟨rfl, ?_⟩))⟩
    · rw [enableConnRead, HttpConnection.epollMod_conn, WriteCb]
      split <;> rfl
    · rw [enableConnRead, HttpConnection.epollMod_mContext, WriteCb]
      split <;> rfl
    · cases halive : conn.mAlive with
      | true =>
        rw [WriteCb, if_neg (not_not_intro halive), if_pos rfl]
        exact harm .EPOLLIN
      | false =>
        rw [WriteCb, if_pos (by rw [halive]; exact Bool.false_ne_true), if_neg Bool.false_ne_true]
        exact HttpConnection.epollMod_absent _ _ rfl
  · rw [if_neg hdone, if_neg hdone]
    exact ⟨_, rfl, rfl, rfl, .inr (.inr (.inr ⟨rfl, hs⟩))⟩

end HttpConnection

/-- A request without body that asks to keep the connection. -/
def keepAliveGet : List UInt8 :=
  minimalGet.take 16 ++ textConnection ++ textKeepAlive ++ [CR, LF, CR, LF]

/-- A callback that leaves the response as it is. -/
def leavesAlone : HttpServeFunc := fun _ _ resp => resp

end KyrosWebServer.Http
