import KyrosWebServer.ResponseText
import KyrosWebServer.ServerSession

/-!
# Conversations

Everything that happens on a connection of the HTTP server, from `accept` on.
The callbacks of `HttpServer` answer in turn, so the connection is a half-duplex
endpoint whose output is the replies in order. The parser completes one request
for a connection, and a rejection is the last reply.
-/

namespace KyrosWebServer.Base

open CString

/-- All bytes of the file are behind its address. -/
def FileSystem.Mapped (F : FileSystem) : Prop :=
  ∀ bytes, F.getAddr = some bytes →
    bytes.length = F.getLength ∧ F.getLength < 18446744073709551616

/-- Files that `open` and `mmap` do not fail on once `stat` has found them. -/
structure MappedFiles where
  /-- The files by path. -/
  files : FileTable
  /-- The mapping of a file is that of the whole file. -/
  mapped : ∀ path st, files path = some st → st.mapped.length = st.st_size

/-- No files at all. -/
def noFiles : MappedFiles := ⟨fun _ => none, nofun⟩

/-- `Open` maps the whole file or leaves the one there was. -/
theorem FileSystem.Open_mapped {F : FileSystem} (hF : F.Mapped) (table : MappedFiles)
    (path : List UInt8) : (F.Open table.files path).2.Mapped := by
  unfold FileSystem.Open
  cases hstat : table.files (content path) with
  | none => exact hF
  | some st =>
    dsimp only
    split
    · exact hF
    · split
      · exact hF
      · intro bytes hbytes
        cases hbytes
        have hlt := st.st_size_lt
        exact ⟨table.mapped _ st hstat, Nat.lt_trans hlt (by decide)⟩

end KyrosWebServer.Base

namespace KyrosWebServer.Http

open CMemory CString Base Net TransitionSystem HalfDuplex

/-- What the server says to its client. -/
inductive Reply
  /-- The response that the user's callback made for a request. -/
  | answer (resp : HttpResponse)
  /-- The response to bytes that are no request. -/
  | rejection (resp : HttpResponse)

/-- The bytes of the file of a response; of a mapping that failed there are none. -/
def HttpResponse.fileBytes (resp : HttpResponse) : List UInt8 :=
  (resp.mFile.getAddr.getD []).take resp.mFile.getLength

/-- A reply on the wire: what an empty buffer admits of the head and the body,
then the file. Only an answer attaches a file. -/
def Reply.bytes : Reply → List UInt8
  | answer resp => admitted kBufferSize resp.pieces ++ resp.fileBytes
  | rejection resp => admitted kBufferSize resp.pieces

/-- A callback that attaches nothing but mapped files. -/
def AttachesMapped (HttpCallback : HttpServeFunc) : Prop :=
  ∀ (table : MappedFiles) req resp, resp.mFile.Mapped →
    (HttpCallback table.files req resp).mFile.Mapped

namespace HttpConnection

/-- What `readCb` replies, if it replies at all. -/
def reply (HttpCallback : HttpServeFunc) (files : FileTable) (s : HttpConnection) :
    Except Fault (Option Reply) := do
  let (ret, req, _) ← processRead s.mContext.Request s.conn.mReadBuffer
  let resp := s.mContext.Response
  match ret with
  | BAD_REQUEST => return some (.rejection (resp.setStatusCode CLIENT_ERROR_BAD_REQUEST))
  | GET_REQUEST =>
    return some (.answer (HttpCallback files req (resp.setStatusCode SUCCESS_OK)))
  | _ => return none

/-- What `handleRead` replies: nothing when it closes the connection. -/
def readReply (HttpCallback : HttpServeFunc) (files : FileTable) (rs : List RecvResult)
    (s : HttpConnection) : Except Fault (Option Reply) := do
  let ((ret, _), mReadBuffer) ← s.conn.mReadBuffer.readFd rs
  match ret with
  | none => return none
  | some ret =>
    if ret ≤ 0 then return none
    else reply HttpCallback files { s with conn := { s.conn with mReadBuffer := mReadBuffer } }

end HttpConnection

/-- Events of a connection, each with the whole handler that it leads to. -/
inductive Exchange
  /-- `handleRead`: the bytes received and the reply. -/
  | read (got : List UInt8) (reply : Option Reply)
  /-- `handleWrite`: the bytes sent. -/
  | write (sent : List UInt8)
  /-- `EventLoop` closes the connection. -/
  | hangup

/-- The replies of a move. -/
def Exchange.replies : Exchange → List Reply
  | read _ reply => reply.toList
  | _ => []

/-- The bytes of a reply, if there is one. -/
def replyBytes (reply : Option Reply) : List UInt8 := reply.toList.flatMap Reply.bytes

/-- The move in terms of bytes. -/
def Exchange.move : Exchange → SessionMove
  | read got reply => .read got (replyBytes reply)
  | write sent => .write sent
  | hangup => .hangup

/-- One event of a connection; `EPOLLONESHOT` disarms the descriptor first. -/
inductive Converses (HttpCallback : HttpServeFunc) : HttpConnection → Exchange → HttpConnection → Prop
  | read {s s' : HttpConnection} {table : MappedFiles} {rs rest : List RecvResult} {ret : Option ℤ}
      {b : FixedBuffer} {got : List UInt8} {reply : Option Reply} (harmed : s.mEpoll = .armed .EPOLLIN)
      (hrecv : s.conn.mReadBuffer.readFd rs = .ok ((ret, rest), b))
      (hgot : b.unread = s.conn.mReadBuffer.unread ++ got)
      (hreply : s.readReply HttpCallback table.files rs = .ok reply)
      (hcall : HttpConnection.handleRead HttpCallback table.files rs { s with mEpoll := .disarmed } =
        .ok (some s')) : Converses HttpCallback s (.read got reply) s'
  | write {s s' : HttpConnection} {rs rest : List WritevResult} {ret : Option ℤ} {out : List UInt8}
      {conn : Connection} (harmed : s.mEpoll = .armed .EPOLLOUT) (hrs : Outcomes s.conn rs)
      (hsend : s.conn.send rs = .ok ((ret, out, rest), conn))
      (hcall : HttpConnection.handleWrite rs { s with mEpoll := .disarmed } = .ok (some s')) :
      Converses HttpCallback s (.write out) s'
  | hangup {s : HttpConnection} {ev : Interest} (harmed : s.mEpoll = .armed ev) :
      Converses HttpCallback s .hangup s.CloseConn

/-- All conversations of a new connection. -/
def conversation (HttpCallback : HttpServeFunc) : System HttpConnection Exchange where
  start s := ∃ rb wb : FixedBuffer, wb.Valid ∧ wb.unread = [] ∧ s = .accept rb wb
  step := Converses HttpCallback

/-- All replies of a conversation. -/
def replies (ms : List Exchange) : List Reply := ms.flatMap Exchange.replies

namespace HttpConnection

/-- The connection as a session. -/
def toSession (s : HttpConnection) : Session HttpContext := ⟨s.conn, s.mContext, s.mEpoll⟩

/-- The session as a connection. -/
def ofSession (s : Session HttpContext) : HttpConnection := ⟨s.conn, s.mContext, s.mEpoll⟩

end HttpConnection

/-- The callbacks that the constructor of `HttpServer` registers. -/
def HttpServer.callbacks (HttpCallback : HttpServeFunc) : Callbacks HttpContext MappedFiles where
  rCallBack := some fun table s =>
    HttpConnection.toSession <$> (HttpConnection.ofSession s).readCb HttpCallback table.files
  wCallBack := some fun s => (HttpConnection.ofSession s).WriteCb.toSession

namespace HttpConnection

variable {HttpCallback : HttpServeFunc} {s s' : HttpConnection}

theorem toSession_epollMod (s : HttpConnection) (ev : Interest) :
    (s.epollMod ev).toSession = s.toSession.epollMod ev := by
  unfold epollMod Session.epollMod
  by_cases h : s.mEpoll = .absent
  · rw [if_pos h, if_pos (show s.toSession.mEpoll = .absent from h)]
  · rw [if_neg h, if_neg (show ¬ s.toSession.mEpoll = .absent from h)]
    rfl

/-- The HTTP handlers are the handlers of the server with these callbacks. -/
theorem handleRead_toSession (table : MappedFiles) {rs : List RecvResult}
    (h : s.handleRead HttpCallback table.files rs = .ok (some s')) :
    (HttpServer.callbacks HttpCallback).handleRead table rs s.toSession =
      .ok (some s'.toSession) := by
  obtain ⟨⟨⟨ret, rest⟩, b⟩, hrecv, h⟩ := bind_eq_ok h
  rw [Callbacks.handleRead, show s.toSession.conn.mReadBuffer.readFd rs = _ from hrecv, ok_bind]
  cases ret with
  | none => cases h
  | some ret =>
    dsimp only at h ⊢
    by_cases hret : ret ≤ 0
    · rw [if_pos hret] at h ⊢
      cases h
      rfl
    · rw [if_neg hret] at h ⊢
      change (some <$> toSession <$> readCb HttpCallback table.files
        { s with conn := { s.conn with mReadBuffer := b } }) = _
      cases hcall : readCb HttpCallback table.files
          { s with conn := { s.conn with mReadBuffer := b } } with
      | error e =>
        rw [hcall] at h
        cases h
      | ok t =>
        rw [hcall] at h
        cases h
        rfl

theorem handleWrite_toSession {rs : List WritevResult} (h : s.handleWrite rs = .ok (some s')) :
    (HttpServer.callbacks HttpCallback).handleWrite rs s.toSession = .ok (some s'.toSession) := by
  obtain ⟨⟨⟨ret, out⟩, conn⟩, hsend, h⟩ := bind_eq_ok h
  rw [Callbacks.handleWrite, show s.toSession.conn.send rs = _ from hsend, ok_bind]
  cases ret with
  | none => cases h
  | some ret =>
    dsimp only at h ⊢
    by_cases hfailed : ret = -1
    · rw [if_pos hfailed] at h ⊢
      cases h
      rfl
    rw [if_neg hfailed] at h ⊢
    by_cases hmore : ret > 0
    · rw [if_pos hmore] at h ⊢
      cases h
      rw [enableConnWrite, toSession_epollMod]
      rfl
    rw [if_neg hmore] at h ⊢
    by_cases hdone : ret = 0
    · rw [if_pos hdone] at h ⊢
      cases h
      rw [enableConnRead, toSession_epollMod]
      rfl
    · rw [if_neg hdone] at h ⊢
      cases h
      rfl

/-- The file of a response that is attached can be sent as a whole. -/
theorem attached_eq {resp : HttpResponse} (hmapped : resp.mFile.Mapped) {conn : Connection}
    (hpending : Pending conn []) {iv : Iovec}
    (hiv : iv = (if resp.hasFile then Http.setFile conn resp.mFile else conn).m_iv1) :
    iv.bytes = resp.fileBytes ∧ iv.iov_len = iv.iov_base.length ∧
      iv.iov_len < 18446744073709551616 := by
  have hnone := List.append_eq_nil_iff.mp hpending.stream_eq.symm
  rw [HttpResponse.hasFile] at hiv
  rw [HttpResponse.fileBytes]
  cases haddr : resp.mFile.getAddr with
  | none =>
    rw [haddr] at hiv
    subst hiv
    refine ⟨?_, hpending.len_eq, hpending.len_lt⟩
    exact hnone.2.trans List.take_nil.symm
  | some bytes =>
    obtain ⟨hlen, hlt⟩ := hmapped bytes haddr
    rw [haddr] at hiv
    subst hiv
    have hset : (Http.setFile conn resp.mFile).m_iv1 = ⟨bytes, resp.mFile.getLength⟩ := by
      rw [Http.setFile, haddr]
      rfl
    exact ⟨congrArg Iovec.bytes hset, (congrArg Iovec.iov_len hset).trans
      (hlen.symm.trans (congrArg (fun v => v.iov_base.length) hset).symm),
      Nat.lt_of_le_of_lt (Nat.le_of_eq (congrArg Iovec.iov_len hset)) hlt⟩

/-- What is written into an empty send buffer is what the buffer admits. -/
theorem appended_eq {resp : HttpResponse} {conn : Connection} (hpending : Pending conn [])
    {wb : FixedBuffer} (happend : resp.appendToBuffer conn.mWriteBuffer = .ok wb) :
    wb.Valid ∧ wb.unread = admitted kBufferSize resp.pieces := by
  obtain ⟨consumed, free, hb⟩ := hpending.valid.holds
  have hnone := List.append_eq_nil_iff.mp hpending.stream_eq.symm
  rw [hnone.1] at hb
  obtain ⟨b', consumed', free', hall, hb'⟩ := appendAll_admitted hb resp.pieces
  rw [← HttpResponse.appendToBuffer_eq, happend] at hall
  cases hall
  rw [List.nil_append, List.length_nil, Nat.sub_zero] at hb'
  exact ⟨hb'.valid, hb'.unread_eq⟩

/-- Called when nothing is queued, `readCb` queues its reply and arms the
descriptor. -/
theorem ReadCb.answered_reply {files : FileTable} (h : ReadCb HttpCallback files s s')
    (hdisarmed : s.mEpoll = .disarmed) (hpending : Pending s.conn [])
    (hmapped : s'.mContext.Response.mFile.Mapped) {r : Option Reply}
    (hreply : s.reply HttpCallback files = .ok r) :
    s'.toSession.Answered (fun _ x => x.Response.mFile.Mapped) ∧ s'.conn.pending = replyBytes r := by
  have hnone := List.append_eq_nil_iff.mp hpending.stream_eq.symm
  have harmed : ∀ (t : HttpConnection) (ev : Interest), t.mEpoll = .disarmed →
      (t.epollMod ev).mEpoll = .armed ev := by
    intro t ev ht
    rw [epollMod, if_neg (by rw [ht]; exact Registration.noConfusion)]
  cases h with
  | @waiting code req b hread hbad hget =>
    have hr : r = none := by
      rw [reply, hread, ok_bind] at hreply
      cases code with
      | BAD_REQUEST => exact absurd rfl hbad
      | GET_REQUEST => exact absurd rfl hget
      | _ => cases hreply; rfl
    subst hr
    have hsame : Pending { s.conn with mReadBuffer := b } [] :=
      ⟨hpending.valid, hpending.stream_eq, hpending.len_eq, hpending.len_lt⟩
    refine ⟨⟨?_, hmapped, ?_⟩, ?_⟩
    · simp only [toSession, epollMod_conn]
      rw [hsame.pending_eq]
      exact hsame
    · simp only [toSession, epollMod_conn]
      rw [hsame.pending_eq]
      by_cases hno : code = NO_REQUEST
      · rw [if_pos hno]
        exact .inr ⟨harmed _ .EPOLLIN hdisarmed, rfl⟩
      · rw [if_neg hno]
        exact .inl (harmed _ .EPOLLOUT hdisarmed)
    · rw [epollMod_conn]
      exact hsame.pending_eq
  | @rejected req b wb hread happend =>
    have hr : r = some (.rejection (s.mContext.Response.setStatusCode CLIENT_ERROR_BAD_REQUEST)) := by
      rw [reply, hread, ok_bind] at hreply
      cases hreply
      rfl
    subst hr
    obtain ⟨hvalid, hunread⟩ := appended_eq hpending happend
    have hbytes : wb.unread ++ s.conn.m_iv1.bytes =
        replyBytes (some (.rejection (s.mContext.Response.setStatusCode CLIENT_ERROR_BAD_REQUEST))) := by
      rw [hunread, hnone.2]
      simp [replyBytes, Reply.bytes]
    refine ⟨⟨?_, hmapped, ?_⟩, ?_⟩
    · simp only [toSession, enableConnWrite, epollMod_conn]
      exact ⟨hvalid, rfl, hpending.len_eq, hpending.len_lt⟩
    · refine .inl (harmed _ .EPOLLOUT ?_)
      exact hdisarmed
    · rw [enableConnWrite, epollMod_conn]
      exact hbytes
  | @answered req b wb resp iv hread hresp happend hiv =>
    have hr : r = some (.answer resp) := by
      rw [reply, hread, ok_bind] at hreply
      cases hreply
      rw [hresp]
    subst hr
    simp only [enableConnWrite, epollMod_mContext] at hmapped
    obtain ⟨hvalid, hunread⟩ := appended_eq hpending happend
    obtain ⟨hfile, hlen, hlt⟩ := attached_eq hmapped hpending hiv
    have hbytes : wb.unread ++ iv.bytes = replyBytes (some (.answer resp)) := by
      rw [hunread, hfile]
      simp [replyBytes, Reply.bytes]
    refine ⟨⟨?_, ?_, ?_⟩, ?_⟩
    · simp only [toSession, enableConnWrite, epollMod_conn]
      exact ⟨hvalid, rfl, hlen, hlt⟩
    · simp only [toSession, enableConnWrite, epollMod_mContext]
      exact hmapped
    · refine .inl (harmed _ .EPOLLOUT ?_)
      exact hdisarmed
    · rw [enableConnWrite, epollMod_conn]
      exact hbytes

/-- Replying attaches mapped files only. -/
theorem ReadCb.mapped (hcb : AttachesMapped HttpCallback) {table : MappedFiles}
    (h : ReadCb HttpCallback table.files s s') (hmapped : s.mContext.Response.mFile.Mapped) :
    s'.mContext.Response.mFile.Mapped := by
  cases h with
  | waiting _ _ _ =>
    rw [epollMod_mContext]
    exact hmapped
  | rejected _ _ =>
    rw [enableConnWrite, epollMod_mContext]
    exact hmapped
  | @answered req b wb resp iv _ hresp _ _ =>
    rw [enableConnWrite, epollMod_mContext]
    have hanswer := hcb table req (s.mContext.Response.setStatusCode SUCCESS_OK) hmapped
    rw [← hresp] at hanswer
    exact hanswer

/-- The reply of a call is what the context keeps as the response. -/
theorem ReadCb.reply_cases {files : FileTable} (h : ReadCb HttpCallback files s s') {r : Option Reply}
    (hreply : s.reply HttpCallback files = .ok r) :
    r = none ∧ s'.mContext.Response = s.mContext.Response ∨
      r = some (.rejection s'.mContext.Response) ∧
        s'.mContext.Response = s.mContext.Response.setStatusCode CLIENT_ERROR_BAD_REQUEST ∨
      r = some (.answer s'.mContext.Response) ∧ ∃ req, s'.mContext.Response =
        HttpCallback files req (s.mContext.Response.setStatusCode SUCCESS_OK) := by
  cases h with
  | @waiting code req b hread hbad hget =>
    rw [reply, hread, ok_bind] at hreply
    rw [epollMod_mContext]
    cases code with
    | BAD_REQUEST => exact absurd rfl hbad
    | GET_REQUEST => exact absurd rfl hget
    | _ => cases hreply; exact .inl ⟨rfl, rfl⟩
  | @rejected req b wb hread happend =>
    rw [reply, hread, ok_bind] at hreply
    cases hreply
    rw [enableConnWrite, epollMod_mContext]
    exact .inr (.inl ⟨rfl, rfl⟩)
  | @answered req b wb resp iv hread hresp happend hiv =>
    rw [reply, hread, ok_bind] at hreply
    cases hreply
    rw [enableConnWrite, epollMod_mContext]
    exact .inr (.inr ⟨by rw [hresp], req, hresp⟩)

/-- A call that returns has a reply, or none. -/
theorem ReadCb.exists_reply {files : FileTable} (h : ReadCb HttpCallback files s s') :
    ∃ r, s.reply HttpCallback files = .ok r := by
  rw [reply]
  cases h with
  | @waiting code req b hread hbad hget =>
    rw [hread, ok_bind]
    cases code <;> exact ⟨_, rfl⟩
  | rejected hread _ =>
    rw [hread]
    exact ⟨_, rfl⟩
  | answered hread _ _ _ =>
    rw [hread]
    exact ⟨_, rfl⟩

/-- `handleRead` closes the connection without a reply, or replies as `readCb`. -/
theorem handleRead_replies {files : FileTable} {rs : List RecvResult} {r : Option Reply}
    (hcall : s.handleRead HttpCallback files rs = .ok (some s'))
    (hreply : s.readReply HttpCallback files rs = .ok r) :
    ∃ out b, s.conn.mReadBuffer.readFd rs = .ok (out, b) ∧
      (r = none ∧ s' = CloseConn { s with conn := { s.conn with mReadBuffer := b } } ∨
        ReadCb HttpCallback files { s with conn := { s.conn with mReadBuffer := b } } s' ∧
          reply HttpCallback files { s with conn := { s.conn with mReadBuffer := b } } = .ok r) := by
  obtain ⟨⟨⟨ret, rest⟩, b⟩, hrecv, hcall⟩ := bind_eq_ok hcall
  refine ⟨_, b, hrecv, ?_⟩
  rw [readReply, hrecv, ok_bind] at hreply
  cases ret with
  | none => cases hcall
  | some ret =>
    dsimp only at hcall hreply
    by_cases hret : ret ≤ 0
    · rw [if_pos hret] at hcall hreply
      cases hcall
      cases hreply
      exact .inl ⟨rfl, rfl⟩
    · rw [if_neg hret] at hcall hreply
      cases hread : readCb HttpCallback files { s with conn := { s.conn with mReadBuffer := b } } with
      | error e =>
        rw [hread] at hcall
        cases hcall
      | ok t =>
        rw [hread] at hcall
        cases hcall
        exact .inr ⟨readCb_eq_ok.mp hread, hreply⟩

end HttpConnection

open HttpConnection

variable {HttpCallback : HttpServeFunc}

/-- The callbacks of `HttpServer` answer in turn. -/
theorem callbacks_keep (hcb : AttachesMapped HttpCallback) :
    (HttpServer.callbacks HttpCallback).Keeps (fun _ x => x.Response.mFile.Mapped) where
  received _ _ _ _ _ hx _ := hx
  registered h := by cases h
  answers rCallBack hset table s t hdisarmed hpending hmapped hcall := by
    cases hset
    dsimp only at hcall
    cases hread : readCb HttpCallback table.files (ofSession s) with
    | error e =>
      rw [hread] at hcall
      cases hcall
    | ok s' =>
      rw [hread] at hcall
      cases hcall
      have hcall' := readCb_eq_ok.mp hread
      obtain ⟨r, hreply⟩ := hcall'.exists_reply
      exact (hcall'.answered_reply hdisarmed hpending (hcall'.mapped hcb hmapped) hreply).1
  finishes s := by
    have hwritten : (HttpServer.callbacks HttpCallback).written s = (ofSession s).WriteCb.toSession := rfl
    rw [hwritten, HttpConnection.WriteCb]
    split
    · exact .inr rfl
    · exact .inl rfl

/-- A conversation is a run of a session with these callbacks, as long as
nothing is queued when the connection is read. -/
theorem Converses.step (hcb : AttachesMapped HttpCallback) {s s' : HttpConnection} {m : Exchange}
    (h : Converses HttpCallback s m s') (hidle : s.mEpoll = .armed .EPOLLIN → Pending s.conn [])
    (hmapped : s.mContext.Response.mFile.Mapped) :
    Session.Step (HttpServer.callbacks HttpCallback) s.toSession m.move s'.toSession := by
  cases h with
  | @read _ table rs rest ret b got r harmed hrecv hgot hreply hcall =>
    have hpending : s'.toSession.conn.pending = replyBytes r := by
      obtain ⟨out, b', -, hcase⟩ := handleRead_replies hcall hreply
      have hsame : Pending { s.conn with mReadBuffer := b' } [] :=
        ⟨(hidle harmed).valid, (hidle harmed).stream_eq, (hidle harmed).len_eq, (hidle harmed).len_lt⟩
      rcases hcase with ⟨rfl, rfl⟩ | ⟨hread, hreply'⟩
      · exact hsame.pending_eq
      · exact (hread.answered_reply rfl hsame (hread.mapped hcb hmapped) hreply').2
    have hread : Session.Step (HttpServer.callbacks HttpCallback) s.toSession
        (.read got s'.toSession.conn.pending) s'.toSession :=
      .read (a := table) harmed hrecv hgot (handleRead_toSession table hcall)
    rw [hpending] at hread
    exact hread
  | write harmed hrs hsend hcall => exact .write harmed hrs hsend (handleWrite_toSession hcall)
  | hangup harmed => exact .hangup harmed

/-- Events come to descriptors that are armed. -/
theorem Converses.armed {s s' : HttpConnection} {m : Exchange} (h : Converses HttpCallback s m s') :
    ∃ ev, s.mEpoll = .armed ev := by
  cases h with
  | read harmed => exact ⟨_, harmed⟩
  | write harmed => exact ⟨_, harmed⟩
  | hangup harmed => exact ⟨_, harmed⟩

/-- No reply has 2 GiB or more. -/
def Exchange.Fits (m : Exchange) : Prop := m.move.Fits

/-- All bytes sent in a conversation. -/
def wire (ms : List Exchange) : List UInt8 := sentBytes (ms.map Exchange.move)

theorem queuedBytes_eq (ms : List Exchange) :
    queuedBytes (ms.map Exchange.move) = (replies ms).flatMap Reply.bytes := by
  induction ms with
  | nil => rfl
  | cons m ms ih =>
    have hm : m.move.move.replied = m.replies.flatMap Reply.bytes := by
      cases m <;> rfl
    calc queuedBytes ((m :: ms).map Exchange.move)
        = m.move.move.replied ++ queuedBytes (ms.map Exchange.move) := List.flatMap_cons
      _ = (replies (m :: ms)).flatMap Reply.bytes := by
          rw [hm, ih, ← List.flatMap_append]
          rfl

/-- A conversation is a half-duplex endpoint. -/
theorem conversation_refines (hcb : AttachesMapped HttpCallback) :
    System.Simulation ((conversation HttpCallback).restrict Exchange.Fits) (endpoint UInt8)
      (fun m => some m.move.move)
      (fun s p => s.toSession.Stands (fun _ x => x.Response.mFile.Mapped) p) where
  start s hs := by
    obtain ⟨rb, wb, hvalid, hempty, rfl⟩ := hs
    refine ⟨.reading, rfl, .reading rfl ⟨hvalid, ?_, rfl, Nat.zero_lt_of_lt (Nat.lt_succ_self _)⟩ ?_⟩
    · exact (congrArg (· ++ Iovec.null.bytes) hempty).symm
    · intro bytes hbytes
      cases hbytes
  silent s m t p _ _ hvis := by cases hvis
  visible s m t p m' hs hstep hvis := by
    obtain ⟨hfits, hstep⟩ := hstep
    obtain ⟨ev, harmed⟩ := hstep.armed
    have hstands : (s.mEpoll = .armed .EPOLLIN → Pending s.conn []) ∧
        s.mContext.Response.mFile.Mapped := by
      cases hs with
      | reading _ hpending hmapped => exact ⟨fun _ => hpending, hmapped⟩
      | writing hwrite _ _ hmapped =>
        refine ⟨fun hread => ?_, hmapped⟩
        rw [show s.mEpoll = _ from hwrite] at hread
        cases hread
      | closed habsent =>
        rw [show s.mEpoll = _ from habsent] at harmed
        cases harmed
    have hsim := session_refines (callbacks_keep hcb)
      fun (s : Session HttpContext) (h : s.Stands _ .reading) => h
    exact hsim.visible s.toSession m.move t.toSession p m' hs
      ⟨hfits, hstep.step hcb hstands.1 hstands.2⟩ hvis

/-- The bytes on the wire and those that the endpoint still owes are the replies. -/
theorem conversation_stands (hcb : AttachesMapped HttpCallback) {s₀ s : HttpConnection}
    {ms : List Exchange} (hs₀ : (conversation HttpCallback).start s₀)
    (hrun : ((conversation HttpCallback).restrict Exchange.Fits).Run s₀ ms s) :
    ∃ p : HalfDuplex.Phase UInt8, s.toSession.Stands (fun _ x => x.Response.mFile.Mapped) p ∧
      wire ms ++ p.rest = (replies ms).flatMap Reply.bytes := by
  obtain ⟨p₀, hp₀, hs₀'⟩ := (conversation_refines hcb).start s₀ hs₀
  obtain ⟨p, hrun', hp⟩ := (conversation_refines hcb).run hrun hs₀'
  have hmoves : ms.filterMap (fun m => some m.move.move) =
      (ms.map Exchange.move).map SessionMove.move := by
    rw [List.map_map]
    exact congrFun List.filterMap_eq_map ms
  have hall := run_conserves hrun'
  cases hp₀
  rw [hmoves] at hall
  change wire ms ++ p.rest = queuedBytes (ms.map Exchange.move) at hall
  rw [queuedBytes_eq] at hall
  exact ⟨p, hp, hall⟩

/-- At most one answer, and behind it at most one rejection, which follows only
an answer that keeps the connection. -/
def AnswerThenRejection : List Reply → Prop
  | [] | [.answer _] | [.rejection _] => True
  | [.answer resp, .rejection _] => resp.isAlive = true
  | _ => False

/-- What the replies so far say about a connection. -/
structure Replied (s : HttpConnection) (rs : List Reply) : Prop where
  /-- The replies of the connection. -/
  shape : AnswerThenRejection rs
  /-- The parser is done with the request that was answered. -/
  answered : (∃ resp, .answer resp ∈ rs) → s.mContext.Request.mCheckState = CHECK_STATE_SUCCESS
  /-- A rejection closes the connection. -/
  rejected : (∃ resp, .rejection resp ∈ rs) → s.conn.mAlive = false
  /-- A connection that goes on was kept by the answer. -/
  kept : s.conn.mAlive = true → ∀ resp, .answer resp ∈ rs → resp.isAlive = true
  /-- A connection that is to be closed is not read again. -/
  quiet : s.conn.mAlive = false → s.mEpoll ≠ .armed .EPOLLIN

/-- Arming for writing is not arming for reading. -/
theorem enableConnWrite_ne {s : HttpConnection} (hs : s.mEpoll ≠ .armed .EPOLLIN) :
    s.enableConnWrite.mEpoll ≠ .armed .EPOLLIN := by
  unfold enableConnWrite HttpConnection.epollMod
  split
  · exact hs
  · intro harmed
    cases harmed

/-- `handleWrite` leaves the flag alone and reads on only with a connection
that is kept. -/
theorem handleWrite_alive {s s' : HttpConnection} {rs : List WritevResult}
    (hs : s.mEpoll ≠ .armed .EPOLLIN) (h : s.handleWrite rs = .ok (some s')) :
    s'.conn.mAlive = s.conn.mAlive ∧ (s'.conn.mAlive = false → s'.mEpoll ≠ .armed .EPOLLIN) := by
  obtain ⟨⟨⟨ret, out⟩, conn⟩, hsend, h⟩ := bind_eq_ok h
  have halive := (Connection.send_frame hsend).2.1
  cases ret with
  | none => cases h
  | some ret =>
    dsimp only at h
    split at h
    · cases h
      exact ⟨halive, fun _ => Registration.noConfusion⟩
    split at h
    · cases h
      exact ⟨by rw [enableConnWrite, epollMod_conn]; exact halive, fun _ => enableConnWrite_ne hs⟩
    split at h
    · cases h
      by_cases hkept : conn.mAlive = true
      · have hsame : HttpConnection.WriteCb { s with conn := conn } = { s with conn := conn } :=
          if_neg (not_not_intro hkept)
        rw [hsame, enableConnRead, epollMod_conn]
        exact ⟨halive, fun hclosed => absurd hkept (by rw [hclosed]; exact Bool.false_ne_true)⟩
      · have hclose : HttpConnection.WriteCb { s with conn := conn } =
            HttpConnection.CloseConn { s with conn := conn } := if_pos hkept
        rw [hclose, enableConnRead, epollMod_conn]
        refine ⟨halive, fun _ harmed => ?_⟩
        rw [HttpConnection.epollMod_absent _ _ rfl] at harmed
        cases harmed
    · cases h
      exact ⟨halive, fun _ => hs⟩

/-- Without a rejection there is an answer at most. -/
theorem AnswerThenRejection.cases {rs : List Reply} (h : AnswerThenRejection rs)
    (hnone : ∀ resp, .rejection resp ∉ rs) : rs = [] ∨ ∃ resp, rs = [.answer resp] := by
  match rs with
  | [] => exact .inl rfl
  | [.answer resp] => exact .inr ⟨resp, rfl⟩
  | .rejection resp :: _ => exact absurd List.mem_cons_self (hnone resp)
  | [.answer _, .rejection resp] =>
    exact absurd (List.mem_cons_of_mem _ List.mem_cons_self) (hnone resp)
  | .answer _ :: .answer _ :: _ => exact h.elim
  | .answer _ :: .rejection _ :: _ :: _ => exact h.elim

/-- `readCb` on a connection that is kept adds its reply. -/
theorem HttpConnection.ReadCb.replied {files : FileTable} {s s' : HttpConnection} {r : Option Reply}
    {rs : List Reply} (h : ReadCb HttpCallback files s s')
    (hreply : s.reply HttpCallback files = .ok r) (hs : Replied s rs)
    (hdisarmed : s.mEpoll ≠ .armed .EPOLLIN) (halive : s.conn.mAlive = true) :
    Replied s' (rs ++ r.toList) := by
  have hnone : ∀ resp, .rejection resp ∉ rs := fun resp hmem => by
    have hdead := hs.rejected ⟨resp, hmem⟩
    rw [halive] at hdead
    cases hdead
  have hsuccess : ∀ {code req b}, (∃ resp, .answer resp ∈ rs) →
      processRead s.mContext.Request s.conn.mReadBuffer = .ok (code, req, b) →
      req.mCheckState = CHECK_STATE_SUCCESS ∧ code ≠ GET_REQUEST := fun hans hread =>
    processRead_success (hs.answered hans) hread
  have hshape := hs.shape.cases hnone
  cases h with
  | @waiting code req b hread hbad hget =>
    have hr : r = none := by
      rw [HttpConnection.reply, hread, ok_bind] at hreply
      cases code with
      | BAD_REQUEST => exact absurd rfl hbad
      | GET_REQUEST => exact absurd rfl hget
      | _ => cases hreply; rfl
    subst hr
    rw [Option.toList_none, List.append_nil]
    refine ⟨hs.shape, ?_, ?_, ?_, ?_⟩
    · rw [epollMod_mContext]
      exact fun hans => (hsuccess hans hread).1
    · rw [epollMod_conn]
      exact hs.rejected
    · rw [epollMod_conn]
      exact hs.kept
    · rw [epollMod_conn]
      intro hdead
      rw [halive] at hdead
      cases hdead
  | @rejected req b wb hread happend =>
    have hr : r = some (.rejection (s.mContext.Response.setStatusCode CLIENT_ERROR_BAD_REQUEST)) := by
      rw [HttpConnection.reply, hread, ok_bind] at hreply
      cases hreply
      rfl
    subst hr
    refine ⟨?_, ?_, fun _ => ?_, ?_, fun _ => ?_⟩
    · rcases hshape with rfl | ⟨resp, rfl⟩
      · trivial
      · exact hs.kept halive resp List.mem_cons_self
    · rw [enableConnWrite, epollMod_mContext]
      rintro ⟨resp, hmem⟩
      have hmem' : .answer resp ∈ rs := by simpa using hmem
      exact (hsuccess ⟨resp, hmem'⟩ hread).1
    · rw [enableConnWrite, epollMod_conn]
    · rw [enableConnWrite, epollMod_conn]
      exact fun hkept => absurd hkept Bool.false_ne_true
    · exact enableConnWrite_ne hdisarmed
  | @answered req b wb resp iv hread hresp happend hiv =>
    have hr : r = some (.answer resp) := by
      rw [HttpConnection.reply, hread, ok_bind] at hreply
      cases hreply
      rw [hresp]
    subst hr
    have hfirst : rs = [] := by
      rcases hshape with hnil | ⟨first, rfl⟩
      · exact hnil
      · exact absurd rfl (hsuccess ⟨first, List.mem_cons_self⟩ hread).2
    subst hfirst
    refine ⟨trivial, fun _ => ?_, ?_, ?_, fun _ => ?_⟩
    · rw [enableConnWrite, epollMod_mContext]
      have hdone := processRead_get hread
      exact hdone
    · simp
    · rw [enableConnWrite, epollMod_conn]
      intro hkept resp' hmem
      obtain rfl : resp' = resp := by simpa using hmem
      exact (Bool.and_eq_true_iff.mp hkept).1
    · exact enableConnWrite_ne hdisarmed

/-- One event keeps the replies in their shape. -/
theorem Converses.replied {s s' : HttpConnection} {m : Exchange} {rs : List Reply}
    (h : Converses HttpCallback s m s') (hs : Replied s rs) : Replied s' (rs ++ m.replies) := by
  cases h with
  | hangup harmed =>
    rw [show Exchange.hangup.replies = [] from rfl, List.append_nil]
    exact ⟨hs.shape, hs.answered, hs.rejected, hs.kept, fun _ => Registration.noConfusion⟩
  | write harmed hrs hsend hcall =>
    rw [show (Exchange.write _).replies = [] from rfl, List.append_nil]
    obtain ⟨-, hcontext, -⟩ := handleWrite_frame hcall
    obtain ⟨halive, hquiet⟩ := handleWrite_alive Registration.noConfusion hcall
    refine ⟨hs.shape, ?_, ?_, ?_, hquiet⟩
    · rw [hcontext]
      exact hs.answered
    · rw [halive]
      exact hs.rejected
    · rw [halive]
      exact hs.kept
  | @read _ table recvs rest ret b got r harmed hrecv hgot hreply hcall =>
    have halive : s.conn.mAlive = true := by
      cases hflag : s.conn.mAlive with
      | true => rfl
      | false => exact absurd harmed (hs.quiet hflag)
    obtain ⟨out, b', -, hcase⟩ := handleRead_replies hcall hreply
    rcases hcase with ⟨rfl, rfl⟩ | ⟨hread, hreply'⟩
    · rw [show (Exchange.read got none).replies = [] from rfl, List.append_nil]
      exact ⟨hs.shape, hs.answered, hs.rejected, hs.kept, fun _ => Registration.noConfusion⟩
    · exact hread.replied hreply' ⟨hs.shape, hs.answered, hs.rejected, hs.kept,
        fun _ => Registration.noConfusion⟩ Registration.noConfusion halive

theorem replies_snoc (ms : List Exchange) (m : Exchange) :
    replies (ms ++ [m]) = replies ms ++ m.replies := by
  simp [replies]

/-- What holds of the replies holds over a whole conversation. -/
theorem conversation_replied {s₀ s : HttpConnection} {ms : List Exchange}
    (hs₀ : (conversation HttpCallback).start s₀) (hrun : (conversation HttpCallback).Run s₀ ms s) :
    Replied s (replies ms) := by
  induction hrun with
  | nil =>
    obtain ⟨rb, wb, -, -, rfl⟩ := hs₀
    exact ⟨trivial, by simp [replies], by simp [replies], by simp [replies],
      fun hdead => by cases hdead⟩
  | @snoc t u ms m _ hstep ih =>
    rw [replies_snoc]
    exact Converses.replied hstep ih

/-- Every conversation has one answer at most, and behind it one rejection at
most, whatever the client sends and the callback does; a connection that is to
be closed is not read again. -/
theorem conversation_shape {s₀ s : HttpConnection} {ms : List Exchange}
    (hs₀ : (conversation HttpCallback).start s₀) (hrun : (conversation HttpCallback).Run s₀ ms s) :
    AnswerThenRejection (replies ms) ∧ (s.conn.mAlive = false → s.mEpoll ≠ .armed .EPOLLIN) := by
  have hall := conversation_replied hs₀ hrun
  exact ⟨hall.shape, hall.quiet⟩

/-- The callback of the example server. -/
def ServerHttp : HttpServeFunc := fun files req resp =>
  if req.url = ascii "/133".toList then
    let (_, resp) := resp.openFile files (ascii "/home/xy/ClionDeploy/root/log.html".toList)
    let resp := resp.setContentType (ascii "text/html".toList)
    { resp with isAlive := false }
  else resp

/-- `openFile` attaches what `Open` has mapped. -/
theorem HttpResponse.openFile_mFile (resp : HttpResponse) (files : FileTable) (path : List UInt8) :
    (resp.openFile files path).2.mFile = (resp.mFile.Open files path).2 := by
  unfold openFile
  cases resp.mFile.Open files path with
  | mk ret F => cases ret <;> rfl

/-- The callback of the example server attaches nothing else. -/
theorem serverHttp_attachesMapped : AttachesMapped ServerHttp := by
  intro table req resp hmapped
  have hopen := FileSystem.Open_mapped hmapped table
    (ascii "/home/xy/ClionDeploy/root/log.html".toList)
  rw [← HttpResponse.openFile_mFile] at hopen
  unfold ServerHttp
  split
  · exact hopen
  · exact hmapped

/-- A request arrives in one segment, and its answer leaves in one. -/
theorem keepAliveGet_exchange :
    ∃ s ms, ((conversation ServerHttp).restrict Exchange.Fits).Run
      (HttpConnection.accept FixedBuffer.blank FixedBuffer.blank) ms s ∧
        s.mEpoll = .armed .EPOLLIN ∧ ms.length = 2 := by
  let s₀ := HttpConnection.accept FixedBuffer.blank FixedBuffer.blank
  let rs : List RecvResult := [.bytes keepAliveGet, .again]
  let ws : List WritevResult := [.count 62, .again]
  have hrun : (do
      let received ← s₀.conn.mReadBuffer.readFd rs
      let r ← s₀.readReply ServerHttp noFiles.files rs
      let s₁ ← HttpConnection.handleRead ServerHttp noFiles.files rs { s₀ with mEpoll := .disarmed }
      let bytes ← (s₁.getD s₀).conn.offered
      let _ ← (s₁.getD s₀).conn.send ws
      let s₂ ← HttpConnection.handleWrite ws { s₁.getD s₀ with mEpoll := .disarmed }
      return (received.2.unread, (replyBytes r).length, bytes.length,
        s₁.map fun t : HttpConnection => t.mEpoll, s₂.map fun t : HttpConnection => t.mEpoll)) =
        Except.ok (ε := Fault) (keepAliveGet, 62, 62, some (Registration.armed .EPOLLOUT),
          some (Registration.armed .EPOLLIN)) := by
    decide +kernel
  obtain ⟨⟨⟨ret, rest⟩, b⟩, hrecv, hrun⟩ := bind_eq_ok hrun
  obtain ⟨r, hreply, hrun⟩ := bind_eq_ok hrun
  obtain ⟨t₁, hread, hrun⟩ := bind_eq_ok hrun
  obtain ⟨bytes, hoffered, hrun⟩ := bind_eq_ok hrun
  obtain ⟨⟨⟨ret', out, rest'⟩, conn⟩, hsend, hrun⟩ := bind_eq_ok hrun
  obtain ⟨t₂, hwrite, hrun⟩ := bind_eq_ok hrun
  simp only [pure, Except.pure, Except.ok.injEq, Prod.mk.injEq, Option.map_eq_some_iff] at hrun
  obtain ⟨hgot, hlen, hbytes, ⟨s₁, rfl, harmed₁⟩, s₂, rfl, harmed₂⟩ := hrun
  have hempty : s₀.conn.mReadBuffer.unread = [] :=
    (FixedBuffer.create_holds _ length_zeros).unread_eq
  have hfirst : Converses ServerHttp s₀ (.read keepAliveGet r) s₁ :=
    .read rfl hrecv (by rw [hempty]; exact hgot) hreply hread
  have hscript : Outcomes s₁.conn ws :=
    ⟨⟨bytes, hoffered, by decide, by omega, by decide⟩, fun _ _ _ _ => ⟨trivial, fun _ _ _ _ => trivial⟩⟩
  have hsecond : Converses ServerHttp s₁ (.write out) s₂ := .write harmed₁ hscript hsend hwrite
  have hfits : (Exchange.read keepAliveGet r).Fits := by
    change (replyBytes r).length < 2147483648
    omega
  have hone : ((conversation ServerHttp).restrict Exchange.Fits).Run s₀
      ([] ++ [.read keepAliveGet r]) s₁ := .snoc .nil ⟨hfits, hfirst⟩
  have hsent : (Exchange.write out).Fits := trivial
  exact ⟨s₂, _, hone.snoc ⟨hsent, hsecond⟩, harmed₂, rfl⟩

theorem conversation_start :
    (conversation ServerHttp).start (HttpConnection.accept FixedBuffer.blank FixedBuffer.blank) :=
  ⟨_, _, (FixedBuffer.create_holds _ length_zeros).valid,
    (FixedBuffer.create_holds _ length_zeros).unread_eq, rfl⟩

/-- And the connection is kept. -/
theorem conversation_shape_keepAliveGet :
    ∃ (s : HttpConnection) (ms : List Exchange), s.mEpoll = .armed .EPOLLIN ∧
      AnswerThenRejection (replies ms) ∧ s.conn.mAlive ≠ false := by
  obtain ⟨s, ms, hrun, harmed, -⟩ := keepAliveGet_exchange
  obtain ⟨hshape, hquiet⟩ := conversation_shape conversation_start hrun.of_restrict
  exact ⟨s, ms, harmed, hshape, fun hdead => hquiet hdead harmed⟩

end KyrosWebServer.Http
