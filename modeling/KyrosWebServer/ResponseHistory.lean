import KyrosWebServer.HttpServer
import KyrosWebServer.ResponseText

/-!
# What a response inherits

The response object lives as long as its connection and nothing resets it. A
call that gets `GET_REQUEST` is the first one to fill it, since the parser
completes one request for a connection; a call that gets `BAD_REQUEST`
afterwards sends what the callback left in it.
-/

namespace KyrosWebServer.Http

open CMemory CString Base Net FixedBuffer Refinement

namespace HttpResponse

/-- Nothing but the status and the file differs from a new response. -/
structure Untouched (resp : HttpResponse) : Prop where
  /-- No header has been set. -/
  headers : resp.Headers.entries = []
  /-- The connection is kept. -/
  alive : resp.isAlive = true
  /-- No length is announced. -/
  length : resp.ContentLength = 0
  /-- There is no body. -/
  body : resp.Body = []

/-- Apart from its file such a response is a new one with another status. -/
theorem Untouched.setStatusCode_eq {resp : HttpResponse} (h : resp.Untouched) (c : STATUS_CODE) :
    resp.setStatusCode c = { create.setStatusCode c with mFile := resp.mFile } := by
  obtain ⟨⟨entries, sorted⟩, isAlive, ContentLength, Body, mStatusCode, mFile⟩ := resp
  obtain ⟨hheaders, halive, hlength, hbody⟩ := h
  dsimp only at hheaders halive hlength hbody
  subst hheaders halive hlength hbody
  rfl

/-- The file is no part of what is appended. -/
theorem Untouched.appendToBuffer_eq {resp : HttpResponse} (h : resp.Untouched) (c : STATUS_CODE)
    (Buffer : FixedBuffer) :
    (resp.setStatusCode c).appendToBuffer Buffer = (create.setStatusCode c).appendToBuffer Buffer := by
  rw [h.setStatusCode_eq]
  rfl

end HttpResponse

namespace HttpResponse

/-- With the same status, only an untouched response has the text of a new one. -/
theorem untouched_of_text_eq {resp : HttpResponse} {c : STATUS_CODE}
    (h : (resp.setStatusCode c).text = (create.setStatusCode c).text) : resp.Untouched := by
  rw [text_eq, text_eq] at h
  have htail : resp.connectionLine ++ (resp.lengthLine ++
      ((resp.Headers.entries.map headerLine).flatten ++ (crlf ++ resp.Body))) =
      create.connectionLine ++ (create.lengthLine ++ ([] ++ (crlf ++ []))) :=
    List.append_cancel_left h
  have halive : resp.isAlive = true := resp.isAlive_of_connectionLine htail
  have hline : resp.connectionLine = create.connectionLine := if_pos halive
  rw [hline] at htail
  have hlength := List.append_cancel_left htail
  rw [lengthLine_eq, lengthLine_eq, List.append_assoc, List.append_assoc] at hlength
  have hdigits := (List.cons.inj (List.append_cancel_left hlength)).2
  simp only [List.append_eq, List.append_assoc] at hdigits
  -- the digits end at the CR
  obtain ⟨hzero, hrest⟩ := append_cons_inj (cr_notMem_decimalInt resp.ContentLength.toInt)
    (cr_notMem_decimalInt create.ContentLength.toInt) hdigits
  have hsize := congrArg List.length hrest
  simp only [crlf, List.append_eq, List.length_append, List.length_cons, List.length_nil] at hsize
  refine ⟨?_, halive, ?_, List.eq_nil_of_length_eq_zero (by omega)⟩
  · have hlines : (resp.Headers.entries.map headerLine).flatten = [] :=
      List.eq_nil_of_length_eq_zero (by omega)
    cases hentries : resp.Headers.entries with
    | nil => rfl
    | cons pair entries =>
      rw [hentries, List.map_cons, List.flatten_cons, List.append_eq_nil_iff] at hlines
      exact absurd hlines.1 (headerLine_ne_nil pair)
  · have hval : resp.ContentLength.toInt = create.ContentLength.toInt := decimalInt_inj hzero
    exact Int32.toInt_inj.mp hval

end HttpResponse

namespace HttpConnection

/-- What happens on a connection, call by call. -/
inductive Event
  /-- `recv` with the reports of the socket. -/
  | recv (rs : List RecvResult)
  /-- `readCb`, with the files there are. -/
  | readCb (files : FileTable)
  /-- `send` with the reports of the socket. -/
  | send (rs : List WritevResult)

/-- One call. -/
def exec (HttpCallback : HttpServeFunc) (s : HttpConnection) :
    Event → Except Fault (Unit × HttpConnection)
  | .recv rs => do
    let (_, mReadBuffer) ← s.conn.mReadBuffer.readFd rs
    return ((), { s with conn := { s.conn with mReadBuffer := mReadBuffer } })
  | .readCb files => do
    let s ← s.readCb HttpCallback files
    return ((), s)
  | .send rs => do
    let (_, conn) ← s.conn.send rs
    return ((), { s with conn := conn })

/-- The same connection with a new response object. -/
def withNewResponse (s : HttpConnection) : HttpConnection :=
  { s with mContext := { s.mContext with Response := HttpResponse.create } }

/-- A call of `readCb` queues the bytes and attaches the file that it would
with a new response object. -/
def AnswersAsNew (HttpCallback : HttpServeFunc) (s : HttpConnection) : Event → Prop
  | .readCb files => ∀ s', s.readCb HttpCallback files = .ok s' →
      ∃ t, s.withNewResponse.readCb HttpCallback files = .ok t ∧
        t.conn.mWriteBuffer.unread = s'.conn.mWriteBuffer.unread ∧ t.conn.m_iv1 = s'.conn.m_iv1
  | _ => True

/-- When the bytes received are rejected, no callback has left anything in the
response object. -/
def RejectsUntouched (s : HttpConnection) : Event → Prop
  | .readCb _ => (∃ req b,
      processRead s.mContext.Request s.conn.mReadBuffer = .ok (BAD_REQUEST, req, b)) →
      s.mContext.Response.Untouched
  | _ => True

/-- The send buffer has room for a rejection, with what is in the response
object and without it. -/
def HasRoom (s : HttpConnection) : Event → Prop
  | .readCb _ => ∀ resp ∈ [s.mContext.Response, HttpResponse.create],
      s.conn.mWriteBuffer.unread.length +
        (resp.setStatusCode CLIENT_ERROR_BAD_REQUEST).text.length ≤ kBufferSize
  | _ => True

/-- Until the request is complete, the response object is new but for its status. -/
structure BeforeAnswer (s : HttpConnection) : Prop where
  /-- A callback has been called only with a complete request. -/
  response : s.mContext.Request.mCheckState ≠ CHECK_STATE_SUCCESS →
    ∃ c, s.mContext.Response = HttpResponse.create.setStatusCode c
  /-- The pointers of the send buffer are in order. -/
  buffer : s.conn.mWriteBuffer.Valid

variable {HttpCallback : HttpServeFunc} {files : FileTable} {s s' : HttpConnection}

theorem ReadCb.beforeAnswer (h : ReadCb HttpCallback files s s') (hs : s.BeforeAnswer) :
    s'.BeforeAnswer := by
  have hopen : ∀ {code req b}, processRead s.mContext.Request s.conn.mReadBuffer = .ok (code, req, b) →
      req.mCheckState ≠ CHECK_STATE_SUCCESS →
      ∃ c, s.mContext.Response = HttpResponse.create.setStatusCode c := fun hread hst =>
    hs.response fun hsuccess => hst (processRead_success hsuccess hread).1
  cases h with
  | waiting hread _ _ =>
    refine ⟨?_, ?_⟩
    · rw [epollMod_mContext]
      exact hopen hread
    · rw [epollMod_conn]
      exact hs.buffer
  | rejected hread happend =>
    obtain ⟨wb, happend', hvalid⟩ := (s.mContext.Response.setStatusCode
      CLIENT_ERROR_BAD_REQUEST).appendToBuffer_valid hs.buffer
    rw [happend] at happend'
    cases happend'
    refine ⟨?_, ?_⟩
    · rw [enableConnWrite, epollMod_mContext]
      intro hst
      obtain ⟨c, hresp⟩ := hopen hread hst
      exact ⟨CLIENT_ERROR_BAD_REQUEST, by rw [hresp]; rfl⟩
    · rw [enableConnWrite, epollMod_conn]
      exact hvalid
  | @answered req b wb resp iv hread hresp happend hiv =>
    obtain ⟨wb, happend', hvalid⟩ := resp.appendToBuffer_valid hs.buffer
    rw [happend] at happend'
    cases happend'
    refine ⟨?_, ?_⟩
    · rw [enableConnWrite, epollMod_mContext]
      intro hst
      exact absurd (processRead_get hread) hst
    · rw [enableConnWrite, epollMod_conn]
      exact hvalid

theorem exec_beforeAnswer {e : Event} {o : Unit} (hs : s.BeforeAnswer)
    (h : s.exec HttpCallback e = .ok (o, s')) : s'.BeforeAnswer := by
  cases e with
  | recv rs =>
    obtain ⟨⟨out, b⟩, -, h⟩ := bind_eq_ok h
    cases h
    exact ⟨hs.response, hs.buffer⟩
  | readCb files =>
    obtain ⟨t, hcall, h⟩ := bind_eq_ok h
    cases h
    exact (readCb_eq_ok.mp hcall).beforeAnswer hs
  | send rs =>
    obtain ⟨⟨out, conn⟩, hsend, h⟩ := bind_eq_ok h
    cases h
    exact ⟨hs.response, (Connection.send_frame hsend).2.2 hs.buffer⟩

/-- A good request finds the response object as new, and so does a bad one
unless a callback has filled it. -/
theorem answersAsNew_of_untouched {e : Event} (hs : s.BeforeAnswer) (h : s.RejectsUntouched e) :
    s.AnswersAsNew HttpCallback e := by
  cases e with
  | recv rs => trivial
  | send rs => trivial
  | readCb files =>
    intro s' hcall
    cases readCb_eq_ok.mp hcall with
    | waiting hread hbad hget =>
      refine ⟨_, readCb_eq_ok.mpr (.waiting hread hbad hget), ?_, ?_⟩
      · simp only [epollMod_conn, withNewResponse]
      · simp only [epollMod_conn, withNewResponse]
    | rejected hread happend =>
      rw [(h ⟨_, _, hread⟩).appendToBuffer_eq] at happend
      refine ⟨_, readCb_eq_ok.mpr (.rejected hread happend), ?_, ?_⟩
      · simp only [enableConnWrite, epollMod_conn]
      · simp only [enableConnWrite, epollMod_conn, withNewResponse]
    | @answered req b wb resp iv hread hresp happend hiv =>
      have hst : s.mContext.Request.mCheckState ≠ CHECK_STATE_SUCCESS := fun hsuccess =>
        (processRead_success hsuccess hread).2 rfl
      obtain ⟨c, hnew⟩ := hs.response hst
      rw [hnew] at hresp
      refine ⟨_, readCb_eq_ok.mpr (.answered hread hresp happend hiv), ?_, ?_⟩
      · simp only [enableConnWrite, epollMod_conn]
      · simp only [enableConnWrite, epollMod_conn]

/-- Where a rejection fits, what a callback has left is sent with it. -/
theorem untouched_of_answersAsNew {e : Event} (hs : s.BeforeAnswer) (hroom : s.HasRoom e)
    (h : s.AnswersAsNew HttpCallback e) : s.RejectsUntouched e := by
  cases e with
  | recv rs => trivial
  | send rs => trivial
  | readCb files =>
    rintro ⟨req, b, hread⟩
    obtain ⟨consumed, free, hb⟩ := hs.buffer.holds
    obtain ⟨wb, consumed₁, free₁, happend, hb₁⟩ := HttpResponse.appendToBuffer_room _ hb
      (hroom s.mContext.Response List.mem_cons_self)
    obtain ⟨wb', consumed₂, free₂, happend', hb₂⟩ := HttpResponse.appendToBuffer_room _ hb
      (hroom HttpResponse.create (List.mem_cons_of_mem _ List.mem_cons_self))
    obtain ⟨t, hcall, hqueued, -⟩ := h _ (readCb_eq_ok.mpr (.rejected hread happend))
    have hnew : s.withNewResponse.readCb HttpCallback files = _ :=
      readCb_eq_ok.mpr (.rejected hread happend')
    rw [hnew] at hcall
    cases hcall
    simp only [enableConnWrite, epollMod_conn, hb₁.unread_eq, hb₂.unread_eq] at hqueued
    exact HttpResponse.untouched_of_text_eq (List.append_cancel_left hqueued).symm

/-- On a new connection the response object is new. -/
theorem accept_beforeAnswer (rb : FixedBuffer) {wb : FixedBuffer} (hwb : wb.Valid) :
    (accept rb wb).BeforeAnswer :=
  ⟨fun _ => ⟨CLIENT_ERROR_NOT_FOUND, rfl⟩, hwb⟩

/-- In every run in which nothing a callback left is in the response object
when the parser rejects, each call answers as with a new one; and no other run
does so, as long as the rejections fit in the send buffer. -/
theorem no_response_leaks (HttpCallback : HttpServeFunc) (rb : FixedBuffer) {wb : FixedBuffer}
    (hwb : wb.Valid) (events : List Event) :
    (Meets (exec HttpCallback) RejectsUntouched (accept rb wb) events →
      Meets (exec HttpCallback) (AnswersAsNew HttpCallback) (accept rb wb) events) ∧
    (Meets (exec HttpCallback) HasRoom (accept rb wb) events →
      Meets (exec HttpCallback) (AnswersAsNew HttpCallback) (accept rb wb) events →
      Meets (exec HttpCallback) RejectsUntouched (accept rb wb) events) := by
  have hstart := accept_beforeAnswer rb hwb
  constructor
  · intro h
    exact h.imp (fun _ _ _ _ hs _ hexec => exec_beforeAnswer hs hexec)
      (fun _ _ hs hmeets => answersAsNew_of_untouched hs hmeets) hstart
  · intro hroom h
    exact (hroom.and h).imp (fun _ _ _ _ hs _ hexec => exec_beforeAnswer hs hexec)
      (fun _ _ hs hmeets => untouched_of_answersAsNew hs hmeets.1 hmeets.2) hstart

/-- With it, no call leaves anything in the response object but a status. -/
theorem exec_untouched {e : Event} {o : Unit} (hs : s.mContext.Response.Untouched)
    (h : s.exec leavesAlone e = .ok (o, s')) : s'.mContext.Response.Untouched := by
  cases e with
  | recv rs =>
    obtain ⟨⟨out, b⟩, -, h⟩ := bind_eq_ok h
    cases h
    exact hs
  | send rs =>
    obtain ⟨⟨out, conn⟩, -, h⟩ := bind_eq_ok h
    cases h
    exact hs
  | readCb files =>
    obtain ⟨t, hcall, h⟩ := bind_eq_ok h
    cases h
    cases readCb_eq_ok.mp hcall with
    | waiting _ _ _ =>
      rw [epollMod_mContext]
      exact hs
    | rejected _ _ =>
      rw [enableConnWrite, epollMod_mContext]
      exact ⟨hs.headers, hs.alive, hs.length, hs.body⟩
    | answered _ hresp _ _ =>
      rw [enableConnWrite, epollMod_mContext]
      subst hresp
      exact ⟨hs.headers, hs.alive, hs.length, hs.body⟩

/-- So the parser never rejects behind a callback that has left something. -/
theorem meets_untouched (hs : s.mContext.Response.Untouched) (events : List Event) :
    Meets (exec leavesAlone) RejectsUntouched s events := by
  induction events generalizing s with
  | nil => trivial
  | cons e events ih =>
    refine ⟨?_, fun o s' hexec => ih (exec_untouched hs hexec)⟩
    cases e with
    | readCb files => exact fun _ => hs
    | recv rs => trivial
    | send rs => trivial

/-- A request is answered, its answer is sent, and an empty line without CR is rejected. -/
theorem no_response_leaks_sample :
    (do let t₁ ← (accept blank blank).exec leavesAlone (.recv [.bytes keepAliveGet, .again])
        let t₂ ← t₁.2.exec leavesAlone (.readCb fun _ => none)
        let t₃ ← t₂.2.exec leavesAlone (.send [.count 62, .zero])
        let t₄ ← t₃.2.exec leavesAlone (.recv [.bytes [LF], .again])
        let parsed ← processRead t₄.2.mContext.Request t₄.2.conn.mReadBuffer
        return (t₃.2.conn.mWriteBuffer.used, parsed.1)) = .ok (0, BAD_REQUEST) ∧
    Meets (exec leavesAlone) (AnswersAsNew leavesAlone) (accept blank blank)
      [.recv [.bytes keepAliveGet, .again], .readCb fun _ => none, .send [.count 62, .zero],
        .recv [.bytes [LF], .again], .readCb fun _ => none] :=
  ⟨by decide +kernel, (no_response_leaks leavesAlone blank (create_holds _ _).valid _).1
    (meets_untouched ⟨rfl, rfl, rfl, rfl⟩ _)⟩

/-- A callback that sets a body. -/
def setsBody : HttpServeFunc := fun _ _ resp => resp.setBody [120]

/-- A request is answered, its answer is sent, and an empty line without CR
arrives: the rejection has the body of the answer. -/
theorem body_leaks_into_rejection :
    ¬ ∀ (HttpCallback : HttpServeFunc) (rb wb : FixedBuffer) (events : List Event), wb.Valid →
      Meets (exec HttpCallback) (AnswersAsNew HttpCallback) (accept rb wb) events := by
  intro hall
  let files : FileTable := fun _ => none
  have hmeets := hall setsBody blank blank
    [.recv [.bytes keepAliveGet, .again], .readCb files, .send [.count 63, .zero],
      .recv [.bytes [LF], .again], .readCb files] (create_holds _ _).valid
  have hrun : (do
      let t₁ ← (accept blank blank).exec setsBody (.recv [.bytes keepAliveGet, .again])
      let t₂ ← t₁.2.exec setsBody (.readCb files)
      let t₃ ← t₂.2.exec setsBody (.send [.count 63, .zero])
      let t₄ ← t₃.2.exec setsBody (.recv [.bytes [LF], .again])
      let parsed ← processRead t₄.2.mContext.Request t₄.2.conn.mReadBuffer
      return (parsed.1, t₄.2.mContext.Response.Body, t₄.2.conn.mWriteBuffer.unread.length,
        (t₄.2.mContext.Response.setStatusCode CLIENT_ERROR_BAD_REQUEST).text.length)) =
      .ok (BAD_REQUEST, [120], 0, 128) := by
    decide +kernel
  obtain ⟨⟨o₁, s₁⟩, h₁, hrun⟩ := bind_eq_ok hrun
  obtain ⟨⟨o₂, s₂⟩, h₂, hrun⟩ := bind_eq_ok hrun
  obtain ⟨⟨o₃, s₃⟩, h₃, hrun⟩ := bind_eq_ok hrun
  obtain ⟨⟨o₄, s₄⟩, h₄, hrun⟩ := bind_eq_ok hrun
  obtain ⟨⟨code, req, b⟩, hread, hrun⟩ := bind_eq_ok hrun
  simp only [pure, Except.pure, Except.ok.injEq, Prod.mk.injEq] at hrun
  obtain ⟨rfl, hbody, hempty, hlen⟩ := hrun
  have hs₄ : s₄.BeforeAnswer :=
    exec_beforeAnswer (exec_beforeAnswer (exec_beforeAnswer (exec_beforeAnswer
      (accept_beforeAnswer blank (create_holds _ _).valid) h₁) h₂) h₃) h₄
  have hnew : (HttpResponse.create.setStatusCode CLIENT_ERROR_BAD_REQUEST).text.length = 127 := by
    decide +kernel
  have hroom : s₄.HasRoom (.readCb files) := by
    intro resp hresp
    have hk := kBufferSize_eq
    rcases List.mem_pair.mp hresp with rfl | rfl
    · omega
    · omega
  have hanswer := (hmeets.2 o₁ s₁ h₁).2 o₂ s₂ h₂ |>.2 o₃ s₃ h₃ |>.2 o₄ s₄ h₄ |>.1
  have huntouched := untouched_of_answersAsNew hs₄ hroom hanswer ⟨req, b, hread⟩
  rw [huntouched.body] at hbody
  cases hbody

end HttpConnection

end KyrosWebServer.Http
