import KyrosWebServer.HttpServer
import KyrosWebServer.ResponseText

/-!
# What the Connection header promises

The line is written from the response alone, before `mAlive` is computed from
the request as well, and on a rejection `mAlive` is false whatever the
response says.
-/

namespace KyrosWebServer.Http

open CMemory CString Base Net FixedBuffer

namespace HttpResponse

/-- The first two lines of a head are never too long for an empty buffer. -/
theorem appendToBuffer_empty (resp : HttpResponse) {b b' : FixedBuffer} (hb : b.Valid)
    (hempty : b.unread = []) (h : resp.appendToBuffer b = .ok b') :
    ∃ more, b'.unread = resp.statusLine ++ (resp.connectionLine ++ more) := by
  obtain ⟨consumed, free, hholds⟩ := hb.holds
  obtain ⟨b₁, _, _, hall, hb₁⟩ := appendAll_admitted hholds resp.pieces
  rw [← appendToBuffer_eq, h] at hall
  cases hall
  have hstatus : resp.statusLine.length ≤ 127 := by
    rw [statusLine, snprintf, List.length_take]
    exact Nat.min_le_left ..
  have hconnection : resp.connectionLine.length ≤ 127 := by
    rw [connectionLine]
    split <;> decide +kernel
  have hk := kBufferSize_eq
  rw [hempty, List.nil_append, List.length_nil, Nat.sub_zero] at hb₁
  have hpieces : admitted kBufferSize resp.pieces =
      resp.statusLine ++ (resp.connectionLine ++ admitted
        (kBufferSize - resp.statusLine.length - resp.connectionLine.length)
        (resp.pieces.drop 2)) := by
    rw [pieces, admitted, pieceSize_eq (by omega), if_pos (by omega), taken_eq (by omega),
      admitted, pieceSize_eq (by omega), if_pos (by omega), taken_eq (by omega)]
    rfl
  exact ⟨_, hb₁.unread_eq.trans hpieces⟩

end HttpResponse

namespace HttpConnection

/-- The queued head has the line `Connection:keep-isAlive`, which follows the
line with the status. -/
def SaysKeepAlive (s : HttpConnection) : Prop :=
  ∃ more, s.conn.mWriteBuffer.unread = s.mContext.Response.statusLine ++
    (ascii "Connection:keep-isAlive".toList ++ crlf ++ more)

variable {HttpCallback : HttpServeFunc} {files : FileTable} {s s' : HttpConnection}

/-- In an empty buffer the head says what the response says. -/
theorem saysKeepAlive_iff {b : FixedBuffer} (hb : b.Valid) (hempty : b.unread = [])
    (h : s'.mContext.Response.appendToBuffer b = .ok s'.conn.mWriteBuffer) :
    s'.SaysKeepAlive ↔ s'.mContext.Response.isAlive = true := by
  obtain ⟨more, hunread⟩ := s'.mContext.Response.appendToBuffer_empty hb hempty h
  constructor
  · rintro ⟨rest, hsays⟩
    rw [hunread] at hsays
    exact s'.mContext.Response.isAlive_of_connectionLine (List.append_cancel_left hsays)
  · intro halive
    refine ⟨more, ?_⟩
    rw [hunread, HttpResponse.connectionLine, if_pos halive]

/-- A response that is queued is the one in the context, on either branch. -/
theorem ReadCb.queues (h : ReadCb HttpCallback files s s') {code : HTTP_CODE} {req : HttpRequest}
    {b : FixedBuffer}
    (hread : processRead s.mContext.Request s.conn.mReadBuffer = .ok (code, req, b))
    (hcode : code = BAD_REQUEST ∨ code = GET_REQUEST) :
    s'.mContext.Response.appendToBuffer s.conn.mWriteBuffer = .ok s'.conn.mWriteBuffer ∧
      (code = BAD_REQUEST →
        s'.mContext.Response = s.mContext.Response.setStatusCode CLIENT_ERROR_BAD_REQUEST ∧
        s'.conn.mAlive = false) ∧
      (code = GET_REQUEST →
        s'.mContext.Response =
          HttpCallback files req (s.mContext.Response.setStatusCode SUCCESS_OK) ∧
        s'.conn.mAlive = (s'.mContext.Response.isAlive && req.isAlive)) := by
  cases h with
  | waiting hread' hbad hget =>
    rw [hread] at hread'
    cases hread'
    exact absurd hcode (not_or_intro hbad hget)
  | rejected hread' happend =>
    rw [hread] at hread'
    cases hread'
    refine ⟨?_, fun _ => ⟨?_, ?_⟩, fun hget => HTTP_CODE.noConfusion hget⟩
    · rw [enableConnWrite, epollMod_conn, epollMod_mContext]
      exact happend
    · rw [enableConnWrite, epollMod_mContext]
    · rw [enableConnWrite, epollMod_conn]
  | answered hread' hresp happend hiv =>
    rw [hread] at hread'
    cases hread'
    refine ⟨?_, fun hbad => HTTP_CODE.noConfusion hbad, fun _ => ⟨?_, ?_⟩⟩
    · rw [enableConnWrite, epollMod_conn, epollMod_mContext]
      exact happend
    · rw [enableConnWrite, epollMod_mContext]
      exact hresp
    · rw [enableConnWrite, epollMod_conn, epollMod_mContext]

/-- A call that queues a response keeps the promise of its head exactly when
the response of a rejected request was closing before, and when a callback that
keeps the connection was given a request that keeps it. -/
theorem connection_header_true_iff (h : s.readCb HttpCallback files = .ok s')
    {code : HTTP_CODE} {req : HttpRequest} {b : FixedBuffer}
    (hread : processRead s.mContext.Request s.conn.mReadBuffer = .ok (code, req, b))
    (hcode : code = BAD_REQUEST ∨ code = GET_REQUEST)
    (hvalid : s.conn.mWriteBuffer.Valid) (hempty : s.conn.mWriteBuffer.unread = []) :
    (s'.SaysKeepAlive ↔ s'.conn.mAlive = true) ↔
      (code = BAD_REQUEST → s.mContext.Response.isAlive = false) ∧
      (code = GET_REQUEST →
        (HttpCallback files req (s.mContext.Response.setStatusCode SUCCESS_OK)).isAlive = true →
        req.isAlive = true) := by
  obtain ⟨happend, hrejected, hanswered⟩ := (readCb_eq_ok.mp h).queues hread hcode
  rw [saysKeepAlive_iff hvalid hempty happend]
  rcases hcode with rfl | rfl
  · obtain ⟨hresp, halive⟩ := hrejected rfl
    rw [hresp, halive]
    change (s.mContext.Response.isAlive = true ↔ _) ↔ _
    cases s.mContext.Response.isAlive <;> simp
  · obtain ⟨hresp, halive⟩ := hanswered rfl
    rw [halive, hresp]
    cases req.isAlive <;> simp

/-- A new connection that has received a text, and the call that answers it. -/
theorem answered_once (text : List UInt8) {code : HTTP_CODE} {asks keeps : Bool}
    (hrun : (do
      let received ← blank.append text
      let parsed ← processRead HttpRequest.fresh received.2
      let s' ← (accept received.2 blank).readCb leavesAlone (fun _ => none)
      return (parsed.1, parsed.2.1.isAlive, s'.conn.mAlive)) = Except.ok (code, asks, keeps)) :
    ∃ (s s' : HttpConnection) (req : HttpRequest) (b : FixedBuffer),
      s.conn.mWriteBuffer = blank ∧ s.mContext.Response = HttpResponse.create ∧
      s.readCb leavesAlone (fun _ => none) = .ok s' ∧
      processRead s.mContext.Request s.conn.mReadBuffer = .ok (code, req, b) ∧
      req.isAlive = asks ∧ s'.conn.mAlive = keeps := by
  obtain ⟨received, _, hrun⟩ := bind_eq_ok hrun
  obtain ⟨⟨code', req, b⟩, hread, hrun⟩ := bind_eq_ok hrun
  obtain ⟨s', hcall, hrun⟩ := bind_eq_ok hrun
  cases hrun
  exact ⟨accept received.2 blank, s', req, b, rfl, rfl, hcall, hread, rfl, rfl⟩

/-- A request that asks to keep the connection is told the truth. -/
theorem connection_header_true_iff_keepAlive : ∃ s s' : HttpConnection,
    s.readCb leavesAlone (fun _ => none) = .ok s' ∧
    (s'.SaysKeepAlive ↔ s'.conn.mAlive = true) := by
  have hblank : blank.Holds [] [] (List.replicate kBufferSize 0) := create_holds _ _
  obtain ⟨s, s', req, b, hwrite, _, hcall, hread, hasks, _⟩ := answered_once keepAliveGet
    (show _ = Except.ok (GET_REQUEST, true, true) by decide +kernel)
  refine ⟨s, s', hcall, (connection_header_true_iff hcall hread (.inr rfl) ?_ ?_).mpr ?_⟩
  · rw [hwrite]
    exact hblank.valid
  · rw [hwrite]
    exact hblank.unread_eq
  · exact ⟨fun hbad => HTTP_CODE.noConfusion hbad, fun _ _ => hasks⟩

/-- A request that does not ask for it is told that the connection is kept, and
the connection is closed. -/
theorem connection_header_lies : ∃ (s s' : HttpConnection) (req : HttpRequest) (b : FixedBuffer),
    s.conn.mWriteBuffer = blank ∧ s.readCb leavesAlone (fun _ => none) = .ok s' ∧
    processRead s.mContext.Request s.conn.mReadBuffer = .ok (GET_REQUEST, req, b) ∧
    s'.SaysKeepAlive ∧ s'.conn.mAlive = false := by
  have hblank : blank.Holds [] [] (List.replicate kBufferSize 0) := create_holds _ _
  obtain ⟨s, s', req, b, hwrite, hresp, hcall, hread, _, hkeeps⟩ := answered_once minimalGet
    (show _ = Except.ok (GET_REQUEST, false, false) by decide +kernel)
  obtain ⟨happend, _, hanswered⟩ := (readCb_eq_ok.mp hcall).queues hread (.inr rfl)
  refine ⟨s, s', req, b, hwrite, hcall, hread, ?_, hkeeps⟩
  rw [hwrite] at happend
  rw [saysKeepAlive_iff hblank.valid hblank.unread_eq happend, (hanswered rfl).1, hresp]
  rfl

end HttpConnection

end KyrosWebServer.Http
