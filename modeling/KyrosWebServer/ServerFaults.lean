import KyrosWebServer.BufferReceive
import KyrosWebServer.Logger
import KyrosWebServer.RequestFault
import KyrosWebServer.ServerConversation

/-!
# What can stop a thread of the server

In no interleaving do `recv`, `send` and the responses leave the buffers of
their connection, whatever the kernel reports. Two calls of a handler can fail:
the line of the log that takes the receive buffer for a string, where there is
no NUL in it, and the parser, which throws where a negative length is taken for
a body. The memory behind the read pointer decides the one, the bytes received
decide the other. Everything else goes on.
-/

namespace KyrosWebServer.Http

open CMemory Base FixedBuffer Net TransitionSystem HttpConnection

variable {HttpCallback : HttpServeFunc} {disk : MappedFiles → Prop}

/-- How the parser of a connection stands to the stream received. -/
inductive Standing (s : HttpConnection) : List UInt8 → Prop
  /-- In the head. -/
  | head {got consumed w free : List UInt8} (hb : s.conn.mReadBuffer.Holds consumed w free)
      (hin : s.mContext.Request.InLine w)
      (hhead : runHead HttpRequest.fresh got = .ok (.wait s.mContext.Request w)) : Standing s got
  /-- In front of the body; nothing of it has been received. -/
  | body {got consumed free : List UInt8} (hb : s.conn.mReadBuffer.Holds consumed [] free)
      (hin : s.mContext.Request.InLine [])
      (hhead : runHead HttpRequest.fresh got = .ok (.past s.mContext.Request [])) : Standing s got
  /-- Nothing that is still read can make the parser throw. -/
  | refused {got consumed w free : List UInt8} (hb : s.conn.mReadBuffer.Holds consumed w free)
      (hin : s.mContext.Request.mCheckIndex ≤ w.length)
      (hstream : ∀ more, ¬ NegativeBody (got ++ more))
      (hreq : s.conn.mAlive = true → s.mContext.Request.Harmless) : Standing s got
  /-- Nothing is read any more. -/
  | closed {got : List UInt8} (habsent : s.mEpoll = .absent) : Standing s got

/-- A head that does not lead to a body never will. -/
theorem not_negativeBody_stop {got w : List UInt8} {code : HTTP_CODE} {req : HttpRequest}
    (h : runHead HttpRequest.fresh got = .ok (.stop code req w)) (more : List UInt8) :
    ¬ NegativeBody (got ++ more) := by
  rintro ⟨req', w', hpast, -⟩
  rw [runHead_append, h] at hpast
  cases hpast

/-- Behind the head it is settled what the stream declares. -/
theorem not_negativeBody_past {got w : List UInt8} {req : HttpRequest}
    (h : runHead HttpRequest.fresh got = .ok (.past req w))
    (hharmless : 0 ≤ req.contentLength ∨ LoneBreak w) (more : List UInt8) :
    ¬ NegativeBody (got ++ more) := by
  rintro ⟨req', w', hpast, hneg, -, hbreak⟩
  rw [runHead_append, h] at hpast
  cases hpast
  rcases hharmless with hlen | hlone
  · omega
  · exact hbreak (hlone.append more)

/-- What `readCb` does to the parser and to the flag. -/
theorem HttpConnection.ReadCb.request {files : FileTable} {s s' : HttpConnection}
    (h : ReadCb HttpCallback files s s') :
    ∃ code req, processRead s.mContext.Request s.conn.mReadBuffer = .ok (code, req, s'.conn.mReadBuffer) ∧
      (code = BAD_REQUEST ∧ s'.conn.mAlive = false ∧ s'.mContext.Request = req ∨
        code = GET_REQUEST ∧ s'.mContext.Request = req.Init ∨
        code ≠ BAD_REQUEST ∧ code ≠ GET_REQUEST ∧ s'.mContext.Request = req) := by
  cases h with
  | @waiting code req b hread hbad hget =>
    rw [epollMod_conn, epollMod_mContext]
    exact ⟨code, req, hread, .inr (.inr ⟨hbad, hget, rfl⟩)⟩
  | @rejected req b wb hread happend =>
    rw [enableConnWrite, epollMod_conn, epollMod_mContext]
    exact ⟨_, req, hread, .inl ⟨rfl, rfl, rfl⟩⟩
  | @answered req b wb resp iv hread hresp happend hiv =>
    rw [enableConnWrite, epollMod_conn, epollMod_mContext]
    exact ⟨_, req, hread, .inr (.inl ⟨rfl, rfl⟩)⟩

/-- Once the stream is settled, a call that rejects, answers or leaves a harmless
parser settles the connection. -/
theorem HttpConnection.ReadCb.refused {files : FileTable} {s s' : HttpConnection}
    (h : ReadCb HttpCallback files s s') {got consumed w free : List UInt8}
    (hb : s.conn.mReadBuffer.Holds consumed w free) (hi : s.mContext.Request.mCheckIndex ≤ w.length)
    (hstream : ∀ more, ¬ NegativeBody (got ++ more))
    (hnext : ∀ code req b, processRead s.mContext.Request s.conn.mReadBuffer = .ok (code, req, b) →
      code = BAD_REQUEST ∨ code = GET_REQUEST ∨ req.Harmless) : Standing s' got := by
  obtain ⟨code, req, hread, hcase⟩ := h.request
  have hwin := processRead_window hb hi
  rw [hread] at hwin
  generalize windowRead s.mContext.Request w = out at hwin
  cases hwin with
  | ok hb' hi' =>
    rcases hcase with ⟨-, halive, hreq⟩ | ⟨rfl, hreq⟩ | ⟨hbad, hget, hreq⟩
    · refine .refused hb' (by rw [hreq]; exact hi') hstream fun hkept => ?_
      rw [halive] at hkept
      cases hkept
    · have hst := processRead_get hread
      refine .refused hb' (by rw [hreq]; exact Nat.zero_le _) hstream fun _ => ?_
      have hst' : req.Init.mCheckState = CHECK_STATE_SUCCESS := hst
      rw [hreq]
      refine ⟨by simp [HttpRequest.pastHead, hst'], fun hbody => ?_⟩
      cases hst'.symm.trans hbody
    · refine .refused hb' (by rw [hreq]; exact hi') hstream fun _ => ?_
      rcases hnext _ _ _ hread with hcode | hcode | hharmless
      · exact absurd hcode hbad
      · exact absurd hcode hget
      · rw [hreq]
        exact hharmless

/-- A call that gets behind the head: it waits for a negative body, or the
connection is settled. -/
theorem HttpConnection.ReadCb.past {files : FileTable} {s s' : HttpConnection}
    (h : ReadCb HttpCallback files s s') {got consumed₀ w₀ free₀ consumed w free : List UInt8}
    (hb₀ : s.conn.mReadBuffer.Holds consumed₀ w₀ free₀)
    (hi₀ : s.mContext.Request.mCheckIndex ≤ w₀.length) {req : HttpRequest} {b : FixedBuffer}
    (hsame : processRead s.mContext.Request s.conn.mReadBuffer = processRead req b)
    (hb : b.Holds consumed w free) (hin : req.InLine w)
    (hhead : runHead HttpRequest.fresh got = .ok (.past req w)) : Standing s' got := by
  have hst := runHead_body (by decide) hhead
  by_cases hneg : req.contentLength < 0
  · by_cases hw : w = []
    · subst hw
      obtain ⟨code, req', hread, hcase⟩ := h.request
      rw [hsame, processRead_unused req hb.used_eq] at hread
      obtain ⟨rfl, rfl, hbuf⟩ : NO_REQUEST = code ∧ req = req' ∧ b = s'.conn.mReadBuffer := by
        cases hread
        exact ⟨rfl, rfl, rfl⟩
      rcases hcase with ⟨hcode, -⟩ | ⟨hcode, -⟩ | ⟨-, -, hreq⟩
      · cases hcode
      · cases hcode
      · exact .body (hbuf ▸ hb) (by rw [hreq]; exact hin) (by rw [hreq]; exact hhead)
    · by_cases hbreak : LoneBreak w
      · refine h.refused hb₀ hi₀ (not_negativeBody_past hhead (.inr hbreak)) fun code req' b' hread => ?_
        obtain ⟨req₁, b₁, hreject⟩ := body_rejects hb hin hbreak
        rw [hsame, hreject] at hread
        cases hread
        exact .inl rfl
      · obtain ⟨code, req', hread, -⟩ := h.request
        rw [hsame, body_throws hb hin hst ⟨hneg, hw, hbreak⟩] at hread
        cases hread
  · have hlen : 0 ≤ req.contentLength := Int.not_lt.mp hneg
    refine h.refused hb₀ hi₀ (not_negativeBody_past hhead (.inl hlen)) fun code req' b' hread => ?_
    have hharmless : req.Harmless := ⟨by simp [HttpRequest.pastHead, hst], fun _ => hlen⟩
    obtain ⟨code₁, req₁, b₁, hread₁, hreq₁⟩ := processRead_harmless hb (inLine_le hin) hharmless
    rw [hsame, hread₁] at hread
    cases hread
    exact .inr (.inr hreq₁)

/-- `readCb` on the bytes just received. -/
theorem Standing.readCb {files : FileTable} {s s' : HttpConnection} {got new : List UInt8}
    (hs : Standing s got) (hopen : s.mEpoll ≠ .absent) (halive : s.conn.mAlive = true)
    {rs : List RecvResult} {out : Option ℤ × List RecvResult} {b : FixedBuffer}
    (hrecv : s.conn.mReadBuffer.readFd rs = .ok (out, b))
    (hnew : b.unread = s.conn.mReadBuffer.unread ++ new) {reg : Registration}
    (h : ReadCb HttpCallback files
      { s with conn := { s.conn with mReadBuffer := b }, mEpoll := reg } s') :
    Standing s' (got ++ new) := by
  cases hs with
  | closed habsent => exact absurd habsent hopen
  | @head consumed w free hb hin hhead =>
    obtain ⟨consumed₁, free₁, hb₁⟩ := hb.readFd_append hrecv hnew
    have hin₁ := hin.append new
    have hout := processRead_runHead hb₁ hin₁
    have hrun : runHead HttpRequest.fresh (got ++ new) = runHead s.mContext.Request (w ++ new) := by
      rw [runHead_append, hhead]
    obtain ⟨head, hok⟩ := runHead_ok s.mContext.Request (w ++ new)
    rw [hok] at hrun hout
    cases hout with
    | @wait req b' consumed' w' hread hb' hin' =>
      obtain ⟨code, req₁, hread₁, hcase⟩ := h.request
      rw [hread] at hread₁
      cases hread₁
      rcases hcase with ⟨hcode, -⟩ | ⟨hcode, -⟩ | ⟨-, -, hreq⟩
      · cases hcode
      · cases hcode
      · exact .head hb' (by rw [hreq]; exact hin') (by rw [hreq]; exact hrun)
    | @stop code req b' consumed' w' hread hb' =>
      refine h.refused hb₁ (inLine_le hin₁) (not_negativeBody_stop hrun) fun code' req' b'' hread' => ?_
      rw [hread] at hread'
      cases hread'
      rcases runHead_stop hok with ⟨hcode, -⟩ | ⟨hcode, -⟩
      · exact .inl hcode
      · exact .inr (.inl hcode)
    | @past req b' consumed' w' hturns hb' hin' =>
      exact h.past hb₁ (inLine_le hin₁) hturns.processRead_eq hb' hin' hrun
  | @body consumed free hb hin hhead =>
    obtain ⟨consumed₁, free₁, hb₁⟩ := hb.readFd_append hrecv hnew
    have hin₁ := hin.append new
    have hrun : runHead HttpRequest.fresh (got ++ new) = .ok (.past s.mContext.Request ([] ++ new)) := by
      rw [runHead_append, hhead]
    exact h.past hb₁ (inLine_le hin₁) rfl hb₁ hin₁ hrun
  | @refused consumed w free hb hin hstream hreq =>
    obtain ⟨consumed₁, free₁, hb₁⟩ := hb.readFd_append hrecv hnew
    have hin₁ : s.mContext.Request.mCheckIndex ≤ (w ++ new).length := by
      rw [List.length_append]
      omega
    refine h.refused hb₁ hin₁ (fun more => ?_) fun code req b' hread => ?_
    · rw [List.append_assoc]
      exact hstream (new ++ more)
    · obtain ⟨code₁, req₁, b₁, hread₁, hreq₁⟩ := processRead_harmless hb₁ hin₁ (hreq halive)
      rw [hread₁] at hread
      cases hread
      exact .inr (.inr hreq₁)

/-- The parser throws on the bytes just received exactly when the stream has
come to a negative body. -/
theorem Standing.throws_iff {s : HttpConnection} {got new : List UInt8} (hs : Standing s got)
    (hopen : s.mEpoll ≠ .absent) (halive : s.conn.mAlive = true) {rs : List RecvResult}
    {out : Option ℤ × List RecvResult} {b : FixedBuffer}
    (hrecv : s.conn.mReadBuffer.readFd rs = .ok (out, b))
    (hnew : b.unread = s.conn.mReadBuffer.unread ++ new) {e : Fault} :
    processRead s.mContext.Request b = .error e ↔ e = .lengthError ∧ NegativeBody (got ++ new) := by
  have hsettled : ∀ {req : HttpRequest} {w : List UInt8},
      runHead HttpRequest.fresh (got ++ new) = .ok (.past req w) →
        (NegativeBody (got ++ new) ↔ Throws req w) := by
    intro req w hrun
    constructor
    · rintro ⟨req', w', hrun', hthrows⟩
      rw [hrun] at hrun'
      cases hrun'
      exact hthrows
    · intro hthrows
      exact ⟨req, w, hrun, hthrows⟩
  cases hs with
  | closed habsent => exact absurd habsent hopen
  | @head consumed w free hb hin hhead =>
    obtain ⟨consumed₁, free₁, hb₁⟩ := hb.readFd_append hrecv hnew
    have hout := processRead_runHead hb₁ (hin.append new)
    have hrun : runHead HttpRequest.fresh (got ++ new) = runHead s.mContext.Request (w ++ new) := by
      rw [runHead_append, hhead]
    obtain ⟨head, hok⟩ := runHead_ok s.mContext.Request (w ++ new)
    rw [hok] at hrun hout
    cases hout with
    | wait hread _ _ | stop hread _ =>
      constructor
      · intro h
        rw [hread] at h
        cases h
      · rintro ⟨-, req', w', hpast, -⟩
        rw [hrun] at hpast
        cases hpast
    | past hturns hb' hin' =>
      rw [hturns.processRead_eq, hsettled hrun]
      exact body_throws_iff hb' hin' (runHead_body (by decide) hrun)
  | @body consumed free hb hin hhead =>
    obtain ⟨consumed₁, free₁, hb₁⟩ := hb.readFd_append hrecv hnew
    have hrun : runHead HttpRequest.fresh (got ++ new) = .ok (.past s.mContext.Request ([] ++ new)) := by
      rw [runHead_append, hhead]
    rw [hsettled hrun]
    exact body_throws_iff hb₁ (hin.append new) (runHead_body (by decide) hrun)
  | @refused consumed w free hb hin hstream hreq =>
    obtain ⟨consumed₁, free₁, hb₁⟩ := hb.readFd_append hrecv hnew
    have hin₁ : s.mContext.Request.mCheckIndex ≤ (w ++ new).length := by
      rw [List.length_append]
      omega
    constructor
    · intro h
      obtain ⟨code, req', b', hread, -⟩ := processRead_harmless hb₁ hin₁ (hreq halive)
      rw [hread] at h
      cases h
    · rintro ⟨-, hneg⟩
      refine absurd hneg ?_
      have hnone := hstream (new ++ [])
      rwa [List.append_nil] at hnone

/-- Sending does not concern the parser. -/
theorem Standing.keep {s s' : HttpConnection} {got : List UInt8} (hs : Standing s got)
    (hbuf : s'.conn.mReadBuffer = s.conn.mReadBuffer) (halive : s'.conn.mAlive = s.conn.mAlive)
    (hcontext : s'.mContext = s.mContext) (hopen : s.mEpoll ≠ .absent) : Standing s' got := by
  cases hs with
  | closed habsent => exact absurd habsent hopen
  | head hb hin hhead =>
    rw [← hbuf] at hb
    rw [← hcontext] at hin hhead
    exact .head hb hin hhead
  | body hb hin hhead =>
    rw [← hbuf] at hb
    rw [← hcontext] at hin hhead
    exact .body hb hin hhead
  | refused hb hin hstream hreq =>
    rw [← hbuf] at hb
    rw [← hcontext] at hin hreq
    exact .refused hb hin hstream fun hkept => hreq (halive.symm.trans hkept)

/-- One event. -/
theorem Converses.standing {s s' : HttpConnection} {m : Exchange} {got : List UInt8}
    (h : Converses HttpCallback s m s') (hs : Standing s got)
    (halive : s.mEpoll = .armed .EPOLLIN → s.conn.mAlive = true) :
    Standing s' (got ++ m.move.received) := by
  cases h with
  | hangup _ => exact .closed rfl
  | @read _ table rs rest ret b new r harmed hrecv hnew hreply hcall =>
    obtain ⟨out, b', hrecv', hcase⟩ := handleRead_replies hcall hreply
    rw [hrecv] at hrecv'
    cases hrecv'
    rcases hcase with ⟨-, rfl⟩ | ⟨hcb, -⟩
    · exact .closed rfl
    · exact hs.readCb (by rw [harmed]; exact Registration.noConfusion) (halive harmed) hrecv hnew hcb
  | @write _ rs rest ret out conn harmed hrs hsend hcall =>
    rw [show (Exchange.write out).move.received = [] from rfl, List.append_nil]
    cases ret with
    | none =>
      rw [HttpConnection.handleWrite, hsend] at hcall
      cases hcall
    | some ret =>
      obtain ⟨t, hcall', hconn, hcontext, -⟩ :=
        handleWrite_afterSend (s := { s with mEpoll := .disarmed }) rfl hsend
      rw [hcall] at hcall'
      cases hcall'
      obtain ⟨hbuf, hflag, -⟩ := Connection.send_frame hsend
      exact hs.keep (by rw [hconn]; exact hbuf) (by rw [hconn]; exact hflag) hcontext
        (by rw [harmed]; exact Registration.noConfusion)

/-- In every conversation the parser stands to the stream as it should. -/
theorem conversation_standing {rb wb : FixedBuffer} {s : HttpConnection} {ms : List Exchange}
    (hrb : rb.Valid ∧ rb.unread = []) (hwb : wb.Valid ∧ wb.unread = [])
    (hrun : (conversation HttpCallback).Run (.accept rb wb) ms s) : Standing s (heard ms) := by
  induction hrun with
  | nil =>
    obtain ⟨consumed, free, hb⟩ := hrb.1.holds
    rw [hrb.2] at hb
    exact .head hb (Nat.zero_le _) runHead_fresh
  | @snoc t u ms m hrun hstep ih =>
    rw [heard_snoc]
    refine hstep.standing ih fun harmed => ?_
    have hquiet := (conversation_replied ⟨rb, wb, hwb.1, hwb.2, rfl⟩ hrun).quiet
    cases halive : t.conn.mAlive with
    | true => rfl
    | false => exact absurd harmed (hquiet halive)

/-- The parser throws on the bytes that a handler has received exactly when they
have come to a negative body. -/
theorem Underway.throws_iff {ms : List Exchange} {t : HttpConnection} {closed : Prop} {d : Traffic}
    (h : Underway ms t closed .readCb d) (hs : Standing t (heard ms))
    (hquiet : t.conn.mAlive = false → t.mEpoll ≠ .armed .EPOLLIN) {e : Fault} :
    processRead d.mContext.Request d.conn.mReadBuffer = .error e ↔
      e = .lengthError ∧ NegativeBody d.received := by
  cases h with
  | readCb h =>
    obtain ⟨rs, rest, ret, got, hrecv, -, hgot, hreceived⟩ := h.recv
    have halive : t.conn.mAlive = true := by
      cases hflag : t.conn.mAlive with
      | true => rfl
      | false => exact absurd h.armed (hquiet hflag)
    rw [h.mContext, hreceived]
    exact hs.throws_iff (by rw [h.armed]; exact Registration.noConfusion) halive hrecv hgot

/-- What a connection needs for its calls to stay within its buffers. -/
structure Traffic.Sound (d : Traffic) : Prop where
  /-- The scan position is not behind the unread bytes. -/
  parser : ∃ consumed w free, d.conn.mReadBuffer.Holds consumed w free ∧
    d.mContext.Request.mCheckIndex ≤ w.length
  /-- The pointers of the send buffer are in order. -/
  output : d.conn.mWriteBuffer.Valid

/-- A response goes into a buffer, or what there is room for. -/
theorem appendToBuffer_valid (resp : HttpResponse) {b : FixedBuffer} (hb : b.Valid) :
    ∃ b', resp.appendToBuffer b = .ok b' ∧ b'.Valid := by
  obtain ⟨consumed, free, h⟩ := hb.holds
  obtain ⟨b', consumed', free', hall, hb'⟩ := appendAll_admitted h resp.pieces
  rw [← HttpResponse.appendToBuffer_eq] at hall
  exact ⟨b', hall, hb'.valid⟩

/-- Each turn of `send` reads the unread bytes of the buffer. -/
theorem sendTurn_ok {conn : Connection} (hvalid : conn.mWriteBuffer.Valid) (r : WritevResult) :
    ∃ out conn', conn.sendTurn r = .ok (out, conn') := by
  obtain ⟨consumed, free, hb⟩ := hvalid.holds
  have hoffered : conn.offered = .ok (conn.mWriteBuffer.unread ++ conn.m_iv1.bytes) := by
    rw [Connection.offered, hb.used_eq, hb.load_eq]
    rfl
  unfold Connection.sendTurn
  rw [hoffered, ok_bind]
  cases r with
  | count n =>
    dsimp only
    split <;> exact ⟨_, _, rfl⟩
  | zero | again | failed => exact ⟨_, _, rfl⟩

/-- So `send` never fails, whatever the socket reports. -/
theorem send_ok {conn : Connection} (hvalid : conn.mWriteBuffer.Valid) (rs : List WritevResult) :
    ∃ out conn', conn.send rs = .ok (out, conn') := by
  induction rs generalizing conn with
  | nil => exact ⟨_, _, rfl⟩
  | cons r rs ih =>
    obtain ⟨⟨ret, out⟩, conn₁, hturn⟩ := sendTurn_ok hvalid r
    obtain ⟨⟨ret', out', rest⟩, conn₂, hsend⟩ := ih ((Connection.sendTurn_frame hturn).2.2 hvalid)
    rw [Connection.send, hturn, ok_bind]
    cases ret with
    | some v => exact ⟨_, _, rfl⟩
    | none =>
      dsimp only
      rw [hsend, ok_bind]
      exact ⟨_, _, rfl⟩

/-- The move of a handler keeps a connection sound. -/
theorem Work.sound {pc pc' : HandlerAt} {d d' : Traffic} (h : Work HttpCallback disk pc d pc' d')
    (hs : d.Sound) : d'.Sound := by
  obtain ⟨consumed, w, free, hb, hi⟩ := hs.parser
  cases h with
  | recv hrecv hgot =>
    obtain ⟨consumed', free', hb'⟩ := hb.readFd_append hrecv hgot
    refine ⟨⟨consumed', _, free', hb', ?_⟩, hs.output⟩
    rw [List.length_append]
    exact Nat.le_add_right_of_le hi
  | @processRead _ code req b hread =>
    have hwin := processRead_window hb hi
    rw [hread] at hwin
    generalize windowRead d.mContext.Request w = out at hwin
    cases hwin with
    | ok hb' hi' => exact ⟨⟨_, _, _, hb', hi'⟩, hs.output⟩
  | @badRequest _ resp wb hresp happend =>
    obtain ⟨b', happend', hvalid⟩ := appendToBuffer_valid resp hs.output
    rw [happend] at happend'
    cases happend'
    exact ⟨⟨consumed, w, free, hb, hi⟩, hvalid⟩
  | @getRequest _ table resp wb iv hdisk hresp happend hiv =>
    obtain ⟨b', happend', hvalid⟩ := appendToBuffer_valid resp hs.output
    rw [happend] at happend'
    cases happend'
    exact ⟨⟨consumed, w, free, hb, Nat.zero_le _⟩, hvalid⟩
  | @send _ rs rest ret out conn hrs hsend =>
    obtain ⟨hbuf, -, hvalid⟩ := Connection.send_frame hsend
    exact ⟨⟨consumed, w, free, hbuf ▸ hb, hi⟩, hvalid hs.output⟩
  | _ => exact hs

/-- `recv` returns when the socket has nothing. -/
theorem readFd_again {b : FixedBuffer} {consumed w free : List UInt8} (hb : b.Holds consumed w free) :
    ∃ ret rest b' got, b.readFd [.again] = .ok ((some ret, rest), b') ∧
      b'.unread = b.unread ++ got := by
  unfold FixedBuffer.readFd
  by_cases hfull : b.avail = 0
  · rw [if_pos hfull]
    exact ⟨0, _, b, [], rfl, (List.append_nil _).symm⟩
  · obtain ⟨b₁, consumed₁, free₁, hb₁, havail, htail, hloop⟩ :=
      hb.readFdLoop_ready b.used (Nat.pos_of_ne_zero hfull)
    rw [if_neg hfull, hloop, readFdLoop_again havail htail]
    refine ⟨_, [], b₁, [], rfl, ?_⟩
    rw [hb₁.unread_eq, hb.unread_eq, List.append_nil]

/-- `LOG_DEBUG << "recv:" << readPtr()`: with its level enabled, the macro looks
for the end of the string behind the read pointer. -/
def logReceived (gLogLevel : LogLevel) (b : FixedBuffer) : Except Fault (Option (List UInt8)) :=
  if gLogLevel.macroEmits .DEBUG then do
    let str ← b.readPtr
    some <$> CString.cstr str
  else return none

/-- From the read pointer on there is no NUL in the storage. -/
def Unterminated (b : FixedBuffer) : Prop := (0 : UInt8) ∉ b.buf.drop b.mReadPtr.toNat

/-- The line of the log reads on behind the storage exactly when it is written and
finds no NUL in it. -/
theorem logReceived_fails_iff {gLogLevel : LogLevel} {b : FixedBuffer} {consumed w free : List UInt8}
    (hb : b.Holds consumed w free) {e : Fault} :
    logReceived gLogLevel b = .error e ↔
      e = .outOfBounds ∧ gLogLevel.macroEmits .DEBUG = true ∧ Unterminated b := by
  have hbehind : b.buf.drop b.mReadPtr.toNat = w ++ free := by
    rw [hb.toNat_read, hb.buf_eq, List.drop_left]
  rw [logReceived, Unterminated, hbehind]
  by_cases hlevel : gLogLevel.macroEmits .DEBUG = true
  · rw [if_pos hlevel, hb.readPtr_eq, ok_bind]
    change (CString.cstr (w ++ free)).map some = .error e ↔ _
    rw [map_eq_error, CString.cstr_eq_error, and_iff_right hlevel]
  · rw [if_neg hlevel]
    simp [hlevel, pure, Except.pure]

/-- The next call of a handler fails with `e`, for some report of the kernel. -/
inductive Fails (HttpCallback : HttpServeFunc) (gLogLevel : LogLevel) : HandlerAt → Traffic → Fault → Prop
  | recv {d : Traffic} {rs : List RecvResult} {e : Fault}
      (h : d.conn.mReadBuffer.readFd rs = .error e) : Fails HttpCallback gLogLevel .handleRead d e
  | logRead {d : Traffic} {e : Fault} (h : logReceived gLogLevel d.conn.mReadBuffer = .error e) :
      Fails HttpCallback gLogLevel .logRead d e
  | processRead {d : Traffic} {e : Fault}
      (h : processRead d.mContext.Request d.conn.mReadBuffer = .error e) :
      Fails HttpCallback gLogLevel .readCb d e
  | badRequest {d : Traffic} {e : Fault}
      (h : (d.mContext.Response.setStatusCode CLIENT_ERROR_BAD_REQUEST).appendToBuffer
        d.conn.mWriteBuffer = .error e) : Fails HttpCallback gLogLevel .badRequest d e
  | getRequest {d : Traffic} {files : FileTable} {e : Fault}
      (h : (HttpCallback files d.mContext.Request (d.mContext.Response.setStatusCode
        SUCCESS_OK)).appendToBuffer d.conn.mWriteBuffer = .error e) :
      Fails HttpCallback gLogLevel .getRequest d e
  | send {d : Traffic} {rs : List WritevResult} {e : Fault} (h : d.conn.send rs = .error e) :
      Fails HttpCallback gLogLevel .handleWrite d e

/-- A sound connection fails at the line of the log, in the parser or nowhere. -/
theorem Traffic.Sound.fails_iff {gLogLevel : LogLevel} {pc : HandlerAt} {d : Traffic} {e : Fault}
    (hs : d.Sound) :
    Fails HttpCallback gLogLevel pc d e ↔
      pc = .readCb ∧ processRead d.mContext.Request d.conn.mReadBuffer = .error e ∨
        pc = .logRead ∧ e = .outOfBounds ∧ gLogLevel.macroEmits .DEBUG = true ∧
          Unterminated d.conn.mReadBuffer := by
  obtain ⟨consumed, w, free, hb, -⟩ := hs.parser
  constructor
  · intro h
    cases h with
    | processRead h => exact .inl ⟨rfl, h⟩
    | logRead h => exact .inr ⟨rfl, (logReceived_fails_iff hb).mp h⟩
    | @recv _ rs _ h =>
      obtain ⟨out, b', -, -, -, hrecv, -⟩ := hb.readFd rs
      rw [h] at hrecv
      cases hrecv
    | badRequest h =>
      obtain ⟨b', happend, -⟩ := appendToBuffer_valid
        (d.mContext.Response.setStatusCode CLIENT_ERROR_BAD_REQUEST) hs.output
      rw [h] at happend
      cases happend
    | @getRequest _ files _ h =>
      obtain ⟨b', happend, -⟩ := appendToBuffer_valid (HttpCallback files d.mContext.Request
        (d.mContext.Response.setStatusCode SUCCESS_OK)) hs.output
      rw [h] at happend
      cases happend
    | @send _ rs _ h =>
      obtain ⟨out, conn', hsend⟩ := send_ok hs.output rs
      rw [h] at hsend
      cases hsend
  · rintro (⟨rfl, h⟩ | ⟨rfl, h⟩)
    · exact .processRead h
    · exact .logRead ((logReceived_fails_iff hb).mpr h)

/-- A handler of a sound connection has a move unless it throws or has returned. -/
theorem Traffic.Sound.work {pc : HandlerAt} {d : Traffic} (hs : d.Sound)
    (hdisk : ∃ table, disk table) (hpc : pc ≠ .returned)
    (hreturns : pc = .readCb → ∀ e, processRead d.mContext.Request d.conn.mReadBuffer ≠ .error e) :
    ∃ pc' d', Work HttpCallback disk pc d pc' d' := by
  obtain ⟨consumed, w, free, hb, -⟩ := hs.parser
  cases pc with
  | handleRead =>
    obtain ⟨ret, rest, b', got, hrecv, hgot⟩ := readFd_again hb
    exact ⟨_, _, .recv hrecv hgot⟩
  | logRead => exact ⟨_, _, .log⟩
  | readCb =>
    cases hread : processRead d.mContext.Request d.conn.mReadBuffer with
    | error e => exact absurd hread (hreturns rfl e)
    | ok r =>
      obtain ⟨code, req, b⟩ := r
      exact ⟨_, _, .processRead hread⟩
  | badRequest =>
    obtain ⟨wb, happend, -⟩ := appendToBuffer_valid
      (d.mContext.Response.setStatusCode CLIENT_ERROR_BAD_REQUEST) hs.output
    exact ⟨_, _, .badRequest rfl happend⟩
  | getRequest =>
    obtain ⟨table, htable⟩ := hdisk
    obtain ⟨wb, happend, -⟩ := appendToBuffer_valid (HttpCallback table.files d.mContext.Request
      (d.mContext.Response.setStatusCode SUCCESS_OK)) hs.output
    exact ⟨_, _, .getRequest htable rfl happend rfl⟩
  | handleWrite =>
    obtain ⟨⟨ret, out⟩, conn₁, hturn⟩ := sendTurn_ok hs.output .failed
    have hret : ret = some (-1) := by
      obtain ⟨bytes, -, hturn⟩ := bind_eq_ok hturn
      cases hturn
      rfl
    subst hret
    have hsend : d.conn.send [.failed] = .ok ((some (-1), out, []), conn₁) := by
      rw [Connection.send, hturn, ok_bind]
      rfl
    have hpossible : Outcomes d.conn [.failed] := ⟨trivial, fun _ _ _ _ => trivial⟩
    exact ⟨_, _, .send hpossible hsend⟩
  | writeCb => exact ⟨_, _, .writeCb⟩
  | enableConnRead => exact ⟨_, _, .enableConnRead⟩
  | enableConnWrite => exact ⟨_, _, .enableConnWrite⟩
  | closeDel b => exact ⟨_, _, .closeDel⟩
  | closeErase b => exact ⟨_, _, .closeErase⟩
  | returned => exact absurd rfl hpc

namespace HttpServer

variable {W : ℕ} {mListenFd : ℤ}

/-- Every move keeps every connection sound. -/
theorem Step.sound {s s' : HttpServer W} {a : Server.Label W}
    (h : Step HttpCallback disk mListenFd s a s') (hs : ∀ conn, (s.traffic conn).Sound) (conn : ConnPtr) :
    (s'.traffic conn).Sound := by
  cases h with
  | @accept ev server new raw raw' hraw hraw' hstep hreact hloop =>
    dsimp only
    by_cases hconn : conn = new
    · rw [hconn, Function.update_self]
      exact ⟨⟨[], [], raw, create_holds raw hraw, Nat.le_refl _⟩, (create_holds raw' hraw').valid⟩
    · rw [Function.update_of_ne hconn]
      exact hs conn
  | @handler server i t pc d hrun hstep hwork halive =>
    dsimp only
    by_cases hconn : conn = t.conn
    · rw [hconn, Function.update_self]
      exact hwork.sound (hs t.conn)
    · rw [Function.update_of_ne hconn]
      exact hs conn
  | _ => exact hs conn

/-- All connections are sound in every run. -/
theorem reachable_sound {s : HttpServer W} (h : (system W HttpCallback disk mListenFd).Reachable s)
    (conn : ConnPtr) : (s.traffic conn).Sound := by
  refine h.invariant (I := fun s => ∀ conn, (s.traffic conn).Sound) ?_ ?_ conn
  · rintro s rfl conn
    have hblank := create_holds (List.replicate kBufferSize 0) length_zeros
    exact ⟨⟨[], [], _, hblank, Nat.le_refl _⟩, hblank.valid⟩
  · intro s a t hs hstep
    exact Step.sound hstep hs

/-- A running handler is about to throw exactly where it has come to a negative body. -/
theorem parser_throws_iff {s : HttpServer W} (h : (system W HttpCallback disk mListenFd).Reachable s)
    {i : Fin W} {t : Task} (hrun : s.mServer.mThreadpool.workers i = .running t) (hpc : t.pc = .readCb)
    (e : Fault) :
    processRead (s.traffic t.conn).mContext.Request (s.traffic t.conn).conn.mReadBuffer = .error e ↔
      e = .lengthError ∧ NegativeBody (s.traffic t.conn).received := by
  obtain ⟨ms, v, hfollows⟩ := (reachable_conversing (admits_all HttpCallback disk) h).follows t.conn
  have hunderway : Underway ms v (s.mServer.Closed t.conn) t.pc (s.traffic t.conn) :=
    hfollows.held (.handler t.pc) ⟨.inr ⟨i, hrun⟩, by rw [hpc]; exact HandlerAt.noConfusion⟩
  obtain ⟨rb, wb, hrb, hwb, hrestricted⟩ := hfollows.run
  have hconv := hrestricted.of_restrict
  rw [hpc] at hunderway
  exact hunderway.throws_iff (conversation_standing hrb hwb hconv)
    (conversation_replied ⟨rb, wb, hwb.1, hwb.2, rfl⟩ hconv).quiet

/-- A handler that does not throw can move. -/
theorem handler_proceeds_iff (hdisk : ∃ table, disk table) {s : HttpServer W}
    (h : (system W HttpCallback disk mListenFd).Reachable s) {i : Fin W} {t : Task}
    (hrun : s.mServer.mThreadpool.workers i = .running t) (hpc : t.pc ≠ .returned) :
    (∃ pc s', Step HttpCallback disk mListenFd s (.handler i t.conn pc) s') ↔
      ¬ (t.pc = .readCb ∧ NegativeBody (s.traffic t.conn).received) := by
  constructor
  · rintro ⟨pc, s', hstep⟩ ⟨hat, hneg⟩
    have hthrows := (parser_throws_iff h hrun hat .lengthError).mpr ⟨rfl, hneg⟩
    obtain ⟨-, hwork⟩ := Step.work hstep hrun
    rw [hat] at hwork
    generalize s'.traffic t.conn = d at hwork
    cases hwork with
    | processRead hread =>
      rw [hthrows] at hread
      cases hread
  · intro hgoes
    obtain ⟨pc', d', hwork⟩ := (reachable_sound h t.conn).work hdisk hpc fun hat e hthrows =>
      hgoes ⟨hat, ((parser_throws_iff h hrun hat e).mp hthrows).2⟩
    obtain ⟨s', hstep, -⟩ := exists_handler h hrun hwork
    exact ⟨pc', s', hstep⟩

/-- In no interleaving does a call of a handler fail, whatever the kernel
reports, but for two. `readCb` throws `std::length_error` exactly when the bytes
received declare a negative length and go on behind the head with what the
scanner does not reject. The line of the log in front of it reads behind the
storage exactly when it is written and there is no NUL from the read pointer on.
Whoever does not throw can move on. -/
theorem handlers_fail_iff (gLogLevel : LogLevel) (hdisk : ∃ table, disk table) {s : HttpServer W}
    (h : (system W HttpCallback disk mListenFd).Reachable s) {i : Fin W} {t : Task}
    (hrun : s.mServer.mThreadpool.workers i = .running t) (hpc : t.pc ≠ .returned) :
    (∀ e, Fails HttpCallback gLogLevel t.pc (s.traffic t.conn) e ↔
      t.pc = .readCb ∧ e = .lengthError ∧ NegativeBody (s.traffic t.conn).received ∨
        t.pc = .logRead ∧ e = .outOfBounds ∧ gLogLevel.macroEmits .DEBUG = true ∧
          Unterminated (s.traffic t.conn).conn.mReadBuffer) ∧
    ((∃ pc s', Step HttpCallback disk mListenFd s (.handler i t.conn pc) s') ↔
      ¬ (t.pc = .readCb ∧ NegativeBody (s.traffic t.conn).received)) := by
  refine ⟨fun e => ?_, handler_proceeds_iff hdisk h hrun hpc⟩
  rw [(reachable_sound h t.conn).fails_iff]
  have hthrows : ∀ hat : t.pc = .readCb, _ := fun hat => parser_throws_iff h hrun hat e
  constructor
  · rintro (⟨hat, hread⟩ | hlog)
    · exact .inl ⟨hat, (hthrows hat).mp hread⟩
    · exact .inr hlog
  · rintro (⟨hat, hneg⟩ | hlog)
    · exact .inl ⟨hat, (hthrows hat).mpr hneg⟩
    · exact .inr hlog

/-- A worker has received the first bytes of a client and gets to the line of the log. -/
theorem logs_received (HttpCallback : HttpServeFunc) (disk : MappedFiles → Prop) {rs rest : List RecvResult}
    {ret : ℤ} {b : FixedBuffer} (hread : FixedBuffer.blank.readFd rs = .ok ((some ret, rest), b))
    (hret : ¬ ret ≤ 0) : ∃ (s : HttpServer 1) (conn : ConnPtr),
    (system 1 HttpCallback disk 3).Reachable s ∧ Quiet (ThreadPool.running 0 ⟨conn, .logRead⟩) conn
      ((Traffic.accept FixedBuffer.blank FixedBuffer.blank).receive b b.unread) .disarmed s := by
  have hcreated : Created FixedBuffer.blank := ⟨_, length_zeros, rfl⟩
  have hgot : b.unread = FixedBuffer.blank.unread ++ b.unread := by
    rw [hcreated.empty.2, List.nil_append]
  obtain ⟨s₀, conn, hreach, hne, hs₀⟩ := accepts_quiet 1 HttpCallback disk 3 hcreated hcreated
  obtain ⟨s₁, hdispatch, hs₁⟩ := hs₀.dispatch Nat.one_pos 0 asked_readable (react_readable hne)
  have hmove : Alone HttpCallback disk
      ⟨.handleRead, .accept FixedBuffer.blank FixedBuffer.blank, .disarmed⟩
      ⟨afterRecv ret, (Traffic.accept FixedBuffer.blank FixedBuffer.blank).receive b b.unread, .disarmed⟩ :=
    Alone.of_work (.recv hread hgot) rfl
  rw [afterRecv, if_neg hret] at hmove
  obtain ⟨s₂, hrecv, hs₂⟩ := Quiet.move (x := ⟨.handleRead, _, _⟩) hs₁ hmove
  exact ⟨s₂, conn, (hreach.leads hdispatch).leads hrecv, hs₂⟩

/-- A client sends a request with the length `-1` and one byte behind the head;
a worker is about to parse it. -/
theorem negative_received : ∃ (s : HttpServer 1) (conn : ConnPtr),
    (system 1 ServerHttp (fun _ => True) 3).Reachable s ∧
      s.mServer.mThreadpool.workers 0 = .running ⟨conn, .readCb⟩ ∧
        NegativeBody (s.traffic conn).received := by
  have hrecv : (do
      let r ← FixedBuffer.blank.readFd [.bytes (declaring ['-', '1']), .again]
      return (r.1.1, r.2.unread)) = Except.ok (ε := Fault) (some 38, declaring ['-', '1']) := by
    decide +kernel
  obtain ⟨⟨⟨ret, rest⟩, b⟩, hread, hrecv⟩ := bind_eq_ok hrecv
  obtain ⟨rfl, hunread⟩ : ret = some 38 ∧ b.unread = declaring ['-', '1'] :=
    Prod.mk.inj (Except.ok.inj hrecv)
  obtain ⟨s₀, conn, hreach, hs₀⟩ := logs_received ServerHttp (fun _ => True) hread (by decide)
  have hlog : Alone ServerHttp (fun _ => True)
      ⟨.logRead, (Traffic.accept FixedBuffer.blank FixedBuffer.blank).receive b b.unread, .disarmed⟩
      ⟨.readCb, (Traffic.accept FixedBuffer.blank FixedBuffer.blank).receive b b.unread, .disarmed⟩ :=
    Alone.of_work .log rfl
  obtain ⟨s₁, hparse, hs₁⟩ := Quiet.move (x := ⟨.logRead, _, _⟩) hs₀ hlog
  refine ⟨s₁, conn, hreach.leads hparse, ?_, ?_⟩
  · rw [hs₁.mThreadpool]
    exact ThreadPool.running_self 0 _
  · rw [hs₁.traffic]
    change NegativeBody b.unread
    rw [hunread]
    have hrun : runHead HttpRequest.fresh (declaring ['-', '1']) = .ok (.past (declared (-1)) [65]) := by
      decide +kernel
    refine ⟨_, _, hrun, by decide, by decide, fun hbreak => ?_⟩
    obtain ⟨pos, hpos⟩ := loneBreak_iff.mp hbreak
    have hnext : nextLine [65] = .unfinished 1 := by decide
    rw [hnext] at hpos
    cases hpos

/-- A client fills the receive buffer without a NUL; a worker is about to log it. -/
theorem unterminated_received : ∃ (s : HttpServer 1) (conn : ConnPtr),
    (system 1 ServerHttp (fun _ => True) 3).Reachable s ∧
      s.mServer.mThreadpool.workers 0 = .running ⟨conn, .logRead⟩ ∧
        Unterminated (s.traffic conn).conn.mReadBuffer := by
  have hrecv : (do
      let r ← FixedBuffer.blank.readFd [.bytes (List.replicate 1024 65), .again]
      return (r.1.1, r.2.mReadPtr, r.2.buf)) =
        Except.ok (ε := Fault) (some 1024, (0 : ℤ), List.replicate 1024 65) := by
    decide +kernel
  obtain ⟨⟨⟨ret, rest⟩, b⟩, hread, hrecv⟩ := bind_eq_ok hrecv
  obtain ⟨rfl, hstorage⟩ : ret = some 1024 ∧ (b.mReadPtr, b.buf) = (0, List.replicate 1024 65) :=
    Prod.mk.inj (Except.ok.inj hrecv)
  obtain ⟨hptr, hbuf⟩ := Prod.mk.inj hstorage
  obtain ⟨s, conn, hreach, hs⟩ := logs_received ServerHttp (fun _ => True) hread (by decide)
  refine ⟨s, conn, hreach, ?_, ?_⟩
  · rw [hs.mThreadpool]
    exact ThreadPool.running_self 0 _
  · rw [hs.traffic]
    change (0 : UInt8) ∉ b.buf.drop b.mReadPtr.toNat
    rw [hptr, hbuf]
    intro hmem
    exact absurd (List.eq_of_mem_replicate (List.mem_of_mem_drop hmem)) (by decide)

/-- One worker throws, another reads behind its buffer when the level is `DEBUG`. -/
theorem handlers_fail_iff_both :
    (∃ (s : HttpServer 1) (conn : ConnPtr),
      Fails ServerHttp .INFO .readCb (s.traffic conn) .lengthError ∧
      ((∀ e, Fails ServerHttp .INFO .readCb (s.traffic conn) e ↔
        HandlerAt.readCb = .readCb ∧ e = .lengthError ∧ NegativeBody (s.traffic conn).received ∨
          HandlerAt.readCb = .logRead ∧ e = .outOfBounds ∧ LogLevel.INFO.macroEmits .DEBUG = true ∧
            Unterminated (s.traffic conn).conn.mReadBuffer) ∧
      ((∃ pc s', Step ServerHttp (fun _ => True) 3 s (.handler 0 conn pc) s') ↔
        ¬ (HandlerAt.readCb = .readCb ∧ NegativeBody (s.traffic conn).received)))) ∧
    ∃ (s : HttpServer 1) (conn : ConnPtr),
      Fails ServerHttp .DEBUG .logRead (s.traffic conn) .outOfBounds ∧
      ((∀ e, Fails ServerHttp .DEBUG .logRead (s.traffic conn) e ↔
        HandlerAt.logRead = .readCb ∧ e = .lengthError ∧ NegativeBody (s.traffic conn).received ∨
          HandlerAt.logRead = .logRead ∧ e = .outOfBounds ∧ LogLevel.DEBUG.macroEmits .DEBUG = true ∧
            Unterminated (s.traffic conn).conn.mReadBuffer) ∧
      ((∃ pc s', Step ServerHttp (fun _ => True) 3 s (.handler 0 conn pc) s') ↔
        ¬ (HandlerAt.logRead = .readCb ∧ NegativeBody (s.traffic conn).received))) := by
  constructor
  · obtain ⟨s, conn, h, hrun, hneg⟩ := negative_received
    have hall := handlers_fail_iff .INFO ⟨noFiles, trivial⟩ h hrun HandlerAt.noConfusion
    exact ⟨s, conn, (hall.1 .lengthError).mpr (.inl ⟨rfl, rfl, hneg⟩), hall⟩
  · obtain ⟨s, conn, h, hrun, hnone⟩ := unterminated_received
    have hall := handlers_fail_iff .DEBUG ⟨noFiles, trivial⟩ h hrun HandlerAt.noConfusion
    exact ⟨s, conn, (hall.1 .outOfBounds).mpr (.inr ⟨rfl, rfl, rfl, hnone⟩), hall⟩

end HttpServer

end KyrosWebServer.Http
