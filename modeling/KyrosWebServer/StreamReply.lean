import KyrosWebServer.HttpConversation
import KyrosWebServer.RequestChunks

/-!
# The first reply to a stream

A client sends a stream; the server sees it in the segments that the network
delivers, each with its own event. The first reply is the one that the head of
the whole stream calls for, wherever the segments end and however long the
stream is, and a connection that is open without a reply has not seen the end
of the head. A head that declares a body is left out.
-/

namespace KyrosWebServer.Http

open CMemory Base FixedBuffer Net TransitionSystem HttpConnection

/-- All bytes that the server has received in a conversation. -/
def heard (ms : List Exchange) : List UInt8 := receivedBytes (ms.map Exchange.move)

/-- The reply that a head calls for, on a connection without earlier replies. -/
inductive Calls (HttpCallback : HttpServeFunc) : Head → Reply → Prop
  /-- A request goes to the user's callback, with the files there are. -/
  | answer (table : MappedFiles) (req : HttpRequest) (w : List UInt8) :
      Calls HttpCallback (.stop GET_REQUEST req w)
        (.answer (HttpCallback table.files req (HttpResponse.create.setStatusCode SUCCESS_OK)))
  /-- Anything else is rejected without the callback. -/
  | rejection (req : HttpRequest) (w : List UInt8) :
      Calls HttpCallback (.stop BAD_REQUEST req w)
        (.rejection (HttpResponse.create.setStatusCode CLIENT_ERROR_BAD_REQUEST))

/-- How far a connection has got with the bytes received and its replies. -/
inductive Heard (HttpCallback : HttpServeFunc) (s : HttpConnection) : List UInt8 → List Reply → Prop
  /-- The head is unfinished, and more of it is awaited. -/
  | listening {got consumed w free : List UInt8} (hb : s.conn.mReadBuffer.Holds consumed w free)
      (hin : s.mContext.Request.InLine w)
      (hhead : runHead HttpRequest.fresh got = .ok (.wait s.mContext.Request w))
      (hresp : s.mContext.Response = HttpResponse.create) (harmed : s.mEpoll = .armed .EPOLLIN) :
      Heard HttpCallback s got []
  /-- The connection has been closed before the end of the head. -/
  | closed {got : List UInt8} (habsent : s.mEpoll = .absent) : Heard HttpCallback s got []
  /-- What the front of the bytes called for has been replied. -/
  | replied {got front : List UInt8} {head : Head} {r : Reply} {rs : List Reply}
      (hfront : front <+: got) (hhead : runHead HttpRequest.fresh front = .ok head)
      (hcalls : Calls HttpCallback head r) : Heard HttpCallback s got (r :: rs)

variable {HttpCallback : HttpServeFunc}

theorem heard_snoc (ms : List Exchange) (m : Exchange) :
    heard (ms ++ [m]) = heard ms ++ m.move.received := by
  simp [heard, receivedBytes]

/-- A head that calls for a reply calls for it whatever follows. -/
theorem Calls.append {front : List UInt8} {head : Head} {r : Reply}
    (h : Calls HttpCallback head r) (hhead : runHead HttpRequest.fresh front = .ok head)
    (more : List UInt8) :
    ∃ head', runHead HttpRequest.fresh (front ++ more) = .ok head' ∧ Calls HttpCallback head' r := by
  rw [runHead_append, hhead]
  cases h with
  | answer table req w => exact ⟨_, rfl, .answer table req (w ++ more)⟩
  | rejection req w => exact ⟨_, rfl, .rejection req (w ++ more)⟩

/-- A stream that does not reach past its head does not do so in front either. -/
theorem runHead_front {front stream : List UInt8} (hfront : front <+: stream)
    (hbody : ∀ req w, runHead HttpRequest.fresh stream ≠ .ok (.past req w)) (req : HttpRequest)
    (w : List UInt8) : runHead HttpRequest.fresh front ≠ .ok (.past req w) := by
  obtain ⟨more, rfl⟩ := hfront
  intro hpast
  apply hbody req (w ++ more)
  rw [runHead_append, hpast]

/-- `readCb` on a connection that listens goes on listening or replies. -/
theorem HttpConnection.ReadCb.heard {table : MappedFiles} {s s' : HttpConnection} {r : Option Reply}
    {got consumed w free : List UInt8} (h : ReadCb HttpCallback table.files s s')
    (hreply : s.reply HttpCallback table.files = .ok r) (hb : s.conn.mReadBuffer.Holds consumed w free)
    (hin : s.mContext.Request.InLine w)
    (hhead : runHead HttpRequest.fresh got = runHead s.mContext.Request w)
    (hbody : ∀ req w, runHead HttpRequest.fresh got ≠ .ok (.past req w))
    (hresp : s.mContext.Response = HttpResponse.create) (hdisarmed : s.mEpoll = .disarmed) :
    Heard HttpCallback s' got r.toList := by
  have hout := processRead_runHead hb hin
  rw [← hhead] at hout
  cases hrun : runHead HttpRequest.fresh got with
  | error e =>
    rw [hrun] at hout
    cases hout with
    | error hread =>
      rw [reply, hread] at hreply
      cases hreply
  | ok head =>
    rw [hrun] at hout
    cases hout with
    | @wait req b _ _ hread hb' hin' =>
      rw [reply, hread, ok_bind] at hreply
      cases hreply
      have hstate := h.of_noRequest hread
      have hbuf : s'.conn.mReadBuffer = b := by rw [hstate, enableConnRead, epollMod_conn]
      have hcontext : s'.mContext = ⟨req, HttpResponse.create⟩ := by
        rw [hstate, enableConnRead, epollMod_mContext, hresp]
      refine .listening (hbuf ▸ hb') (by rw [hcontext]; exact hin') (by rw [hcontext]; exact hrun)
        (by rw [hcontext]) ?_
      rw [hstate]
      exact congrArg HttpConnection.mEpoll (if_neg (by rw [hdisarmed]; exact Registration.noConfusion))
    | stop hread hb' =>
      rw [reply, hread, ok_bind, hresp] at hreply
      rcases runHead_stop hrun with ⟨rfl, -⟩ | ⟨rfl, -⟩
      · cases hreply
        exact .replied List.prefix_rfl hrun (.rejection _ _)
      · cases hreply
        exact .replied List.prefix_rfl hrun (.answer table _ _)
    | past _ _ _ => exact absurd hrun (hbody _ _)

/-- What is received later changes nothing about a reply. -/
theorem Heard.append {s s' : HttpConnection} {got : List UInt8} {r : Reply} {rs : List Reply}
    (h : Heard HttpCallback s got (r :: rs)) (more : List UInt8) (others : List Reply) :
    Heard HttpCallback s' (got ++ more) (r :: rs ++ others) := by
  cases h with
  | replied hfront hhead hcalls =>
    exact .replied (hfront.trans (List.prefix_append _ _)) hhead hcalls

/-- One event. -/
theorem Converses.heard {s s' : HttpConnection} {m : Exchange} {got : List UInt8} {rs : List Reply}
    (h : Converses HttpCallback s m s') (hs : Heard HttpCallback s got rs)
    (hbody : ∀ req w, runHead HttpRequest.fresh (got ++ m.move.received) ≠ .ok (.past req w)) :
    Heard HttpCallback s' (got ++ m.move.received) (rs ++ m.replies) := by
  obtain ⟨ev, harmed⟩ := h.armed
  cases hs with
  | replied hfront hhead hcalls => exact (Heard.replied (s := s) hfront hhead hcalls).append _ _
  | closed habsent => cases harmed.symm.trans habsent
  | @listening consumed w free hb hin hhead hresp hread =>
    cases h with
    | hangup _ => exact .closed rfl
    | write hwrite _ _ _ => cases hwrite.symm.trans hread
    | @read _ table recvs rest ret b new r _ hrecv hnew hreply hcall =>
      obtain ⟨out, b', hrecv', hcase⟩ := handleRead_replies hcall hreply
      rcases hcase with ⟨rfl, rfl⟩ | ⟨hcb, hreply'⟩
      · exact .closed rfl
      · rw [hrecv] at hrecv'
        cases hrecv'
        obtain ⟨consumed₁, free₁, hb₁⟩ := hb.readFd_append hrecv hnew
        refine hcb.heard hreply' hb₁ (hin.append new) ?_ hbody hresp rfl
        rw [show (Exchange.read new r).move.received = new from rfl, runHead_append, hhead]

/-- Over a whole conversation. -/
theorem conversation_heard {rb wb : FixedBuffer} {s : HttpConnection} {ms : List Exchange}
    (hrb : rb.Valid) (hempty : rb.unread = [])
    (hrun : (conversation HttpCallback).Run (.accept rb wb) ms s)
    (hbody : ∀ req w, runHead HttpRequest.fresh (heard ms) ≠ .ok (.past req w)) :
    Heard HttpCallback s (heard ms) (replies ms) := by
  induction hrun with
  | nil =>
    obtain ⟨consumed, free, hb⟩ := hrb.holds
    rw [hempty] at hb
    exact .listening hb (Nat.zero_le _) runHead_fresh rfl rfl
  | @snoc t u ms m hrun hstep ih =>
    rw [heard_snoc] at hbody ⊢
    rw [replies_snoc]
    exact hstep.heard (ih (runHead_front (List.prefix_append _ _) hbody)) hbody

/-- The first reply is what the head of the whole stream calls for. -/
theorem Heard.calls {s : HttpConnection} {got stream : List UInt8} {r : Reply} {rs : List Reply}
    (h : Heard HttpCallback s got (r :: rs)) (hfront : got <+: stream) :
    ∃ head, runHead HttpRequest.fresh stream = .ok head ∧ Calls HttpCallback head r := by
  cases h with
  | replied hfront' hhead hcalls =>
    obtain ⟨more, rfl⟩ := hfront'.trans hfront
    exact hcalls.append hhead more

/-- An open connection without a reply listens, and the head is unfinished. -/
theorem Heard.waits {s : HttpConnection} {got : List UInt8} (h : Heard HttpCallback s got [])
    (hopen : s.mEpoll ≠ .absent) :
    s.mEpoll = .armed .EPOLLIN ∧ ∃ req w, runHead HttpRequest.fresh got = .ok (.wait req w) := by
  cases h with
  | listening _ _ hhead _ harmed => exact ⟨harmed, _, _, hhead⟩
  | closed habsent => exact absurd habsent hopen

/-- However the stream of a client is cut into segments and however long it is,
the first reply is what the head of the whole stream calls for. A connection
that is open, has received the stream and has not replied has not seen the end
of the head, and listens. -/
theorem first_reply {rb wb : FixedBuffer} {s : HttpConnection} {ms : List Exchange}
    {stream : List UInt8} (hrb : rb.Valid) (hempty : rb.unread = [])
    (hrun : (conversation HttpCallback).Run (.accept rb wb) ms s) (hfront : heard ms <+: stream)
    (hbody : ∀ req w, runHead HttpRequest.fresh stream ≠ .ok (.past req w)) :
    (∀ r rs, replies ms = r :: rs →
      ∃ head, runHead HttpRequest.fresh stream = .ok head ∧ Calls HttpCallback head r) ∧
    (replies ms = [] → s.mEpoll ≠ .absent → heard ms = stream →
      s.mEpoll = .armed .EPOLLIN ∧
        ∃ req w, runHead HttpRequest.fresh stream = .ok (.wait req w)) := by
  have hs := conversation_heard hrb hempty hrun (runHead_front hfront hbody)
  constructor
  · intro r rs hreplies
    rw [hreplies] at hs
    exact hs.calls hfront
  · rintro hreplies hopen rfl
    rw [hreplies] at hs
    exact hs.waits hopen

/-- A request arrives in two segments and is answered after the second. -/
theorem keepAliveGet_segments :
    ∃ s ms r, (conversation ServerHttp).Run (.accept FixedBuffer.blank FixedBuffer.blank) ms s ∧
      heard ms = keepAliveGet ∧ replies ms = [r] := by
  let table : MappedFiles := noFiles
  let s₀ := HttpConnection.accept FixedBuffer.blank FixedBuffer.blank
  let first : List UInt8 := keepAliveGet.take 20
  let second : List UInt8 := keepAliveGet.drop 20
  have hrun : (do
      let received ← s₀.conn.mReadBuffer.readFd [.bytes first, .again]
      let r ← s₀.readReply ServerHttp table.files [.bytes first, .again]
      let s₁ ← HttpConnection.handleRead ServerHttp table.files [.bytes first, .again]
        { s₀ with mEpoll := .disarmed }
      let received' ← (s₁.getD s₀).conn.mReadBuffer.readFd [.bytes second, .again]
      let r' ← (s₁.getD s₀).readReply ServerHttp table.files [.bytes second, .again]
      let s₂ ← HttpConnection.handleRead ServerHttp table.files [.bytes second, .again]
        { s₁.getD s₀ with mEpoll := .disarmed }
      return (received.2.unread, r.isNone, s₁.map fun t : HttpConnection => t.mEpoll,
        received'.2.unread == (s₁.getD s₀).conn.mReadBuffer.unread ++ second, r'.isSome,
        s₂.isSome)) =
      Except.ok (ε := Fault) (first, true, some (.armed .EPOLLIN), true, true, true) := by
    decide +kernel
  obtain ⟨⟨⟨ret, rest⟩, b⟩, hrecv, hrun⟩ := bind_eq_ok hrun
  obtain ⟨r, hreply, hrun⟩ := bind_eq_ok hrun
  obtain ⟨t₁, hread, hrun⟩ := bind_eq_ok hrun
  obtain ⟨⟨⟨ret', rest'⟩, b'⟩, hrecv', hrun⟩ := bind_eq_ok hrun
  obtain ⟨r', hreply', hrun⟩ := bind_eq_ok hrun
  obtain ⟨t₂, hread', hrun⟩ := bind_eq_ok hrun
  simp only [pure, Except.pure, Except.ok.injEq, Prod.mk.injEq, Option.map_eq_some_iff, beq_iff_eq,
    Option.isNone_iff_eq_none, Option.isSome_iff_exists] at hrun
  obtain ⟨hgot, rfl, ⟨s₁, rfl, harmed⟩, hgot', ⟨answer, rfl⟩, s₂, rfl⟩ := hrun
  have hempty : s₀.conn.mReadBuffer.unread = [] :=
    (FixedBuffer.create_holds _ length_zeros).unread_eq
  have hfirst : Converses ServerHttp s₀ (.read first none) s₁ :=
    .read rfl hrecv (by rw [hempty]; exact hgot) hreply hread
  have hsecond : Converses ServerHttp s₁ (.read second (some answer)) s₂ :=
    .read harmed hrecv' hgot' hreply' hread'
  have hone : (conversation ServerHttp).Run s₀ ([] ++ [.read first none]) s₁ := .snoc .nil hfirst
  have htwo : (conversation ServerHttp).Run s₀
      ([.read first none] ++ [.read second (some answer)]) s₂ := .snoc hone hsecond
  refine ⟨s₂, _, answer, htwo, ?_, rfl⟩
  rw [heard_snoc]
  exact List.take_append_drop 20 keepAliveGet

/-- Its answer is that of the whole text. -/
theorem first_reply_keepAliveGet :
    ∃ (ms : List Exchange) (r : Reply), replies ms = [r] ∧ heard ms = keepAliveGet ∧
      ∃ head, runHead HttpRequest.fresh keepAliveGet = .ok head ∧ Calls ServerHttp head r := by
  obtain ⟨s, ms, r, hrun, hheard, hreplies⟩ := keepAliveGet_segments
  have hblank : FixedBuffer.blank.Holds [] [] (List.replicate kBufferSize 0) := create_holds _ _
  have hfront : heard ms <+: keepAliveGet := by rw [hheard]
  have hhead : runHead HttpRequest.fresh keepAliveGet =
      .ok (.stop GET_REQUEST { afterGet with isAlive := true } []) := by
    decide +kernel
  have hbody : ∀ req w, runHead HttpRequest.fresh keepAliveGet ≠ .ok (.past req w) := by
    intro req w hpast
    cases hhead.symm.trans hpast
  obtain ⟨hfirst, -⟩ := first_reply hblank.valid hblank.unread_eq hrun hfront hbody
  exact ⟨ms, r, hreplies, hheard, hfirst r [] hreplies⟩

end KyrosWebServer.Http
