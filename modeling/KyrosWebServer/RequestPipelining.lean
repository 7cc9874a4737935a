import KyrosWebServer.HttpServer
import KyrosWebServer.RequestWindow

/-!
# Requests behind one another

A client may send its next request before it has the answer to the last one.
The server reads again only when more bytes arrive, so a request that is
complete in the buffer by then must not be left there. It is left there when
one segment completes the first request of a connection and brings the second
one as a whole; whatever arrives later has its line ends cut at once.
-/

namespace KyrosWebServer.Http

open CMemory CString Base Net FixedBuffer TransitionSystem

/-- The unread bytes begin with a request that a new parser would complete. -/
def StartsComplete (b : FixedBuffer) : Prop :=
  ∃ req b', processRead HttpRequest.fresh b = .ok (GET_REQUEST, req, b')

/-- A request without body that asks to keep the connection, as its bytes. -/
def IsKeepAliveRequest (r : List UInt8) : Prop :=
  ∃ line m u v lines, r = headBytes line lines ∧
    ((∀ c ∈ line, plain c = true) ∧ IsRequestLine (content line) m u v) ∧
    (∀ l ∈ lines, IsHeaderLine l) ∧
    ((lastValue textContentLength lines).map atol).getD 0 = 0 ∧
    ∃ value, lastValue textConnection lines = some value ∧ KeepsAlive value

/-- No line has ended among these bytes. -/
def NoLine (w : List UInt8) : Prop := ∀ line rest, nextLine w ≠ .complete line rest

/-- Such a request has a head that ends. -/
theorem StartsComplete.runHead_eq {b : FixedBuffer} {consumed w free : List UInt8}
    (h : StartsComplete b) (hb : b.Holds consumed w free) :
    (∃ req rest, runHead HttpRequest.fresh w = .ok (.stop GET_REQUEST req rest)) ∨
      ∃ req rest, runHead HttpRequest.fresh w = .ok (.past req rest) := by
  obtain ⟨req, b', hread⟩ := h
  have hout := processRead_runHead hb (show HttpRequest.fresh.InLine w from Nat.zero_le _)
  generalize hrun : runHead HttpRequest.fresh w = out at hout
  cases hout with
  | error hread' =>
    rw [hread] at hread'
    cases hread'
  | wait hread' _ _ =>
    rw [hread] at hread'
    cases hread'
  | @stop code req' b₁ consumed' rest hread' _ =>
    rw [hread] at hread'
    cases hread'
    exact .inl ⟨req, rest, rfl⟩
  | @past req' b₁ consumed' rest _ _ _ => exact .inr ⟨req', rest, rfl⟩

/-- A new parser does not complete a request without a line. -/
theorem NoLine.not_startsComplete {b : FixedBuffer} {consumed w free : List UInt8}
    (h : NoLine w) (hb : b.Holds consumed w free) : ¬ StartsComplete b := by
  intro hcomplete
  have hends := hcomplete.runHead_eq hb
  have hhead : ¬ HttpRequest.fresh.pastHead = true := by decide
  by_cases hw : w = []
  · simp [hw, runHead_nil hhead] at hends
  cases hnext : nextLine w with
  | unfinished pos => simp [runHead_unfinished hhead hw hnext] at hends
  | broken pos => simp [runHead_broken hhead hnext] at hends
  | complete line rest => exact h line rest hnext

/-- What the head leaves unread while it lasts has no line. -/
theorem noLine_of_wait {req req' : HttpRequest} {w w' : List UInt8}
    (h : runHead req w = .ok (.wait req' w')) : NoLine w' := by
  intro line rest hnext
  have hself := runHead_wait h
  have hpast := runHead_waits hself
  have hlt := nextLine_rest_lt hnext
  rw [runHead_complete hpast hnext] at hself
  cases hline : (req'.scanned LINE_OK (line.length + 2)).headLine line with
  | error e =>
    rw [hline] at hself
    cases hself
  | ok p =>
    obtain ⟨code, req₁, text⟩ := p
    rw [hline] at hself
    by_cases hbad : code = BAD_REQUEST
    · simp only [if_pos hbad] at hself
      cases hself
    by_cases hget : code = GET_REQUEST
    · simp only [if_neg hbad, if_pos hget] at hself
      cases hself
    simp only [if_neg hbad, if_neg hget] at hself
    have hle := (runHead_length _ _).1 _ _ hself
    omega

/-- A new parser completes a request of this kind with its last byte. -/
theorem IsKeepAliveRequest.runHead_eq {r : List UInt8} (h : IsKeepAliveRequest r) :
    ∃ req, runHead HttpRequest.fresh r = .ok (.stop GET_REQUEST req []) ∧ req.isAlive = true := by
  obtain ⟨line, m, u, v, lines, rfl, ⟨hplain, hgrammar⟩, hlines, hlength, value, hvalue, halive⟩ := h
  have hin : (HttpRequest.requested m u v).InHeaders := ⟨rfl, rfl, rfl⟩
  have hbytes : headBytes line lines = line ++ CR :: LF :: (headerBytes lines ++ [CR, LF]) := by
    simp [headBytes]
  have hcontent : lines.map content = lines := by
    rw [List.map_congr_left fun l hl => (hlines l hl).content_eq, List.map_id']
  have hheaders := runHead_headers (fun l hl => (hlines l hl).plain)
    (fun l hl => by rw [(hlines l hl).content_eq]; exact (hlines l hl).1) hin [CR, LF]
  have hend := runHead_header (hin.withHeaders lines)
    (show ∀ c ∈ ([] : List UInt8), plain c = true by simp) []
  have hzero : ((HttpRequest.requested m u v).withHeaders lines).contentLength = 0 := hlength
  rw [if_pos (show content [] = [] from rfl), List.nil_append, if_pos hzero] at hend
  rw [hcontent] at hheaders
  rw [hbytes, runHead_accepts hplain hgrammar]
  refine ⟨_, hheaders.trans hend, ?_⟩
  simp only [HttpRequest.withHeaders, hvalue, Option.map_some, Option.getD_some, decide_eq_true_eq]
  exact halive

/-- Of a stream of requests the parser waits for the end of the first one, or
has completed it. -/
theorem runHead_stream {requests : List (List UInt8)} (hrequests : ∀ r ∈ requests, IsKeepAliveRequest r)
    {p : List UInt8} (hp : p <+: requests.flatten) :
    (∃ req w, runHead HttpRequest.fresh p = .ok (.wait req w)) ∨
    ∃ r rs req q, requests = r :: rs ∧ p = r ++ q ∧ q <+: rs.flatten ∧
      runHead HttpRequest.fresh p = .ok (.stop GET_REQUEST req q) ∧ req.isAlive = true := by
  cases requests with
  | nil =>
    rw [List.flatten_nil, List.prefix_nil] at hp
    rw [hp, runHead_nil (by decide)]
    exact .inl ⟨_, _, rfl⟩
  | cons r rs =>
    rw [List.flatten_cons] at hp
    obtain ⟨req, hrun, halive⟩ := (hrequests r List.mem_cons_self).runHead_eq
    rcases List.prefix_or_prefix_of_prefix hp (List.prefix_append r rs.flatten) with
      ⟨more, rfl⟩ | ⟨q, rfl⟩
    · -- the request has not arrived as a whole
      have happ := runHead_append HttpRequest.fresh p more
      rw [hrun] at happ
      cases hr : runHead HttpRequest.fresh p with
      | error e =>
        rw [hr] at happ
        cases happ
      | ok out =>
        rw [hr] at happ
        cases out with
        | wait req' w' => exact .inl ⟨req', w', rfl⟩
        | past req' w' => cases happ
        | stop code req' w' =>
          simp only [Except.ok.injEq, Head.stop.injEq] at happ
          obtain ⟨rfl, rfl, hnil⟩ := happ
          obtain ⟨rfl, rfl⟩ := List.append_eq_nil_iff.mp hnil.symm
          exact .inr ⟨_, rs, req, [], rfl, by simp, List.nil_prefix, rfl, halive⟩
    · refine .inr ⟨r, rs, req, q, rfl, rfl, ?_, ?_, halive⟩
      · exact (List.prefix_append_right_inj r).mp hp
      · rw [runHead_append, hrun]
        rfl

/-- Proper prefixes of the first request of a stream are not complete. -/
theorem not_startsComplete_of_short {requests : List (List UInt8)}
    (hrequests : ∀ r ∈ requests, IsKeepAliveRequest r) {b : FixedBuffer} {consumed q free : List UInt8}
    (hb : b.Holds consumed q free) (hq : q <+: requests.flatten)
    (hlt : ∀ r ∈ requests.head?, q.length < r.length) : ¬ StartsComplete b := by
  intro hcomplete
  have hends := hcomplete.runHead_eq hb
  rcases runHead_stream hrequests hq with ⟨req, w, hwait⟩ | ⟨r, rs, req, q', rfl, rfl, -, -, -⟩
  · simp [hwait] at hends
  · have hlen := hlt r rfl
    rw [List.length_append] at hlen
    omega

/-- Behind a complete request a turn leaves no line, or leads on. -/
theorem windowTurn_success {req : HttpRequest} {w : List UInt8} {turn : WindowTurn}
    (hi : req.InLine w) (hst : req.mCheckState = CHECK_STATE_SUCCESS)
    (h : windowTurn req w = .ok turn) :
    (∃ code req', turn = .ret code req' w ∧ NoLine w) ∨
      ∃ req' w', turn = .again req' w' ∧ req'.mCheckState = CHECK_STATE_SUCCESS := by
  have hscan := parseLine_nextLine [] hi
  rw [List.append_nil] at hscan
  cases hnext : nextLine w with
  | unfinished pos =>
    rw [hnext] at hscan
    have hopen : LINE_OPEN = LINE_OPEN ∧ req.mCheckState ≠ CHECK_STATE_BODY :=
      ⟨rfl, by rw [hst]; exact CHECK_STATE.noConfusion⟩
    rw [windowTurn_scan hscan, if_pos hopen] at h
    cases h
    exact .inl ⟨_, _, rfl, fun line rest hline => by rw [hnext] at hline; cases hline⟩
  | broken pos =>
    rw [hnext] at hscan
    rw [windowTurn_scan hscan, if_neg (fun h => LINE_STATE.noConfusion h.1), if_pos rfl] at h
    cases h
    exact .inl ⟨_, _, rfl, fun line rest hline => by rw [hnext] at hline; cases hline⟩
  | complete line rest =>
    rw [hnext] at hscan
    rw [windowTurn_scan hscan, if_neg (fun h => LINE_STATE.noConfusion h.1),
      if_neg LINE_STATE.noConfusion] at h
    simp only [windowSwitch, HttpRequest.scanned, hst] at h
    cases h
    exact .inr ⟨_, _, rfl, rfl⟩

/-- Behind a complete request a call leaves no line. -/
theorem processRead_noLine {req req' : HttpRequest} {b b' : FixedBuffer} {code : HTTP_CODE}
    {consumed w free : List UInt8} (hb : b.Holds consumed w free) (hi : req.InLine w)
    (hst : req.mCheckState = CHECK_STATE_SUCCESS) (h : processRead req b = .ok (code, req', b')) :
    ∃ consumed' w', b'.Holds consumed' w' free ∧ req'.InLine w' ∧ NoLine w' := by
  have hleft : ∃ consumed' w', b'.Holds consumed' w' free ∧ req'.mCheckIndex ≤ w'.length ∧
      req'.InLine w' ∧ NoLine w' := by
    refine processRead_window_rule
      (P := fun req w => req.InLine w ∧ req.mCheckState = CHECK_STATE_SUCCESS)
      (Q := fun _ req w => req.InLine w ∧ NoLine w) ?_ ?_ ?_ hb (inLine_le hi) ⟨hi, hst⟩ h
    · intro req w req' w' hp _ hturn
      refine ⟨windowTurn_inLine hp.1 hturn, ?_⟩
      rcases windowTurn_success hp.1 hp.2 hturn with ⟨code, req₂, hret, -⟩ | ⟨req₂, w₂, hagain, hst₂⟩
      · cases hret
      · cases hagain
        exact hst₂
    · intro req w code req' w' hp _ hturn
      refine ⟨windowTurn_inLine hp.1 hturn, ?_⟩
      rcases windowTurn_success hp.1 hp.2 hturn with ⟨code, req₂, hret, hline⟩ | ⟨req₂, w₂, hagain, -⟩
      · cases hret
        exact hline
      · cases hagain
    · intro req hp
      refine ⟨hp.1, fun line rest hline => ?_⟩
      cases hline
  obtain ⟨consumed', w', hb', -, hi', hline⟩ := hleft
  exact ⟨consumed', w', hb', hi', hline⟩

/-- The calls of a run; `handleRead` with the number of bytes of the stream
received before it and after it. -/
inductive Call
  | handleRead (m n : ℕ)
  | handleWrite

/-- The handlers of one connection, in whatever order the kernel has them
called, with the client's stream arriving in whatever segments. -/
inductive Served (HttpCallback : HttpServeFunc) (stream : List UInt8) :
    HttpConnection × ℕ → Call → HttpConnection × ℕ → Prop
  | handleRead {s s' : HttpConnection} {n : ℕ} {files : FileTable} {rs rest : List RecvResult}
      {ret : Option ℤ} {b : FixedBuffer} {got : List UInt8} :
      s.conn.mReadBuffer.readFd rs = .ok ((ret, rest), b) →
      b.unread = s.conn.mReadBuffer.unread ++ got → got <+: stream.drop n →
      s.handleRead HttpCallback files rs = .ok (some s') →
      Served HttpCallback stream (s, n) (.handleRead n (n + got.length)) (s', n + got.length)
  | handleWrite {s s' : HttpConnection} {n : ℕ} {rs : List WritevResult} :
      s.handleWrite rs = .ok (some s') → Served HttpCallback stream (s, n) .handleWrite (s', n)

/-- All runs of a new connection on a stream. -/
def serving (HttpCallback : HttpServeFunc) (stream : List UInt8) : System (HttpConnection × ℕ) Call where
  start s := ∃ rb wb, rb.Valid ∧ rb.unread = [] ∧ s = (HttpConnection.accept rb wb, 0)
  step := Served HttpCallback stream

/-- A call that receives the end of the first request does not receive the end
of the second one. -/
def OneRequest (requests : List (List UInt8)) : Call → Prop
  | .handleRead m n => ∀ r₁ r₂ rs, requests = r₁ :: r₂ :: rs →
      m < r₁.length → n < r₁.length + r₂.length
  | .handleWrite => True

/-- Where the parser stands in the stream: in the first request, or behind it. -/
inductive Phase (stream : List UInt8) : HttpConnection × ℕ → Prop
  /-- The connection has been closed. -/
  | closed {s : HttpConnection} {n : ℕ} : s.mEpoll = .absent → Phase stream (s, n)
  /-- More bytes of the first request are needed. -/
  | reading {s : HttpConnection} {n : ℕ} {consumed w free : List UInt8} :
      s.conn.mReadBuffer.Holds consumed w free → s.mContext.Request.InLine w →
      runHead HttpRequest.fresh (stream.take n) = .ok (.wait s.mContext.Request w) →
      n ≤ stream.length → Phase stream (s, n)
  /-- The first request is complete. -/
  | answered {s : HttpConnection} {n : ℕ} {consumed w free : List UInt8} :
      s.conn.mReadBuffer.Holds consumed w free → s.mContext.Request.InLine w →
      s.mContext.Request.mCheckState = CHECK_STATE_SUCCESS →
      ¬ StartsComplete s.conn.mReadBuffer → Phase stream (s, n)

theorem Phase.not_startsComplete {stream : List UInt8} {s : HttpConnection} {n : ℕ}
    (h : Phase stream (s, n)) {ev : Interest} (harmed : s.mEpoll = .armed ev) :
    ¬ StartsComplete s.conn.mReadBuffer := by
  cases h with
  | closed habsent =>
    rw [harmed] at habsent
    cases habsent
  | reading hb _ hwait _ => exact (noLine_of_wait hwait).not_startsComplete hb
  | answered _ _ _ hno => exact hno

/-- The state of the parser lies in the receive buffer and the request. -/
theorem Phase.congr {stream : List UInt8} {s s' : HttpConnection} {n : ℕ} (h : Phase stream (s, n))
    (hread : s'.conn.mReadBuffer = s.conn.mReadBuffer) (hcontext : s'.mContext = s.mContext)
    (habsent : s.mEpoll = .absent → s'.mEpoll = .absent) : Phase stream (s', n) := by
  cases h with
  | closed hs => exact .closed (habsent hs)
  | reading hb hi hwait hn =>
    rw [← hread] at hb
    rw [← hcontext] at hi hwait
    exact .reading hb hi hwait hn
  | answered hb hi hst hno =>
    rw [← hread] at hb hno
    rw [← hcontext] at hi hst
    exact .answered hb hi hst hno

/-- Arming the descriptor moves no byte. -/
theorem Phase.epollMod {stream : List UInt8} {s : HttpConnection} {n : ℕ} (h : Phase stream (s, n))
    (ev : Interest) : Phase stream (s.epollMod ev, n) :=
  h.congr (by rw [HttpConnection.epollMod_conn]) (s.epollMod_mContext ev) (s.epollMod_absent ev)

/-- What `recv` received stands behind what was unread. -/
theorem holds_received {b b' : FixedBuffer} {consumed w free got : List UInt8} {rs : List RecvResult}
    {out : Option ℤ × List RecvResult} (hb : b.Holds consumed w free)
    (hrecv : b.readFd rs = .ok (out, b')) (hgot : b'.unread = b.unread ++ got) :
    ∃ consumed' free', b'.Holds consumed' (w ++ got) free' := by
  obtain ⟨out', b₁, consumed', got', free', hread, hb₁⟩ := hb.readFd rs
  rw [hrecv] at hread
  cases hread
  rw [hb₁.unread_eq, hb.unread_eq] at hgot
  rw [List.append_cancel_left hgot] at hb₁
  exact ⟨consumed', free', hb₁⟩

section Step

variable {HttpCallback : HttpServeFunc} {files : FileTable} {requests : List (List UInt8)}
  {s s' : HttpConnection} {consumed w free : List UInt8}

/-- `readCb` when `m` bytes of the stream have been received, and `n` before
that: the parser still waits, or the first request has just been answered. -/
theorem readCb_stream (hrequests : ∀ r ∈ requests, IsKeepAliveRequest r) {m n : ℕ} {got : List UInt8}
    (hb : s.conn.mReadBuffer.Holds consumed (w ++ got) free) (hi : s.mContext.Request.InLine (w ++ got))
    (hwait : runHead HttpRequest.fresh (requests.flatten.take n) = .ok (.wait s.mContext.Request w))
    (hm : m ≤ requests.flatten.length)
    (htake : requests.flatten.take m = requests.flatten.take n ++ got)
    (hcall : HttpConnection.ReadCb HttpCallback files s s') :
    (∃ consumed' w', s'.conn.mReadBuffer.Holds consumed' w' free ∧ s'.mContext.Request.InLine w' ∧
      runHead HttpRequest.fresh (requests.flatten.take m) = .ok (.wait s'.mContext.Request w')) ∨
    ∃ r rs q consumed', requests = r :: rs ∧ n < r.length ∧ m = r.length + q.length ∧ q <+: rs.flatten ∧
      s'.conn.mReadBuffer.Holds consumed' q free ∧ s'.mContext.Request.InLine q ∧
      s'.mContext.Request.mCheckState = CHECK_STATE_SUCCESS ∧
      s'.conn.mAlive = s'.mContext.Response.isAlive := by
  have hrun : runHead HttpRequest.fresh (requests.flatten.take m) =
      runHead s.mContext.Request (w ++ got) := by
    rw [htake, runHead_append, hwait]
  have hout := processRead_runHead hb hi
  rcases runHead_stream hrequests (List.take_prefix m requests.flatten) with
    ⟨req, w', hstream⟩ | ⟨r, rs, req, q, rfl, hp, hq, hstream, halive⟩
  · rw [← hrun, hstream] at hout
    cases hout with
    | @wait req b' consumed' w' hread hb' hi' =>
      refine .inl ⟨consumed', w', ?_⟩
      rw [hcall.of_noRequest hread, HttpConnection.enableConnRead, HttpConnection.epollMod_conn,
        HttpConnection.epollMod_mContext]
      exact ⟨hb', hi', hstream⟩
  · rw [← hrun, hstream] at hout
    cases hout with
    | @stop code req b' consumed' w' hread hb' =>
      obtain ⟨hbuf, hreq, hkept⟩ := hcall.of_getRequest hread
      -- the first request was not complete before
      have hbefore : n < r.length := by
        by_contra hle
        obtain ⟨req₁, hfirst, -⟩ := (hrequests r List.mem_cons_self).runHead_eq
        rw [List.flatten_cons, List.take_append, List.take_of_length_le (by omega),
          runHead_append, hfirst] at hwait
        cases hwait
      have hlen : m = r.length + q.length := by
        have hlen := congrArg List.length hp
        rw [List.length_take_of_le hm, List.length_append] at hlen
        exact hlen
      have hst : req.mCheckState = CHECK_STATE_SUCCESS := processRead_get hread
      rw [halive, Bool.and_true] at hkept
      refine .inr ⟨r, rs, q, consumed', rfl, hbefore, hlen, hq, ?_⟩
      rw [hbuf, hreq]
      exact ⟨hb', Nat.zero_le _, hst, hkept⟩

/-- One `readCb` call in the first request. -/
theorem Phase.readCb_reading (hrequests : ∀ r ∈ requests, IsKeepAliveRequest r) {m n : ℕ} {got : List UInt8}
    (hb : s.conn.mReadBuffer.Holds consumed (w ++ got) free) (hi : s.mContext.Request.InLine (w ++ got))
    (hwait : runHead HttpRequest.fresh (requests.flatten.take n) = .ok (.wait s.mContext.Request w))
    (hm : m ≤ requests.flatten.length)
    (htake : requests.flatten.take m = requests.flatten.take n ++ got)
    (hone : OneRequest requests (.handleRead n m)) (hcall : HttpConnection.ReadCb HttpCallback files s s') :
    Phase requests.flatten (s', m) := by
  rcases readCb_stream hrequests hb hi hwait hm htake hcall with
    ⟨consumed', w', hb', hi', hwait'⟩ | ⟨r, rs, q, consumed', rfl, hbefore, hlen, hq, hb', hi', hst, -⟩
  · exact .reading hb' hi' hwait' hm
  refine .answered hb' hi' hst (not_startsComplete_of_short
    (fun r' hr' => hrequests r' (List.mem_cons_of_mem r hr')) hb' hq fun r₂ hr₂ => ?_)
  cases rs with
  | nil => cases hr₂
  | cons r₃ rs' =>
    cases hr₂
    have hbound := hone r r₂ rs' rfl hbefore
    omega

/-- A call that receives both ends leaves the second request complete in the
buffer, and the connection lives on as the callback wants it. -/
theorem readCb_strands {r₁ r₂ : List UInt8} {rs : List (List UInt8)}
    (hrequests : ∀ r ∈ r₁ :: r₂ :: rs, IsKeepAliveRequest r) {m n : ℕ} {got : List UInt8}
    (hb : s.conn.mReadBuffer.Holds consumed (w ++ got) free) (hi : s.mContext.Request.InLine (w ++ got))
    (hwait : runHead HttpRequest.fresh ((r₁ :: r₂ :: rs).flatten.take n) =
      .ok (.wait s.mContext.Request w))
    (hm : m ≤ (r₁ :: r₂ :: rs).flatten.length)
    (htake : (r₁ :: r₂ :: rs).flatten.take m = (r₁ :: r₂ :: rs).flatten.take n ++ got)
    (hboth : r₁.length + r₂.length ≤ m) (hcall : HttpConnection.ReadCb HttpCallback files s s') :
    StartsComplete s'.conn.mReadBuffer ∧ s'.conn.mAlive = s'.mContext.Response.isAlive := by
  obtain ⟨req₁, hfirst, -⟩ := (hrequests r₁ List.mem_cons_self).runHead_eq
  obtain ⟨req₂, hsecond, -⟩ := (hrequests r₂ (List.mem_cons_of_mem r₁ List.mem_cons_self)).runHead_eq
  rcases readCb_stream hrequests hb hi hwait hm htake hcall with
    ⟨consumed', w', hb', hi', hwait'⟩ | ⟨r, rs', q, consumed', hcons, hbefore, hlen, hq, hb', hi', hst, halive⟩
  · rw [List.flatten_cons, List.take_append, List.take_of_length_le (by omega),
      runHead_append, hfirst] at hwait'
    cases hwait'
  obtain ⟨rfl, rfl⟩ := List.cons.inj hcons
  refine ⟨?_, halive⟩
  rw [List.flatten_cons] at hq
  obtain ⟨more, rfl⟩ : r₂ <+: q :=
    List.prefix_of_prefix_length_le (List.prefix_append r₂ rs.flatten) hq (by omega)
  have hout := processRead_runHead hb' (show HttpRequest.fresh.InLine (r₂ ++ more) from Nat.zero_le _)
  rw [runHead_append, hsecond] at hout
  cases hout with
  | stop hread _ => exact ⟨_, _, hread⟩

/-- `readCb` behind the first request. -/
theorem Phase.readCb_answered {stream : List UInt8} {n : ℕ} (hb : s.conn.mReadBuffer.Holds consumed w free)
    (hi : s.mContext.Request.InLine w) (hst : s.mContext.Request.mCheckState = CHECK_STATE_SUCCESS)
    (hcall : HttpConnection.ReadCb HttpCallback files s s') : Phase stream (s', n) := by
  have hleft : ∀ {code req b}, processRead s.mContext.Request s.conn.mReadBuffer = .ok (code, req, b) →
      ∃ consumed' w', b.Holds consumed' w' free ∧ req.InLine w' ∧
        req.mCheckState = CHECK_STATE_SUCCESS ∧ ¬ StartsComplete b := fun hread => by
    obtain ⟨consumed', w', hb', hi', hline⟩ := processRead_noLine hb hi hst hread
    exact ⟨consumed', w', hb', hi', (processRead_success hst hread).1, hline.not_startsComplete hb'⟩
  cases hcall with
  | waiting hread _ _ =>
    obtain ⟨consumed', w', hb', hi', hst', hno⟩ := hleft hread
    exact Phase.epollMod (.answered hb' hi' hst' hno) _
  | rejected hread _ =>
    obtain ⟨consumed', w', hb', hi', hst', hno⟩ := hleft hread
    exact Phase.epollMod (.answered hb' hi' hst' hno) .EPOLLOUT
  | answered hread _ _ _ => exact absurd rfl (processRead_success hst hread).2

end Step

/-- One handler call keeps track of where the parser stands. -/
theorem Served.phase {HttpCallback : HttpServeFunc} {requests : List (List UInt8)}
    (hrequests : ∀ r ∈ requests, IsKeepAliveRequest r) {s t : HttpConnection × ℕ} {call : Call}
    (hone : OneRequest requests call) (h : Served HttpCallback requests.flatten s call t)
    (hs : Phase requests.flatten s) : Phase requests.flatten t := by
  cases h with
  | @handleWrite s s' n rs hwrite =>
    obtain ⟨hread, hcontext, habsent⟩ := HttpConnection.handleWrite_frame hwrite
    exact hs.congr hread hcontext habsent
  | @handleRead s s' n files rs rest ret b got hrecv hgot hprefix hcall =>
    obtain ⟨ret', rest', b', hrecv', hcall⟩ := HttpConnection.handleRead_cases hcall
    rw [hrecv] at hrecv'
    cases hrecv'
    rcases hcall with ⟨-, rfl⟩ | hcall
    · exact .closed rfl
    cases hs with
    | closed habsent => exact .closed (hcall.absent habsent)
    | @reading s n consumed w free hb hi hwait hn =>
      obtain ⟨consumed', free', hb'⟩ := holds_received hb hrecv hgot
      have hlen := hprefix.length_le
      rw [List.length_drop] at hlen
      have htake : requests.flatten.take (n + got.length) = requests.flatten.take n ++ got := by
        rw [List.take_add, List.prefix_iff_eq_take.mp hprefix, List.length_take_of_le (by simpa using hlen)]
      exact Phase.readCb_reading (s := { s with conn := { s.conn with mReadBuffer := b } })
        hrequests hb' (hi.append got) hwait (by omega) htake hone hcall
    | @answered s n consumed w free hb hi hst hno =>
      obtain ⟨consumed', free', hb'⟩ := holds_received hb hrecv hgot
      exact Phase.readCb_answered (s := { s with conn := { s.conn with mReadBuffer := b } })
        hb' (hi.append got) hst hcall

/-- When no call receives both the end of the first request and the end of the
second one, a connection armed for reading has no complete request in its
buffer, whatever the callback does. -/
theorem no_stranded_request (HttpCallback : HttpServeFunc) {requests : List (List UInt8)}
    (hrequests : ∀ r ∈ requests, IsKeepAliveRequest r) {s : HttpConnection} {n : ℕ}
    (hreach : ((serving HttpCallback requests.flatten).restrict (OneRequest requests)).Reachable (s, n))
    (harmed : s.mEpoll = .armed .EPOLLIN) : ¬ StartsComplete s.conn.mReadBuffer := by
  have hphase : Phase requests.flatten (s, n) := by
    refine System.Reachable.invariant ?_ ?_ hreach
    · rintro t ⟨rb, wb, hvalid, hempty, rfl⟩
      obtain ⟨consumed, free, hb⟩ := hvalid.holds
      rw [hempty] at hb
      exact .reading hb (Nat.zero_le _) (runHead_nil (by decide)) (Nat.zero_le _)
    · intro s call t hs hstep
      exact hstep.2.phase hrequests hstep.1 hs
  exact hphase.not_startsComplete harmed

/-- The request with which the connection is kept. -/
theorem isKeepAliveRequest_keepAliveGet : IsKeepAliveRequest keepAliveGet := by
  have hplain : (minimalGet.take 14).all plain = true := by decide
  have hheader : ∀ l ∈ [textConnection ++ textKeepAlive], IsHeaderLine l := by
    simp [IsHeaderLine, textConnection, textKeepAlive, ascii, CR, LF]
  have hgrammar : IsRequestLine (content (minimalGet.take 14)) GET [slash] textVersion :=
    ⟨textGET, [32], [32], by decide, .inl ⟨rfl, rfl⟩, by simp [blanks], by simp [blanks], rfl,
      by simp [blanks, slash], rfl⟩
  exact ⟨minimalGet.take 14, GET, [slash], textVersion, [textConnection ++ textKeepAlive], by decide,
    ⟨List.all_eq_true.mp hplain, hgrammar⟩, hheader, by decide, textKeepAlive, by decide, rfl⟩

/-- A new connection receives `got` in one call of `handleRead`, and sends its
answer in one call of `handleWrite`. -/
theorem served_once (HttpCallback : HttpServeFunc) (files : FileTable) {stream got : List UInt8}
    (rs : List RecvResult) (ws : List WritevResult) {β : Type} (observe : HttpConnection → β) {seen : β}
    (hrun : (do
      let received ← blank.readFd rs
      let s₁ ← (HttpConnection.accept blank blank).handleRead HttpCallback files rs
      let s₂ ← (s₁.getD (.accept blank blank)).handleWrite ws
      return (received.2.unread, s₁.isSome, s₂.map observe)) = .ok (got, true, some seen))
    (hgot : got <+: stream) :
    ∃ s₁ s₂, Served HttpCallback stream (.accept blank blank, 0) (.handleRead 0 (0 + got.length))
        (s₁, 0 + got.length) ∧
      Served HttpCallback stream (s₁, 0 + got.length) .handleWrite (s₂, 0 + got.length) ∧
      observe s₂ = seen := by
  have hblank : blank.Holds [] [] (List.replicate kBufferSize 0) := create_holds _ _
  have hempty : (HttpConnection.accept blank blank).conn.mReadBuffer.unread = [] := hblank.unread_eq
  obtain ⟨⟨⟨ret, rest⟩, b⟩, hrecv, hrun⟩ := bind_eq_ok hrun
  obtain ⟨t₁, hread, hrun⟩ := bind_eq_ok hrun
  obtain ⟨t₂, hwrite, hrun⟩ := bind_eq_ok hrun
  simp only [pure, Except.pure, Except.ok.injEq, Prod.mk.injEq] at hrun
  obtain ⟨hunread, hsome, hseen⟩ := hrun
  obtain ⟨s₁, rfl⟩ := Option.isSome_iff_exists.mp hsome
  obtain ⟨s₂, rfl, hs₂⟩ := Option.map_eq_some_iff.mp hseen
  rw [← List.nil_append got, ← hempty] at hunread
  exact ⟨s₁, s₂, .handleRead hrecv hunread hgot hread, .handleWrite hwrite, hs₂⟩

/-- Of two requests the first one arrives and is answered. -/
theorem no_stranded_request_sample :
    ∃ s : HttpConnection, s.mEpoll = .armed .EPOLLIN ∧ s.mContext.Request.mCheckState = CHECK_STATE_SUCCESS ∧
      ¬ StartsComplete s.conn.mReadBuffer := by
  have hrequests : ∀ r ∈ [keepAliveGet, keepAliveGet], IsKeepAliveRequest r := by
    simp [isKeepAliveRequest_keepAliveGet]
  have hblank : blank.Holds [] [] (List.replicate kBufferSize 0) := create_holds _ _
  have hprefix : keepAliveGet <+: [keepAliveGet, keepAliveGet].flatten := List.prefix_append _ _
  obtain ⟨s₁, s₂, hreceived, hsent, hseen⟩ := served_once (fun _ _ resp => resp) (fun _ => none)
    [.bytes keepAliveGet, .again] [.count 62, .zero] (fun s => (s.mEpoll, s.mContext.Request.mCheckState))
    (show _ = Except.ok (_, _, some (.armed .EPOLLIN, CHECK_STATE_SUCCESS)) by decide +kernel) hprefix
  have hone : OneRequest [keepAliveGet, keepAliveGet] (.handleRead 0 (0 + keepAliveGet.length)) := by
    intro r₁ r₂ rs heq _
    cases heq
    decide
  have hfirst : ((serving (fun _ _ resp => resp) [keepAliveGet, keepAliveGet].flatten).restrict
      (OneRequest [keepAliveGet, keepAliveGet])).Leads (.accept blank blank, 0)
      (s₁, 0 + keepAliveGet.length) := System.Leads.single ⟨hone, hreceived⟩
  have hboth : ((serving (fun _ _ resp => resp) [keepAliveGet, keepAliveGet].flatten).restrict
      (OneRequest [keepAliveGet, keepAliveGet])).Leads (.accept blank blank, 0)
      (s₂, 0 + keepAliveGet.length) := hfirst.tail (a := .handleWrite) ⟨trivial, hsent⟩
  obtain ⟨harmed, hsuccess⟩ := Prod.mk.inj hseen
  exact ⟨s₂, harmed, hsuccess, no_stranded_request (fun _ _ resp => resp) hrequests
    ⟨_, ⟨blank, blank, hblank.valid, hblank.unread_eq, rfl⟩, hboth⟩ harmed⟩

/-- Two requests arrive in one segment, the first one is answered, and the
connection waits for more with the second one in its buffer. -/
theorem second_request_stranded :
    ¬ ∀ (HttpCallback : HttpServeFunc) (requests : List (List UInt8)),
      (∀ r ∈ requests, IsKeepAliveRequest r) → ∀ s n,
        (serving HttpCallback requests.flatten).Reachable (s, n) → s.mEpoll = .armed .EPOLLIN →
          ¬ StartsComplete s.conn.mReadBuffer := by
  intro hall
  have hblank : blank.Holds [] [] (List.replicate kBufferSize 0) := create_holds _ _
  have hprefix : keepAliveGet ++ keepAliveGet <+: [keepAliveGet, keepAliveGet].flatten :=
    List.prefix_refl _
  obtain ⟨s₁, s₂, hreceived, hsent, hseen⟩ := served_once (fun _ _ resp => resp) (fun _ => none)
    [.bytes (keepAliveGet ++ keepAliveGet), .again] [.count 62, .zero]
    (fun s => (s.mEpoll, (processRead HttpRequest.fresh s.conn.mReadBuffer).map Prod.fst))
    (show _ = Except.ok (_, _, some (.armed .EPOLLIN, .ok GET_REQUEST)) by decide +kernel) hprefix
  obtain ⟨harmed, hcode⟩ := Prod.mk.inj hseen
  have hcomplete : StartsComplete s₂.conn.mReadBuffer := by
    cases hparse : processRead HttpRequest.fresh s₂.conn.mReadBuffer with
    | error e =>
      rw [hparse] at hcode
      cases hcode
    | ok p =>
      obtain ⟨code, req, b⟩ := p
      rw [hparse] at hcode
      cases hcode
      exact ⟨req, b, hparse⟩
  refine hall (fun _ _ resp => resp) [keepAliveGet, keepAliveGet] ?_ s₂ _
    ⟨_, ⟨blank, blank, hblank.valid, hblank.unread_eq, rfl⟩,
      (System.Leads.single hreceived).tail hsent⟩ harmed hcomplete
  simp [isKeepAliveRequest_keepAliveGet]

end KyrosWebServer.Http
