import KyrosWebServer.RequestHead

/-!
# A request in chunks

Bytes reach the parser in the chunks that the network happens to deliver. As
long as the body state is not entered, where the chunks end makes no
difference to the result, the request object or the number of bytes consumed.
-/

namespace KyrosWebServer.Http

open CMemory Base FixedBuffer

/-- One chunk has been appended and `processRead` has returned. -/
structure Received where
  /-- Result of the call. -/
  code : HTTP_CODE
  /-- The request object after the call. -/
  req : HttpRequest
  /-- The buffer after the call. -/
  buf : FixedBuffer
  /-- Number of bytes that `append` accepted. -/
  appended : ℕ

/-- Result, request object and the number of bytes taken out of the buffer. -/
def Received.outcome (r : Received) : HTTP_CODE × HttpRequest × ℕ :=
  (r.code, r.req, r.appended - r.buf.used)

/-- Append one chunk and call `processRead`. -/
def receive (req : HttpRequest) (buf : FixedBuffer) (chunk : List UInt8) :
    Except Fault Received := do
  let (n, buf) ← buf.append chunk
  let (code, req, buf) ← processRead req buf
  return ⟨code, req, buf, n⟩

theorem receive_eq {req req' : HttpRequest} {b b₁ b' : FixedBuffer} {chunk : List UInt8} {n : ℕ}
    {code : HTTP_CODE} (happend : b.append chunk = .ok (n, b₁))
    (hread : processRead req b₁ = .ok (code, req', b')) :
    receive req b chunk = .ok ⟨code, req', b', n⟩ := by
  simp only [receive, happend, hread, bind, Except.bind, pure, Except.pure]

/-- Receive the chunks in order up to the first result other than
`NO_REQUEST`; `appended` counts the bytes accepted before. -/
def feed (req : HttpRequest) (buf : FixedBuffer) (appended : ℕ) :
    List (List UInt8) → Except Fault Received
  | [] => .ok ⟨NO_REQUEST, req, buf, appended⟩
  | chunk :: chunks => do
    let r ← receive req buf chunk
    if r.code = NO_REQUEST then feed r.req r.buf (appended + r.appended) chunks
    else return { r with appended := appended + r.appended }

/-- `processRead` on a new request and all of `s` passes through the body state. -/
def EntersBody (buf : FixedBuffer) (s : List UInt8) : Prop :=
  ∃ n b req' b', buf.append s = .ok (n, b) ∧ Turns (HttpRequest.fresh, b) (req', b') ∧
    req'.mCheckState = CHECK_STATE_BODY

theorem HttpRequest.InLine.append {req : HttpRequest} {w : List UInt8} (h : req.InLine w)
    (more : List UInt8) : req.InLine (w ++ more) := by
  have hle : (w.takeWhile plain).length ≤ ((w ++ more).takeWhile plain).length := by
    rw [List.takeWhile_append]
    split <;> simp_all
  exact Nat.le_trans h hle

/-- The head of a request never lengthens the unread bytes. -/
theorem runHead_length (req : HttpRequest) (w : List UInt8) :
    (∀ req' w', runHead req w = .ok (.wait req' w') → w'.length ≤ w.length) ∧
    (∀ req' w', runHead req w = .ok (.past req' w') → w'.length ≤ w.length) := by
  fun_induction runHead req w with
  | case1 req w hpast =>
    constructor
    · intro req' w' h
      cases h
    · intro req' w' h
      cases h
      exact Nat.le_refl _
  | case2 req hpast =>
    constructor
    · intro req' w' h
      cases h
      exact Nat.le_refl _
    · intro req' w' h
      cases h
  | case3 req w hpast hw pos hnext =>
    constructor
    · intro req' w' h
      cases h
      exact Nat.le_refl _
    · intro req' w' h
      cases h
  | case4 | case5 | case6 | case7 => constructor <;> intro req' w' h <;> cases h
  | case8 req w hpast hw line rest hnext code req' text hline hbad hget ih =>
    have hlt := nextLine_rest_lt hnext
    constructor
    · intro req₁ w₁ h
      have hle := ih.1 req₁ w₁ h
      omega
    · intro req₁ w₁ h
      have hle := ih.2 req₁ w₁ h
      omega

/-- A line in the head is rejected, ends a request without body, or leads on
within the head or to the body. -/
theorem HttpRequest.headLine_cases (req : HttpRequest) {req' : HttpRequest} {line text : List UInt8}
    {code : HTTP_CODE} (hpast : ¬ req.pastHead = true)
    (h : req.headLine line = .ok (code, req', text)) :
    (code = BAD_REQUEST ∧ ¬ req'.pastHead = true) ∨
    (code = GET_REQUEST ∧ req'.contentLength = 0 ∧ req'.mCheckState = CHECK_STATE_SUCCESS) ∨
    (code = NO_REQUEST ∧ (¬ req'.pastHead = true ∨
      req'.mCheckState = CHECK_STATE_BODY ∧ req'.contentLength ≠ 0)) := by
  unfold headLine at h
  split at h
  · rcases parseRequest_cases h with ⟨rfl, m, u, rfl⟩ | ⟨rfl, m, u, v, rfl⟩
    · exact .inl ⟨rfl, hpast⟩
    · exact .inr (.inr ⟨rfl, .inl (by simp [pastHead])⟩)
  · cases hparse : req.parseHeader (line ++ [0]) with
    | error e => rw [hparse] at h; cases h
    | ok p =>
      rw [hparse] at h
      cases h
      rcases parseHeader_cases hparse with
        ⟨hcode, hlen, h⟩ | ⟨hcode, hlen, h⟩ | ⟨hcode, alive, len, host, h⟩
      · exact .inr (.inr ⟨hcode, .inr (by rw [h]; exact ⟨rfl, hlen⟩)⟩)
      · exact .inr (.inl ⟨hcode, by rw [h]; exact hlen, by rw [h]⟩)
      · exact .inr (.inr ⟨hcode, .inl (by rw [h]; exact hpast)⟩)

/-- A head stops with `BAD_REQUEST` before its end, or at its end with
`GET_REQUEST` when no body is declared. -/
theorem runHead_stop {req req' : HttpRequest} {w w' : List UInt8} {code : HTTP_CODE}
    (h : runHead req w = .ok (.stop code req' w')) :
    (code = BAD_REQUEST ∧ ¬ req'.pastHead = true) ∨
    (code = GET_REQUEST ∧ req'.contentLength = 0 ∧ req'.mCheckState = CHECK_STATE_SUCCESS) := by
  fun_induction runHead req w with
  | case1 | case2 | case3 | case5 => cases h
  | case4 req w hpast hw pos hnext =>
    cases h
    exact .inl ⟨rfl, hpast⟩
  | case6 req w hpast hw line rest hnext req₁ text hline =>
    cases h
    rcases HttpRequest.headLine_cases (req.scanned LINE_OK (line.length + 2)) hpast hline
      with h | ⟨hcode, -⟩ | ⟨hcode, -⟩
    · exact .inl h
    · cases hcode
    · cases hcode
  | case7 req w hpast hw line rest hnext req₁ text hline hbad =>
    cases h
    rcases HttpRequest.headLine_cases (req.scanned LINE_OK (line.length + 2)) hpast hline
      with ⟨hcode, -⟩ | h | ⟨hcode, -⟩
    · cases hcode
    · exact .inr h
    · cases hcode
  | case8 req w hpast hw line rest hnext code₁ req₁ text hline hbad hget ih => exact ih h

theorem runHead_stop_code {req req' : HttpRequest} {w w' : List UInt8} {code : HTTP_CODE}
    (h : runHead req w = .ok (.stop code req' w')) : code ≠ NO_REQUEST := by
  rcases runHead_stop h with ⟨rfl, -⟩ | ⟨rfl, -⟩ <;> exact HTTP_CODE.noConfusion

/-- A head that is complete without a result has declared a body. -/
theorem runHead_past_body {req req' : HttpRequest} {w w' : List UInt8}
    (hpast : ¬ req.pastHead = true) (h : runHead req w = .ok (.past req' w')) :
    req'.mCheckState = CHECK_STATE_BODY ∧ req'.contentLength ≠ 0 := by
  fun_induction runHead req w with
  | case1 req w hpast' => exact absurd hpast' hpast
  | case2 | case3 | case4 | case5 | case6 | case7 => cases h
  | case8 req w hpast' hw line rest hnext code req₁ text hline hbad hget ih =>
    rcases HttpRequest.headLine_cases (req.scanned LINE_OK (line.length + 2)) hpast hline
      with ⟨hcode, -⟩ | ⟨hcode, -⟩ | ⟨-, hin | hbody⟩
    · exact absurd hcode hbad
    · exact absurd hcode hget
    · exact ih hin h
    · have hpast₁ : ({ req₁ with mCheckIndex := 0 } : HttpRequest).pastHead = true := by
        simp [HttpRequest.pastHead, hbody.1]
      rw [runHead_past hpast₁] at h
      cases h
      exact hbody

/-- While the head lasts, feeding the chunks computes the head of their
concatenation, and stops with it. -/
theorem feed_runHead (chunks : List (List UInt8)) {req : HttpRequest} {b : FixedBuffer}
    {consumed w free : List UInt8} {n : ℕ} (h : b.Holds consumed w free) (hi : req.InLine w)
    (hwait : runHead req w = .ok (.wait req w))
    (hroom : w.length + chunks.flatten.length ≤ kBufferSize) :
    match runHead req (w ++ chunks.flatten) with
    | .error e => feed req b n chunks = .error e
    | .ok (.wait req' w') => ∃ b', feed req b n chunks =
        .ok ⟨NO_REQUEST, req', b', n + chunks.flatten.length⟩ ∧ b'.used = w'.length
    | .ok (.stop code req' w') => ∃ b' m, feed req b n chunks = .ok ⟨code, req', b', m⟩ ∧
        m + w'.length = n + chunks.flatten.length + b'.used
    | .ok (.past _ _) => True := by
  induction chunks generalizing req b consumed w free n with
  | nil =>
    rw [List.flatten_nil, List.append_nil, hwait]
    exact ⟨b, rfl, h.used_eq⟩
  | cons chunk chunks ih =>
    rw [List.flatten_cons, List.length_append] at hroom
    obtain ⟨b₁, consumed₁, free₁, happend, hb₁⟩ := h.append_room (s := chunk) (by omega)
    have hout := processRead_runHead hb₁ (hi.append chunk)
    rw [List.flatten_cons, ← List.append_assoc, runHead_append]
    cases hr : runHead req (w ++ chunk) with
    | error e =>
      rw [hr] at hout
      cases hout with
      | error hread => simp only [feed, receive, happend, hread, bind, Except.bind]
    | ok head =>
      rw [hr] at hout
      cases hout with
      | @wait req' b' consumed' w' hread hb' hi' =>
        have hlen := (runHead_length req (w ++ chunk)).1 req' w' hr
        rw [List.length_append] at hlen
        have hfeed : feed req b n (chunk :: chunks) = feed req' b' (n + chunk.length) chunks := by
          simp [feed, receive, happend, hread, bind, Except.bind, pure, Except.pure]
        have hrest := ih (n := n + chunk.length) hb' hi' (runHead_wait hr) (by omega)
        rw [hfeed, List.length_append, ← Nat.add_assoc]
        exact hrest
      | @stop code req' b' consumed' w' hread hb' =>
        have hcode := runHead_stop_code hr
        refine ⟨b', n + chunk.length, ?_, ?_⟩
        · simp [feed, receive, happend, hread, hcode, bind, Except.bind, pure, Except.pure]
        · rw [hb'.used_eq, List.length_append, List.length_append]
          omega
      | past _ _ _ => trivial

/-- A turn that leads on leaves the same head to be read. -/
theorem NextTurn.runHead_eq {req req₁ : HttpRequest} {b b₁ : FixedBuffer}
    {consumed w free : List UInt8} (hturn : NextTurn (req, b) (req₁, b₁))
    (h : b.Holds consumed w free) (hi : req.InLine w) (hpast : ¬ req.pastHead = true) :
    ∃ consumed₁ w₁, b₁.Holds consumed₁ w₁ free ∧ req₁.InLine w₁ ∧
      runHead req₁ w₁ = runHead req w := by
  obtain ⟨-, hagain⟩ := hturn
  dsimp only at hagain
  cases hnext : nextLine w with
  | unfinished pos =>
    obtain ⟨b', hturn, -⟩ := processReadTurn_unfinished h hi hpast hnext
    rw [hturn] at hagain
    cases hagain
  | broken pos =>
    obtain ⟨b', hturn, -⟩ := processReadTurn_broken h hi hnext
    rw [hturn] at hagain
    cases hagain
  | complete line rest =>
    have hturn := processReadTurn_head h hi (by simpa using hpast) hnext
    rw [runHead_complete hpast hnext]
    cases hline : (req.scanned LINE_OK (line.length + 2)).headLine line with
    | error e =>
      rw [hline] at hturn
      rw [hturn] at hagain
      cases hagain
    | ok p =>
      obtain ⟨code, req', text⟩ := p
      rw [hline] at hturn
      by_cases hbad : code = BAD_REQUEST
      · simp only [SwitchesAs, if_pos hbad] at hturn
        obtain ⟨b', hturn, -⟩ := hturn
        rw [hturn] at hagain
        cases hagain
      · simp only [SwitchesAs, if_neg hbad] at hturn
        obtain ⟨b', hb', hturn⟩ := hturn
        rw [hturn] at hagain
        by_cases hget : code = GET_REQUEST
        · rw [if_pos hget] at hagain
          cases hagain
        · rw [if_neg hget] at hagain
          cases hagain
          exact ⟨_, rest, hb', Nat.zero_le _, by simp only [if_neg hbad, if_neg hget]⟩

/-- A call passes through the body state exactly when the bytes in the buffer
reach past the head. -/
theorem entersBody_iff {buf : FixedBuffer} (hvalid : buf.Valid) (hempty : buf.unread = [])
    {s : List UInt8} (hs : s.length ≤ kBufferSize) :
    EntersBody buf s ↔ ∃ req w, runHead HttpRequest.fresh s = .ok (.past req w) := by
  obtain ⟨consumed, free, hb⟩ := hvalid.holds
  rw [hempty] at hb
  obtain ⟨b, consumed₁, free₁, happend, hb₁⟩ := hb.append_room (s := s) (by simpa using hs)
  rw [List.nil_append] at hb₁
  have hin : HttpRequest.fresh.InLine s := Nat.zero_le _
  constructor
  · rintro ⟨n, b', req', b'', happend', hturns, hst⟩
    rw [happend] at happend'
    cases happend'
    -- the head that the state on the way still has to read is that of `s`
    have hway : ∀ t, Turns (HttpRequest.fresh, b) t →
        (∃ consumed w, t.2.Holds consumed w free₁ ∧ t.1.InLine w ∧
          runHead t.1 w = runHead HttpRequest.fresh s) ∨
        ∃ req w, runHead HttpRequest.fresh s = .ok (.past req w) := by
      intro t ht
      induction ht with
      | refl => exact .inl ⟨_, s, hb₁, hin, rfl⟩
      | @tail u v _ hturn ih =>
        rcases ih with ⟨consumed', w, hu, hi, hrun⟩ | hpast
        · by_cases hp : u.1.pastHead = true
          · rw [runHead_past hp] at hrun
            exact .inr ⟨_, _, hrun.symm⟩
          · obtain ⟨consumed'', w', hv, hi', hrun'⟩ := hturn.runHead_eq hu hi hp
            exact .inl ⟨_, w', hv, hi', hrun'.trans hrun⟩
        · exact .inr hpast
    rcases hway _ hturns with ⟨consumed', w, -, -, hrun⟩ | hpast
    · have hp : req'.pastHead = true := by simp [HttpRequest.pastHead, hst]
      rw [runHead_past hp] at hrun
      exact ⟨_, _, hrun.symm⟩
    · exact hpast
  · rintro ⟨req', w, hrun⟩
    have hout := processRead_runHead hb₁ hin
    rw [hrun] at hout
    cases hout with
    | past hturns _ _ =>
      exact ⟨_, b, req', _, happend, hturns, (runHead_past_body (by decide) hrun).1⟩

/-- However a stream that stays out of the body state is cut into chunks, the
result, the request object and the number of bytes consumed are those of one
append and one call. -/
theorem feed_chunk_invariant {buf buf' : FixedBuffer} (hvalid : buf.Valid)
    (hempty : buf.unread = []) (hvalid' : buf'.Valid) (hempty' : buf'.unread = [])
    {s : List UInt8} (hs : s.length ≤ kBufferSize) (hnever : ¬ EntersBody buf' s)
    {chunks : List (List UInt8)} (hchunks : chunks.flatten = s) :
    (feed HttpRequest.fresh buf 0 chunks).map Received.outcome =
      (receive HttpRequest.fresh buf' s).map Received.outcome := by
  obtain ⟨consumed, free, hb⟩ := hvalid.holds
  obtain ⟨consumed', free', hb'⟩ := hvalid'.holds
  rw [hempty] at hb
  rw [hempty'] at hb'
  have hin : HttpRequest.fresh.InLine [] := Nat.le_refl _
  have hfeed := feed_runHead (n := 0) chunks hb hin runHead_fresh (by simpa [hchunks] using hs)
  obtain ⟨b₁, consumed₁, free₁, happend, hb₁⟩ := hb'.append_room (s := s) (by simpa using hs)
  have hout := processRead_runHead hb₁ (hin.append s)
  rw [hchunks] at hfeed
  rw [List.nil_append] at hfeed hout
  cases hr : runHead HttpRequest.fresh s with
  | error e =>
    rw [hr] at hfeed hout
    cases hout with
    | error hread =>
      simp [hfeed, receive, happend, hread, bind, Except.bind, Except.map]
  | ok head =>
    rw [hr] at hfeed hout
    cases hout with
    | wait hread hb₂ _ =>
      obtain ⟨b₃, hfeed, hused⟩ := hfeed
      simp [hfeed, receive, happend, hread, bind, Except.bind, pure, Except.pure, Except.map,
        Received.outcome, hused, hb₂.used_eq]
    | stop hread hb₂ =>
      obtain ⟨b₃, m, hfeed, hm⟩ := hfeed
      simp only [hfeed, receive, happend, hread, bind, Except.bind, pure, Except.pure, Except.map,
        Received.outcome, hb₂.used_eq, Except.ok.injEq, Prod.mk.injEq, true_and]
      omega
    | past _ _ _ => exact absurd ((entersBody_iff hvalid' hempty' hs).mpr ⟨_, _, hr⟩) hnever

/-- A chunk that ends between the CR and the LF of the request line. -/
theorem feed_chunk_invariant_sample :
    (feed HttpRequest.fresh blank 0 [minimalGet.take 15, minimalGet.drop 15]).map Received.outcome =
      (receive HttpRequest.fresh blank minimalGet).map Received.outcome := by
  have hrun : runHead HttpRequest.fresh minimalGet = .ok (.stop GET_REQUEST afterGet []) := by
    decide +kernel
  have hblank : blank.Holds [] [] (List.replicate kBufferSize 0) := create_holds _ _
  refine feed_chunk_invariant hblank.valid hblank.unread_eq hblank.valid hblank.unread_eq
    (by decide) ?_ (by decide)
  rw [entersBody_iff hblank.valid hblank.unread_eq (by decide), hrun]
  rintro ⟨req, w, h⟩
  cases h

end KyrosWebServer.Http
