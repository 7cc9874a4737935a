import KyrosWebServer.RequestBody

/-!
# Delivery of whole requests

A head that a new parser accepts, followed by its body. The body arrives as it
was sent exactly when it contains neither CR nor LF. A call on a buffer with a
whole request leaves what follows the request exactly when there is no body.
-/

namespace KyrosWebServer.Http

open CMemory Base FixedBuffer

/-- Fed `h` in some chunks, a new parser consumes all of it and is then at the
end of the head, with `req` as the request object. -/
def HeadAccepted (h : List UInt8) (req : HttpRequest) : Prop :=
  ∃ (buf : FixedBuffer) (chunks : List (List UInt8)) (r : Received),
    buf.Valid ∧ buf.unread = [] ∧ chunks.flatten = h ∧
    feed HttpRequest.fresh buf 0 chunks = .ok r ∧ r.appended = h.length ∧ r.buf.used = 0 ∧
    r.req = req ∧ req.pastHead = true

/-- The appends that are made while the chunks are received all fit. -/
def Fits (req : HttpRequest) (buf : FixedBuffer) : List (List UInt8) → Prop
  | [] => True
  | chunk :: chunks => chunk.length ≤ buf.avail ∧
      ∀ r, receive req buf chunk = .ok r → r.code = NO_REQUEST → Fits r.req r.buf chunks

/-- Every call before the last chunk returns `NO_REQUEST`, and the call after
it returns `GET_REQUEST` with `body`. -/
def BodyDelivered (buf : FixedBuffer) (chunks : List (List UInt8)) (last body : List UInt8) : Prop :=
  ∃ r r', feed HttpRequest.fresh buf 0 chunks = .ok r ∧ r.code = NO_REQUEST ∧
    receive r.req r.buf last = .ok r' ∧ r'.code = GET_REQUEST ∧ r'.req.body = body

/-- `append` accepts all bytes or none. -/
theorem append_count {b b' : FixedBuffer} {s : List UInt8} {n : ℕ}
    (h : b.append s = .ok (n, b')) : n = s.length ∨ n = 0 := by
  unfold FixedBuffer.append at h
  dsimp only at h
  split at h
  · obtain ⟨b₁, -, h⟩ := bind_eq_ok h
    cases h
    exact .inl rfl
  · split at h
    · obtain ⟨held, -, h⟩ := bind_eq_ok h
      obtain ⟨b₁, -, h⟩ := bind_eq_ok h
      obtain ⟨b₂, -, h⟩ := bind_eq_ok h
      cases h
      exact .inl rfl
    · cases h
      exact .inr rfl

/-- No more bytes are accepted than the chunks have. -/
theorem feed_appended_le {chunks : List (List UInt8)} {req : HttpRequest} {b : FixedBuffer}
    {n : ℕ} {r : Received} (h : feed req b n chunks = .ok r) :
    r.appended ≤ n + chunks.flatten.length := by
  induction chunks generalizing req b n with
  | nil =>
    cases h
    exact Nat.le_refl _
  | cons chunk chunks ih =>
    obtain ⟨r₁, hreceive, h⟩ := bind_eq_ok h
    obtain ⟨⟨m, b₁⟩, happend, hreceive⟩ := bind_eq_ok hreceive
    obtain ⟨⟨code, req₁, b₂⟩, -, hreceive⟩ := bind_eq_ok hreceive
    cases hreceive
    have hcount := append_count happend
    rw [List.flatten_cons, List.length_append]
    dsimp only at h
    split at h
    · have hle := ih h
      omega
    · cases h
      dsimp only
      omega

/-- The last chunk is received when all earlier calls returned `NO_REQUEST`. -/
theorem feed_last (chunks : List (List UInt8)) (last : List UInt8) (req : HttpRequest)
    (b : FixedBuffer) (n : ℕ) :
    feed req b n (chunks ++ [last]) = do
      let r ← feed req b n chunks
      if r.code = NO_REQUEST then
        let r' ← receive r.req r.buf last
        return { r' with appended := r.appended + r'.appended }
      else return r := by
  induction chunks generalizing req b n with
  | nil =>
    simp only [List.nil_append, feed, bind, Except.bind, if_true, pure, Except.pure]
    cases receive req b last with
    | error e => rfl
    | ok r' =>
      obtain ⟨code, req', b', m⟩ := r'
      dsimp only
      split
      · rename_i hcode
        rw [hcode]
      · rfl
  | cons chunk chunks ih =>
    simp only [List.cons_append, feed, bind, Except.bind]
    cases receive req b chunk with
    | error e => rfl
    | ok r₁ =>
      dsimp only
      by_cases hcode : r₁.code = NO_REQUEST
      · rw [if_pos hcode, if_pos hcode, ih]
        rfl
      · rw [if_neg hcode, if_neg hcode]
        simp only [pure, Except.pure, if_neg hcode]

/-- In the body state nothing is consumed. -/
theorem processRead_keepsBody {req req' : HttpRequest} {b b' : FixedBuffer} {code : HTTP_CODE}
    (hst : req.mCheckState = CHECK_STATE_BODY) (h : processRead req b = .ok (code, req', b')) :
    (b'.mReadPtr = b.mReadPtr ∧ b'.mWritePtr = b.mWritePtr) ∧
    (code = NO_REQUEST → req'.mCheckState = CHECK_STATE_BODY) := by
  by_cases hused : b.used > 0
  · cases hturn : processReadTurn req b with
    | error e =>
      rw [processRead_turn hused hturn] at h
      cases h
    | ok turn =>
      rw [processRead_turn hused hturn] at h
      obtain ⟨text, -, hturn⟩ := bind_eq_ok hturn
      obtain ⟨⟨ls, pos, text'⟩, -, hturn⟩ := bind_eq_ok hturn
      obtain ⟨b₁, hstore, hturn⟩ := bind_eq_ok hturn
      have hptr := store_pointers hstore
      split at hturn
      · rename_i hopen
        exact absurd hst hopen.2
      split at hturn
      · cases hturn
        cases h
        exact ⟨hptr, fun hcode => by cases hcode⟩
      · simp only [switchCheckState, HttpRequest.scanned, hst] at hturn
        obtain ⟨⟨ret, req₁⟩, hcontent, hturn⟩ := bind_eq_ok hturn
        cases hturn
        cases h
        refine ⟨hptr, fun hcode => ?_⟩
        rcases HttpRequest.parseContent_cases hcontent with ⟨rfl, -⟩ | ⟨-, rfl⟩
        · cases hcode
        · rfl
  · rw [processRead_unused _ (by omega)] at h
    cases h
    exact ⟨⟨rfl, rfl⟩, fun _ => hst⟩

/-- Once a byte of the body has arrived, the buffer is never empty again. -/
theorem resume_keepsBody {chunks : List (List UInt8)} {req : HttpRequest} {b : FixedBuffer}
    {consumed w free : List UInt8} {n : ℕ} {r : Received}
    (hst : req.mCheckState = CHECK_STATE_BODY) (h : b.Holds consumed w free) (hw : w ≠ [])
    (hresume : resume req b n chunks = .ok r) : r.buf.used ≠ 0 := by
  induction chunks generalizing req b consumed w free n with
  | nil =>
    obtain ⟨⟨code, req', b'⟩, hread, hresume⟩ := bind_eq_ok hresume
    obtain ⟨hptr, -⟩ := processRead_keepsBody hst hread
    have hused : b'.used = b.used := by rw [used, hptr.1, hptr.2]; rfl
    have hpos := h.used_pos hw
    dsimp only [feed] at hresume
    split at hresume <;> cases hresume <;> dsimp only <;> omega
  | cons chunk chunks ih =>
    obtain ⟨⟨code, req', b'⟩, hread, hresume⟩ := bind_eq_ok hresume
    obtain ⟨hptr, hbody⟩ := processRead_keepsBody hst hread
    have hused : b'.used = b.used := by rw [used, hptr.1, hptr.2]; rfl
    have hpos := h.used_pos hw
    dsimp only at hresume
    by_cases hno : code = NO_REQUEST
    · rw [if_pos hno] at hresume
      have hvalid : b'.Valid := by
        obtain ⟨h₀, h₁, h₂⟩ := h.valid
        exact ⟨by omega, by omega, by omega⟩
      obtain ⟨consumed', free', hb'⟩ := hvalid.holds
      have hw' : b'.unread ≠ [] := by
        intro hnil
        have hzero := hb'.used_eq
        rw [hnil, List.length_nil] at hzero
        omega
      by_cases hroom : chunk.length ≤ kBufferSize - b'.unread.length
      · obtain ⟨b₁, consumed₁, free₁, happend, hb₁⟩ := hb'.append_room hroom
        rw [feed_cons happend] at hresume
        exact ih (hbody hno) hb₁ (by simp [hw']) hresume
      · rw [feed_cons (hb'.append_no_room hroom)] at hresume
        exact ih (hbody hno) hb' hw' hresume
    · rw [if_neg hno] at hresume
      cases hresume
      dsimp only
      omega

theorem resume_appended_le {chunks : List (List UInt8)} {req : HttpRequest} {b : FixedBuffer}
    {n : ℕ} {r : Received} (h : resume req b n chunks = .ok r) :
    r.appended ≤ n + chunks.flatten.length := by
  obtain ⟨⟨code, req', b'⟩, -, h⟩ := bind_eq_ok h
  dsimp only at h
  split at h
  · exact feed_appended_le h
  · cases h
    exact Nat.le_add_right n _

/-- When all bytes are accepted in the end, the first chunk is. -/
theorem feed_accepts {chunk : List UInt8} {chunks : List (List UInt8)} {req : HttpRequest}
    {b : FixedBuffer} {consumed w free : List UInt8} {n : ℕ} {r : Received}
    (h : b.Holds consumed w free) (hfeed : feed req b n (chunk :: chunks) = .ok r)
    (hall : r.appended = n + (chunk :: chunks).flatten.length) :
    ∃ b₁ consumed₁ free₁, b.append chunk = .ok (chunk.length, b₁) ∧
      b₁.Holds consumed₁ (w ++ chunk) free₁ ∧ resume req b₁ (n + chunk.length) chunks = .ok r := by
  by_cases hroom : chunk.length ≤ kBufferSize - w.length
  · obtain ⟨b₁, consumed₁, free₁, happend, hb₁⟩ := h.append_room hroom
    rw [feed_cons happend] at hfeed
    exact ⟨b₁, consumed₁, free₁, happend, hb₁, hfeed⟩
  · rw [feed_cons (h.append_no_room hroom)] at hfeed
    have hle := resume_appended_le hfeed
    rw [List.flatten_cons, List.length_append] at hall
    omega

/-- In the body state with an empty buffer, only empty chunks keep it empty. -/
theorem feed_emptyBody {chunks : List (List UInt8)} {req : HttpRequest} {b : FixedBuffer}
    {consumed free : List UInt8} {n : ℕ} {r : Received}
    (hst : req.mCheckState = CHECK_STATE_BODY) (h : b.Holds consumed [] free)
    (hfeed : feed req b n chunks = .ok r) (hall : r.appended = n + chunks.flatten.length)
    (hused : r.buf.used = 0) : r.req = req ∧ chunks.flatten = [] := by
  induction chunks generalizing b consumed free n with
  | nil =>
    cases hfeed
    exact ⟨rfl, rfl⟩
  | cons chunk chunks ih =>
    obtain ⟨b₁, consumed₁, free₁, -, hb₁, hresume⟩ := feed_accepts h hfeed hall
    by_cases hchunk : chunk = []
    · subst hchunk
      have hread := processRead_unused req (show b₁.used = 0 by rw [hb₁.used_eq]; rfl)
      simp only [resume, hread, bind, Except.bind, if_true] at hresume
      exact ih hb₁ hresume (by simpa using hall)
    · exact absurd hused (resume_keepsBody hst hb₁ (by simpa using hchunk) hresume)

/-- What is left of a head that is consumed as a whole, with no byte more. -/
theorem feed_head {chunks : List (List UInt8)} {req : HttpRequest} {b : FixedBuffer}
    {consumed w free : List UInt8} {n : ℕ} {r : Received} (h : b.Holds consumed w free)
    (hi : req.InLine w) (hwait : runHead req w = .ok (.wait req w))
    (hfeed : feed req b n chunks = .ok r) (hall : r.appended = n + chunks.flatten.length)
    (hused : r.buf.used = 0) (hpast : r.req.pastHead = true) :
    runHead req (w ++ chunks.flatten) = .ok (.past r.req []) ∨
    runHead req (w ++ chunks.flatten) = .ok (.stop GET_REQUEST r.req []) := by
  induction chunks generalizing req b consumed w free n with
  | nil =>
    cases hfeed
    exact absurd hpast (runHead_waits hwait)
  | cons chunk chunks ih =>
    obtain ⟨b₁, consumed₁, free₁, -, hb₁, hresume⟩ := feed_accepts h hfeed hall
    have hout := processRead_runHead hb₁ (hi.append chunk)
    rw [List.flatten_cons, ← List.append_assoc, runHead_append]
    rw [List.flatten_cons, List.length_append] at hall
    cases hr : runHead req (w ++ chunk) with
    | error e =>
      rw [hr] at hout
      cases hout with
      | error hread =>
        simp only [resume, hread, bind, Except.bind] at hresume
        cases hresume
    | ok head =>
      rw [hr] at hout
      cases hout with
      | wait hread hb' hi' =>
        simp only [resume, hread, bind, Except.bind, if_true] at hresume
        exact ih hb' hi' (runHead_wait hr) hresume (by omega)
      | @stop code req' b' consumed' w' hread hb' =>
        have hcode := runHead_stop hr
        simp only [resume, hread, bind, Except.bind, if_neg (runHead_stop_code hr)] at hresume
        cases hresume
        dsimp only at hall hused hpast
        have hrest : chunks.flatten = [] := List.eq_nil_of_length_eq_zero (by omega)
        have hw' : w' = [] := List.eq_nil_of_length_eq_zero (by rw [← hb'.used_eq, hused])
        rcases hcode with ⟨-, hhead⟩ | ⟨rfl, -⟩
        · exact absurd hpast hhead
        · right
          rw [hrest, hw']
          rfl
      | @past req' b' consumed' w' hturns hb' _ =>
        obtain ⟨hst, -⟩ := runHead_past_body (runHead_waits hwait) hr
        simp only [resume, hturns.processRead_eq] at hresume
        by_cases hw' : w' = []
        · subst hw'
          have hread := processRead_unused req' (show b'.used = 0 by rw [hb'.used_eq]; rfl)
          simp only [hread, bind, Except.bind, if_true] at hresume
          obtain ⟨hsame, hrest⟩ := feed_emptyBody hst hb' hresume (by omega) hused
          left
          rw [hrest, hsame]
          rfl
        · exact absurd hused (resume_keepsBody hst hb' hw' hresume)

/-- The two kinds of heads that a new parser accepts, by the declared length. -/
theorem HeadAccepted.runHead_eq {h : List UInt8} {req : HttpRequest} (hhead : HeadAccepted h req) :
    (runHead HttpRequest.fresh h = .ok (.past req []) ∧
      req.mCheckState = CHECK_STATE_BODY ∧ req.contentLength ≠ 0) ∨
    (runHead HttpRequest.fresh h = .ok (.stop GET_REQUEST req []) ∧ req.contentLength = 0) := by
  obtain ⟨buf, chunks, r, hvalid, hempty, hflat, hfeed, hall, hused, hreq, hpast⟩ := hhead
  obtain ⟨consumed, free, hb⟩ := hvalid.holds
  rw [hempty] at hb
  rw [← hflat] at hall ⊢
  rw [← hreq] at hpast ⊢
  rcases feed_head hb (Nat.le_refl _) runHead_fresh hfeed (by omega) hused hpast with hrun | hrun
  · exact .inl ⟨hrun, runHead_past_body (by decide) hrun⟩
  · rcases runHead_stop hrun with ⟨hcode, -⟩ | ⟨-, hlen, -⟩
    · cases hcode
    · exact .inr ⟨hrun, hlen⟩

/-- The chunks up to the one that ends the head, with the body bytes that it
carries left in the buffer. -/
theorem feed_toBody {chunks : List (List UInt8)} {req req' : HttpRequest} {b : FixedBuffer}
    {consumed w free body : List UInt8} {n : ℕ} (h : b.Holds consumed w free) (hi : req.InLine w)
    (hwait : runHead req w = .ok (.wait req w)) (hfits : Fits req b chunks)
    (hrun : runHead req (w ++ chunks.flatten) = .ok (.past req' body)) :
    ∃ b' consumed' w' free' m rest, feed req b n chunks = resume req' b' m rest ∧
      b'.Holds consumed' w' free' ∧ req'.InLine w' ∧ w' ++ rest.flatten = body ∧
      m + rest.flatten.length = n + chunks.flatten.length := by
  induction chunks generalizing req b consumed w free n with
  | nil =>
    rw [List.flatten_nil, List.append_nil, hwait] at hrun
    cases hrun
  | cons chunk chunks ih =>
    obtain ⟨hroom, hnext⟩ := hfits
    rw [h.avail_eq] at hroom
    obtain ⟨b₁, consumed₁, free₁, happend, hb₁⟩ := h.append_room hroom
    have hout := processRead_runHead hb₁ (hi.append chunk)
    rw [List.flatten_cons, ← List.append_assoc, runHead_append] at hrun
    rw [feed_cons happend, List.flatten_cons, List.length_append]
    cases hr : runHead req (w ++ chunk) with
    | error e =>
      rw [hr] at hrun
      cases hrun
    | ok head =>
      rw [hr] at hrun hout
      cases hout with
      | @wait req₁ b₂ consumed₂ w₂ hread hb₂ hi₂ =>
        have hreceive := receive_eq happend hread
        obtain ⟨b', consumed', w', free', m, rest, hfeed, hb', hi', hbody, hm⟩ :=
          ih (n := n + chunk.length) hb₂ hi₂ (runHead_wait hr) (hnext _ hreceive rfl) hrun
        refine ⟨b', consumed', w', free', m, rest, ?_, hb', hi', hbody, by omega⟩
        simp only [resume, hread, bind, Except.bind, if_true]
        exact hfeed
      | stop _ _ => cases hrun
      | @past req₁ b₂ consumed₂ w₂ hturns hb₂ hi₂ =>
        cases hrun
        refine ⟨b₂, consumed₂, w₂, free₁, n + chunk.length, chunks, ?_, hb₂, hi₂, rfl, by omega⟩
        simp only [resume, hturns.processRead_eq]

/-- Whatever the chunks, a body reaches the handler byte for byte, with the
call after its last byte and no earlier, exactly when it has no CR and no LF. -/
theorem body_delivered_iff {h body : List UInt8} {req : HttpRequest} (hhead : HeadAccepted h req)
    (hlen : req.contentLength = body.length) (hpos : 1 ≤ body.length)
    (hmax : body.length ≤ kBufferSize) {buf : FixedBuffer} (hvalid : buf.Valid)
    (hempty : buf.unread = []) {chunks : List (List UInt8)} {last : List UInt8}
    (hlast : last ≠ []) (hchunks : (chunks ++ [last]).flatten = h ++ body)
    (hfits : Fits HttpRequest.fresh buf (chunks ++ [last])) :
    BodyDelivered buf chunks last body ↔ ∀ x ∈ body, x ≠ CR ∧ x ≠ LF := by
  have hplain : (∀ x ∈ body, x ≠ CR ∧ x ≠ LF) ↔ ∀ x ∈ body, plain x = true := by
    simp only [plain_iff]
  have hbody : runHead HttpRequest.fresh (h ++ body) = .ok (.past req body) ∧
      req.AwaitsBody body.length := by
    rcases hhead.runHead_eq with ⟨hrun, hst, -⟩ | ⟨-, hzero⟩
    · rw [runHead_append, hrun]
      exact ⟨rfl, hst, hlen⟩
    · omega
  obtain ⟨hrun, hreq⟩ := hbody
  obtain ⟨consumed, free, hb⟩ := hvalid.holds
  rw [hempty] at hb
  rw [← hchunks] at hrun
  obtain ⟨b', consumed', w', free', m, rest, hfeed, hb', hi', hrest, hm⟩ :=
    feed_toBody (n := 0) hb (Nat.le_refl _) runHead_fresh hfits hrun
  rw [feed_last] at hfeed
  rw [hplain]
  constructor
  · rintro ⟨r, r', hfirst, hno, hsecond, hget, hbod⟩
    rw [hfirst] at hfeed
    simp only [hno, if_true, hsecond, bind, Except.bind, pure, Except.pure] at hfeed
    by_cases hall : ∀ x ∈ body, plain x = true
    · exact hall
    · have hne := resume_broken hreq hb' hi' hrest hmax hall hfeed.symm hget
      exact absurd hbod hne
  · intro hall
    obtain ⟨r, hresume, hget, hbod, happ⟩ := resume_plain (n := m) hreq hb' hi' hrest
      (List.length_pos_iff.mp hpos) hmax hall
    rw [hresume] at hfeed
    obtain ⟨r₁, hfirst, hfeed⟩ := bind_eq_ok hfeed
    have hle := feed_appended_le hfirst
    have hcount : 0 < last.length := List.length_pos_iff.mpr hlast
    rw [List.flatten_append, List.length_append] at hm
    by_cases hno : r₁.code = NO_REQUEST
    · rw [if_pos hno] at hfeed
      obtain ⟨r₂, hsecond, hfeed⟩ := bind_eq_ok hfeed
      cases hfeed
      exact ⟨r₁, r₂, hfirst, hno, hsecond, hget, hbod⟩
    · rw [if_neg hno] at hfeed
      cases hfeed
      simp only [List.flatten_cons, List.flatten_nil, List.append_nil] at hm
      omega

/-- The head of a POST request with a body of one byte. -/
def postHead : List UInt8 :=
  ascii ['P', 'O', 'S', 'T', ' ', '/', ' ', 'H', 'T', 'T', 'P', '/', '1', '.', '1'] ++ [CR, LF] ++
    textContentLength ++ ascii ['1'] ++ [CR, LF, CR, LF]

theorem postHead_accepted :
    ∃ req, HeadAccepted postHead req ∧ req.contentLength = 1 := by
  have hfeed : (feed HttpRequest.fresh blank 0 [postHead]).map
      (fun r => (r.appended, r.buf.used, r.req.pastHead, r.req.contentLength)) =
      .ok (postHead.length, 0, true, 1) := by decide +kernel
  cases hrun : feed HttpRequest.fresh blank 0 [postHead] with
  | error e =>
    rw [hrun] at hfeed
    cases hfeed
  | ok r =>
    rw [hrun] at hfeed
    obtain ⟨happ, hused, hpast, hlen⟩ : r.appended = postHead.length ∧ r.buf.used = 0 ∧
        r.req.pastHead = true ∧ r.req.contentLength = 1 := by simpa [Except.map] using hfeed
    have hblank : blank.Holds [] [] (List.replicate kBufferSize 0) := create_holds _ _
    exact ⟨r.req, ⟨blank, [postHead], r, hblank.valid, hblank.unread_eq, by simp, hrun, happ,
      hused, rfl, hpast⟩, hlen⟩

/-- The body `A`, in one chunk with its head. -/
theorem body_delivered_iff_sample :
    ∃ req, HeadAccepted postHead req ∧
      (BodyDelivered blank [] (postHead ++ [65]) [65] ↔ ∀ x ∈ [(65 : UInt8)], x ≠ CR ∧ x ≠ LF) := by
  obtain ⟨req, hhead, hlen⟩ := postHead_accepted
  have hblank : blank.Holds [] [] (List.replicate kBufferSize 0) := create_holds _ _
  have hbody : req.contentLength = ([65] : List UInt8).length := hlen
  exact ⟨req, hhead, body_delivered_iff hhead hbody (by decide) (by decide) hblank.valid
    hblank.unread_eq (by decide) (by decide) ⟨by decide, fun _ _ _ => trivial⟩⟩

/-- A body that is a single LF is rejected. -/
theorem lf_body_rejected :
    ¬ ∀ (h body : List UInt8) (req : HttpRequest) (buf : FixedBuffer)
      (chunks : List (List UInt8)) (last : List UInt8), HeadAccepted h req →
      req.contentLength = body.length → 1 ≤ body.length → body.length ≤ kBufferSize →
      buf.Valid → buf.unread = [] → last ≠ [] → (chunks ++ [last]).flatten = h ++ body →
      Fits HttpRequest.fresh buf (chunks ++ [last]) → BodyDelivered buf chunks last body := by
  intro hall
  obtain ⟨req, hhead, hlen⟩ := postHead_accepted
  have hblank : blank.Holds [] [] (List.replicate kBufferSize 0) := create_holds _ _
  obtain ⟨r, r', hfirst, -, hsecond, hget, -⟩ := hall postHead [LF] req blank [] (postHead ++ [LF])
    hhead hlen (by decide) (by decide) hblank.valid hblank.unread_eq (by decide) (by decide)
    ⟨by decide, fun _ _ _ => trivial⟩
  cases hfirst
  have hbad : (receive HttpRequest.fresh blank (postHead ++ [LF])).map (fun r => r.code) =
      .ok BAD_REQUEST := by decide +kernel
  rw [hsecond] at hbad
  have hcode : r'.code = BAD_REQUEST := by simpa [Except.map] using hbad
  rw [hcode] at hget
  cases hget

/-- The first CR or LF of the bytes is an LF, or a CR in front of another byte
than LF. -/
def LoneBreak (r : List UInt8) : Prop :=
  ∃ line tail, (∀ x ∈ line, x ≠ CR ∧ x ≠ LF) ∧
    (r = line ++ LF :: tail ∨ ∃ c, c ≠ LF ∧ r = line ++ CR :: c :: tail)

theorem loneBreak_iff {r : List UInt8} : LoneBreak r ↔ ∃ pos, nextLine r = .broken pos := by
  constructor
  · rintro ⟨line, tail, hline, hr⟩
    have hplain : ∀ x ∈ line, plain x = true := fun x hx => plain_iff.mpr (hline x hx)
    rcases hr with rfl | ⟨c, hc, rfl⟩
    · rw [nextLine_plain hplain (by simp [plain, LF])]
      exact ⟨line.length, by simp [lineEnd, CR, LF]⟩
    · rw [nextLine_plain hplain (by simp [plain, CR])]
      exact ⟨line.length, by simp [lineEnd, hc]⟩
  · rintro ⟨pos, hpos⟩
    obtain ⟨line, hline, -, h | h | ⟨rest, h⟩ | ⟨c, rest, hc, h⟩ | ⟨rest, h⟩⟩ := nextLine_cases r <;>
      rw [h.2] at hpos <;> cases hpos
    · exact ⟨line, rest, fun x hx => plain_iff.mp (hline x hx), .inr ⟨c, hc, h.1⟩⟩
    · exact ⟨line, rest, fun x hx => plain_iff.mp (hline x hx), .inl h.1⟩

/-- Bytes without CR and LF in front do not change how the first line ends. -/
theorem nextLine_before {b : List UInt8} (hb : ∀ x ∈ b, plain x = true) (r : List UInt8) :
    nextLine (b ++ r) = match nextLine r with
      | .unfinished pos => .unfinished (b.length + pos)
      | .broken pos => .broken (b.length + pos)
      | .complete line rest => .complete (b ++ line) rest := by
  obtain ⟨line, hline, -, h⟩ := nextLine_cases r
  have hplain : ∀ x ∈ b ++ line, plain x = true := by
    intro x hx
    rcases List.mem_append.mp hx with hx | hx
    · exact hb x hx
    · exact hline x hx
  rcases h with h | h | ⟨rest, h⟩ | ⟨c, rest, hc, h⟩ | ⟨rest, h⟩
  · rw [h.2, h.1, nextLine_all hplain, List.length_append]
  all_goals
    rw [h.2, h.1, ← List.append_assoc, nextLine_plain hplain (by simp [plain, CR, LF])]
  · simp [lineEnd]
  · simp [lineEnd]
  · simp [lineEnd, hc]
  · simp [lineEnd, CR, LF]

/-- With a whole body in front of `r`, the body state either rejects it for a
break in `r` or returns the request and leaves all bytes in the buffer. -/
theorem processRead_wholeBody {req : HttpRequest} {b : FixedBuffer}
    {consumed body r free : List UInt8} (hreq : req.AwaitsBody body.length)
    (hb : b.Holds consumed (body ++ r) free) (hi : req.InLine (body ++ r))
    (hbody : ∀ x ∈ body, plain x = true) (hpos : 0 < body.length) :
    (∃ req' b', processRead req b = .ok (BAD_REQUEST, req', b')) ∧ LoneBreak r ∨
    (∃ req' b', processRead req b = .ok (GET_REQUEST, req', b') ∧
      b'.unread.length = body.length + r.length) ∧ ¬ LoneBreak r := by
  have hw : body ++ r ≠ [] := by
    rw [← List.length_pos_iff, List.length_append]
    omega
  have hread := processRead_body hreq hb hi hw
  rw [nextLine_before hbody r] at hread
  rw [loneBreak_iff]
  cases hnext : nextLine r with
  | unfinished pos =>
    rw [hnext] at hread
    obtain ⟨b', hb', hread⟩ := hread
    rw [if_pos (by omega)] at hread
    refine .inr ⟨⟨_, b', hread, ?_⟩, fun ⟨pos', hpos'⟩ => by cases hpos'⟩
    rw [hb'.unread_eq, List.length_append]
  | broken pos =>
    rw [hnext] at hread
    obtain ⟨b', -, hread⟩ := hread
    exact .inl ⟨⟨_, b', hread⟩, pos, rfl⟩
  | complete line rest =>
    rw [hnext] at hread
    obtain ⟨b', hb', hread⟩ := hread
    rw [if_pos (by simp; omega)] at hread
    refine .inr ⟨⟨_, b', hread, ?_⟩, fun ⟨pos', hpos'⟩ => by cases hpos'⟩
    rw [hb'.unread_eq, nextLine_complete hnext]
    simp only [List.length_append, List.length_cons]
    omega

/-- A call on a whole request and what follows it leaves exactly what follows,
whenever it returns `GET_REQUEST`, just if the request has no body or what
follows makes the scanner reject the body. -/
theorem exact_consumption_iff {h body r : List UInt8} {req : HttpRequest}
    (hhead : HeadAccepted h req) (hlen : req.contentLength = body.length)
    (hplain : ∀ x ∈ body, x ≠ CR ∧ x ≠ LF) {buf : FixedBuffer} (hvalid : buf.Valid)
    (hunread : buf.unread = h ++ (body ++ r)) :
    (∀ req' buf', processRead HttpRequest.fresh buf = .ok (GET_REQUEST, req', buf') →
      buf'.unread = r) ↔ req.contentLength = 0 ∨ LoneBreak r := by
  obtain ⟨consumed, free, hb⟩ := hvalid.holds
  rw [hunread] at hb
  have hout := processRead_runHead hb (show HttpRequest.fresh.InLine _ from Nat.zero_le _)
  rw [runHead_append] at hout
  rcases hhead.runHead_eq with ⟨hrun, hst, hne⟩ | ⟨hrun, hzero⟩
  · rw [hrun] at hout
    cases hout with
    | @past _ b' consumed' _ hturns hb' hi' =>
      rw [List.nil_append] at hb' hi'
      have hbody : ∀ x ∈ body, plain x = true := fun x hx => plain_iff.mpr (hplain x hx)
      have hpos : 0 < body.length := by omega
      have hsame : processRead HttpRequest.fresh buf = processRead req b' := hturns.processRead_eq
      rw [hsame]
      rcases processRead_wholeBody ⟨hst, hlen⟩ hb' hi' hbody hpos with
        ⟨⟨req₁, b₁, hread⟩, hbreak⟩ | ⟨⟨req₁, b₁, hread, hkept⟩, hbreak⟩
      · constructor
        · intro _
          exact .inr hbreak
        · intro _ req' buf' hget
          rw [hread] at hget
          cases hget
      · constructor
        · intro hall
          rw [hall req₁ b₁ hread] at hkept
          omega
        · rintro (hzero | hlone)
          · exact absurd hzero hne
          · exact absurd hlone hbreak
  · rw [hrun] at hout
    cases hout with
    | stop hread hb' =>
      have hnil : body = [] := List.eq_nil_of_length_eq_zero (by omega)
      constructor
      · intro _
        exact .inl hzero
      · intro _ req' buf' hget
        rw [hread] at hget
        cases hget
        rw [hb'.unread_eq, hnil]
        rfl

/-- A buffer with the head, the body `A` and one byte of the next request. -/
theorem exact_consumption_iff_sample :
    ∃ req buf, HeadAccepted postHead req ∧ buf.unread = postHead ++ ([65] ++ [66]) ∧
      ((∀ req' buf', processRead HttpRequest.fresh buf = .ok (GET_REQUEST, req', buf') →
        buf'.unread = [66]) ↔ req.contentLength = 0 ∨ LoneBreak [66]) := by
  obtain ⟨req, hhead, hlen⟩ := postHead_accepted
  have hblank : blank.Holds [] [] (List.replicate kBufferSize 0) := create_holds _ _
  obtain ⟨buf, consumed, free, -, hbuf⟩ :=
    hblank.append_room (s := postHead ++ ([65] ++ [66])) (by decide)
  have hbody : req.contentLength = ([65] : List UInt8).length := hlen
  exact ⟨req, buf, hhead, hbuf.unread_eq, exact_consumption_iff hhead hbody
    (by simp [CR, LF]) hbuf.valid hbuf.unread_eq⟩

/-- The body stays in the buffer, in front of the next request. -/
theorem body_left_in_buffer :
    ¬ ∀ (h body r : List UInt8) (req : HttpRequest) (buf : FixedBuffer), HeadAccepted h req →
      req.contentLength = body.length → (∀ x ∈ body, x ≠ CR ∧ x ≠ LF) → buf.Valid →
      buf.unread = h ++ (body ++ r) → ∀ req' buf',
      processRead HttpRequest.fresh buf = .ok (GET_REQUEST, req', buf') → buf'.unread = r := by
  intro hall
  obtain ⟨req, hhead, hlen⟩ := postHead_accepted
  have hblank : blank.Holds [] [] (List.replicate kBufferSize 0) := create_holds _ _
  obtain ⟨buf, consumed, free, happend, hbuf⟩ :=
    hblank.append_room (s := postHead ++ ([65] ++ [66])) (by decide)
  have hrun : (receive HttpRequest.fresh blank (postHead ++ ([65] ++ [66]))).map
      (fun r => (r.code, r.buf.unread)) = .ok (GET_REQUEST, [65, 66]) := by decide +kernel
  rw [receive, happend] at hrun
  cases hread : processRead HttpRequest.fresh buf with
  | error e =>
    simp [hread, bind, Except.bind, Except.map] at hrun
  | ok p =>
    obtain ⟨code, req', buf'⟩ := p
    obtain ⟨rfl, hunread⟩ : code = GET_REQUEST ∧ buf'.unread = [65, 66] := by
      simpa [hread, bind, Except.bind, pure, Except.pure, Except.map] using hrun
    have hleft := hall postHead [65] [66] req buf hhead hlen (by simp [CR, LF]) hbuf.valid hbuf.unread_eq
      req' buf' hread
    rw [hunread] at hleft
    cases hleft

end KyrosWebServer.Http
