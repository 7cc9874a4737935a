import KyrosWebServer.RequestChunks

/-!
# The body of a request

The body state scans the body with `parseLine` and compares the scan position
with the declared length. Bodies without CR and LF are delivered as they were
sent; the scanner rejects or overwrites all others.
-/

namespace KyrosWebServer.Http

open CMemory Base FixedBuffer

/-- The state machine waits for a body of `n` bytes. -/
structure HttpRequest.AwaitsBody (req : HttpRequest) (n : ℕ) : Prop where
  /-- The body state. -/
  state : req.mCheckState = CHECK_STATE_BODY
  /-- The declared length. -/
  length : req.contentLength = n

/-- The request once its body has been taken from `text`. -/
def HttpRequest.withBody (req : HttpRequest) (text : List UInt8) (n : ℕ) : HttpRequest :=
  { req with body := text.take n, mCheckState := CHECK_STATE_SUCCESS }

/-- The body is complete when the scan position has reached its length. -/
theorem parseContent_eq {req : HttpRequest} {text : List UInt8} {n : ℕ}
    (hreq : req.AwaitsBody n) (hidx : req.mCheckIndex ≤ text.length) :
    req.parseContent text = .ok
      (if n ≤ req.mCheckIndex then (GET_REQUEST, req.withBody text n) else (NO_REQUEST, req)) := by
  have hlen := hreq.length
  unfold HttpRequest.parseContent
  by_cases hn : n ≤ req.mCheckIndex
  · have hassign : HttpRequest.assign text req.contentLength = .ok (text.take n) := by
      rw [HttpRequest.assign, hlen, if_neg (by omega), if_pos (by omega)]
      rfl
    rw [if_pos (by omega), if_pos hn, hassign]
    rfl
  · rw [if_neg (by omega), if_neg hn]
    rfl

/-- A call in the body state whose scan ended in state `ls` at `pos`. -/
theorem processRead_scannedBody {req : HttpRequest} {b b' : FixedBuffer}
    {consumed w text free : List UInt8} {n pos : ℕ} {ls : LINE_STATE} (hreq : req.AwaitsBody n)
    (h : b.Holds consumed w free) (hw : w ≠ []) (hls : ls ≠ LINE_BAD)
    (hline : parseLine (w ++ free) w.length req.mCheckIndex = .ok (ls, pos, text))
    (hstore : b.store b.mReadPtr text = .ok b') (hpos : pos ≤ text.length) :
    processRead req b = .ok
      (if n ≤ pos then (GET_REQUEST, (req.scanned ls pos).withBody text n, b')
       else (NO_REQUEST, req.scanned ls pos, b')) := by
  have hreq' : (req.scanned ls pos).AwaitsBody n := ⟨hreq.state, hreq.length⟩
  have hcontent := parseContent_eq hreq' hpos
  rw [← h.used_eq] at hline
  have hturn := processReadTurn_scan h.readPtr_eq hline hstore
  have hbody : ¬ (ls = LINE_OPEN ∧ req.mCheckState ≠ CHECK_STATE_BODY) :=
    fun h => h.2 hreq.state
  rw [if_neg hbody, if_neg hls] at hturn
  simp only [switchCheckState, hreq'.state, hcontent, bind, Except.bind, pure, Except.pure] at hturn
  have hread := processRead_turn (h.used_pos hw) hturn
  rw [hread]
  by_cases hn : n ≤ pos
  · have hn' : n ≤ (req.scanned ls pos).mCheckIndex := hn
    simp only [if_pos hn, if_pos hn']
  · have hn' : ¬ n ≤ (req.scanned ls pos).mCheckIndex := hn
    simp only [if_neg hn, if_neg hn']

/-- What a call in the body state does, by the first line of the unread bytes. -/
theorem processRead_body {req : HttpRequest} {b : FixedBuffer} {consumed w free : List UInt8}
    {n : ℕ} (hreq : req.AwaitsBody n) (h : b.Holds consumed w free) (hi : req.InLine w)
    (hw : w ≠ []) :
    match nextLine w with
    | .unfinished pos => ∃ b', b'.Holds consumed w free ∧ processRead req b = .ok
        (if n ≤ pos then (GET_REQUEST, (req.scanned LINE_OPEN pos).withBody (w ++ free) n, b')
         else (NO_REQUEST, req.scanned LINE_OPEN pos, b'))
    | .broken pos => ∃ b', b'.Holds consumed w free ∧
        processRead req b = .ok (BAD_REQUEST, req.scanned LINE_BAD pos, b')
    | .complete line rest => ∃ b', b'.Holds consumed (line ++ 0 :: 0 :: rest) free ∧
        processRead req b = .ok (if n ≤ line.length + 2 then (GET_REQUEST,
          (req.scanned LINE_OK (line.length + 2)).withBody (line ++ 0 :: 0 :: (rest ++ free)) n, b')
         else (NO_REQUEST, req.scanned LINE_OK (line.length + 2), b')) := by
  have hline := parseLine_nextLine free hi
  cases hnext : nextLine w with
  | unfinished pos =>
    rw [hnext] at hline
    obtain ⟨b', hstore, hb'⟩ := h.store_window w rfl
    have hpos : pos ≤ (w ++ free).length := by
      have hle := (List.takeWhile_sublist (l := w) plain).length_le
      rw [nextLine_unfinished hnext, List.length_append]
      omega
    exact ⟨b', hb', processRead_scannedBody hreq h hw LINE_STATE.noConfusion hline hstore hpos⟩
  | broken pos =>
    obtain ⟨b', hturn, hb'⟩ := processReadTurn_broken h hi hnext
    exact ⟨b', hb', processRead_turn (h.used_pos hw) hturn⟩
  | complete line rest =>
    rw [hnext] at hline
    obtain ⟨b', hstore, hb'⟩ := h.store_window (line ++ 0 :: 0 :: rest)
      (by simp [nextLine_complete hnext])
    have hshape : line ++ 0 :: 0 :: rest ++ free = line ++ 0 :: 0 :: (rest ++ free) := by simp
    rw [hshape] at hstore
    exact ⟨b', hb', processRead_scannedBody hreq h hw LINE_STATE.noConfusion hline hstore
      (by simp)⟩

/-- Call `processRead`, then receive the chunks as long as it wants more. -/
def resume (req : HttpRequest) (buf : FixedBuffer) (appended : ℕ) (chunks : List (List UInt8)) :
    Except Fault Received := do
  let (code, req, buf) ← processRead req buf
  if code = NO_REQUEST then feed req buf appended chunks
  else return ⟨code, req, buf, appended⟩

/-- An accepted chunk is followed by a call. -/
theorem feed_cons {req : HttpRequest} {b b' : FixedBuffer} {n : ℕ} {chunk : List UInt8}
    {m : ℕ} (h : b.append chunk = .ok (m, b')) (chunks : List (List UInt8)) :
    feed req b n (chunk :: chunks) = resume req b' (n + m) chunks := by
  simp only [feed, receive, resume, h, bind, Except.bind]
  cases processRead req b' with
  | error e => rfl
  | ok p => rfl

/-- While the scan has not reached the length of the body, the call wants
more and changes nothing but the scan position. -/
theorem resume_unfinished {req : HttpRequest} {b : FixedBuffer} {consumed w free : List UInt8}
    {k pos : ℕ} (hreq : req.AwaitsBody k) (h : b.Holds consumed w free) (hi : req.InLine w)
    (hnext : nextLine w = .unfinished pos) (hlt : pos < k) :
    ∃ req' b', (∀ n chunks, resume req b n chunks = feed req' b' n chunks) ∧
      req'.AwaitsBody k ∧ b'.Holds consumed w free ∧ req'.InLine w := by
  by_cases hw : w = []
  · have hread := processRead_unused req (show b.used = 0 by rw [h.used_eq, hw]; rfl)
    refine ⟨req, b, fun n chunks => ?_, hreq, h, hi⟩
    simp only [resume, hread, bind, Except.bind, if_true]
  · have hread := processRead_body hreq h hi hw
    rw [hnext] at hread
    obtain ⟨b', hb', hread⟩ := hread
    rw [if_neg (by omega)] at hread
    refine ⟨req.scanned LINE_OPEN pos, b', fun n chunks => ?_, ⟨hreq.state, hreq.length⟩, hb',
      Nat.le_of_eq (nextLine_unfinished hnext)⟩
    simp only [resume, hread, bind, Except.bind, if_true]

/-- The call made with the whole of a body without CR and LF delivers it. -/
theorem resume_whole {req : HttpRequest} {b : FixedBuffer} {consumed w free : List UInt8}
    (hreq : req.AwaitsBody w.length) (h : b.Holds consumed w free) (hi : req.InLine w)
    (hpos : w ≠ []) (hplain : ∀ x ∈ w, plain x = true) (n : ℕ) (chunks : List (List UInt8)) :
    ∃ r, resume req b n chunks = .ok r ∧ r.code = GET_REQUEST ∧ r.req.body = w ∧
      r.appended = n := by
  have hread := processRead_body hreq h hi hpos
  rw [nextLine_all hplain] at hread
  obtain ⟨b', -, hread⟩ := hread
  rw [if_pos (Nat.le_refl _)] at hread
  refine ⟨⟨GET_REQUEST, (req.scanned LINE_OPEN w.length).withBody (w ++ free) w.length, b', n⟩,
    ?_, rfl, List.take_left, rfl⟩
  simp [resume, hread, bind, Except.bind, pure, Except.pure]

/-- A body without CR and LF is complete with its last byte, and delivered
byte for byte. -/
theorem resume_plain {chunks : List (List UInt8)} {req : HttpRequest} {b : FixedBuffer}
    {consumed w free body : List UInt8} {n : ℕ} (hreq : req.AwaitsBody body.length)
    (h : b.Holds consumed w free) (hi : req.InLine w) (hbody : w ++ chunks.flatten = body)
    (hpos : body ≠ []) (hmax : body.length ≤ kBufferSize) (hplain : ∀ x ∈ body, plain x = true) :
    ∃ r, resume req b n chunks = .ok r ∧ r.code = GET_REQUEST ∧ r.req.body = body ∧
      r.appended = n + chunks.flatten.length := by
  induction chunks generalizing req b consumed w free n with
  | nil =>
    rw [List.flatten_nil, List.append_nil] at hbody
    subst hbody
    exact resume_whole hreq h hi hpos hplain n []
  | cons chunk chunks ih =>
    have hlen : w.length + (chunk.length + chunks.flatten.length) = body.length := by
      rw [← hbody]
      simp
    have hw : ∀ x ∈ w, plain x = true := fun x hx => hplain x (by rw [← hbody]; simp [hx])
    by_cases hlt : w.length < body.length
    · obtain ⟨req', b', hresume, hreq', hb', hi'⟩ :=
        resume_unfinished hreq h hi (nextLine_all hw) hlt
      obtain ⟨b₁, consumed₁, free₁, happend, hb₁⟩ := hb'.append_room (s := chunk) (by omega)
      rw [hresume, feed_cons happend]
      obtain ⟨r, hr, hcode, hbod, happ⟩ := ih (n := n + chunk.length) hreq' hb₁ (hi'.append chunk)
        (by simpa using hbody)
      exact ⟨r, hr, hcode, hbod, by rw [happ, List.flatten_cons, List.length_append]; omega⟩
    · -- only empty chunks follow the last byte of the body
      have hrest : (chunk :: chunks).flatten = [] := by
        apply List.eq_nil_of_length_eq_zero
        rw [List.flatten_cons, List.length_append]
        omega
      rw [hrest] at hbody ⊢
      rw [List.append_nil] at hbody
      subst hbody
      exact resume_whole hreq h hi hpos hplain n _

/-- Once the scanner has cut the body at `k`, the byte stays zero: in the
buffer while more is wanted, and in the body that is delivered. -/
theorem processRead_cut {req req' : HttpRequest} {b b' : FixedBuffer}
    {consumed w free : List UInt8} {n k : ℕ} {code : HTTP_CODE} (hreq : req.AwaitsBody n)
    (h : b.Holds consumed w free) (hidx : req.mCheckIndex ≤ w.length) (hk : k < n)
    (hzero : w[k]? = some 0) (hread : processRead req b = .ok (code, req', b')) :
    (code = GET_REQUEST → req'.body[k]? = some 0) ∧
    (code = NO_REQUEST → req'.AwaitsBody n ∧ ∃ w', b'.Holds consumed w' free ∧
      req'.mCheckIndex ≤ w'.length ∧ w'[k]? = some 0) := by
  have hw : w ≠ [] := by
    rintro rfl
    cases hzero
  cases hline : parseLine (w ++ free) w.length req.mCheckIndex with
  | error e =>
    have hturn : processReadTurn req b = .error e := by
      simp only [processReadTurn, h.readPtr_eq, h.used_eq, hline, bind, Except.bind]
    rw [processRead_turn (h.used_pos hw) hturn] at hread
    cases hread
  | ok scan =>
    obtain ⟨ls, pos, text⟩ := scan
    obtain ⟨w', rfl, hlen, hkeep⟩ := parseLine_zero hline
    obtain ⟨b₁, hstore, hb₁⟩ := h.store_window _ hlen
    have hpos := parseLine_le hline hidx
    by_cases hbad : ls = LINE_BAD
    · rw [← h.used_eq] at hline
      have hturn := processReadTurn_scan h.readPtr_eq hline hstore
      rw [if_neg (fun h => h.2 hreq.state), if_pos hbad] at hturn
      rw [processRead_turn (h.used_pos hw) hturn] at hread
      cases hread
      constructor <;> intro hcode <;> cases hcode
    · have hlen' : pos ≤ (w' ++ free).length := by
        rw [List.length_append]
        omega
      rw [processRead_scannedBody hreq h hw hbad hline hstore hlen'] at hread
      by_cases hn : n ≤ pos
      · rw [if_pos hn] at hread
        cases hread
        constructor
        · intro _
          have hkept := hkeep k hzero
          have hlt := (List.getElem?_eq_some_iff.mp hkept).1
          change ((w' ++ free).take n)[k]? = some 0
          rw [List.getElem?_take_of_lt hk, List.getElem?_append_left hlt, hkept]
        · intro hcode
          cases hcode
      · rw [if_neg hn] at hread
        cases hread
        constructor
        · intro hcode
          cases hcode
        · intro _
          exact ⟨⟨hreq.state, hreq.length⟩, w', hb₁, by rw [hlen]; exact hpos, hkeep k hzero⟩

/-- A body that has been cut is never delivered as it was sent. -/
theorem feed_cut {chunks : List (List UInt8)} {req : HttpRequest} {b : FixedBuffer}
    {consumed w free : List UInt8} {m n k : ℕ} {r : Received} (hreq : req.AwaitsBody n)
    (h : b.Holds consumed w free) (hidx : req.mCheckIndex ≤ w.length) (hk : k < n)
    (hzero : w[k]? = some 0) (hfeed : feed req b m chunks = .ok r) (hget : r.code = GET_REQUEST) :
    r.req.body[k]? = some 0 := by
  induction chunks generalizing req b consumed w free m with
  | nil =>
    cases hfeed
    cases hget
  | cons chunk chunks ih =>
    have happend : ∃ m' b₁ consumed₁ w₁ free₁, b.append chunk = .ok (m', b₁) ∧
        b₁.Holds consumed₁ w₁ free₁ ∧ w.length ≤ w₁.length ∧ w₁[k]? = some 0 := by
      by_cases hroom : chunk.length ≤ kBufferSize - w.length
      · obtain ⟨b₁, consumed₁, free₁, happend, hb₁⟩ := h.append_room hroom
        have hlt := (List.getElem?_eq_some_iff.mp hzero).1
        refine ⟨_, b₁, consumed₁, w ++ chunk, free₁, happend, hb₁, by simp, ?_⟩
        rw [List.getElem?_append_left hlt, hzero]
      · exact ⟨0, b, consumed, w, free, h.append_no_room hroom, h, Nat.le_refl _, hzero⟩
    obtain ⟨m', b₁, consumed₁, w₁, free₁, happend, hb₁, hle, hzero₁⟩ := happend
    rw [feed_cons happend] at hfeed
    obtain ⟨⟨code, req', b'⟩, hread, hfeed⟩ := bind_eq_ok hfeed
    obtain ⟨hcut, hmore⟩ := processRead_cut hreq hb₁ (Nat.le_trans hidx hle) hk hzero₁ hread
    dsimp only at hfeed
    by_cases hno : code = NO_REQUEST
    · rw [if_pos hno] at hfeed
      obtain ⟨hreq', w', hb', hidx', hzero'⟩ := hmore hno
      exact ih hreq' hb' hidx' hzero' hfeed
    · rw [if_neg hno] at hfeed
      cases hfeed
      exact hcut hget

/-- A line end among the bytes that have arrived is cut out of the body. -/
theorem resume_cut {chunks : List (List UInt8)} {req : HttpRequest} {b : FixedBuffer}
    {consumed w free line rest : List UInt8} {k n : ℕ} {r : Received} (hreq : req.AwaitsBody k)
    (h : b.Holds consumed w free) (hi : req.InLine w) (hnext : nextLine w = .complete line rest)
    (hk : line.length < k) (hresume : resume req b n chunks = .ok r) (hget : r.code = GET_REQUEST) :
    r.req.body[line.length]? = some 0 := by
  have hwne : w ≠ [] := by simp [nextLine_complete hnext]
  have hread := processRead_body hreq h hi hwne
  rw [hnext] at hread
  obtain ⟨b', hb', hread⟩ := hread
  obtain ⟨p, hp, hresume⟩ := bind_eq_ok hresume
  rw [hread] at hp
  by_cases hn : k ≤ line.length + 2
  · rw [if_pos hn] at hp
    cases hp
    cases hresume
    change ((line ++ 0 :: 0 :: (rest ++ free)).take k)[line.length]? = some 0
    rw [List.getElem?_take_of_lt hk]
    simp
  · rw [if_neg hn] at hp
    cases hp
    simp only [if_true] at hresume
    have hreq' : (req.scanned LINE_OK (line.length + 2)).AwaitsBody k :=
      ⟨hreq.state, hreq.length⟩
    have hidx : (req.scanned LINE_OK (line.length + 2)).mCheckIndex ≤
        (line ++ 0 :: 0 :: rest).length := by simp [HttpRequest.scanned]
    exact feed_cut hreq' hb' hidx hk (by simp) hresume hget

/-- The first call on a body with a CR or LF delivers another body, cuts it,
rejects it, or waits with all bytes untouched. -/
theorem resume_call {chunks : List (List UInt8)} {req : HttpRequest} {b : FixedBuffer}
    {consumed w free body : List UInt8} {n : ℕ} {r : Received}
    (hreq : req.AwaitsBody body.length) (h : b.Holds consumed w free) (hi : req.InLine w)
    (hbody : w ++ chunks.flatten = body) (hplain : ¬ ∀ x ∈ body, plain x = true)
    (hresume : resume req b n chunks = .ok r) (hget : r.code = GET_REQUEST) :
    r.req.body ≠ body ∨ ∃ req' b', feed req' b' n chunks = .ok r ∧
      req'.AwaitsBody body.length ∧ b'.Holds consumed w free ∧ req'.InLine w := by
  have hle : w.length ≤ body.length := by
    rw [← hbody, List.length_append]
    omega
  have hwait : ∀ pos, nextLine w = .unfinished pos → pos < body.length →
      ∃ req' b', feed req' b' n chunks = .ok r ∧
        req'.AwaitsBody body.length ∧ b'.Holds consumed w free ∧ req'.InLine w := by
    intro pos hnext hlt
    obtain ⟨req', b', hfeed, hreq', hb', hi'⟩ := resume_unfinished hreq h hi hnext hlt
    exact ⟨req', b', (hfeed n chunks).symm.trans hresume, hreq', hb', hi'⟩
  obtain ⟨line, hline, -, hw | hw | ⟨rest, hw⟩ | ⟨c, rest, -, hw⟩ | ⟨rest, hw⟩⟩ := nextLine_cases w
  · -- only a part of the body has arrived, since the whole of it is not plain
    refine .inr (hwait _ hw.2 ?_)
    have hne : w.length ≠ body.length := by
      intro hlen
      have hpre : w <+: body := by
        rw [← hbody]
        exact List.prefix_append w _
      exact hplain (by rw [← hpre.eq_of_length hlen, hw.1]; exact hline)
    rw [← hw.1]
    omega
  · refine .inr (hwait _ hw.2 ?_)
    rw [hw.1, List.length_append] at hle
    exact hle
  · left
    have hcr : body[line.length]? = some CR := by simp [← hbody, hw.1]
    have hk : line.length < body.length := (List.getElem?_eq_some_iff.mp hcr).1
    have hzero := resume_cut hreq h hi hw.2 hk hresume hget
    intro hsame
    rw [hsame, hcr] at hzero
    cases hzero
  all_goals
    have hwne : w ≠ [] := by simp [hw.1]
    have hread := processRead_body hreq h hi hwne
    rw [hw.2] at hread
    obtain ⟨b', -, hread⟩ := hread
    simp only [resume, hread, bind, Except.bind] at hresume
    cases hresume
    cases hget

/-- A body with a CR or LF is never delivered as it was sent. -/
theorem resume_broken {chunks : List (List UInt8)} {req : HttpRequest} {b : FixedBuffer}
    {consumed w free body : List UInt8} {n : ℕ} {r : Received}
    (hreq : req.AwaitsBody body.length) (h : b.Holds consumed w free) (hi : req.InLine w)
    (hbody : w ++ chunks.flatten = body) (hmax : body.length ≤ kBufferSize)
    (hplain : ¬ ∀ x ∈ body, plain x = true) (hresume : resume req b n chunks = .ok r)
    (hget : r.code = GET_REQUEST) : r.req.body ≠ body := by
  induction chunks generalizing req b consumed w free n with
  | nil =>
    rcases resume_call hreq h hi hbody hplain hresume hget with hne | ⟨req', b', hfeed, -⟩
    · exact hne
    · cases hfeed
      cases hget
  | cons chunk chunks ih =>
    rcases resume_call hreq h hi hbody hplain hresume hget with
      hne | ⟨req', b', hfeed, hreq', hb', hi'⟩
    · exact hne
    · have hlen : w.length + (chunk.length + chunks.flatten.length) = body.length := by
        rw [← hbody]
        simp
      obtain ⟨b₁, consumed₁, free₁, happend, hb₁⟩ := hb'.append_room (s := chunk) (by omega)
      rw [feed_cons happend] at hfeed
      exact ih hreq' hb₁ (hi'.append chunk) (by simpa using hbody) hfeed

end KyrosWebServer.Http
