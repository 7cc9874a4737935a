import KyrosWebServer.RequestWindow

/-!
# Rejection is final

A rejection leaves the scanner at a CR or LF that ends no line, or leaves one
word of the request line in front of a NUL. The scanner stops at the same byte
again, and a line of one word is rejected again, whatever bytes are appended.
-/

namespace KyrosWebServer.Http

open CMemory CString Base FixedBuffer

/-- At this position stands a CR or LF at which the scanner gives up. -/
def StuckAt (w : List UInt8) (i : ℕ) : Prop :=
  (w[i]? = some CR ∧ ∃ c, w[i + 1]? = some c ∧ c ≠ LF) ∨
    (w[i]? = some LF ∧ ¬ (1 < i ∧ w[i - 1]? = some CR))

/-- Parser and unread bytes that can be accepted no more. -/
def HttpRequest.Rejected (req : HttpRequest) (w : List UInt8) : Prop :=
  StuckAt w req.mCheckIndex ∨ req.mCheckState = CHECK_STATE_REQUEST ∧ OneWord w

theorem StuckAt.lt {w : List UInt8} {i : ℕ} (h : StuckAt w i) : i < w.length := by
  rcases h with ⟨h, -⟩ | ⟨h, -⟩
  · exact (List.getElem?_eq_some_iff.mp h).1
  · exact (List.getElem?_eq_some_iff.mp h).1

theorem getElem?_append_some {w : List UInt8} {i : ℕ} {c : UInt8} (h : w[i]? = some c)
    (more : List UInt8) : (w ++ more)[i]? = some c := by
  rw [List.getElem?_append_left (List.getElem?_eq_some_iff.mp h).1, h]

theorem StuckAt.append {w : List UInt8} {i : ℕ} (h : StuckAt w i) (more : List UInt8) :
    StuckAt (w ++ more) i := by
  have hlt := h.lt
  rcases h with ⟨hcr, c, hc, hne⟩ | ⟨hlf, hno⟩
  · exact .inl ⟨getElem?_append_some hcr more, c, getElem?_append_some hc more, hne⟩
  · refine .inr ⟨getElem?_append_some hlf more, ?_⟩
    rw [List.getElem?_append_left (by omega)]
    exact hno

theorem OneWord.append {w : List UInt8} (h : OneWord w) (more : List UInt8) :
    OneWord (w ++ more) := by
  obtain ⟨rest, hw⟩ := split_zero h.1
  refine ⟨List.mem_append_left _ h.1, ?_⟩
  have hcontent : content (w ++ more) = content w := by
    conv => lhs; rw [hw]
    rw [List.append_assoc, List.cons_append, content_append (zero_notMem_content w)]
  rw [hcontent]
  exact h.2

/-- A byte that becomes NUL leaves less of a string. -/
theorem content_set (w : List UInt8) (i : ℕ) : ∀ c ∈ content (w.set i 0), c ∈ content w := by
  induction w generalizing i with
  | nil => simp [content]
  | cons x w ih =>
    intro c hc
    cases i with
    | zero => simp [content] at hc
    | succ i =>
      rw [List.set_cons_succ, content] at hc
      by_cases hx : x = 0
      · simp [hx] at hc
      · rw [List.takeWhile_cons_of_pos (by simpa using hx)] at hc
        rw [content, List.takeWhile_cons_of_pos (by simpa using hx)]
        rcases List.mem_cons.mp hc with rfl | hc
        · exact List.mem_cons_self
        · exact List.mem_cons_of_mem x (ih i c hc)

theorem OneWord.scanned {w w' : List UInt8} {ls : LINE_STATE} {pos : ℕ} (h : OneWord w)
    (hscan : Scanned w ls pos w') : OneWord w' := by
  have hset : ∀ {w : List UInt8} (i : ℕ), OneWord w → OneWord (w.set i 0) := by
    intro w i h
    refine ⟨?_, fun c hc => h.2 c (content_set w i c hc)⟩
    by_cases hi : i < w.length
    · exact List.mem_set hi 0
    · rw [List.set_eq_of_length_le (by omega)]
      exact h.1
  cases hscan with
  | passed | lastCR | cr | lf => exact h
  | crlf | lfBehindCR => exact hset _ (hset _ h)

/-- The scanner stops where it is stuck. -/
theorem parseLine_stuck {w : List UInt8} {i : ℕ} (h : StuckAt w i) :
    parseLine w w.length i = .ok (LINE_BAD, i, w) := by
  have hbyte : ∀ {k : ℕ} {c : UInt8}, w[k]? = some c → byteAt w k = .ok c := fun h => by
    rw [byteAt, h]
  rw [parseLine, if_pos h.lt]
  rcases h with ⟨hcr, c, hc, hne⟩ | ⟨hlf, hno⟩
  · have hlt := (List.getElem?_eq_some_iff.mp hc).1
    simp only [hbyte hcr, hbyte hc, bind, Except.bind, if_true, if_neg hne, pure, Except.pure]
    rw [if_neg (by omega)]
  · have hlt := (List.getElem?_eq_some_iff.mp hlf).1
    have hapart : LF ≠ CR := by decide
    simp only [hbyte hlf, bind, Except.bind, if_neg hapart, if_true, pure, Except.pure]
    by_cases hpos : i > 1
    · obtain ⟨prev, hprev⟩ := byteAt_ok (show i - 1 < w.length by omega)
      have hne : prev ≠ CR := fun hcr => hno ⟨hpos, by rw [byteAt_eq_some hprev, hcr]⟩
      simp only [if_pos hpos, hprev, if_neg hne]
    · rw [if_neg hpos]

theorem Scanned.stuckAt {w w' : List UInt8} {pos : ℕ} (h : Scanned w LINE_BAD pos w') :
    StuckAt w pos := by
  cases h with
  | cr hcr hc hne => exact .inl ⟨hcr, _, hc, hne⟩
  | lf hlf hno => exact .inr ⟨hlf, hno⟩

/-- A rejected line of one word is rejected again, and nothing is changed. -/
theorem parseRequest_oneWord (req : HttpRequest) {w : List UInt8} (h : OneWord w) :
    req.parseRequest w = .ok (BAD_REQUEST, req, w) := by
  obtain ⟨more, hw⟩ := split_zero h.1
  rw [hw]
  exact req.parseRequest_noBlank (zero_notMem_content w) h.2 more

/-- In a rejected state a call changes nothing but the scan, and gives no request. -/
theorem windowRead_rejected {req : HttpRequest} {w : List UInt8} (h : req.Rejected w)
    (hi : req.mCheckIndex ≤ w.length) :
    ∃ code ls pos w', windowRead req w = .ok (code, req.scanned ls pos, w') ∧
      code ≠ GET_REQUEST ∧ (req.scanned ls pos).Rejected w' := by
  have hw : w ≠ [] := by
    rintro rfl
    rcases h with hstuck | ⟨-, hzero, -⟩
    · cases hstuck.lt
    · cases hzero
  rcases h with hstuck | ⟨hst, hword⟩
  · have hturn := windowTurn_scan (parseLine_stuck hstuck)
    rw [if_neg (fun h => LINE_STATE.noConfusion h.1), if_pos rfl] at hturn
    exact ⟨BAD_REQUEST, _, _, w, windowRead_turn hw hturn, nofun, .inl hstuck⟩
  · obtain ⟨ls, pos, w', hline, hscan⟩ := parseLine_scanned hi
    have hstate : (req.scanned ls pos).mCheckState = CHECK_STATE_REQUEST := hst
    have hword' := hword.scanned hscan
    have hbody : req.mCheckState ≠ CHECK_STATE_BODY := by
      rw [hst]
      exact nofun
    have hturn : ∃ code, code ≠ GET_REQUEST ∧
        windowTurn req w = .ok (.ret code (req.scanned ls pos) w') := by
      rw [windowTurn_scan hline]
      cases ls with
      | LINE_OPEN => exact ⟨NO_REQUEST, nofun, by rw [if_pos ⟨rfl, hbody⟩]⟩
      | LINE_BAD =>
        exact ⟨BAD_REQUEST, nofun, by rw [if_neg (fun h => LINE_STATE.noConfusion h.1), if_pos rfl]⟩
      | LINE_OK =>
        refine ⟨BAD_REQUEST, nofun, ?_⟩
        rw [if_neg (fun h => LINE_STATE.noConfusion h.1), if_neg LINE_STATE.noConfusion]
        simp only [windowSwitch, hstate, parseRequest_oneWord _ hword', bind, Except.bind, pure,
          Except.pure, if_true]
    obtain ⟨code, hcode, hturn⟩ := hturn
    exact ⟨code, ls, pos, w', windowRead_turn hw hturn, hcode, .inr ⟨hst, hword'⟩⟩

/-- What a rejecting switch leaves of the request line. -/
theorem windowSwitch_bad {req req' : HttpRequest} {w w' : List UInt8}
    (hzero : req.mCheckState ≠ CHECK_STATE_BODY → (0 : UInt8) ∈ w)
    (h : windowSwitch req w = .ok (.ret BAD_REQUEST req' w')) :
    req'.mCheckState = CHECK_STATE_REQUEST ∧ OneWord w' := by
  unfold windowSwitch at h
  cases hst : req.mCheckState with
  | CHECK_STATE_REQUEST =>
    obtain ⟨more, hw⟩ := split_zero (hzero (by rw [hst]; exact nofun))
    have h₀ := zero_notMem_content w
    simp only [hst] at h
    by_cases hgrammar : ∃ m u v, IsRequestLine (content w) m u v
    · obtain ⟨m, u, v, hgrammar⟩ := hgrammar
      obtain ⟨text, hparse⟩ := req.parseRequest_accepts h₀ hgrammar more
      rw [← hw] at hparse
      simp only [hparse, bind, Except.bind, pure, Except.pure, reduceCtorEq, if_false] at h
      cases h
    · obtain ⟨m, u, text, hparse, hword, -⟩ := req.parseRequest_rejects h₀ hgrammar more
      rw [← hw] at hparse
      simp only [hparse, bind, Except.bind, pure, Except.pure, if_true] at h
      cases h
      exact ⟨hst, hword⟩
  | CHECK_STATE_HEADER =>
    simp only [hst] at h
    obtain ⟨⟨ret, req₁⟩, hparse, h⟩ := bind_eq_ok h
    dsimp only at h
    rcases HttpRequest.parseHeader_cases hparse with ⟨rfl, -⟩ | ⟨rfl, -⟩ | ⟨rfl, -⟩ <;> cases h
  | CHECK_STATE_BODY =>
    simp only [hst] at h
    obtain ⟨⟨ret, req₁⟩, hcontent, h⟩ := bind_eq_ok h
    cases h
    rcases HttpRequest.parseContent_cases hcontent with ⟨hget, -⟩ | ⟨hnone, -⟩
    · cases hget
    · cases hnone
  | CHECK_STATE_SUCCESS =>
    simp only [hst] at h
    cases h

theorem windowTurn_bad {req req' : HttpRequest} {w w' : List UInt8} (hi : req.mCheckIndex ≤ w.length)
    (h : windowTurn req w = .ok (.ret BAD_REQUEST req' w')) : req'.Rejected w' := by
  obtain ⟨ls, pos, w₁, hscan, hturn | ⟨rfl, hturn⟩ | ⟨hzero, hturn⟩⟩ := windowTurn_cases hi
  · rw [hturn] at h
    cases h
  · rw [hturn] at h
    cases h
    rw [hscan.eq_of_ne nofun]
    exact .inl hscan.stuckAt
  · have hcut : (req.scanned ls pos).mCheckState ≠ CHECK_STATE_BODY → (0 : UInt8) ∈ w₁ := hzero
    rw [hturn] at h
    exact .inr (windowSwitch_bad hcut h)

/-- A call that rejects leaves a rejected state. -/
theorem processRead_bad {req req' : HttpRequest} {b b' : FixedBuffer} {consumed w free : List UInt8}
    (hb : b.Holds consumed w free) (hi : req.mCheckIndex ≤ w.length)
    (h : processRead req b = .ok (BAD_REQUEST, req', b')) :
    ∃ consumed' w', b'.Holds consumed' w' free ∧ req'.mCheckIndex ≤ w'.length ∧ req'.Rejected w' := by
  have hret : ∀ (req : HttpRequest) (w : List UInt8) (code : HTTP_CODE) (req' : HttpRequest)
      (w' : List UInt8), True → req.mCheckIndex ≤ w.length →
      windowTurn req w = .ok (.ret code req' w') → code = BAD_REQUEST → req'.Rejected w' := by
    intro req w code req' w' _ hi hturn hcode
    rw [hcode] at hturn
    exact windowTurn_bad hi hturn
  obtain ⟨consumed', w', hb', hi', hrejected⟩ := processRead_window_rule (P := fun _ _ => True)
    (Q := fun code req w => code = BAD_REQUEST → req.Rejected w) (fun _ _ _ _ _ _ _ => trivial)
    hret (fun _ _ hcode => by cases hcode) hb hi trivial h
  exact ⟨consumed', w', hb', hi', hrejected rfl⟩

/-- States that appends and calls lead to, without `Init`. -/
inductive Fed (req : HttpRequest) (b : FixedBuffer) : HttpRequest → FixedBuffer → Prop
  | start : Fed req b req b
  | append {req' : HttpRequest} {b' b'' : FixedBuffer} {s : List UInt8} {n : ℕ} :
      Fed req b req' b' → b'.append s = .ok (n, b'') → Fed req b req' b''
  | read {req' req'' : HttpRequest} {b' b'' : FixedBuffer} {code : HTTP_CODE} :
      Fed req b req' b' → processRead req' b' = .ok (code, req'', b'') → Fed req b req'' b''

theorem Fed.reachable {req req' : HttpRequest} {b b' : FixedBuffer} (h : Fed req b req' b')
    (hstart : Reachable req b) : Reachable req' b' := by
  induction h with
  | start => exact hstart
  | append _ happend ih => exact .append ih happend
  | read _ hread ih => exact .read ih hread

theorem HttpRequest.Rejected.append {req : HttpRequest} {w : List UInt8} (h : req.Rejected w)
    (more : List UInt8) : req.Rejected (w ++ more) := by
  rcases h with hstuck | ⟨hst, hword⟩
  · exact .inl (hstuck.append more)
  · exact .inr ⟨hst, hword.append more⟩

/-- One call on a buffer in a rejected state. -/
theorem processRead_rejected {req : HttpRequest} {b : FixedBuffer} {consumed w free : List UInt8}
    (hb : b.Holds consumed w free) (hi : req.mCheckIndex ≤ w.length) (h : req.Rejected w) :
    ∃ code ls pos b' consumed' w', processRead req b = .ok (code, req.scanned ls pos, b') ∧
      code ≠ GET_REQUEST ∧ b'.Holds consumed' w' free ∧ pos ≤ w'.length ∧
      (req.scanned ls pos).Rejected w' := by
  obtain ⟨code, ls, pos, w', hread, hcode, hrej⟩ := windowRead_rejected h hi
  have hwin := processRead_window hb hi
  rw [hread] at hwin
  generalize hread' : processRead req b = out at hwin
  cases hwin with
  | ok hb' hi' => exact ⟨code, ls, pos, _, _, w', rfl, hcode, hb', hi', hrej⟩

/-- From a rejected state, appends and calls change nothing but the scan. -/
theorem Fed.rejected {req req' : HttpRequest} {b b' : FixedBuffer} {consumed w free : List UInt8}
    (h : Fed req b req' b') (hb : b.Holds consumed w free) (hi : req.mCheckIndex ≤ w.length)
    (hrej : req.Rejected w) :
    ∃ ls pos consumed' w' free', req' = req.scanned ls pos ∧ b'.Holds consumed' w' free' ∧
      pos ≤ w'.length ∧ (req.scanned ls pos).Rejected w' := by
  induction h with
  | start => exact ⟨req.mLineState, req.mCheckIndex, consumed, w, free, rfl, hb, hi, hrej⟩
  | append _ happend ih =>
    obtain ⟨ls, pos, consumed', w', free', hreq, hb', hi', hrej'⟩ := ih
    obtain ⟨consumed'', w'', free'', hb'', ⟨-, rfl⟩ | ⟨-, rfl⟩⟩ := append_window hb' happend
    · exact ⟨ls, pos, _, _, _, hreq, hb'', by rw [List.length_append]; omega, hrej'.append _⟩
    · exact ⟨ls, pos, _, _, _, hreq, hb'', hi', hrej'⟩
  | read _ hread ih =>
    obtain ⟨ls, pos, consumed', w', free', rfl, hb', hi', hrej'⟩ := ih
    obtain ⟨code, ls', pos', b'', consumed'', w'', hread', -, hb'', hi'', hrej''⟩ :=
      processRead_rejected hb' hi' hrej'
    rw [hread] at hread'
    cases hread'
    exact ⟨ls', pos', consumed'', w'', free', rfl, hb'', hi'', hrej''⟩

/-- After a rejection, whatever is appended and however often `processRead` is
called, no call returns `GET_REQUEST`, and neither the check state nor a parsed
field changes. -/
theorem rejection_final {raw : List UInt8} (hraw : raw.length = kBufferSize)
    {req req₁ req₂ : HttpRequest} {b b₁ b₂ : FixedBuffer}
    (hreach : Fed HttpRequest.fresh (create raw hraw) req b)
    (hreject : processRead req b = .ok (BAD_REQUEST, req₁, b₁)) (hlater : Fed req₁ b₁ req₂ b₂) :
    (∃ code req₃ b₃, processRead req₂ b₂ = .ok (code, req₃, b₃) ∧ code ≠ GET_REQUEST) ∧
    req₂.mCheckState = req₁.mCheckState ∧ req₂.url = req₁.url ∧ req₂.version = req₁.version ∧
    req₂.host = req₁.host ∧ req₂.method = req₁.method ∧ req₂.body = req₁.body ∧
    req₂.isAlive = req₁.isAlive ∧ req₂.contentLength = req₁.contentLength := by
  obtain ⟨consumed, w, free, hb, hi⟩ := (hreach.reachable (.new hraw)).inWindow
  obtain ⟨consumed₁, w₁, hb₁, hi₁, hrej⟩ := processRead_bad hb hi hreject
  obtain ⟨ls, pos, consumed₂, w₂, free₂, rfl, hb₂, hi₂, hrej₂⟩ := hlater.rejected hb₁ hi₁ hrej
  obtain ⟨code, ls', pos', b₃, -, -, hread, hcode, -⟩ := processRead_rejected hb₂ hi₂ hrej₂
  exact ⟨⟨code, _, b₃, hread, hcode⟩, rfl, rfl, rfl, rfl, rfl, rfl, rfl, rfl⟩

/-- An LF alone is rejected; what comes behind it would be a request. -/
theorem rejection_final_sample :
    ∃ b req₁ b₁ req₂ b₂, processRead HttpRequest.fresh b = .ok (BAD_REQUEST, req₁, b₁) ∧
      receive req₁ b₁ minimalGet = .ok ⟨BAD_REQUEST, req₂, b₂, minimalGet.length⟩ ∧
      (∃ code req₃ b₃, processRead req₂ b₂ = .ok (code, req₃, b₃) ∧ code ≠ GET_REQUEST) ∧
      req₂.url = req₁.url := by
  have hrun : (do
      let first ← receive HttpRequest.fresh blank [LF]
      let second ← receive first.req first.buf minimalGet
      return (first.code, second.code, second.appended)) =
      Except.ok (ε := Fault) (BAD_REQUEST, BAD_REQUEST, minimalGet.length) := by
    decide +kernel
  obtain ⟨first, hfirst, hrun⟩ := bind_eq_ok hrun
  obtain ⟨second, hsecond, hrun⟩ := bind_eq_ok hrun
  obtain ⟨⟨n, b⟩, happend, hfirst⟩ := bind_eq_ok hfirst
  obtain ⟨⟨code, req₁, b₁⟩, hread, hfirst⟩ := bind_eq_ok hfirst
  cases hfirst
  have hlater := hsecond
  obtain ⟨⟨m, b'⟩, happend', hsecond⟩ := bind_eq_ok hsecond
  obtain ⟨⟨code', req₂, b₂⟩, hread', hsecond⟩ := bind_eq_ok hsecond
  cases hsecond
  simp only [pure, Except.pure, Except.ok.injEq, Prod.mk.injEq] at hrun
  obtain ⟨rfl, rfl, rfl⟩ := hrun
  have hfinal := rejection_final length_zeros (.append .start happend) hread
    (.read (.append .start happend') hread')
  exact ⟨b, req₁, b₁, req₂, b₂, hread, hlater, hfinal.1, hfinal.2.2.1⟩

end KyrosWebServer.Http
