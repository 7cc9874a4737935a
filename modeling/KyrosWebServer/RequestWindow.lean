import KyrosWebServer.RequestHeaders

/-!
# The parser on the unread bytes

The same loop as `processRead`, stated on the unread bytes and nothing else:
an access behind the last of them is a fault. There is none, so `processRead`
computes this loop on every buffer that holds these bytes, whatever the other
bytes of the storage are and wherever in it the unread bytes start.
-/

namespace KyrosWebServer.Http

open CMemory CString Base FixedBuffer

/-- What one turn of the loop leads to, on the unread bytes. -/
inductive WindowTurn
  /-- The call returns. -/
  | ret (code : HTTP_CODE) (req : HttpRequest) (w : List UInt8)
  /-- The next evaluation of the loop condition. -/
  | again (req : HttpRequest) (w : List UInt8)
  deriving DecidableEq

/-- The `switch` on the check state. Consuming a line drops it. -/
def windowSwitch (req : HttpRequest) (w : List UInt8) : Except Fault WindowTurn :=
  match req.mCheckState with
  | CHECK_STATE_REQUEST => do
    let (ret, req, w) ← req.parseRequest w
    if ret = BAD_REQUEST then return .ret BAD_REQUEST req w
    else return .again { req with mCheckIndex := 0 } (w.drop req.mCheckIndex)
  | CHECK_STATE_HEADER => do
    let (ret, req) ← req.parseHeader w
    if ret = BAD_REQUEST then return .ret ret req w
    else if ret = GET_REQUEST then
      return .ret GET_REQUEST { req with mCheckIndex := 0 } (w.drop req.mCheckIndex)
    else return .again { req with mCheckIndex := 0 } (w.drop req.mCheckIndex)
  | CHECK_STATE_BODY => do
    let (ret, req) ← req.parseContent w
    return .ret ret req w
  | CHECK_STATE_SUCCESS => return .again req w

/-- The loop body. -/
def windowTurn (req : HttpRequest) (w : List UInt8) : Except Fault WindowTurn := do
  let (ls, pos, w) ← parseLine w w.length req.mCheckIndex
  if ls = LINE_OPEN ∧ req.mCheckState ≠ CHECK_STATE_BODY then
    return .ret NO_REQUEST (req.scanned ls pos) w
  else if ls = LINE_BAD then return .ret BAD_REQUEST (req.scanned ls pos) w
  else windowSwitch (req.scanned ls pos) w

/-- A turn after its scan. -/
theorem windowTurn_scan {req : HttpRequest} {w w' : List UInt8} {ls : LINE_STATE} {pos : ℕ}
    (hline : parseLine w w.length req.mCheckIndex = .ok (ls, pos, w')) :
    windowTurn req w =
      if ls = LINE_OPEN ∧ req.mCheckState ≠ CHECK_STATE_BODY then
        .ok (.ret NO_REQUEST (req.scanned ls pos) w')
      else if ls = LINE_BAD then .ok (.ret BAD_REQUEST (req.scanned ls pos) w')
      else windowSwitch (req.scanned ls pos) w' := by
  simp only [windowTurn, hline, bind, Except.bind, pure, Except.pure]

theorem byteAt_left {w : List UInt8} (free : List UInt8) {i : ℕ} (h : i < w.length) :
    byteAt (w ++ free) i = byteAt w i := by
  simp only [byteAt, List.getElem?_append_left h]

theorem byteAt_ok {w : List UInt8} {i : ℕ} (h : i < w.length) : ∃ c, byteAt w i = .ok c :=
  ⟨(w)[i], by simp [byteAt, h]⟩

/-- The scanner reads and writes within the bytes it is given. -/
theorem parseLine_window (w free : List UInt8) (i : ℕ) :
    parseLine (w ++ free) w.length i =
      (parseLine w w.length i).map fun p => (p.1, p.2.1, p.2.2 ++ free) := by
  induction hn : w.length - i generalizing i with
  | zero =>
    have hi : ¬ i < w.length := by omega
    rw [parseLine, if_neg hi, parseLine, if_neg hi]
    rfl
  | succ n ih =>
    have hi : i < w.length := by omega
    obtain ⟨ch, hch⟩ := byteAt_ok hi
    rw [parseLine, if_pos hi, parseLine.eq_def w, if_pos hi, byteAt_left free hi, hch]
    simp only [bind, Except.bind]
    by_cases hcr : ch = CR
    · rw [if_pos hcr, if_pos hcr]
      by_cases hlast : i + 1 = w.length
      · rw [if_pos hlast, if_pos hlast]
        rfl
      · rw [if_neg hlast, if_neg hlast, byteAt_left free (by omega)]
        obtain ⟨next, hnext⟩ := byteAt_ok (show i + 1 < w.length by omega)
        rw [hnext]
        dsimp only
        by_cases hlf : next = LF
        · rw [if_pos hlf, if_pos hlf, List.set_append_left _ _ hi,
            List.set_append_left _ _ (by rw [List.length_set]; omega)]
          rfl
        · rw [if_neg hlf, if_neg hlf]
          rfl
    · rw [if_neg hcr, if_neg hcr]
      by_cases hlf : ch = LF
      · rw [if_pos hlf, if_pos hlf]
        by_cases hpos : i > 1
        · rw [if_pos hpos, if_pos hpos, byteAt_left free (by omega)]
          obtain ⟨prev, hprev⟩ := byteAt_ok (show i - 1 < w.length by omega)
          rw [hprev]
          dsimp only
          by_cases hcr' : prev = CR
          · rw [if_pos hcr', if_pos hcr', List.set_append_left _ _ hi,
              List.set_append_left _ _ (by rw [List.length_set]; omega)]
            rfl
          · rw [if_neg hcr', if_neg hcr']
            rfl
        · rw [if_neg hpos, if_neg hpos]
          rfl
      · rw [if_neg hlf, if_neg hlf]
        exact ih (i + 1) (by omega)

/-- What a scan from `i` to `pos` finds: the end of the bytes, or the first CR
or LF. A line end is cut by NULs. -/
inductive Scanned (w : List UInt8) : LINE_STATE → ℕ → List UInt8 → Prop
  | passed : Scanned w LINE_OPEN w.length w
  | lastCR {pos : ℕ} : w[pos]? = some CR → pos + 1 = w.length → Scanned w LINE_OPEN pos w
  | crlf {pos : ℕ} : w[pos]? = some CR → w[pos + 1]? = some LF →
      Scanned w LINE_OK (pos + 2) ((w.set pos 0).set (pos + 1) 0)
  | cr {pos : ℕ} {c : UInt8} : w[pos]? = some CR → w[pos + 1]? = some c → c ≠ LF →
      Scanned w LINE_BAD pos w
  | lfBehindCR {pos : ℕ} : w[pos]? = some LF → 1 < pos → w[pos - 1]? = some CR →
      Scanned w LINE_OK (pos + 1) ((w.set pos 0).set (pos - 1) 0)
  | lf {pos : ℕ} : w[pos]? = some LF → ¬ (1 < pos ∧ w[pos - 1]? = some CR) →
      Scanned w LINE_BAD pos w

theorem byteAt_eq_some {w : List UInt8} {i : ℕ} {c : UInt8} (h : byteAt w i = .ok c) :
    w[i]? = some c := by
  unfold byteAt at h
  cases hc : w[i]? with
  | none =>
    rw [hc] at h
    cases h
  | some d =>
    rw [hc] at h
    cases h
    rfl

/-- The scanner always comes to an end, and has passed over plain bytes only. -/
theorem parseLine_scanned {w : List UInt8} {i : ℕ} (hi : i ≤ w.length) :
    ∃ ls pos w', parseLine w w.length i = .ok (ls, pos, w') ∧ Scanned w ls pos w' := by
  induction hn : w.length - i generalizing i with
  | zero =>
    have heq : i = w.length := by omega
    rw [parseLine, if_neg (by omega), heq]
    exact ⟨_, _, _, rfl, .passed⟩
  | succ n ih =>
    have hlt : i < w.length := by omega
    obtain ⟨ch, hch⟩ := byteAt_ok hlt
    rw [parseLine, if_pos hlt, hch]
    have hat := byteAt_eq_some hch
    simp only [bind, Except.bind, pure, Except.pure]
    by_cases hcr : ch = CR
    · rw [if_pos hcr]
      rw [hcr] at hat
      by_cases hlast : i + 1 = w.length
      · rw [if_pos hlast]
        exact ⟨_, _, _, rfl, .lastCR hat hlast⟩
      · obtain ⟨next, hnext⟩ := byteAt_ok (show i + 1 < w.length by omega)
        rw [if_neg hlast, hnext]
        have hafter := byteAt_eq_some hnext
        by_cases hlf : next = LF
        · simp only [if_pos hlf]
          exact ⟨_, _, _, rfl, .crlf hat (by rw [← hlf]; exact hafter)⟩
        · simp only [if_neg hlf]
          exact ⟨_, _, _, rfl, .cr hat hafter hlf⟩
    · rw [if_neg hcr]
      by_cases hlf : ch = LF
      · rw [if_pos hlf]
        rw [hlf] at hat
        by_cases hpos : i > 1
        · obtain ⟨prev, hprev⟩ := byteAt_ok (show i - 1 < w.length by omega)
          rw [if_pos hpos, hprev]
          have hbefore := byteAt_eq_some hprev
          by_cases hcr' : prev = CR
          · simp only [if_pos hcr']
            exact ⟨_, _, _, rfl, .lfBehindCR hat hpos (by rw [← hcr']; exact hbefore)⟩
          · simp only [if_neg hcr']
            refine ⟨_, _, _, rfl, .lf hat fun h => hcr' ?_⟩
            rw [hbefore] at h
            exact Option.some.inj h.2
        · rw [if_neg hpos]
          exact ⟨_, _, _, rfl, .lf hat fun h => hpos h.1⟩
      · rw [if_neg hlf]
        exact ih hlt (by omega)

namespace Scanned

variable {w w' : List UInt8} {ls : LINE_STATE} {pos : ℕ}

theorem length_eq (h : Scanned w ls pos w') : w'.length = w.length := by
  cases h <;> simp

theorem pos_le (h : Scanned w ls pos w') : pos ≤ w.length := by
  cases h with
  | passed => exact Nat.le_refl _
  | lastCR hcr hlast => omega
  | crlf hcr hlf =>
    have hlt := (List.getElem?_eq_some_iff.mp hlf).1
    omega
  | cr hcr hc hne =>
    have hlt := (List.getElem?_eq_some_iff.mp hcr).1
    omega
  | lfBehindCR hlf hpos hcr =>
    have hlt := (List.getElem?_eq_some_iff.mp hlf).1
    omega
  | lf hlf hno =>
    have hlt := (List.getElem?_eq_some_iff.mp hlf).1
    omega

/-- Only a complete line is cut. -/
theorem eq_of_ne (h : Scanned w ls pos w') (hls : ls ≠ LINE_OK) : w' = w := by
  cases h with
  | passed | lastCR | cr | lf => rfl
  | crlf | lfBehindCR => exact absurd rfl hls

/-- A complete line is a C string. -/
theorem zero_mem (h : Scanned w LINE_OK pos w') : (0 : UInt8) ∈ w' := by
  cases h with
  | crlf hcr hlf =>
    have hlt := (List.getElem?_eq_some_iff.mp hlf).1
    exact List.mem_set (by rw [List.length_set]; exact hlt) 0
  | lfBehindCR hlf hpos hcr =>
    have hlt := (List.getElem?_eq_some_iff.mp hcr).1
    exact List.mem_set (by rw [List.length_set]; exact hlt) 0

end Scanned

/-- A turn ends the call behind its scan, or switches on a line that has been
cut, or on the body. -/
theorem windowTurn_cases {req : HttpRequest} {w : List UInt8} (hi : req.mCheckIndex ≤ w.length) :
    ∃ ls pos w', Scanned w ls pos w' ∧
      (windowTurn req w = .ok (.ret NO_REQUEST (req.scanned ls pos) w') ∨
      ls = LINE_BAD ∧ windowTurn req w = .ok (.ret BAD_REQUEST (req.scanned ls pos) w') ∨
      (req.mCheckState ≠ CHECK_STATE_BODY → (0 : UInt8) ∈ w') ∧
        windowTurn req w = windowSwitch (req.scanned ls pos) w') := by
  obtain ⟨ls, pos, w', hline, hscan⟩ := parseLine_scanned hi
  refine ⟨ls, pos, w', hscan, ?_⟩
  rw [windowTurn_scan hline]
  by_cases hopen : ls = LINE_OPEN ∧ req.mCheckState ≠ CHECK_STATE_BODY
  · rw [if_pos hopen]
    exact .inl rfl
  rw [if_neg hopen]
  by_cases hbad : ls = LINE_BAD
  · rw [if_pos hbad]
    exact .inr (.inl ⟨hbad, rfl⟩)
  rw [if_neg hbad]
  refine .inr (.inr ⟨fun hbody => ?_, rfl⟩)
  rw [lineOk_of_passed hopen hbad hbody] at hscan
  exact hscan.zero_mem

/-- Bytes with a NUL among them, split at the first one. -/
theorem split_zero {w : List UInt8} (h : (0 : UInt8) ∈ w) :
    ∃ more, w = content w ++ 0 :: more := by
  obtain ⟨front, more, rfl, hfront⟩ := List.eq_append_cons_of_mem h
  exact ⟨more, by rw [content_append hfront]⟩

namespace HttpRequest

/-- Within a C string the request line parser reads and writes no byte behind it. -/
theorem parseRequest_window (req : HttpRequest) {w : List UInt8} (h : (0 : UInt8) ∈ w) :
    ∃ ret req' w', req.parseRequest w = .ok (ret, req', w') ∧ w'.length = w.length ∧
      ∀ free, req.parseRequest (w ++ free) = .ok (ret, req', w' ++ free) := by
  obtain ⟨more, hw⟩ := split_zero h
  have h₀ := zero_notMem_content w
  have hok : ∃ ret req' text, req.parseRequest (content w ++ [0]) = .ok (ret, req', text) := by
    by_cases hgrammar : ∃ m u v, IsRequestLine (content w) m u v
    · obtain ⟨m, u, v, hgrammar⟩ := hgrammar
      obtain ⟨text, hparse⟩ := parseRequest_accepts req h₀ hgrammar []
      exact ⟨_, _, text, hparse⟩
    · obtain ⟨m, u, text, hparse, -⟩ := parseRequest_rejects req h₀ hgrammar []
      exact ⟨_, _, text, hparse⟩
  obtain ⟨ret, req', text, hparse⟩ := hok
  have hall : ∀ free, req.parseRequest (w ++ free) = .ok (ret, req', text ++ more ++ free) := by
    intro free
    have hsplit : w ++ free = content w ++ 0 :: (more ++ free) := by
      conv => lhs; rw [hw]
      simp
    rw [hsplit, parseRequest_append, hparse, List.append_assoc]
    rfl
  have hself := hall []
  rw [List.append_nil, List.append_nil] at hself
  exact ⟨ret, req', text ++ more, hself, parseRequest_length hself, hall⟩

theorem parseHeader_window (req : HttpRequest) {w : List UInt8} (h : (0 : UInt8) ∈ w) :
    ∃ ret req', req.parseHeader w = .ok (ret, req') ∧
      ∀ free, req.parseHeader (w ++ free) = .ok (ret, req') := by
  obtain ⟨more, hw⟩ := split_zero h
  have hcstr : ∀ free, cstr (w ++ free) = .ok (content w) := by
    intro free
    have hsplit : w ++ free = content w ++ 0 :: (more ++ free) := by
      conv => lhs; rw [hw]
      simp
    rw [hsplit]
    exact cstr_content (zero_notMem_content w) _
  have hsame : ∀ free, req.parseHeader (w ++ free) = req.parseHeader (content w ++ [0]) := by
    intro free
    rw [parseHeader, parseHeader, hcstr, cstr_content (zero_notMem_content w)]
  have hok : ∃ ret req', req.parseHeader (content w ++ [0]) = .ok (ret, req') := by
    by_cases hempty : content w = []
    · rw [hempty, List.nil_append, parseHeader_empty]
      exact ⟨_, _, rfl⟩
    · exact ⟨_, _, parseHeader_line req hempty (zero_notMem_content w)⟩
  obtain ⟨ret, req', hparse⟩ := hok
  have hself := hsame []
  rw [List.append_nil] at hself
  exact ⟨ret, req', hself.trans hparse, fun free => (hsame free).trans hparse⟩

/-- The body is taken from the bytes that the scan has passed. -/
theorem parseContent_window {req : HttpRequest} {w : List UInt8} (hi : req.mCheckIndex ≤ w.length)
    (free : List UInt8) : req.parseContent (w ++ free) = req.parseContent w ∧
      (req.parseContent w = .error .lengthError ∨
        ∃ ret body st, req.parseContent w =
          .ok (ret, { req with body := body, mCheckState := st })) := by
  unfold parseContent assign
  by_cases hreached : (req.mCheckIndex : ℤ) ≥ req.contentLength
  · rw [if_pos hreached, if_pos hreached]
    by_cases hneg : req.contentLength < 0
    · simp only [if_pos hneg]
      exact ⟨trivial, .inl rfl⟩
    · have hle : req.contentLength.toNat ≤ w.length := by omega
      have hle' : req.contentLength.toNat ≤ (w ++ free).length := by
        rw [List.length_append]
        omega
      rw [if_neg hneg, if_neg hneg, if_pos hle, if_pos hle', List.take_append_of_le_length hle]
      exact ⟨rfl, .inr ⟨_, _, _, rfl⟩⟩
  · rw [if_neg hreached, if_neg hreached]
    exact ⟨rfl, .inr ⟨_, _, _, rfl⟩⟩

/-- The parsers leave the scan position alone. -/
theorem parseRequest_index {req req' : HttpRequest} {text text' : List UInt8} {ret : HTTP_CODE}
    (h : req.parseRequest text = .ok (ret, req', text')) : req'.mCheckIndex = req.mCheckIndex := by
  rcases parseRequest_cases h with ⟨-, m, u, rfl⟩ | ⟨-, m, u, v, rfl⟩ <;> rfl

theorem parseHeader_index {req req' : HttpRequest} {text : List UInt8} {ret : HTTP_CODE}
    (h : req.parseHeader text = .ok (ret, req')) : req'.mCheckIndex = req.mCheckIndex := by
  rcases parseHeader_cases h with ⟨-, -, rfl⟩ | ⟨-, -, rfl⟩ | ⟨-, alive, len, host, rfl⟩ <;> rfl

theorem parseContent_index {req req' : HttpRequest} {text : List UInt8} {ret : HTTP_CODE}
    (h : req.parseContent text = .ok (ret, req')) : req'.mCheckIndex = req.mCheckIndex := by
  rcases parseContent_cases h with ⟨-, body, rfl⟩ | ⟨-, rfl⟩ <;> rfl

end HttpRequest

/-- A turn on a buffer and a turn on its unread bytes. -/
inductive TurnHolds (free : List UInt8) : Except Fault Turn → Except Fault WindowTurn → Prop
  | error : TurnHolds free (.error .lengthError) (.error .lengthError)
  | ret {code : HTTP_CODE} {req : HttpRequest} {b : FixedBuffer} {consumed w : List UInt8} :
      b.Holds consumed w free → req.mCheckIndex ≤ w.length →
      TurnHolds free (.ok (.ret code req b)) (.ok (.ret code req w))
  | again {req : HttpRequest} {b : FixedBuffer} {consumed w : List UInt8} :
      b.Holds consumed w free → req.mCheckIndex ≤ w.length →
      TurnHolds free (.ok (.again req b)) (.ok (.again req w))

/-- Moving the read pointer drops the bytes it moves over. -/
theorem holds_drop {b : FixedBuffer} {consumed w free : List UInt8} (h : b.Holds consumed w free)
    {n : ℕ} (hn : n ≤ w.length) :
    (b.readPtrMove n).2.Holds (consumed ++ w.take n) (w.drop n) free := by
  have hsplit : w.take n ++ w.drop n = w := List.take_append_drop n w
  have hlen : (w.take n).length = n := List.length_take_of_le hn
  have hmove := (Holds.readPtrMove_eq (x := w.take n) (w := w.drop n) (by rw [hsplit]; exact h)).2
  rw [hlen] at hmove
  exact hmove

/-- The switch does on a buffer what it does on the unread bytes. -/
theorem switchCheckState_window {req : HttpRequest} {b : FixedBuffer} {consumed w free : List UInt8}
    (hb : b.Holds consumed w free) (hi : req.mCheckIndex ≤ w.length)
    (hzero : req.mCheckState ≠ CHECK_STATE_BODY → (0 : UInt8) ∈ w) :
    TurnHolds free (switchCheckState req b (w ++ free)) (windowSwitch req w) := by
  unfold switchCheckState windowSwitch
  cases hst : req.mCheckState with
  | CHECK_STATE_REQUEST =>
    have h₀ := hzero (by rw [hst]; exact nofun)
    obtain ⟨ret, req', w', hparse, hlen, hfree⟩ := req.parseRequest_window h₀
    obtain ⟨b', hstore, hb'⟩ := hb.store_window w' hlen
    have hidx := HttpRequest.parseRequest_index hparse
    simp only [hparse, hfree free, hstore, bind, Except.bind, pure, Except.pure]
    by_cases hbad : ret = BAD_REQUEST
    · rw [if_pos hbad, if_pos hbad]
      exact .ret hb' (by omega)
    · rw [if_neg hbad, if_neg hbad]
      exact .again (holds_drop hb' (by omega)) (Nat.zero_le _)
  | CHECK_STATE_HEADER =>
    have h₀ := hzero (by rw [hst]; exact nofun)
    obtain ⟨ret, req', hparse, hfree⟩ := req.parseHeader_window h₀
    have hidx := HttpRequest.parseHeader_index hparse
    simp only [hparse, hfree free, bind, Except.bind, pure, Except.pure]
    by_cases hbad : ret = BAD_REQUEST
    · rw [if_pos hbad, if_pos hbad]
      exact .ret hb (by omega)
    · rw [if_neg hbad, if_neg hbad]
      by_cases hget : ret = GET_REQUEST
      · rw [if_pos hget, if_pos hget]
        exact .ret (holds_drop hb (by omega)) (Nat.zero_le _)
      · rw [if_neg hget, if_neg hget]
        exact .again (holds_drop hb (by omega)) (Nat.zero_le _)
  | CHECK_STATE_BODY =>
    obtain ⟨hsame, hcontent⟩ := HttpRequest.parseContent_window hi free
    simp only [hsame]
    rcases hcontent with hcontent | ⟨ret, body, st, hcontent⟩
    · rw [hcontent]
      exact .error
    · rw [hcontent]
      exact .ret hb hi
  | CHECK_STATE_SUCCESS => exact .again hb hi

/-- A turn does on a buffer what it does on the unread bytes. -/
theorem processReadTurn_window {req : HttpRequest} {b : FixedBuffer} {consumed w free : List UInt8}
    (hb : b.Holds consumed w free) (hi : req.mCheckIndex ≤ w.length) :
    TurnHolds free (processReadTurn req b) (windowTurn req w) := by
  obtain ⟨ls, pos, w', hline, hscan⟩ := parseLine_scanned hi
  obtain ⟨b', hstore, hb'⟩ := hb.store_window w' hscan.length_eq
  have hpos : pos ≤ w'.length := by rw [hscan.length_eq]; exact hscan.pos_le
  have hfull := parseLine_window w free req.mCheckIndex
  rw [hline, ← hb.used_eq] at hfull
  rw [processReadTurn_scan hb.readPtr_eq hfull hstore, windowTurn_scan hline]
  by_cases hopen : ls = LINE_OPEN ∧ req.mCheckState ≠ CHECK_STATE_BODY
  · rw [if_pos hopen, if_pos hopen]
    exact .ret hb' hpos
  · rw [if_neg hopen, if_neg hopen]
    by_cases hbad : ls = LINE_BAD
    · rw [if_pos hbad, if_pos hbad]
      exact .ret hb' hpos
    · rw [if_neg hbad, if_neg hbad]
      refine switchCheckState_window hb' hpos fun hbody => ?_
      rw [lineOk_of_passed hopen hbad hbody] at hscan
      exact hscan.zero_mem

/-- Plain bytes in front of the scan position keep it within the first line. -/
theorem inLine_append {req : HttpRequest} {front rest : List UInt8}
    (hfront : ∀ c ∈ front, plain c = true) (hi : req.mCheckIndex ≤ front.length) :
    req.InLine (front ++ rest) := by
  rw [HttpRequest.InLine, List.takeWhile_append_of_pos hfront, List.length_append]
  omega

theorem inLine_le {req : HttpRequest} {w : List UInt8} (h : req.InLine w) :
    req.mCheckIndex ≤ w.length :=
  Nat.le_trans h (List.takeWhile_sublist _).length_le

/-- The request and the unread bytes a turn leaves behind. -/
def WindowTurn.req : WindowTurn → HttpRequest
  | .ret _ req _ => req
  | .again req _ => req

def WindowTurn.window : WindowTurn → List UInt8
  | .ret _ _ w => w
  | .again _ w => w

/-- The switch on a line that has been cut at its end. -/
theorem windowSwitch_inLine {req : HttpRequest} {line rest : List UInt8} {turn : WindowTurn}
    (hline : ∀ c ∈ line, plain c = true) (hi : req.mCheckIndex = line.length + 2)
    (h : windowSwitch req (line ++ 0 :: 0 :: rest) = .ok turn) : turn.req.InLine turn.window := by
  have hcut : ∀ {text : List UInt8}, (∀ c ∈ text, plain c = true) → text.length = line.length + 1 →
      ∀ req' : HttpRequest, req'.mCheckIndex = line.length + 2 → req'.InLine (text ++ 0 :: rest) := by
    intro text htext hlen req' hi'
    have happend : text ++ 0 :: rest = (text ++ [0]) ++ rest := by simp
    rw [happend]
    refine inLine_append ?_ (by simp [hlen, hi'])
    exact List.forall_mem_append.mpr ⟨htext, by simp [plain, CR, LF]⟩
  have hzero : ∀ c ∈ line ++ [0], plain c = true := List.forall_mem_append.mpr ⟨hline, by simp [plain, CR, LF]⟩
  have hself : ∀ req' : HttpRequest, req'.mCheckIndex = line.length + 2 →
      req'.InLine (line ++ 0 :: 0 :: rest) := by
    intro req' hi'
    have hin := hcut hzero (by simp) req' hi'
    simpa using hin
  unfold windowSwitch at h
  cases hst : req.mCheckState with
  | CHECK_STATE_REQUEST =>
    simp only [hst] at h
    rw [req.parseRequest_append line (0 :: rest)] at h
    cases hparse : req.parseRequest (line ++ [0]) with
    | error e =>
      rw [hparse] at h
      cases h
    | ok p =>
      obtain ⟨ret, req', text⟩ := p
      rw [hparse] at h
      have hidx := HttpRequest.parseRequest_index hparse
      have hlen := HttpRequest.parseRequest_length hparse
      have hplain : ∀ c ∈ text, plain c = true := by
        intro c hc
        rcases HttpRequest.parseRequest_mem hparse c hc with hc | rfl
        · exact hzero c hc
        · decide
      simp only [Except.map, bind, Except.bind, pure, Except.pure] at h
      split at h
      · cases h
        exact hcut hplain (by simpa using hlen) req' (hidx.trans hi)
      · cases h
        exact Nat.zero_le _
  | CHECK_STATE_HEADER =>
    simp only [hst] at h
    obtain ⟨⟨ret, req'⟩, hparse, h⟩ := bind_eq_ok h
    have hidx := HttpRequest.parseHeader_index hparse
    dsimp only at h
    split at h
    · cases h
      exact hself req' (hidx.trans hi)
    · split at h
      · cases h
        exact Nat.zero_le _
      · cases h
        exact Nat.zero_le _
  | CHECK_STATE_BODY =>
    simp only [hst] at h
    obtain ⟨⟨ret, req'⟩, hcontent, h⟩ := bind_eq_ok h
    have hidx := HttpRequest.parseContent_index hcontent
    cases h
    exact hself req' (hidx.trans hi)
  | CHECK_STATE_SUCCESS =>
    simp only [hst] at h
    cases h
    exact hself req hi

/-- The scan position never leaves the first line of the unread bytes. -/
theorem windowTurn_inLine {req : HttpRequest} {w : List UInt8} {turn : WindowTurn}
    (hi : req.InLine w) (h : windowTurn req w = .ok turn) : turn.req.InLine turn.window := by
  have hscan := parseLine_nextLine [] hi
  rw [List.append_nil] at hscan
  cases hnext : nextLine w with
  | unfinished pos =>
    rw [hnext] at hscan
    have hpos : ∀ req' : HttpRequest, req'.mCheckIndex = pos → req'.InLine w := fun req' hidx => by
      rw [HttpRequest.InLine, hidx, nextLine_unfinished hnext]
    rw [windowTurn_scan hscan] at h
    split at h
    · cases h
      exact hpos _ rfl
    · rename_i hbody
      have hst : req.mCheckState = CHECK_STATE_BODY := by
        by_contra hne
        exact hbody ⟨rfl, hne⟩
      rw [if_neg LINE_STATE.noConfusion] at h
      simp only [windowSwitch, HttpRequest.scanned, hst] at h
      obtain ⟨⟨ret, req'⟩, hcontent, h⟩ := bind_eq_ok h
      have hidx := HttpRequest.parseContent_index hcontent
      cases h
      exact hpos req' hidx
  | broken pos =>
    rw [hnext] at hscan
    rw [windowTurn_scan hscan, if_neg (fun h => LINE_STATE.noConfusion h.1), if_pos rfl] at h
    cases h
    exact Nat.le_of_eq (nextLine_broken hnext)
  | complete line rest =>
    rw [hnext] at hscan
    rw [windowTurn_scan hscan, if_neg (fun h => LINE_STATE.noConfusion h.1),
      if_neg LINE_STATE.noConfusion, List.append_nil] at h
    exact windowSwitch_inLine (nextLine_complete_plain hnext) rfl h

/-- A switch that leads to another turn consumes the line it was given, or leaves
it behind the scan position. -/
theorem windowSwitch_again {req req' : HttpRequest} {w w₁ w' : List UInt8} {ls : LINE_STATE}
    {pos : ℕ} (hlen : w₁.length = w.length)
    (hok : req.mCheckState ≠ CHECK_STATE_BODY → req.mCheckIndex < pos ∧ pos ≤ w.length)
    (h : windowSwitch (req.scanned ls pos) w₁ = .ok (.again req' w')) :
    2 * w'.length - req'.mCheckIndex < 2 * w.length - req.mCheckIndex := by
  cases hst : req.mCheckState with
  | CHECK_STATE_REQUEST =>
    obtain ⟨hij, hj⟩ := hok (by rw [hst]; exact CHECK_STATE.noConfusion)
    simp only [windowSwitch, HttpRequest.scanned, hst] at h
    obtain ⟨⟨ret, req₁, w₂⟩, hparse, h⟩ := bind_eq_ok h
    have hidx : req₁.mCheckIndex = pos := HttpRequest.parseRequest_index hparse
    have hlen₂ := HttpRequest.parseRequest_length hparse
    dsimp only at h
    split at h
    · cases h
    · cases h
      rw [List.length_drop]
      dsimp only
      omega
  | CHECK_STATE_HEADER =>
    obtain ⟨hij, hj⟩ := hok (by rw [hst]; exact CHECK_STATE.noConfusion)
    simp only [windowSwitch, HttpRequest.scanned, hst] at h
    obtain ⟨⟨ret, req₁⟩, hparse, h⟩ := bind_eq_ok h
    have hidx : req₁.mCheckIndex = pos := HttpRequest.parseHeader_index hparse
    dsimp only at h
    split at h
    · cases h
    · split at h
      · cases h
      · cases h
        rw [List.length_drop]
        dsimp only
        omega
  | CHECK_STATE_BODY =>
    simp only [windowSwitch, HttpRequest.scanned, hst] at h
    obtain ⟨⟨ret, req₁⟩, hparse, h⟩ := bind_eq_ok h
    cases h
  | CHECK_STATE_SUCCESS =>
    obtain ⟨hij, hj⟩ := hok (by rw [hst]; exact CHECK_STATE.noConfusion)
    simp only [windowSwitch, HttpRequest.scanned, hst] at h
    cases h
    dsimp only
    omega

/-- Every further turn has fewer bytes to look at. -/
theorem windowTurn_again {req req' : HttpRequest} {w w' : List UInt8}
    (h : windowTurn req w = .ok (.again req' w')) :
    2 * w'.length - req'.mCheckIndex < 2 * w.length - req.mCheckIndex := by
  obtain ⟨⟨ls, pos, w₁⟩, hline, -⟩ := bind_eq_ok h
  rw [windowTurn_scan hline] at h
  by_cases hopen : ls = LINE_OPEN ∧ req.mCheckState ≠ CHECK_STATE_BODY
  · rw [if_pos hopen] at h
    cases h
  rw [if_neg hopen] at h
  by_cases hbad : ls = LINE_BAD
  · rw [if_pos hbad] at h
    cases h
  rw [if_neg hbad] at h
  have hlen : w₁.length = w.length := by
    have hline' : parseLine (w ++ []) w.length req.mCheckIndex = .ok (ls, pos, w₁) := by
      rw [List.append_nil]
      exact hline
    obtain ⟨w₂, hw₂, hlen, -⟩ := parseLine_zero hline'
    rw [hw₂, List.append_nil]
    exact hlen
  refine windowSwitch_again hlen (fun hbody => ?_) h
  -- only a complete line reaches another turn
  rw [lineOk_of_passed hopen hbad hbody] at hline
  exact parseLine_ok hline

/-- `processRead` on the unread bytes. -/
def windowRead (req : HttpRequest) (w : List UInt8) :
    Except Fault (HTTP_CODE × HttpRequest × List UInt8) :=
  if w = [] then .ok (NO_REQUEST, req, w)
  else
    match _h : windowTurn req w with
    | .error e => .error e
    | .ok (.ret code req' w') => .ok (code, req', w')
    | .ok (.again req' w') => windowRead req' w'
termination_by 2 * w.length - req.mCheckIndex
decreasing_by exact windowTurn_again _h

/-- The loop on the unread bytes, one turn at a time. -/
theorem windowRead_turn {req : HttpRequest} {w : List UInt8} {turn : Except Fault WindowTurn}
    (hw : w ≠ []) (h : windowTurn req w = turn) :
    windowRead req w = match turn with
      | .error e => .error e
      | .ok (.ret code req' w') => .ok (code, req', w')
      | .ok (.again req' w') => windowRead req' w' := by
  rw [windowRead, if_neg hw]
  split <;> rename_i h' <;> rw [h] at h' <;> subst h' <;> rfl

theorem windowRead_nil (req : HttpRequest) : windowRead req [] = .ok (NO_REQUEST, req, []) := by
  rw [windowRead, if_pos rfl]

/-- A call on a buffer and a call on its unread bytes. -/
inductive ReadHolds (free : List UInt8) :
    Except Fault (HTTP_CODE × HttpRequest × FixedBuffer) →
    Except Fault (HTTP_CODE × HttpRequest × List UInt8) → Prop
  | error : ReadHolds free (.error .lengthError) (.error .lengthError)
  | ok {code : HTTP_CODE} {req : HttpRequest} {b : FixedBuffer} {consumed w : List UInt8} :
      b.Holds consumed w free → req.mCheckIndex ≤ w.length →
      ReadHolds free (.ok (code, req, b)) (.ok (code, req, w))

theorem window_ne_nil {b : FixedBuffer} {consumed w free : List UInt8}
    (hb : b.Holds consumed w free) (hused : b.used > 0) : w ≠ [] := by
  rintro rfl
  rw [hb.used_eq] at hused
  cases hused

/-- A turn on a buffer and on its unread bytes carries the rest of the call over
to the whole call. -/
theorem TurnHolds.read {req : HttpRequest} {b : FixedBuffer} {consumed w free : List UInt8}
    (h : TurnHolds free (processReadTurn req b) (windowTurn req w))
    (hb : b.Holds consumed w free) (hused : b.used > 0)
    (hrest : ∀ req' b' consumed' w', processReadTurn req b = .ok (.again req' b') →
      b'.Holds consumed' w' free → req'.mCheckIndex ≤ w'.length →
      ReadHolds free (processRead req' b') (windowRead req' w')) :
    ReadHolds free (processRead req b) (windowRead req w) := by
  generalize hturn : processReadTurn req b = turn at h hrest
  generalize hturn' : windowTurn req w = turn' at h
  rw [processRead_turn hused hturn, windowRead_turn (window_ne_nil hb hused) hturn']
  cases h with
  | error => exact .error
  | ret hb' hi' => exact .ok hb' hi'
  | again hb' hi' => exact hrest _ _ _ _ rfl hb' hi'

/-- `processRead` is a function of the parser state and the unread bytes. -/
theorem processRead_window {req : HttpRequest} {b : FixedBuffer} {consumed w free : List UInt8}
    (hb : b.Holds consumed w free) (hi : req.mCheckIndex ≤ w.length) :
    ReadHolds free (processRead req b) (windowRead req w) := by
  induction hn : 2 * b.used - req.mCheckIndex using Nat.strong_induction_on
    generalizing req b consumed w with
  | _ n ih =>
    by_cases hused : b.used > 0
    · refine (processReadTurn_window hb hi).read hb hused ?_
      intro req' b' consumed' w' hturn hb' hi'
      have hless := processReadTurn_again hturn
      rw [hn] at hless
      exact ih _ hless hb' hi' rfl
    · have hw : w = [] := List.eq_nil_of_length_eq_zero (by rw [← hb.used_eq]; omega)
      subst hw
      rw [processRead_unused _ (by omega), windowRead_nil]
      exact .ok hb hi

/-- The scan position stays within the first line, turn by turn. -/
theorem NextTurn.inLine {s t : HttpRequest × FixedBuffer} {consumed w free : List UInt8}
    (h : NextTurn s t) (hb : s.2.Holds consumed w free) (hi : s.1.InLine w) :
    ∃ consumed' w', t.2.Holds consumed' w' free ∧ t.1.InLine w' := by
  have hwin := processReadTurn_window hb (inLine_le hi)
  rw [h.2] at hwin
  generalize hturn : windowTurn s.1 w = turn at hwin
  cases hwin with
  | again hb' _ => exact ⟨_, _, hb', windowTurn_inLine hi hturn⟩

theorem Turns.inLine {s t : HttpRequest × FixedBuffer} {consumed w free : List UInt8}
    (h : Turns s t) (hb : s.2.Holds consumed w free) (hi : s.1.InLine w) :
    ∃ consumed' w', t.2.Holds consumed' w' free ∧ t.1.InLine w' := by
  induction h with
  | refl => exact ⟨consumed, w, hb, hi⟩
  | tail _ hturn ih =>
    obtain ⟨consumed', w', hb', hi'⟩ := ih
    exact hturn.inLine hb' hi'

/-- The rule for a call as its unread bytes see it. -/
theorem processRead_window_rule {P : HttpRequest → List UInt8 → Prop}
    {Q : HTTP_CODE → HttpRequest → List UInt8 → Prop}
    (hagain : ∀ req w req' w', P req w → req.mCheckIndex ≤ w.length →
      windowTurn req w = .ok (.again req' w') → P req' w')
    (hret : ∀ req w code req' w', P req w → req.mCheckIndex ≤ w.length →
      windowTurn req w = .ok (.ret code req' w') → Q code req' w')
    (hend : ∀ req, P req [] → Q NO_REQUEST req [])
    {req req' : HttpRequest} {b b' : FixedBuffer} {code : HTTP_CODE} {consumed w free : List UInt8}
    (hb : b.Holds consumed w free) (hi : req.mCheckIndex ≤ w.length) (hstart : P req w)
    (h : processRead req b = .ok (code, req', b')) :
    ∃ consumed' w', b'.Holds consumed' w' free ∧ req'.mCheckIndex ≤ w'.length ∧ Q code req' w' := by
  refine processRead_rule
    (P := fun req b => ∃ consumed w, b.Holds consumed w free ∧ req.mCheckIndex ≤ w.length ∧ P req w)
    (Q := fun code req b => ∃ consumed w, b.Holds consumed w free ∧ req.mCheckIndex ≤ w.length ∧
      Q code req w) ?_ ?_ ?_ ⟨consumed, w, hb, hi, hstart⟩ h
  · rintro req b req' b' ⟨consumed, w, hb, hi, hp⟩ - hturn
    have hwin := processReadTurn_window hb hi
    rw [hturn] at hwin
    generalize hturn' : windowTurn req w = turn at hwin
    cases hwin with
    | again hb' hi' => exact ⟨_, _, hb', hi', hagain _ _ _ _ hp hi hturn'⟩
  · rintro req b code req' b' ⟨consumed, w, hb, hi, hp⟩ - hturn
    have hwin := processReadTurn_window hb hi
    rw [hturn] at hwin
    generalize hturn' : windowTurn req w = turn at hwin
    cases hwin with
    | ret hb' hi' => exact ⟨_, _, hb', hi', hret _ _ _ _ _ hp hi hturn'⟩
  · rintro req b ⟨consumed, w, hb, hi, hp⟩ hused
    have hw : w = [] := List.eq_nil_of_length_eq_zero (by rw [← hb.used_eq]; omega)
    rw [hw] at hb hi hp
    exact ⟨consumed, [], hb, hi, hend req hp⟩

theorem processRead_inLine {req req' : HttpRequest} {b b' : FixedBuffer} {code : HTTP_CODE}
    {consumed w free : List UInt8} (hb : b.Holds consumed w free) (hi : req.InLine w)
    (h : processRead req b = .ok (code, req', b')) :
    ∃ consumed' w', b'.Holds consumed' w' free ∧ req'.InLine w' := by
  obtain ⟨consumed', w', hb', -, hi'⟩ := processRead_window_rule (P := HttpRequest.InLine)
    (Q := fun _ => HttpRequest.InLine) (fun _ _ _ _ hi _ hturn => windowTurn_inLine hi hturn)
    (fun _ _ _ _ _ hi _ hturn => windowTurn_inLine hi hturn) (fun _ hi => hi) hb (inLine_le hi) hi h
  exact ⟨consumed', w', hb', hi'⟩

/-- Parser and buffer states that appends, calls and `Init` lead to from a new
parser and an empty buffer. -/
inductive Reachable : HttpRequest → FixedBuffer → Prop
  | new {raw : List UInt8} (h : raw.length = kBufferSize) :
      Reachable HttpRequest.fresh (FixedBuffer.create raw h)
  | append {req : HttpRequest} {b b' : FixedBuffer} {s : List UInt8} {n : ℕ} :
      Reachable req b → b.append s = .ok (n, b') → Reachable req b'
  | read {req req' : HttpRequest} {b b' : FixedBuffer} {code : HTTP_CODE} :
      Reachable req b → processRead req b = .ok (code, req', b') → Reachable req' b'
  | init {req : HttpRequest} {b : FixedBuffer} : Reachable req b → Reachable req.Init b

/-- An append adds the whole block to the window or leaves the window alone. -/
theorem append_window {b b' : FixedBuffer} {consumed w free s : List UInt8} {n : ℕ}
    (hb : b.Holds consumed w free) (h : b.append s = .ok (n, b')) :
    ∃ consumed' w' free', b'.Holds consumed' w' free' ∧
      (n = s.length ∧ w' = w ++ s ∨ n = 0 ∧ w' = w) := by
  by_cases hroom : s.length ≤ kBufferSize - w.length
  · obtain ⟨b₁, consumed₁, free₁, happend, hb₁⟩ := hb.append_room hroom
    rw [happend] at h
    cases h
    exact ⟨consumed₁, w ++ s, free₁, hb₁, .inl ⟨rfl, rfl⟩⟩
  · rw [hb.append_no_room hroom] at h
    cases h
    exact ⟨consumed, w, free, hb, .inr ⟨rfl, rfl⟩⟩

/-- The scan position is always within the unread bytes. -/
theorem Reachable.inWindow {req : HttpRequest} {b : FixedBuffer} (h : Reachable req b) :
    ∃ consumed w free, b.Holds consumed w free ∧ req.mCheckIndex ≤ w.length := by
  induction h with
  | new h => exact ⟨[], [], _, create_holds _ h, Nat.le_refl _⟩
  | @append req b b' s n _ happend ih =>
    obtain ⟨consumed, w, free, hb, hi⟩ := ih
    obtain ⟨consumed', w', free', hb', hw⟩ := append_window hb happend
    refine ⟨consumed', w', free', hb', ?_⟩
    rcases hw with ⟨-, rfl⟩ | ⟨-, rfl⟩
    · rw [List.length_append]
      omega
    · exact hi
  | read _ hread ih =>
    obtain ⟨consumed, w, free, hb, hi⟩ := ih
    have hwin := processRead_window hb hi
    rw [hread] at hwin
    generalize windowRead _ w = out at hwin
    cases hwin with
    | ok hb' hi' => exact ⟨_, _, free, hb', hi'⟩
  | init _ ih =>
    obtain ⟨consumed, w, free, hb, -⟩ := ih
    exact ⟨consumed, w, free, hb, Nat.zero_le _⟩

/-- Buffers with the same unread bytes are read alike, whatever else they hold:
the same result, parser state and unread bytes, or the same `std::length_error`. -/
theorem reads_only_window {req : HttpRequest} {b b' : FixedBuffer} (h : Reachable req b)
    (hvalid : b'.Valid) (hsame : b'.unread = b.unread) :
    (∃ code req' b₁ b₁', processRead req b = .ok (code, req', b₁) ∧
      processRead req b' = .ok (code, req', b₁') ∧ b₁.unread = b₁'.unread) ∨
    (processRead req b = .error .lengthError ∧ processRead req b' = .error .lengthError) := by
  obtain ⟨consumed, w, free, hb, hi⟩ := h.inWindow
  obtain ⟨consumed', free', hb'⟩ := hvalid.holds
  rw [hsame, hb.unread_eq] at hb'
  have hwin := processRead_window hb hi
  have hwin' := processRead_window hb' hi
  generalize windowRead req w = out at hwin hwin'
  generalize hread : processRead req b = r at hwin
  generalize hread' : processRead req b' = r' at hwin'
  cases hwin with
  | error =>
    cases hwin'
    exact .inr ⟨rfl, rfl⟩
  | ok hb₁ _ =>
    cases hwin' with
    | ok hb₁' _ => exact .inl ⟨_, _, _, _, rfl, rfl, hb₁.unread_eq.trans hb₁'.unread_eq.symm⟩

/-- The same byte behind different storage. -/
theorem reads_only_window_sample :
    ∃ b b', Reachable HttpRequest.fresh b ∧ b'.Valid ∧ b'.unread = b.unread ∧
      ((∃ code req' b₁ b₁', processRead HttpRequest.fresh b = .ok (code, req', b₁) ∧
        processRead HttpRequest.fresh b' = .ok (code, req', b₁') ∧ b₁.unread = b₁'.unread) ∨
      (processRead HttpRequest.fresh b = .error .lengthError ∧
        processRead HttpRequest.fresh b' = .error .lengthError)) := by
  have hzeros : (List.replicate kBufferSize (0 : UInt8)).length = kBufferSize := List.length_replicate
  have hones : (List.replicate kBufferSize (1 : UInt8)).length = kBufferSize := List.length_replicate
  obtain ⟨b, consumed, free, happend, hb⟩ := (create_holds _ hzeros).append_room (s := [71]) (by decide)
  obtain ⟨b', consumed', free', -, hb'⟩ := (create_holds _ hones).append_room (s := [71]) (by decide)
  have hreach : Reachable HttpRequest.fresh b := .append (.new hzeros) happend
  have hsame : b'.unread = b.unread := hb'.unread_eq.trans hb.unread_eq.symm
  exact ⟨b, b', hreach, hb'.valid, hsame, reads_only_window hreach hb'.valid hsame⟩

end KyrosWebServer.Http
