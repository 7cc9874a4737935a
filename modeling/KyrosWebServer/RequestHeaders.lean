import KyrosWebServer.RequestGrammar
import Mathlib.Data.List.TakeWhile

/-!
# The meaning of header lines

A head is an accepted request line, header lines and the empty line. Of the
lines that carry a name the parser knows, the last one decides the field, and
no other line has any effect.
-/

namespace KyrosWebServer.Http

open CMemory CString Base FixedBuffer

/-- The names that set a field. -/
def headerNames : List (List UInt8) := [textConnection, textContentLength, textHost]

/-- A line that begins with a name, ignoring case. -/
def HasName (name line : List UInt8) : Prop := name.map tolower <+: line.map tolower

instance (name line : List UInt8) : Decidable (HasName name line) :=
  inferInstanceAs (Decidable (name.map tolower <+: line.map tolower))

/-- What follows a name of this length and the blanks behind it. -/
def valueOf (name line : List UInt8) : List UInt8 :=
  (line.drop name.length).dropWhile (blanks.contains ·)

/-- The lines that carry a name. -/
def named (name : List UInt8) (lines : List (List UInt8)) : List (List UInt8) :=
  lines.filter (HasName name ·)

/-- The value in the last line that carries a name. -/
def lastValue (name : List UInt8) (lines : List (List UInt8)) : Option (List UInt8) :=
  (named name lines).getLast?.map (valueOf name)

/-- The value of `Connection:` that keeps the connection. -/
def KeepsAlive (value : List UInt8) : Prop := value.map tolower = textKeepAlive.map tolower

instance (value : List UInt8) : Decidable (KeepsAlive value) :=
  inferInstanceAs (Decidable (_ = _))

namespace HttpRequest

/-- The fields as the lines leave them. -/
def withHeaders (req : HttpRequest) (lines : List (List UInt8)) : HttpRequest :=
  { req with
    host := (lastValue textHost lines).getD req.host
    contentLength := ((lastValue textContentLength lines).map atol).getD req.contentLength
    isAlive := ((lastValue textConnection lines).map (KeepsAlive · : _ → Bool)).getD req.isAlive }

/-- Between two lines behind the request line. -/
structure InHeaders (req : HttpRequest) : Prop where
  /-- The header state. -/
  state : req.mCheckState = CHECK_STATE_HEADER
  /-- The next line starts at the read pointer. -/
  index : req.mCheckIndex = 0
  /-- The last line was complete. -/
  line : req.mLineState = LINE_OK

end HttpRequest

/-- Header lines: not empty, without CR, LF and NUL. -/
def IsHeaderLine (line : List UInt8) : Prop := line ≠ [] ∧ ∀ c ∈ line, c ≠ CR ∧ c ≠ LF ∧ c ≠ 0

/-- The bytes of header lines, each with its CRLF. -/
def headerBytes (lines : List (List UInt8)) : List UInt8 := lines.flatMap (· ++ [CR, LF])

/-- The bytes of a whole head. -/
def headBytes (line : List UInt8) (lines : List (List UInt8)) : List UInt8 :=
  line ++ [CR, LF] ++ headerBytes lines ++ [CR, LF]

theorem headerBytes_cons (line : List UInt8) (lines : List (List UInt8)) (rest : List UInt8) :
    headerBytes (line :: lines) ++ rest = line ++ CR :: LF :: (headerBytes lines ++ rest) := by
  simp [headerBytes]

theorem lastValue_cons (name line : List UInt8) (lines : List (List UInt8)) :
    lastValue name (line :: lines) = (lastValue name lines).or (lastValue name [line]) := by
  have hnamed : named name (line :: lines) = named name [line] ++ named name lines := by
    rw [named, named, named, ← List.filter_append, List.singleton_append]
  rw [lastValue, hnamed, List.getLast?_append, lastValue, lastValue]
  cases (named name lines).getLast? <;> rfl

theorem lastValue_singleton (name line : List UInt8) :
    lastValue name [line] = if HasName name line then some (valueOf name line) else none := by
  by_cases h : HasName name line
  · simp [lastValue, named, h]
  · simp [lastValue, named, h]

namespace HttpRequest

/-- Lines take effect one after the other. -/
theorem withHeaders_cons (req : HttpRequest) (line : List UInt8) (lines : List (List UInt8)) :
    req.withHeaders (line :: lines) = (req.withHeaders [line]).withHeaders lines := by
  simp only [withHeaders, lastValue_cons _ line lines]
  congr 1
  · cases lastValue textHost lines <;> rfl
  · cases lastValue textConnection lines <;> rfl
  · cases lastValue textContentLength lines <;> rfl

theorem InHeaders.withHeaders {req : HttpRequest} (h : req.InHeaders)
    (lines : List (List UInt8)) : (req.withHeaders lines).InHeaders :=
  ⟨h.state, h.index, h.line⟩

/-- No two names fit one line. -/
theorem hasName_unique {line name name' : List UInt8} (h : HasName name line)
    (hname : name ∈ headerNames) (hname' : name' ∈ headerNames) (hne : name ≠ name') :
    ¬ HasName name' line := by
  intro h'
  have hcases := List.prefix_or_prefix_of_prefix h h'
  have hapart : ∀ s ∈ headerNames, ∀ t ∈ headerNames, s ≠ t →
      ¬ (s.map tolower <+: t.map tolower ∨ t.map tolower <+: s.map tolower) := by decide
  exact hapart name hname name' hname' hne hcases

/-- One header line. -/
theorem parseHeader_line (req : HttpRequest) {line : List UInt8} (hne : line ≠ [])
    (h₀ : (0 : UInt8) ∉ line) :
    req.parseHeader (line ++ [0]) = .ok (NO_REQUEST, req.withHeaders [line]) := by
  have hname : ∀ name ∈ headerNames, strncasecmp line name name.length = 0 ↔ HasName name line := by
    intro name hmem
    exact strncasecmp_eq_zero h₀ ((show ∀ name ∈ headerNames, (0 : UInt8) ∉ name by decide) name hmem)
  have hconn := hname textConnection (by decide)
  have hlength := hname textContentLength (by decide)
  have hhost := hname textHost (by decide)
  simp only [show textConnection.length = 11 from rfl] at hconn
  simp only [show textContentLength.length = 15 from rfl] at hlength
  simp only [show textHost.length = 5 from rfl] at hhost
  simp only [parseHeader, cstr_content h₀, bind, Except.bind, pure, Except.pure, if_neg hne, hconn,
    hlength, hhost, withHeaders, lastValue_singleton, drop_strspn]
  by_cases h : HasName textConnection line
  · have h' := hasName_unique h (by decide) (show textContentLength ∈ headerNames by decide) (by decide)
    have h'' := hasName_unique h (by decide) (show textHost ∈ headerNames by decide) (by decide)
    have hvalue : (0 : UInt8) ∉ valueOf textConnection line := fun hmem =>
      h₀ (List.mem_of_mem_drop ((List.dropWhile_sublist _).subset hmem))
    have hkeep : strcasecmp (valueOf textConnection line) textKeepAlive = 0 ↔
        KeepsAlive (valueOf textConnection line) := strcasecmp_eq_zero hvalue (by decide)
    rw [if_pos h, if_neg h', if_neg h'', if_pos h]
    simp only [Option.map_some, Option.map_none, Option.getD_some, Option.getD_none, ← hkeep]
    rfl
  · rw [if_neg h]
    by_cases h' : HasName textContentLength line
    · have h'' := hasName_unique h' (by decide) (show textHost ∈ headerNames by decide) (by decide)
      rw [if_pos h', if_neg h'', if_neg h, if_pos h']
      rfl
    · rw [if_neg h', if_neg h', if_neg h]
      by_cases h'' : HasName textHost line
      · rw [if_pos h'', if_pos h'']
        rfl
      · rw [if_neg h'', if_neg h'']
        rfl

/-- The empty line ends the head. -/
theorem parseHeader_empty (req : HttpRequest) (more : List UInt8) :
    req.parseHeader (0 :: more) = .ok (if req.contentLength = 0 then
      (GET_REQUEST, { req with mCheckState := CHECK_STATE_SUCCESS })
      else (NO_REQUEST, { req with mCheckState := CHECK_STATE_BODY })) := by
  have hempty : cstr (0 :: more) = .ok [] := rfl
  simp only [parseHeader, hempty, bind, Except.bind, pure, Except.pure, if_true]
  by_cases h : req.contentLength = 0
  · rw [if_neg (fun hne => hne h), if_pos h]
  · rw [if_pos h, if_neg h]

end HttpRequest

theorem HttpRequest.InHeaders.head {req : HttpRequest} (h : req.InHeaders) :
    ¬ req.pastHead = true := by
  simp [HttpRequest.pastHead, h.state]

/-- The header parser on a line, of which it sees the part in front of a NUL. -/
theorem runHead_header {req : HttpRequest} (hreq : req.InHeaders) {line : List UInt8}
    (hplain : ∀ c ∈ line, plain c = true) (rest : List UInt8) :
    runHead req (line ++ CR :: LF :: rest) =
      if content line = [] then
        .ok (if req.contentLength = 0 then
          .stop GET_REQUEST { req with mCheckState := CHECK_STATE_SUCCESS } rest
          else .past { req with mCheckState := CHECK_STATE_BODY } rest)
      else runHead (req.withHeaders [content line]) rest := by
  have hstate : ¬ (req.scanned LINE_OK (line.length + 2)).mCheckState = CHECK_STATE_REQUEST := by
    simp [HttpRequest.scanned, hreq.state]
  obtain ⟨more, hmore⟩ := content_split line
  rw [runHead_complete hreq.head (nextLine_crlf hplain rest), HttpRequest.headLine, if_neg hstate, hmore]
  by_cases hempty : content line = []
  · have hlen : (req.scanned LINE_OK (line.length + 2)).contentLength = req.contentLength := rfl
    rw [if_pos hempty, hempty, List.nil_append, HttpRequest.parseHeader_empty, hlen]
    by_cases h : req.contentLength = 0
    · simp only [if_pos h, Except.map, reduceCtorEq, if_false, if_true]
      simp only [HttpRequest.scanned, ← hreq.index, ← hreq.line]
    · simp only [if_neg h, Except.map, reduceCtorEq, if_false]
      rw [runHead_past (by simp [HttpRequest.pastHead])]
      simp only [HttpRequest.scanned, ← hreq.index, ← hreq.line]
  · rw [if_neg hempty, HttpRequest.parseHeader_append,
      HttpRequest.parseHeader_line _ hempty (zero_notMem_content line)]
    simp only [Except.map, reduceCtorEq, if_false]
    congr 1
    simp only [HttpRequest.withHeaders, HttpRequest.scanned, hreq.index, ← hreq.line]

theorem IsHeaderLine.plain {line : List UInt8} (h : IsHeaderLine line) :
    ∀ c ∈ line, plain c = true := fun c hc => plain_iff.mpr ⟨(h.2 c hc).1, (h.2 c hc).2.1⟩

theorem IsHeaderLine.content_eq {line : List UInt8} (h : IsHeaderLine line) :
    content line = line := by
  rw [content, List.takeWhile_eq_self_iff]
  intro c hc
  simpa using (h.2 c hc).2.2

/-- All header lines, from the first one on. -/
theorem runHead_headers {lines : List (List UInt8)}
    (hplain : ∀ l ∈ lines, ∀ c ∈ l, plain c = true) (hne : ∀ l ∈ lines, content l ≠ [])
    {req : HttpRequest} (hreq : req.InHeaders) (rest : List UInt8) :
    runHead req (headerBytes lines ++ rest) =
      runHead (req.withHeaders (lines.map content)) rest := by
  induction lines generalizing req with
  | nil => rfl
  | cons line lines ih =>
    rw [headerBytes_cons, runHead_header hreq (hplain line List.mem_cons_self),
      if_neg (hne line List.mem_cons_self),
      ih (fun l hl => hplain l (List.mem_cons_of_mem line hl))
        (fun l hl => hne l (List.mem_cons_of_mem line hl)) (hreq.withHeaders [content line]),
      ← HttpRequest.withHeaders_cons, List.map_cons]

/-- A request line that a new parser accepts is one of the grammar. -/
theorem requestLine_grammar {buf : FixedBuffer} (hvalid : buf.Valid) (hempty : buf.unread = [])
    {line : List UInt8} (hplain : ∀ c ∈ line, plain c = true)
    (hlen : (line ++ [CR, LF]).length ≤ kBufferSize) {r : Received}
    (haccept : receive HttpRequest.fresh buf (line ++ [CR, LF]) = .ok r)
    (hst : r.req.mCheckState = CHECK_STATE_HEADER) :
    ∃ m u v, IsRequestLine (content line) m u v ∧ r.req = HttpRequest.requested m u v := by
  obtain ⟨consumed, free, hb⟩ := hvalid.holds
  rw [hempty] at hb
  obtain ⟨b, consumed₁, free₁, happend, hb₁⟩ :=
    hb.append_room (s := line ++ [CR, LF]) (by simpa using hlen)
  have hout := processRead_runHead hb₁ (show HttpRequest.fresh.InLine _ from Nat.zero_le _)
  rw [List.nil_append] at hout
  by_cases h : ∃ m u v, IsRequestLine (content line) m u v
  · obtain ⟨m, u, v, hgrammar⟩ := h
    rw [runHead_accepts hplain hgrammar, runHead_nil (HttpRequest.requested_head m u v)] at hout
    cases hout with
    | wait hread _ _ =>
      rw [receive_eq happend hread] at haccept
      cases haccept
      exact ⟨m, u, v, hgrammar, rfl⟩
  · obtain ⟨m, u, w, hrun, -⟩ := runHead_rejects hplain h []
    rw [hrun] at hout
    cases hout with
    | stop hread _ =>
      rw [receive_eq happend hread] at haccept
      cases haccept
      cases hst

/-- One call on an accepted request line, header lines and the empty line. -/
theorem receive_head {buf : FixedBuffer} (hvalid : buf.Valid) (hempty : buf.unread = [])
    {line : List UInt8} (hline : ∀ c ∈ line, c ≠ CR ∧ c ≠ LF) {r₀ : Received}
    (haccept : receive HttpRequest.fresh buf (line ++ [CR, LF]) = .ok r₀)
    (hst : r₀.req.mCheckState = CHECK_STATE_HEADER)
    {lines : List (List UInt8)} (hlines : ∀ l ∈ lines, IsHeaderLine l)
    (hlen : (headBytes line lines).length ≤ kBufferSize) :
    ∃ r, receive HttpRequest.fresh buf (headBytes line lines) = .ok r ∧
      r.appended = (headBytes line lines).length ∧ r.buf.unread = [] ∧
      r.req = { r₀.req with
        host := (lastValue textHost lines).getD []
        contentLength := ((lastValue textContentLength lines).map atol).getD 0
        isAlive := ((lastValue textConnection lines).map (KeepsAlive · : _ → Bool)).getD false
        mCheckState := if ((lastValue textContentLength lines).map atol).getD 0 = 0
          then CHECK_STATE_SUCCESS else CHECK_STATE_BODY } ∧
      r.code = if ((lastValue textContentLength lines).map atol).getD 0 = 0
        then GET_REQUEST else NO_REQUEST := by
  obtain ⟨consumed, free, hb⟩ := hvalid.holds
  rw [hempty] at hb
  have hlen₀ : (line ++ [CR, LF]).length ≤ kBufferSize := by
    refine Nat.le_trans ?_ hlen
    simp only [headBytes, List.length_append]
    omega
  have hplain : ∀ c ∈ line, plain c = true := fun c hc => plain_iff.mpr (hline c hc)
  obtain ⟨m, u, v, hgrammar, hreq⟩ := requestLine_grammar hvalid hempty hplain hlen₀ haccept hst
  obtain ⟨b, consumed₁, free₁, happend, hb₁⟩ :=
    hb.append_room (s := headBytes line lines) (by simpa using hlen)
  have hout := processRead_runHead hb₁ (show HttpRequest.fresh.InLine _ from Nat.zero_le _)
  have hin : (HttpRequest.requested m u v).InHeaders := ⟨rfl, rfl, rfl⟩
  have hbytes : [] ++ headBytes line lines = line ++ CR :: LF :: (headerBytes lines ++ [CR, LF]) := by
    simp [headBytes]
  have hlength : ((HttpRequest.requested m u v).withHeaders lines).contentLength =
      ((lastValue textContentLength lines).map atol).getD 0 := rfl
  have hend := runHead_header (hin.withHeaders lines)
    (show ∀ c ∈ ([] : List UInt8), plain c = true by simp) []
  rw [if_pos (show content [] = [] from rfl), List.nil_append, hlength] at hend
  have hcontent : lines.map content = lines := by
    rw [List.map_congr_left fun l hl => (hlines l hl).content_eq, List.map_id']
  have hheaders := runHead_headers (fun l hl => (hlines l hl).plain)
    (fun l hl => by rw [(hlines l hl).content_eq]; exact (hlines l hl).1) hin [CR, LF]
  rw [hcontent] at hheaders
  rw [hbytes, runHead_accepts hplain hgrammar, hheaders, hend] at hout
  by_cases h : ((lastValue textContentLength lines).map atol).getD 0 = 0
  · rw [if_pos h] at hout
    cases hout with
    | stop hread hb' =>
      refine ⟨_, receive_eq happend hread, rfl, hb'.unread_eq, ?_, ?_⟩
      · dsimp only
        rw [if_pos h, hreq]
        rfl
      · rw [if_pos h]
  · rw [if_neg h] at hout
    cases hout with
    | past hturns hb' _ =>
      -- no byte of the body has arrived
      have hread := hturns.processRead_eq.trans (processRead_unused _ (by rw [hb'.used_eq]; rfl))
      refine ⟨_, receive_eq happend hread, rfl, hb'.unread_eq, ?_, ?_⟩
      · dsimp only
        rw [if_neg h, hreq]
        rfl
      · rw [if_neg h]

theorem lastValue_congr {name : List UInt8} {lines lines' : List (List UInt8)}
    (h : named name lines' = named name lines) : lastValue name lines' = lastValue name lines := by
  rw [lastValue, h, lastValue]

/-- Reordering does not matter for a name that occurs once at most. -/
theorem named_perm {name : List UInt8} {lines lines' : List (List UInt8)} (h : lines'.Perm lines)
    (honce : (named name lines).length ≤ 1) : named name lines' = named name lines := by
  have hperm : (named name lines').Perm (named name lines) := h.filter _
  cases hl : named name lines with
  | nil =>
    rw [hl] at hperm
    exact hperm.eq_nil
  | cons line rest =>
    have hrest : rest = [] := by
      rw [hl, List.length_cons] at honce
      exact List.eq_nil_of_length_eq_zero (by omega)
    rw [hl, hrest] at hperm
    rw [hrest]
    exact hperm.eq_singleton

theorem headBytes_perm (line : List UInt8) {lines lines' : List (List UInt8)}
    (h : lines'.Perm lines) : (headBytes line lines').length = (headBytes line lines).length := by
  have hlen : (headerBytes lines').length = (headerBytes lines).length :=
    (h.flatMap_right _).length_eq
  simp only [headBytes, List.length_append, hlen]

/-- In a head with an accepted request line, the last line of each name decides
its field and no other line changes anything; so lines may be reordered that
do not carry the same name. The request is complete when no body is declared. -/
theorem header_semantics {buf : FixedBuffer} (hvalid : buf.Valid) (hempty : buf.unread = [])
    {line : List UInt8} (hline : ∀ c ∈ line, c ≠ CR ∧ c ≠ LF) {r₀ : Received}
    (haccept : receive HttpRequest.fresh buf (line ++ [CR, LF]) = .ok r₀)
    (hst : r₀.req.mCheckState = CHECK_STATE_HEADER)
    {lines : List (List UInt8)} (hlines : ∀ l ∈ lines, IsHeaderLine l)
    (hlen : (headBytes line lines).length ≤ kBufferSize) :
    ∃ r, receive HttpRequest.fresh buf (headBytes line lines) = .ok r ∧
      r.appended = (headBytes line lines).length ∧ r.buf.unread = [] ∧
      r.req = { r₀.req with
        host := (lastValue textHost lines).getD []
        contentLength := ((lastValue textContentLength lines).map atol).getD 0
        isAlive := ((lastValue textConnection lines).map (KeepsAlive · : _ → Bool)).getD false
        mCheckState := if ((lastValue textContentLength lines).map atol).getD 0 = 0
          then CHECK_STATE_SUCCESS else CHECK_STATE_BODY } ∧
      (r.code = GET_REQUEST ↔ r.req.contentLength = 0) ∧
      (∀ lines', (∀ l ∈ lines', IsHeaderLine l) → (headBytes line lines').length ≤ kBufferSize →
        (∀ name ∈ headerNames, named name lines' = named name lines) →
        ∃ r', receive HttpRequest.fresh buf (headBytes line lines') = .ok r' ∧
          r'.code = r.code ∧ r'.req = r.req) ∧
      (∀ lines' : List (List UInt8), lines'.Perm lines →
        (∀ name ∈ headerNames, (named name lines).length ≤ 1) →
        ∃ r', receive HttpRequest.fresh buf (headBytes line lines') = .ok r' ∧
          r'.code = r.code ∧ r'.req = r.req) := by
  obtain ⟨r, hread, happ, hunread, hreq, hcode⟩ :=
    receive_head hvalid hempty hline haccept hst hlines hlen
  have hsame : ∀ lines', (∀ l ∈ lines', IsHeaderLine l) →
      (headBytes line lines').length ≤ kBufferSize →
      (∀ name ∈ headerNames, named name lines' = named name lines) →
      ∃ r', receive HttpRequest.fresh buf (headBytes line lines') = .ok r' ∧
        r'.code = r.code ∧ r'.req = r.req := by
    intro lines' hlines' hlen' hnamed
    obtain ⟨r', hread', -, -, hreq', hcode'⟩ :=
      receive_head hvalid hempty hline haccept hst hlines' hlen'
    have hhost := lastValue_congr (hnamed textHost (by decide))
    have hlength := lastValue_congr (hnamed textContentLength (by decide))
    have hconn := lastValue_congr (hnamed textConnection (by decide))
    rw [hlength] at hcode'
    rw [hhost, hlength, hconn] at hreq'
    exact ⟨r', hread', hcode'.trans hcode.symm, hreq'.trans hreq.symm⟩
  refine ⟨r, hread, happ, hunread, hreq, ?_, hsame, ?_⟩
  · rw [hcode, hreq]
    by_cases h : ((lastValue textContentLength lines).map atol).getD 0 = 0
    · simp [h]
    · simp [h]
  · intro lines' hperm honce
    refine hsame lines' (fun l hl => hlines l (hperm.subset hl)) ?_ fun name hname =>
      named_perm hperm (honce name hname)
    rw [headBytes_perm line hperm]
    exact hlen

/-- Two lines with the name of the host, and between them one that sets nothing. -/
def hostLines : List (List UInt8) :=
  [textHost ++ [32, 65], [66], (textHost.map tolower) ++ [67, 58]]

/-- The second of the lines with the name decides what the host is. -/
theorem header_semantics_sample :
    ∃ r₀, receive HttpRequest.fresh blank (minimalGet.take 16) = .ok r₀ ∧ ∃ r,
      receive HttpRequest.fresh blank (headBytes (minimalGet.take 14) hostLines) = .ok r ∧
      r.req.host = [67, 58] ∧ r.code = GET_REQUEST := by
  have hblank : blank.Holds [] [] (List.replicate kBufferSize 0) := create_holds _ _
  have hfirst : (receive HttpRequest.fresh blank (minimalGet.take 16)).map
      (fun r => r.req.mCheckState) = .ok CHECK_STATE_HEADER := by decide +kernel
  cases hrun : receive HttpRequest.fresh blank (minimalGet.take 16) with
  | error e =>
    rw [hrun] at hfirst
    cases hfirst
  | ok r₀ =>
    rw [hrun] at hfirst
    have hst : r₀.req.mCheckState = CHECK_STATE_HEADER := by simpa [Except.map] using hfirst
    have hlines : ∀ l ∈ hostLines, IsHeaderLine l := by
      simp [hostLines, IsHeaderLine, textHost, ascii, tolower, CR, LF]
    have hplain : (minimalGet.take 14).all plain = true := by decide
    have hline : ∀ c ∈ minimalGet.take 14, c ≠ CR ∧ c ≠ LF := fun c hc =>
      plain_iff.mp (List.all_eq_true.mp hplain c hc)
    have hlen : (headBytes (minimalGet.take 14) hostLines).length ≤ kBufferSize := by decide
    obtain ⟨r, hread, -, -, hreq, hcode, -, -⟩ :=
      header_semantics hblank.valid hblank.unread_eq hline hrun hst hlines hlen
    have hhost : (lastValue textHost hostLines).getD [] = [67, 58] := by decide
    have hlength : ((lastValue textContentLength hostLines).map atol).getD 0 = 0 := by decide
    exact ⟨r₀, rfl, r, hread, by rw [hreq]; exact hhost,
      hcode.mpr (by rw [hreq]; exact hlength)⟩

end KyrosWebServer.Http
