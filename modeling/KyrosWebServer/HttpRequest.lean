import KyrosWebServer.Buffer
import KyrosWebServer.CString

/-!
# The request parser

`HttpRequest` from net/HttpRequest: the line scanner, the three line parsers
and the loop of `processRead`, in the order of the source. The parser works
through pointers into the receive buffer; a pointer is the list of bytes from
there to the end of the storage, and what a parser writes is stored back.
Log output is left out.
-/

namespace KyrosWebServer.Http

open CMemory CString Base

/-- Request methods; the parser recognises the first two. -/
inductive METHOD
  | GET | POST | HEAD | PUT | DELETE | TRACE | OPTIONS | CONNECT | PATH
  deriving DecidableEq, Repr

/-- Results of the parser and of the handlers behind it. -/
inductive HTTP_CODE
  | NO_REQUEST | GET_REQUEST | BAD_REQUEST | NO_RESOURCE | FORBIDDEN_REQUEST | FILE_REQUEST
  | INTERNAL_ERROR | CLOSED_CONNECTION
  deriving DecidableEq, Repr

/-- State of the line scanner. -/
inductive LINE_STATE
  | LINE_OK | LINE_OPEN | LINE_BAD
  deriving DecidableEq, Repr

/-- Which part of the request comes next. -/
inductive CHECK_STATE
  | CHECK_STATE_REQUEST | CHECK_STATE_HEADER | CHECK_STATE_BODY | CHECK_STATE_SUCCESS
  deriving DecidableEq, Repr

export METHOD (GET POST)
export HTTP_CODE (NO_REQUEST GET_REQUEST BAD_REQUEST)
export LINE_STATE (LINE_OK LINE_OPEN LINE_BAD)
export CHECK_STATE (CHECK_STATE_REQUEST CHECK_STATE_HEADER CHECK_STATE_BODY CHECK_STATE_SUCCESS)

/-- Carriage return. -/
def CR : UInt8 := 13

/-- Line feed. -/
def LF : UInt8 := 10

/-- The bytes of an ASCII text. -/
def ascii (text : List Char) : List UInt8 := text.map fun c => UInt8.ofNat c.toNat

/-- The accept set `" \t"`. -/
def blanks : List UInt8 := [32, 9]

/-- `"GET"`. -/
def textGET : List UInt8 := ascii ['G', 'E', 'T']

/-- `"POST"`. -/
def textPOST : List UInt8 := ascii ['P', 'O', 'S', 'T']

/-- `"HTTP/1.1"`. -/
def textVersion : List UInt8 := ascii ['H', 'T', 'T', 'P', '/', '1', '.', '1']

/-- `"http://"`. -/
def textScheme : List UInt8 := ascii ['h', 't', 't', 'p', ':', '/', '/']

/-- `"Connection:"`. -/
def textConnection : List UInt8 := ascii ['C', 'o', 'n', 'n', 'e', 'c', 't', 'i', 'o', 'n', ':']

/-- `"keep-isAlive"`. -/
def textKeepAlive : List UInt8 :=
  ascii ['k', 'e', 'e', 'p', '-', 'i', 's', 'A', 'l', 'i', 'v', 'e']

/-- `"Content-length:"`. -/
def textContentLength : List UInt8 :=
  ascii ['C', 'o', 'n', 't', 'e', 'n', 't', '-', 'l', 'e', 'n', 'g', 't', 'h', ':']

/-- `"Host:"`. -/
def textHost : List UInt8 := ascii ['H', 'o', 's', 't', ':']

/-- The slash. -/
def slash : UInt8 := 47

/-- The public fields of a request and the three fields of the state machine. -/
structure HttpRequest where
  /-- Request target. -/
  url : List UInt8
  /-- Protocol version. -/
  version : List UInt8
  /-- Value of the Host header. -/
  host : List UInt8
  /-- Whether the client keeps the connection. -/
  isAlive : Bool
  /-- Request method, indeterminate until a request line sets it. -/
  method : Option METHOD
  /-- Declared body length, a 64-bit `long`. -/
  contentLength : ℤ
  /-- The body. -/
  body : List UInt8
  /-- Scan position, relative to the read pointer. -/
  mCheckIndex : ℕ
  /-- Part of the request that comes next. -/
  mCheckState : CHECK_STATE
  /-- Outcome of the last line scan. -/
  mLineState : LINE_STATE
  deriving DecidableEq, Repr

namespace HttpRequest

/-- The constructor and the field initialisers. -/
def fresh : HttpRequest where
  url := []
  version := []
  host := []
  isAlive := false
  method := none
  contentLength := 0
  body := []
  mCheckIndex := 0
  mCheckState := CHECK_STATE_REQUEST
  mLineState := LINE_OPEN

/-- `Init`. The first assignment stores the enumerator `CHECK_STATE_REQUEST`,
which is zero, in `mCheckIndex`; `mCheckState` is not assigned. -/
def Init (req : HttpRequest) : HttpRequest :=
  { req with mCheckIndex := CHECK_STATE.CHECK_STATE_REQUEST.ctorIdx } |>
    fun req => { req with mCheckIndex := 0, mLineState := LINE_OPEN }

end HttpRequest

/-- One byte behind a pointer. -/
def byteAt (text : List UInt8) (i : ℕ) : Except Fault UInt8 :=
  match text[i]? with
  | some c => .ok c
  | none => .error .outOfBounds

/-- `parseLine`: the line state, the scan position it stops at and the memory
with the line end cut by NULs. -/
def parseLine (rd_buf : List UInt8) (sz mCheckIndex : ℕ) :
    Except Fault (LINE_STATE × ℕ × List UInt8) :=
  if mCheckIndex < sz then do
    let ch ← byteAt rd_buf mCheckIndex
    if ch = CR then
      if mCheckIndex + 1 = sz then
        return (LINE_OPEN, mCheckIndex, rd_buf)
      else
        let next ← byteAt rd_buf (mCheckIndex + 1)
        if next = LF then
          return (LINE_OK, mCheckIndex + 2, (rd_buf.set mCheckIndex 0).set (mCheckIndex + 1) 0)
        else
          return (LINE_BAD, mCheckIndex, rd_buf)
    else if ch = LF then
      if mCheckIndex > 1 then
        let prev ← byteAt rd_buf (mCheckIndex - 1)
        if prev = CR then
          return (LINE_OK, mCheckIndex + 1, (rd_buf.set mCheckIndex 0).set (mCheckIndex - 1) 0)
        else
          return (LINE_BAD, mCheckIndex, rd_buf)
      else
        return (LINE_BAD, mCheckIndex, rd_buf)
    else
      parseLine rd_buf sz (mCheckIndex + 1)
  else
    .ok (LINE_OPEN, mCheckIndex, rd_buf)
termination_by sz - mCheckIndex

namespace HttpRequest

/-- The branch of `parseRequest` for targets that begin with `http://`. It
works on the member `url`, not on the pointer `_url`. -/
def stripScheme (req : HttpRequest) (urlText : List UInt8) : Except Fault HttpRequest :=
  if strncasecmp urlText textScheme 7 = 0 then
    let req := { req with url := req.url ++ [7] }
    match strchr urlText slash with
    | some k => .ok { req with url := urlText.drop k }
    | none => .error .nullPointer
  else .ok req

/-- `parseRequest`: the request line, cut in place into its fields. Offsets
stand for the pointers `_url` and `_version` relative to `text`. -/
def parseRequest (req : HttpRequest) (text : List UInt8) :
    Except Fault (HTTP_CODE × HttpRequest × List UInt8) := do
  match strpbrk (← cstr text) blanks with
  | none => return (BAD_REQUEST, req, text)
  | some i =>
    let text := text.set i 0
    let _url := i + 1
    let _method ← cstr text
    let method :=
      if strcasecmp _method textGET = 0 then some GET
      else if strcasecmp _method textPOST = 0 then some POST
      else none
    match method with
    | none => return (BAD_REQUEST, req, text)
    | some m =>
      let req := { req with method := some m }
      let _url := _url + strspn (← cstr (text.drop _url)) blanks
      match strpbrk (← cstr (text.drop _url)) blanks with
      | none => return (BAD_REQUEST, req, text)
      | some j =>
        let text := text.set (_url + j) 0
        let _version := _url + j + 1
        let _version := _version + strspn (← cstr (text.drop _version)) blanks
        let versionText ← cstr (text.drop _version)
        if strcasecmp versionText textVersion ≠ 0 then
          return (BAD_REQUEST, req, text)
        else
          let urlText ← cstr (text.drop _url)
          let req ← req.stripScheme urlText
          if (← byteAt text _url) ≠ slash then
            return (BAD_REQUEST, req, text)
          else
            return (NO_REQUEST,
              { req with url := urlText, version := versionText,
                         mCheckState := CHECK_STATE_HEADER }, text)

/-- `parseHeader`: an empty line ends the head, three names are recognised. -/
def parseHeader (req : HttpRequest) (text : List UInt8) : Except Fault (HTTP_CODE × HttpRequest) := do
  let checkptr ← cstr text
  if checkptr = [] then
    if req.contentLength ≠ 0 then
      return (NO_REQUEST, { req with mCheckState := CHECK_STATE_BODY })
    else
      return (GET_REQUEST, { req with mCheckState := CHECK_STATE_SUCCESS })
  else if strncasecmp checkptr textConnection 11 = 0 then
    let checkptr := checkptr.drop 11
    let checkptr := checkptr.drop (strspn checkptr blanks)
    return (NO_REQUEST, { req with isAlive := strcasecmp checkptr textKeepAlive = 0 })
  else if strncasecmp checkptr textContentLength 15 = 0 then
    let checkptr := checkptr.drop 15
    let checkptr := checkptr.drop (strspn checkptr blanks)
    return (NO_REQUEST, { req with contentLength := atol checkptr })
  else if strncasecmp checkptr textHost 5 = 0 then
    let checkptr := checkptr.drop 5
    let checkptr := checkptr.drop (strspn checkptr blanks)
    return (NO_REQUEST, { req with host := checkptr })
  else
    return (NO_REQUEST, req)

/-- `body.assign(text, contentLength)`: a negative length converts to a
`size_t` beyond `max_size()`. -/
def assign (text : List UInt8) (contentLength : ℤ) : Except Fault (List UInt8) :=
  if contentLength < 0 then .error .lengthError
  else if contentLength.toNat ≤ text.length then .ok (text.take contentLength.toNat)
  else .error .outOfBounds

/-- `parseContent`: the unsigned scan position is compared as a `long`. -/
def parseContent (req : HttpRequest) (text : List UInt8) :
    Except Fault (HTTP_CODE × HttpRequest) := do
  if (req.mCheckIndex : ℤ) ≥ req.contentLength then
    let body ← assign text req.contentLength
    return (GET_REQUEST, { req with body := body, mCheckState := CHECK_STATE_SUCCESS })
  else
    return (NO_REQUEST, req)

end HttpRequest

/-- What one turn of the loop in `processRead` leads to. -/
inductive Turn
  /-- `return`, or `break` followed by the final `return`. -/
  | ret (code : HTTP_CODE) (req : HttpRequest) (buf : FixedBuffer)
  /-- The next evaluation of the loop condition. -/
  | again (req : HttpRequest) (buf : FixedBuffer)

/-- The request a turn leaves behind. -/
def Turn.req : Turn → HttpRequest
  | .ret _ req _ => req
  | .again req _ => req

/-- The buffer a turn leaves behind. -/
def Turn.buf : Turn → FixedBuffer
  | .ret _ _ buf => buf
  | .again _ buf => buf

/-- The `switch` on the check state, for the line that ends at `mCheckIndex`. -/
def switchCheckState (req : HttpRequest) (buf : FixedBuffer) (readptr : List UInt8) :
    Except Fault Turn :=
  match req.mCheckState with
  | CHECK_STATE_REQUEST => do
    let (ret, req, readptr) ← req.parseRequest readptr
    let buf ← buf.store buf.mReadPtr readptr
    if ret = BAD_REQUEST then
      return .ret BAD_REQUEST req buf
    else
      return .again { req with mCheckIndex := 0 } (buf.readPtrMove req.mCheckIndex).2
  | CHECK_STATE_HEADER => do
    let (ret, req) ← req.parseHeader readptr
    if ret = BAD_REQUEST then
      return .ret ret req buf
    else
      let buf := (buf.readPtrMove req.mCheckIndex).2
      let req := { req with mCheckIndex := 0 }
      if ret = GET_REQUEST then
        return .ret GET_REQUEST req buf
      else
        return .again req buf
  | CHECK_STATE_BODY => do
    -- a length above 1024 is only logged
    let (ret, req) ← req.parseContent readptr
    return .ret ret req buf
  | CHECK_STATE_SUCCESS => return .again req buf

/-- The request after a scan that ended in state `ls` at position `pos`. -/
def HttpRequest.scanned (req : HttpRequest) (ls : LINE_STATE) (pos : ℕ) : HttpRequest :=
  { req with mLineState := ls, mCheckIndex := pos }

/-- The loop body of `processRead`. -/
def processReadTurn (req : HttpRequest) (buf : FixedBuffer) : Except Fault Turn := do
  let readptr ← buf.readPtr
  let (mLineState, mCheckIndex, readptr) ← parseLine readptr buf.used req.mCheckIndex
  let req := req.scanned mLineState mCheckIndex
  let buf ← buf.store buf.mReadPtr readptr
  if req.mLineState = LINE_OPEN ∧ req.mCheckState ≠ CHECK_STATE_BODY then
    return .ret NO_REQUEST req buf
  else if req.mLineState = LINE_BAD then
    return .ret BAD_REQUEST req buf
  else
    switchCheckState req buf readptr

/-- What a scan that started at `i` leaves behind: the memory as it was, or with
the two bytes of a line end cut. -/
inductive LineScan (rd_buf : List UInt8) (sz i : ℕ) : LINE_STATE → ℕ → List UInt8 → Prop
  /-- The bytes end before the line does. -/
  | unfinished {j : ℕ} : (i ≤ sz → j ≤ sz) → LineScan rd_buf sz i LINE_OPEN j rd_buf
  /-- A CR or LF that is not part of a line end. -/
  | broken {j : ℕ} : j < sz → LineScan rd_buf sz i LINE_BAD j rd_buf
  /-- A CR with its LF. -/
  | crlf {j : ℕ} : i ≤ j → j + 1 < sz →
      LineScan rd_buf sz i LINE_OK (j + 2) ((rd_buf.set j 0).set (j + 1) 0)
  /-- An LF whose CR was passed before. -/
  | lf {j : ℕ} : i ≤ j → j < sz →
      LineScan rd_buf sz i LINE_OK (j + 1) ((rd_buf.set j 0).set (j - 1) 0)

/-- A scan that passes a byte is one from behind it. -/
theorem LineScan.of_succ {rd_buf text : List UInt8} {sz i j : ℕ} {ls : LINE_STATE}
    (hi : i < sz) (h : LineScan rd_buf sz (i + 1) ls j text) : LineScan rd_buf sz i ls j text := by
  cases h with
  | unfinished hj => exact .unfinished fun _ => hj hi
  | broken hj => exact .broken hj
  | crlf hij hj => exact .crlf (Nat.le_of_succ_le hij) hj
  | lf hij hj => exact .lf (Nat.le_of_succ_le hij) hj

theorem parseLine_cases {rd_buf text : List UInt8} {sz i j : ℕ} {ls : LINE_STATE}
    (h : parseLine rd_buf sz i = .ok (ls, j, text)) : LineScan rd_buf sz i ls j text := by
  fun_induction parseLine rd_buf sz i with
  | case1 i hlt ih =>
    obtain ⟨ch, -, h⟩ := bind_eq_ok h
    split at h
    · split at h
      · cases h
        exact .unfinished id
      · rename_i hlast
        obtain ⟨next, -, h⟩ := bind_eq_ok h
        split at h
        · cases h
          exact .crlf (Nat.le_refl i) (by omega)
        · cases h
          exact .broken hlt
    · split at h
      · split at h
        · obtain ⟨prev, -, h⟩ := bind_eq_ok h
          split at h
          · cases h
            exact .lf (Nat.le_refl i) hlt
          · cases h
            exact .broken hlt
        · cases h
          exact .broken hlt
      · exact (ih h).of_succ hlt
  | case2 i hge =>
    cases h
    exact .unfinished id

/-- A complete line ends behind the position the scan started from, within
the bytes received. -/
theorem parseLine_ok {rd_buf text : List UInt8} {sz i j : ℕ}
    (h : parseLine rd_buf sz i = .ok (LINE_OK, j, text)) : i < j ∧ j ≤ sz := by
  cases parseLine_cases h with
  | crlf hij hj => exact ⟨by omega, by omega⟩
  | lf hij hj => exact ⟨by omega, by omega⟩

/-- A line that gets past the two exits behind the scan is complete, unless the
machine is in the body. -/
theorem lineOk_of_passed {ls : LINE_STATE} {st : CHECK_STATE}
    (hopen : ¬ (ls = LINE_OPEN ∧ st ≠ CHECK_STATE_BODY)) (hbad : ls ≠ LINE_BAD)
    (hbody : st ≠ CHECK_STATE_BODY) : ls = LINE_OK := by
  cases ls with
  | LINE_OK => rfl
  | LINE_OPEN => exact absurd ⟨rfl, hbody⟩ hopen
  | LINE_BAD => exact absurd rfl hbad

namespace HttpRequest

/-- A rejected request line touches `method` and `url` only; an accepted one
sets the three fields of the line and moves on to the headers. -/
theorem parseRequest_cases {req req' : HttpRequest} {text text' : List UInt8} {ret : HTTP_CODE}
    (h : req.parseRequest text = .ok (ret, req', text')) :
    (ret = BAD_REQUEST ∧ ∃ m u, req' = { req with method := m, url := u }) ∨
    (ret = NO_REQUEST ∧ ∃ m u v, req' =
      { req with method := some m, url := u, version := v, mCheckState := CHECK_STATE_HEADER }) := by
  obtain ⟨line, -, h⟩ := bind_eq_ok h
  split at h
  · cases h
    exact .inl ⟨rfl, req.method, req.url, rfl⟩
  obtain ⟨_method, -, h⟩ := bind_eq_ok h
  dsimp only at h
  split at h
  · cases h
    exact .inl ⟨rfl, req.method, req.url, rfl⟩
  rename_i m _
  obtain ⟨s₁, -, h⟩ := bind_eq_ok h
  obtain ⟨s₂, -, h⟩ := bind_eq_ok h
  split at h
  · cases h
    exact .inl ⟨rfl, some m, req.url, rfl⟩
  obtain ⟨s₃, -, h⟩ := bind_eq_ok h
  obtain ⟨versionText, -, h⟩ := bind_eq_ok h
  split at h
  · cases h
    exact .inl ⟨rfl, some m, req.url, rfl⟩
  obtain ⟨urlText, -, h⟩ := bind_eq_ok h
  obtain ⟨req₁, hreq₁, h⟩ := bind_eq_ok h
  obtain ⟨c, -, h⟩ := bind_eq_ok h
  have hurl : ∃ u, req₁ = { req with method := some m, url := u } := by
    unfold stripScheme at hreq₁
    split at hreq₁
    · dsimp only at hreq₁
      split at hreq₁
      · cases hreq₁
        exact ⟨_, rfl⟩
      · cases hreq₁
    · cases hreq₁
      exact ⟨req.url, rfl⟩
  obtain ⟨u, rfl⟩ := hurl
  split at h
  · cases h
    exact .inl ⟨rfl, some m, u, rfl⟩
  · cases h
    exact .inr ⟨rfl, m, urlText, versionText, rfl⟩

/-- A header line sets one field, or ends the head in one of two states. -/
theorem parseHeader_cases {req req' : HttpRequest} {text : List UInt8} {ret : HTTP_CODE}
    (h : req.parseHeader text = .ok (ret, req')) :
    (ret = NO_REQUEST ∧ req.contentLength ≠ 0 ∧ req' = { req with mCheckState := CHECK_STATE_BODY }) ∨
    (ret = GET_REQUEST ∧ req.contentLength = 0 ∧
      req' = { req with mCheckState := CHECK_STATE_SUCCESS }) ∨
    (ret = NO_REQUEST ∧ ∃ alive len host, req' =
      { req with isAlive := alive, contentLength := len, host := host }) := by
  obtain ⟨line, -, h⟩ := bind_eq_ok h
  split at h
  · split at h
    · rename_i hlen
      cases h
      exact .inl ⟨rfl, hlen, rfl⟩
    · rename_i hlen
      cases h
      exact .inr (.inl ⟨rfl, Decidable.not_not.mp hlen, rfl⟩)
  · split at h
    · cases h
      exact .inr (.inr ⟨rfl, _, req.contentLength, req.host, rfl⟩)
    · split at h
      · cases h
        exact .inr (.inr ⟨rfl, req.isAlive, _, req.host, rfl⟩)
      · split at h
        · cases h
          exact .inr (.inr ⟨rfl, req.isAlive, req.contentLength, _, rfl⟩)
        · cases h
          exact .inr (.inr ⟨rfl, req.isAlive, req.contentLength, req.host, rfl⟩)

/-- The body is taken as a whole and ends the request, or not at all. -/
theorem parseContent_cases {req req' : HttpRequest} {text : List UInt8} {ret : HTTP_CODE}
    (h : req.parseContent text = .ok (ret, req')) :
    (ret = GET_REQUEST ∧ ∃ body, req' =
      { req with body := body, mCheckState := CHECK_STATE_SUCCESS }) ∨
    (ret = NO_REQUEST ∧ req' = req) := by
  unfold parseContent at h
  split at h
  · obtain ⟨body, -, h⟩ := bind_eq_ok h
    cases h
    exact .inl ⟨rfl, body, rfl⟩
  · cases h
    exact .inr ⟨rfl, rfl⟩

end HttpRequest

/-- What one turn can do. -/
inductive Turned (req : HttpRequest) (buf : FixedBuffer) : Turn → Prop
  /-- The scan ends the call. -/
  | scan {ls : LINE_STATE} {j : ℕ} {code : HTTP_CODE} {b : FixedBuffer} :
      code ≠ GET_REQUEST → Turned req buf (.ret code (req.scanned ls j) b)
  /-- A request line without a grammatical reading. -/
  | rejected {ls : LINE_STATE} {j : ℕ} {m : Option METHOD} {u : List UInt8} {b : FixedBuffer} :
      req.mCheckState = CHECK_STATE_REQUEST →
      Turned req buf (.ret BAD_REQUEST { req.scanned ls j with method := m, url := u } b)
  /-- A request line that is consumed. -/
  | accepted {ls : LINE_STATE} {j : ℕ} {m : METHOD} {u v : List UInt8} {b : FixedBuffer} :
      req.mCheckState = CHECK_STATE_REQUEST → req.mCheckIndex < j → j ≤ buf.used →
      b.used = buf.used - j →
      Turned req buf (.again { req.scanned ls 0 with
        method := some m, url := u, version := v, mCheckState := CHECK_STATE_HEADER } b)
  /-- A header line that is consumed. -/
  | header {ls : LINE_STATE} {j : ℕ} {alive : Bool} {len : ℤ} {host : List UInt8} {b : FixedBuffer} :
      req.mCheckState = CHECK_STATE_HEADER → req.mCheckIndex < j → j ≤ buf.used →
      b.used = buf.used - j →
      Turned req buf (.again { req.scanned ls 0 with
        isAlive := alive, contentLength := len, host := host } b)
  /-- The end of the head, with a body behind it. -/
  | toBody {ls : LINE_STATE} {j : ℕ} {b : FixedBuffer} :
      req.mCheckState = CHECK_STATE_HEADER → req.mCheckIndex < j → j ≤ buf.used →
      b.used = buf.used - j →
      Turned req buf (.again { req.scanned ls 0 with mCheckState := CHECK_STATE_BODY } b)
  /-- The end of the head and of the request. -/
  | headEnds {ls : LINE_STATE} {b : FixedBuffer} :
      req.mCheckState = CHECK_STATE_HEADER →
      Turned req buf (.ret GET_REQUEST { req.scanned ls 0 with mCheckState := CHECK_STATE_SUCCESS } b)
  /-- The end of the body. -/
  | bodyEnds {ls : LINE_STATE} {j : ℕ} {body : List UInt8} {b : FixedBuffer} :
      req.mCheckState = CHECK_STATE_BODY →
      Turned req buf (.ret GET_REQUEST
        { req.scanned ls j with body := body, mCheckState := CHECK_STATE_SUCCESS } b)
  /-- A line behind the request, which is cut but not consumed. -/
  | behind {ls : LINE_STATE} {j : ℕ} {b : FixedBuffer} :
      req.mCheckState = CHECK_STATE_SUCCESS → req.mCheckIndex < j → j ≤ buf.used →
      b.used = buf.used → Turned req buf (.again (req.scanned ls j) b)

/-- The switch on a line that the scan has passed. -/
theorem switchCheckState_cases {req : HttpRequest} {buf b : FixedBuffer} {ls : LINE_STATE} {j : ℕ}
    {text : List UInt8} {turn : Turn} (hused : b.used = buf.used)
    (hok : req.mCheckState ≠ CHECK_STATE_BODY → req.mCheckIndex < j ∧ j ≤ buf.used)
    (h : switchCheckState (req.scanned ls j) b text = .ok turn) : Turned req buf turn := by
  cases hst : req.mCheckState with
  | CHECK_STATE_REQUEST =>
    obtain ⟨hij, hj⟩ := hok (by rw [hst]; exact CHECK_STATE.noConfusion)
    simp only [switchCheckState, HttpRequest.scanned, hst] at h
    obtain ⟨⟨ret, req₁, text₁⟩, hparse, h⟩ := bind_eq_ok h
    obtain ⟨b₁, hstore₁, h⟩ := bind_eq_ok h
    have hused₁ := FixedBuffer.store_used hstore₁
    have hmoved : (b₁.readPtrMove j).2.used = buf.used - j := by
      rw [FixedBuffer.readPtrMove_used (by omega)]
      omega
    rcases HttpRequest.parseRequest_cases hparse with ⟨rfl, m, u, rfl⟩ | ⟨rfl, m, u, v, rfl⟩
    · cases h
      have hturned : Turned req buf (.ret BAD_REQUEST { req.scanned ls j with method := m, url := u } b₁) :=
        .rejected hst
      rw [HttpRequest.scanned, hst] at hturned
      exact hturned
    · cases h
      exact .accepted hst hij hj hmoved
  | CHECK_STATE_HEADER =>
    obtain ⟨hij, hj⟩ := hok (by rw [hst]; exact CHECK_STATE.noConfusion)
    have hmoved : (b.readPtrMove j).2.used = buf.used - j := by
      rw [FixedBuffer.readPtrMove_used (by omega)]
      omega
    simp only [switchCheckState, HttpRequest.scanned, hst] at h
    obtain ⟨⟨ret, req₁⟩, hparse, h⟩ := bind_eq_ok h
    rcases HttpRequest.parseHeader_cases hparse with
      ⟨rfl, -, rfl⟩ | ⟨rfl, -, rfl⟩ | ⟨rfl, alive, len, host, rfl⟩
    · cases h
      exact .toBody hst hij hj hmoved
    · cases h
      exact .headEnds hst
    · cases h
      have hturned : Turned req buf (.again { req.scanned ls 0 with
          isAlive := alive, contentLength := len, host := host } (b.readPtrMove j).2) :=
        .header hst hij hj hmoved
      rw [HttpRequest.scanned, hst] at hturned
      exact hturned
  | CHECK_STATE_BODY =>
    simp only [switchCheckState, HttpRequest.scanned, hst] at h
    obtain ⟨⟨ret, req₁⟩, hcontent, h⟩ := bind_eq_ok h
    cases h
    rcases HttpRequest.parseContent_cases hcontent with ⟨rfl, body, rfl⟩ | ⟨rfl, rfl⟩
    · exact .bodyEnds hst
    · have hturned : Turned req buf (.ret NO_REQUEST (req.scanned ls j) b) :=
        .scan HTTP_CODE.noConfusion
      rw [HttpRequest.scanned, hst] at hturned
      exact hturned
  | CHECK_STATE_SUCCESS =>
    obtain ⟨hij, hj⟩ := hok (by rw [hst]; exact CHECK_STATE.noConfusion)
    simp only [switchCheckState, HttpRequest.scanned, hst] at h
    cases h
    have hturned : Turned req buf (.again (req.scanned ls j) b) := .behind hst hij hj hused
    rw [HttpRequest.scanned, hst] at hturned
    exact hturned

theorem processReadTurn_cases {req : HttpRequest} {buf : FixedBuffer} {turn : Turn}
    (h : processReadTurn req buf = .ok turn) : Turned req buf turn := by
  obtain ⟨readptr, -, h⟩ := bind_eq_ok h
  obtain ⟨⟨ls, j, text⟩, hline, h⟩ := bind_eq_ok h
  obtain ⟨b, hstore, h⟩ := bind_eq_ok h
  split at h
  · cases h
    exact .scan HTTP_CODE.noConfusion
  split at h
  · cases h
    exact .scan HTTP_CODE.noConfusion
  rename_i hopen hbad
  refine switchCheckState_cases (FixedBuffer.store_used hstore) (fun hbody => ?_) h
  -- outside the body only a complete line gets this far
  have hls : ls = LINE_OK := lineOk_of_passed hopen hbad hbody
  rw [hls] at hline
  exact parseLine_ok hline

/-- Every further turn has fewer bytes to look at, counting a consumed byte
twice and a scanned byte once. -/
theorem processReadTurn_again {req req' : HttpRequest} {buf buf' : FixedBuffer}
    (h : processReadTurn req buf = .ok (.again req' buf')) :
    2 * buf'.used - req'.mCheckIndex < 2 * buf.used - req.mCheckIndex := by
  cases processReadTurn_cases h with
  | accepted hst hij hj hused | header hst hij hj hused | toBody hst hij hj hused =>
    rw [hused]
    dsimp only [HttpRequest.scanned]
    omega
  | behind hst hij hj hused =>
    rw [hused]
    dsimp only [HttpRequest.scanned]
    omega

/-- `processRead`: turns of the loop while there are unread bytes. -/
def processRead (req : HttpRequest) (buf : FixedBuffer) :
    Except Fault (HTTP_CODE × HttpRequest × FixedBuffer) :=
  if buf.used > 0 then
    match _h : processReadTurn req buf with
    | .error e => .error e
    | .ok (.ret code req' buf') => .ok (code, req', buf')
    | .ok (.again req' buf') => processRead req' buf'
  else
    .ok (NO_REQUEST, req, buf)
termination_by 2 * buf.used - req.mCheckIndex
decreasing_by exact processReadTurn_again _h

theorem processRead_unused (req : HttpRequest) {buf : FixedBuffer} (h : buf.used = 0) :
    processRead req buf = .ok (NO_REQUEST, req, buf) := by
  rw [processRead, if_neg (by omega)]

/-- The loop, one turn at a time. -/
theorem processRead_turn {req : HttpRequest} {buf : FixedBuffer} {turn : Except Fault Turn}
    (hused : buf.used > 0) (h : processReadTurn req buf = turn) :
    processRead req buf = match turn with
      | .error e => .error e
      | .ok (.ret code req' buf') => .ok (code, req', buf')
      | .ok (.again req' buf') => processRead req' buf' := by
  rw [processRead, if_pos hused]
  split <;> rename_i h' <;> rw [h] at h' <;> subst h' <;> rfl

/-- The rule for the loop: `P` is kept by every turn that leads to another one,
and gives `Q` where the loop ends. -/
theorem processRead_rule {P : HttpRequest → FixedBuffer → Prop}
    {Q : HTTP_CODE → HttpRequest → FixedBuffer → Prop}
    (hagain : ∀ req buf req' buf', P req buf → buf.used > 0 →
      processReadTurn req buf = .ok (.again req' buf') → P req' buf')
    (hret : ∀ req buf code req' buf', P req buf → buf.used > 0 →
      processReadTurn req buf = .ok (.ret code req' buf') → Q code req' buf')
    (hend : ∀ req buf, P req buf → buf.used = 0 → Q NO_REQUEST req buf)
    {req req' : HttpRequest} {buf buf' : FixedBuffer} {code : HTTP_CODE} (hstart : P req buf)
    (h : processRead req buf = .ok (code, req', buf')) : Q code req' buf' := by
  induction req, buf using processRead.induct with
  | case1 req buf hused e hturn =>
    rw [processRead_turn hused hturn] at h
    cases h
  | case2 req buf hused code₁ req₁ buf₁ hturn =>
    rw [processRead_turn hused hturn] at h
    cases h
    exact hret req buf code req' buf' hstart hused hturn
  | case3 req buf hused req₁ buf₁ hturn ih =>
    rw [processRead_turn hused hturn] at h
    exact ih (hagain req buf req₁ buf₁ hstart hused hturn) h
  | case4 req buf hused =>
    rw [processRead_unused _ (by omega)] at h
    cases h
    exact hend _ _ hstart (by omega)

/-- Behind a request that is complete no turn leads to another one. -/
theorem processReadTurn_success {req : HttpRequest} {buf : FixedBuffer} {turn : Turn}
    (hst : req.mCheckState = CHECK_STATE_SUCCESS) (h : processReadTurn req buf = .ok turn) :
    turn.req.mCheckState = CHECK_STATE_SUCCESS ∧ ∀ req' buf', turn ≠ .ret GET_REQUEST req' buf' := by
  cases processReadTurn_cases h with
  | scan hcode =>
    refine ⟨hst, fun req' buf' heq => ?_⟩
    cases heq
    exact hcode rfl
  | behind _ _ _ _ => exact ⟨hst, by simp⟩
  | rejected hst' | accepted hst' _ _ _ | header hst' _ _ _ | toBody hst' _ _ _ | headEnds hst'
    | bodyEnds hst' =>
    rw [hst] at hst'
    cases hst'

theorem processRead_success {req req' : HttpRequest} {buf buf' : FixedBuffer} {code : HTTP_CODE}
    (hst : req.mCheckState = CHECK_STATE_SUCCESS) (h : processRead req buf = .ok (code, req', buf')) :
    req'.mCheckState = CHECK_STATE_SUCCESS ∧ code ≠ GET_REQUEST := by
  refine processRead_rule (P := fun req _ => req.mCheckState = CHECK_STATE_SUCCESS)
    (Q := fun code req _ => req.mCheckState = CHECK_STATE_SUCCESS ∧ code ≠ GET_REQUEST) ?_ ?_ ?_ hst h
  · intro req buf req' buf' hst _ hturn
    exact (processReadTurn_success hst hturn).1
  · intro req buf code req' buf' hst _ hturn
    obtain ⟨hst', hget⟩ := processReadTurn_success hst hturn
    exact ⟨hst', fun hcode => hget req' buf' (by rw [hcode])⟩
  · intro req buf hst _
    exact ⟨hst, HTTP_CODE.noConfusion⟩

/-- A turn that returns `GET_REQUEST` has completed the request. -/
theorem processReadTurn_get {req req' : HttpRequest} {buf buf' : FixedBuffer}
    (h : processReadTurn req buf = .ok (.ret GET_REQUEST req' buf')) :
    req'.mCheckState = CHECK_STATE_SUCCESS := by
  cases processReadTurn_cases h with
  | scan hcode => exact absurd rfl hcode
  | headEnds _ => rfl
  | bodyEnds _ => rfl

theorem processRead_get {req req' : HttpRequest} {buf buf' : FixedBuffer}
    (h : processRead req buf = .ok (GET_REQUEST, req', buf')) :
    req'.mCheckState = CHECK_STATE_SUCCESS := by
  refine processRead_rule (P := fun _ _ => True)
    (Q := fun code req _ => code = GET_REQUEST → req.mCheckState = CHECK_STATE_SUCCESS)
    ?_ ?_ ?_ trivial h rfl
  · intro req buf req' buf' _ _ _
    trivial
  · intro req buf code req' buf' _ _ hturn hcode
    rw [hcode] at hturn
    exact processReadTurn_get hturn
  · intro req buf _ _ hcode
    cases hcode

/-- The request line `GET / HTTP/1.1` and the empty line. -/
def minimalGet : List UInt8 :=
  ascii ['G', 'E', 'T', ' ', '/', ' ', 'H', 'T', 'T', 'P', '/', '1', '.', '1'] ++ [CR, LF, CR, LF]

/-- The request object after `minimalGet`. -/
def afterGet : HttpRequest :=
  { HttpRequest.fresh with
    url := [slash]
    version := textVersion
    method := some GET
    mCheckState := CHECK_STATE_SUCCESS
    mLineState := LINE_OK }

end KyrosWebServer.Http
