import KyrosWebServer.BufferCalls
import KyrosWebServer.HttpRequest

/-!
# Responses

`FileSystem` from base/FileSystem and `HttpResponse` from net/HttpResponse. A
response collects a status, headers, a length, a body and a file, and writes
its head and body into a buffer, piece by piece. What `stat`, `open` and
`mmap` find is a table of files.
-/

namespace KyrosWebServer.Base

open CMemory CString

/-- Results of `FileSystem::Open`. -/
inductive FILE_STATE
  | IS_FILE | IS_DIR | NO_FILE | CANNOT_ACCESS
  deriving DecidableEq, Repr

/-- What `stat` reports for a path, and what `mmap` makes of the file. -/
structure FileStat where
  /-- `st_mode & S_IROTH`. -/
  S_IROTH : Bool
  /-- `S_ISDIR(st_mode)`. -/
  S_ISDIR : Bool
  /-- `st_size`, an `off_t`. -/
  st_size : ℕ
  /-- The bytes behind the mapping, none when `open` or `mmap` fails. -/
  mapped : List UInt8
  /-- An `off_t` has 63 bits for a size. -/
  st_size_lt : st_size < 9223372036854775808
  /-- The mapping is that of the whole file. -/
  length_mapped : mapped = [] ∨ mapped.length = st_size

/-- The files by path; `stat` fails where there is none. -/
abbrev FileTable : Type := List UInt8 → Option FileStat

/-- The file of a response. `mPath` and `mFileStat`, which only `Open` reads,
are left out. -/
structure FileSystem where
  /-- Length of the file, a `size_t`. -/
  mFileLength : ℕ
  /-- The bytes behind `mFile->Addr()`; `none` is the null pointer. -/
  mFile : Option (List UInt8)

namespace FileSystem

/-- The constructor. -/
def create : FileSystem := ⟨0, none⟩

/-- `Open`. The address of a mapping that failed is not null. -/
def Open (F : FileSystem) (files : FileTable) (path : List UInt8) : FILE_STATE × FileSystem :=
  match files (content path) with
  | none => (.NO_FILE, F)
  | some mFileStat =>
    if ¬ mFileStat.S_IROTH then (.CANNOT_ACCESS, F)
    else if mFileStat.S_ISDIR then (.IS_DIR, F)
    else (.IS_FILE, ⟨mFileStat.st_size, some mFileStat.mapped⟩)

/-- `getAddr`, as the bytes from there on. -/
def getAddr (F : FileSystem) : Option (List UInt8) := F.mFile

/-- `getLength`. -/
def getLength (F : FileSystem) : ℕ := F.mFileLength

end FileSystem

end KyrosWebServer.Base

namespace KyrosWebServer.Http

open CMemory CString Base

/-- `operator<` of `std::string`. -/
def keyLess : List UInt8 → List UInt8 → Bool
  | _, [] => false
  | [], _ :: _ => true
  | a :: s, b :: t => if a = b then keyLess s t else decide (a.toNat < b.toNat)

theorem keyLess_trans {s t u : List UInt8} (hst : keyLess s t = true) (htu : keyLess t u = true) :
    keyLess s u = true := by
  induction t generalizing s u with
  | nil => cases s <;> cases hst
  | cons b t ih =>
    cases u with
    | nil => cases htu
    | cons c u =>
      cases s with
      | nil => rfl
      | cons a s =>
        rw [keyLess] at hst htu ⊢
        by_cases hab : a = b
        · subst hab
          by_cases hac : a = c
          · rw [if_pos rfl] at hst
            rw [if_pos hac] at htu ⊢
            exact ih hst htu
          · rw [if_neg hac] at htu ⊢
            exact htu
        · rw [if_neg hab] at hst
          by_cases hbc : b = c
          · subst hbc
            rw [if_neg hab]
            exact hst
          · rw [if_neg hbc] at htu
            simp only [decide_eq_true_eq] at hst htu
            have hac : a ≠ c := by
              rintro rfl
              omega
            rw [if_neg hac]
            simp only [decide_eq_true_eq]
            omega

/-- Different keys are in order one way or the other. -/
theorem keyLess_total {s t : List UInt8} (hne : s ≠ t) (h : ¬ keyLess s t = true) :
    keyLess t s = true := by
  induction s generalizing t with
  | nil =>
    cases t with
    | nil => exact absurd rfl hne
    | cons b t => exact absurd rfl h
  | cons a s ih =>
    cases t with
    | nil => rfl
    | cons b t =>
      rw [keyLess] at h ⊢
      by_cases hab : a = b
      · subst hab
        rw [if_pos rfl] at h ⊢
        exact ih (fun hst => hne (by rw [hst])) h
      · have hval : a.toNat ≠ b.toNat := fun heq => hab (UInt8.toNat_inj.mp heq)
        rw [if_neg hab] at h
        rw [if_neg (Ne.symm hab)]
        simp only [decide_eq_true_eq] at h ⊢
        omega

/-- `Headers[key] = val` on the entries of the map. -/
def insertEntry (key val : List UInt8) :
    List (List UInt8 × List UInt8) → List (List UInt8 × List UInt8)
  | [] => [(key, val)]
  | (k, v) :: rest =>
    if key = k then (key, val) :: rest
    else if keyLess key k then (key, val) :: (k, v) :: rest
    else (k, v) :: insertEntry key val rest

theorem mem_insertEntry {key val : List UInt8} {rest : List (List UInt8 × List UInt8)}
    {p : List UInt8 × List UInt8} (h : p ∈ insertEntry key val rest) : p = (key, val) ∨ p ∈ rest := by
  induction rest with
  | nil => exact .inl (List.mem_singleton.mp h)
  | cons q rest ih =>
    obtain ⟨k, v⟩ := q
    rw [insertEntry] at h
    split at h
    · rcases List.mem_cons.mp h with h | h
      · exact .inl h
      · exact .inr (List.mem_cons_of_mem _ h)
    · split at h
      · rcases List.mem_cons.mp h with h | h
        · exact .inl h
        · exact .inr h
      · rcases List.mem_cons.mp h with rfl | h
        · exact .inr List.mem_cons_self
        · rcases ih h with h | h
          · exact .inl h
          · exact .inr (List.mem_cons_of_mem _ h)

/-- Entries in the order of their keys. -/
def InKeyOrder (entries : List (List UInt8 × List UInt8)) : Prop :=
  entries.Pairwise fun p q => keyLess p.1 q.1 = true

theorem insertEntry_inKeyOrder (key val : List UInt8) {entries : List (List UInt8 × List UInt8)}
    (h : InKeyOrder entries) : InKeyOrder (insertEntry key val entries) := by
  induction entries with
  | nil => exact List.pairwise_singleton _ _
  | cons q rest ih =>
    obtain ⟨k, v⟩ := q
    obtain ⟨hfirst, hrest⟩ := List.pairwise_cons.mp h
    rw [insertEntry]
    by_cases heq : key = k
    · subst heq
      rw [if_pos rfl]
      exact List.pairwise_cons.mpr ⟨hfirst, hrest⟩
    · rw [if_neg heq]
      by_cases hless : keyLess key k = true
      · rw [if_pos hless]
        refine List.pairwise_cons.mpr ⟨fun p hp => ?_, h⟩
        rcases List.mem_cons.mp hp with rfl | hp
        · exact hless
        · exact keyLess_trans hless (hfirst p hp)
      · rw [if_neg hless]
        refine List.pairwise_cons.mpr ⟨fun p hp => ?_, ih hrest⟩
        rcases mem_insertEntry hp with rfl | hp
        · exact keyLess_total heq hless
        · exact hfirst p hp

/-- `std::map<string, string>`: entries in key order. -/
structure HeaderMap where
  /-- The entries, as an iteration meets them. -/
  entries : List (List UInt8 × List UInt8)
  /-- Each key occurs once, behind the smaller ones. -/
  sorted : InKeyOrder entries

namespace HeaderMap

/-- The empty map. -/
def empty : HeaderMap := ⟨[], List.Pairwise.nil⟩

/-- `Headers[key] = val`. -/
def set (Headers : HeaderMap) (key val : List UInt8) : HeaderMap :=
  ⟨insertEntry key val Headers.entries, insertEntry_inKeyOrder key val Headers.sorted⟩

end HeaderMap

/-- Status codes. -/
inductive STATUS_CODE
  | SUCCESS_OK | CLIENT_ERROR_BAD_REQUEST | CLIENT_ERROR_FORBIDDEN | CLIENT_ERROR_NOT_FOUND
  | SERVER_ERROR_INTERNAL_ERR
  deriving DecidableEq, Repr

export STATUS_CODE (SUCCESS_OK CLIENT_ERROR_BAD_REQUEST CLIENT_ERROR_FORBIDDEN
  CLIENT_ERROR_NOT_FOUND SERVER_ERROR_INTERNAL_ERR)

/-- The enumerator as a number. -/
def STATUS_CODE.value : STATUS_CODE → ℕ
  | SUCCESS_OK => 200
  | CLIENT_ERROR_BAD_REQUEST => 400
  | CLIENT_ERROR_FORBIDDEN => 403
  | CLIENT_ERROR_NOT_FOUND => 404
  | SERVER_ERROR_INTERNAL_ERR => 500

/-- `kStatusMessage.at`. -/
def kStatusMessage : STATUS_CODE → List UInt8
  | SUCCESS_OK => ascii "OK".toList
  | CLIENT_ERROR_BAD_REQUEST =>
    ascii "Your request has bad syntax or is inherently impossible to staisfy.".toList
  | CLIENT_ERROR_FORBIDDEN =>
    ascii "You do not have permission to get file form this server.".toList
  | CLIENT_ERROR_NOT_FOUND => ascii "The requested file was not found on this server.".toList
  | SERVER_ERROR_INTERNAL_ERR =>
    ascii "There was an unusual problem serving the request file.".toList

/-- The end of a line. -/
def crlf : List UInt8 := [CR, LF]

/-- `snprintf` into `char buf[128]`: at most 127 bytes and the NUL. -/
def snprintf (text : List UInt8) : List UInt8 := text.take 127

/-- `%d` for a value that is not negative. -/
def decimal (n : ℕ) : List UInt8 := ascii (Nat.toDigits 10 n)

/-- `%d`. -/
def decimalInt (z : ℤ) : List UInt8 := if z < 0 then 45 :: decimal z.natAbs else decimal z.natAbs

/-- A response. -/
structure HttpResponse where
  /-- The headers a handler sets. -/
  Headers : HeaderMap
  /-- Whether the server keeps the connection. -/
  isAlive : Bool
  /-- Length announced for the body, an `int`. -/
  ContentLength : Int32
  /-- The body. -/
  Body : List UInt8
  /-- The status. -/
  mStatusCode : STATUS_CODE
  /-- The file sent behind the head. -/
  mFile : FileSystem

namespace HttpResponse

/-- The constructor. -/
def create : HttpResponse where
  Headers := HeaderMap.empty
  isAlive := true
  ContentLength := 0
  Body := []
  mStatusCode := CLIENT_ERROR_NOT_FOUND
  mFile := FileSystem.create

/-- `setStatusCode`. -/
def setStatusCode (resp : HttpResponse) (StatusCode : STATUS_CODE) : HttpResponse :=
  { resp with mStatusCode := StatusCode }

/-- `setHeader`. -/
def setHeader (resp : HttpResponse) (key Val : List UInt8) : HttpResponse :=
  { resp with Headers := resp.Headers.set key Val }

/-- `setContentLength`. -/
def setContentLength (resp : HttpResponse) (len : Int32) : HttpResponse :=
  { resp with ContentLength := len }

/-- `setContentType`. -/
def setContentType (resp : HttpResponse) (ContentType : List UInt8) : HttpResponse :=
  resp.setHeader (ascii "Content-Type".toList) ContentType

/-- `setBody`. -/
def setBody (resp : HttpResponse) (ResponseBody : List UInt8) : HttpResponse :=
  { resp with Body := ResponseBody }

/-- `openFile`. The last assignment replaces the status on every path; the
length of the file is narrowed to an `int`. -/
def openFile (resp : HttpResponse) (files : FileTable) (path : List UInt8) :
    FILE_STATE × HttpResponse :=
  let (ret, mFile) := resp.mFile.Open files path
  let resp := { resp with mFile := mFile }
  let resp :=
    match ret with
    | .IS_FILE => { resp with ContentLength := Int32.ofNat mFile.getLength }
    | .CANNOT_ACCESS => { resp with mStatusCode := CLIENT_ERROR_FORBIDDEN }
    | .NO_FILE => { resp with mStatusCode := CLIENT_ERROR_NOT_FOUND }
    | .IS_DIR => resp
  (ret, { resp with mStatusCode := CLIENT_ERROR_BAD_REQUEST })

/-- `hasFile`. -/
def hasFile (resp : HttpResponse) : Bool := resp.mFile.getAddr.isSome

/-- The line with the status. -/
def statusLine (resp : HttpResponse) : List UInt8 :=
  snprintf (ascii "HTTP/1.1 ".toList ++ decimal resp.mStatusCode.value ++
    32 :: kStatusMessage resp.mStatusCode ++ crlf)

/-- The line that tells whether the connection is kept. -/
def connectionLine (resp : HttpResponse) : List UInt8 :=
  if resp.isAlive then ascii "Connection:keep-isAlive".toList ++ crlf
  else ascii "Connection:closed".toList ++ crlf

/-- The line with the length. -/
def lengthLine (resp : HttpResponse) : List UInt8 :=
  snprintf (ascii "Content-Length".toList ++ 58 :: decimalInt resp.ContentLength.toInt ++ crlf)

/-- The line of a header; both strings end at a NUL. -/
def headerLine (pair : List UInt8 × List UInt8) : List UInt8 :=
  snprintf (content pair.1 ++ 58 :: content pair.2 ++ crlf)

/-- `appendToBuffer`. What `append` returns is not looked at. -/
def appendToBuffer (resp : HttpResponse) (Buffer : FixedBuffer) : Except Fault FixedBuffer := do
  let (_, Buffer) ← Buffer.appendPiece resp.statusLine
  let (_, Buffer) ← Buffer.appendPiece resp.connectionLine
  let (_, Buffer) ← Buffer.appendPiece resp.lengthLine
  let Buffer ← resp.Headers.entries.foldlM
    (fun Buffer pair => Prod.snd <$> Buffer.appendPiece (headerLine pair)) Buffer
  let (_, Buffer) ← Buffer.appendPiece crlf
  if resp.Body ≠ [] then
    let (_, Buffer) ← Buffer.appendPiece resp.Body
    return Buffer
  else return Buffer

/-- What `appendToBuffer` appends, piece by piece. -/
def pieces (resp : HttpResponse) : List (List UInt8) :=
  resp.statusLine :: resp.connectionLine :: resp.lengthLine ::
    (resp.Headers.entries.map headerLine ++ crlf :: if resp.Body ≠ [] then [resp.Body] else [])

/-- The response as a whole. -/
def text (resp : HttpResponse) : List UInt8 := resp.pieces.flatten

end HttpResponse

/-- Append pieces one after the other, whether or not each of them fits. -/
def appendAll (Buffer : FixedBuffer) (pieces : List (List UInt8)) : Except Fault FixedBuffer :=
  pieces.foldlM (fun Buffer piece => Prod.snd <$> Buffer.appendPiece piece) Buffer

theorem appendAll_cons (Buffer : FixedBuffer) (piece : List UInt8) (pieces : List (List UInt8)) :
    appendAll Buffer (piece :: pieces) =
      (do let (_, Buffer) ← Buffer.appendPiece piece; appendAll Buffer pieces) := by
  rw [appendAll, List.foldlM_cons]
  cases Buffer.appendPiece piece <;> rfl

theorem appendAll_append (Buffer : FixedBuffer) (pieces more : List (List UInt8)) :
    appendAll Buffer (pieces ++ more) =
      (do let Buffer ← appendAll Buffer pieces; appendAll Buffer more) :=
  List.foldlM_append

theorem HttpResponse.appendToBuffer_eq (resp : HttpResponse) (Buffer : FixedBuffer) :
    resp.appendToBuffer Buffer = appendAll Buffer resp.pieces := by
  have hlast : ∀ Buffer, appendAll Buffer (crlf :: if resp.Body ≠ [] then [resp.Body] else []) = (do
      let (_, Buffer) ← Buffer.appendPiece crlf
      if resp.Body ≠ [] then
        let (_, Buffer) ← Buffer.appendPiece resp.Body
        return Buffer
      else return Buffer) := by
    intro Buffer
    rw [appendAll_cons]
    by_cases hbody : resp.Body ≠ []
    · simp only [if_pos hbody, appendAll_cons]
      rfl
    · simp only [if_neg hbody]
      rfl
  simp only [pieces, appendAll_cons, appendAll_append, hlast]
  simp only [appendToBuffer, appendAll, List.foldlM_map]

/-- Pieces that fit together are all appended. -/
theorem appendAll_room {pieces : List (List UInt8)} {b : FixedBuffer} {consumed w free : List UInt8}
    (h : b.Holds consumed w free) (hroom : w.length + pieces.flatten.length ≤ kBufferSize) :
    ∃ b' consumed' free', appendAll b pieces = .ok b' ∧
      b'.Holds consumed' (w ++ pieces.flatten) free' := by
  induction pieces generalizing b consumed w free with
  | nil => exact ⟨b, consumed, free, rfl, by simpa using h⟩
  | cons piece pieces ih =>
    rw [List.flatten_cons, List.length_append] at hroom
    obtain ⟨b₁, consumed₁, free₁, happend, hb₁⟩ := h.appendPiece_room (s := piece) (by omega)
    obtain ⟨b', consumed', free', hall, hb'⟩ := ih hb₁ (by rw [List.length_append]; omega)
    refine ⟨b', consumed', free', ?_, by simpa using hb'⟩
    rw [appendAll_cons, happend]
    exact hall

/-- Whatever fits, the pointers stay in order. -/
theorem appendAll_valid {pieces : List (List UInt8)} {b : FixedBuffer} (h : b.Valid) :
    ∃ b', appendAll b pieces = .ok b' ∧ b'.Valid := by
  induction pieces generalizing b with
  | nil => exact ⟨b, rfl, h⟩
  | cons piece pieces ih =>
    obtain ⟨consumed, free, hb⟩ := h.holds
    obtain ⟨n, b₁, happend, hb₁⟩ := hb.appendPiece piece
    obtain ⟨b', hall, hb'⟩ := ih hb₁
    refine ⟨b', ?_, hb'⟩
    rw [appendAll_cons, happend]
    exact hall

namespace HttpResponse

/-- A response that fits is appended as a whole. -/
theorem appendToBuffer_room (resp : HttpResponse) {b : FixedBuffer} {consumed w free : List UInt8}
    (h : b.Holds consumed w free) (hroom : w.length + resp.text.length ≤ kBufferSize) :
    ∃ b' consumed' free', resp.appendToBuffer b = .ok b' ∧
      b'.Holds consumed' (w ++ resp.text) free' := by
  rw [appendToBuffer_eq]
  exact appendAll_room h hroom

theorem appendToBuffer_valid (resp : HttpResponse) {b : FixedBuffer} (h : b.Valid) :
    ∃ b', resp.appendToBuffer b = .ok b' ∧ b'.Valid := by
  rw [appendToBuffer_eq]
  exact appendAll_valid h

end HttpResponse

end KyrosWebServer.Http
