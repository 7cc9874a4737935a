import KyrosWebServer.HttpServer
import KyrosWebServer.ResponseText

/-!
# The file of a response

`openFile` sets a status, a length and a file. The status it leaves is always
the same one, a failed call leaves the file of an earlier one, and the length
goes through an `int` before it is printed, while the connection gets it as a
`size_t`.
-/

namespace KyrosWebServer.Http

open CMemory CString Base Net FixedBuffer

namespace HttpResponse

/-- The call of `openFile` on a path that is a file. -/
def withFile (resp : HttpResponse) (st : FileStat) : HttpResponse :=
  { resp with mFile := ⟨st.st_size, some st.mapped⟩, ContentLength := Int32.ofNat st.st_size,
              mStatusCode := CLIENT_ERROR_BAD_REQUEST }

/-- What a call does, by what `stat` reports. -/
theorem openFile_eq (resp : HttpResponse) (files : FileTable) (path : List UInt8) :
    resp.openFile files path =
      match files (content path) with
      | none => (.NO_FILE, resp.setStatusCode CLIENT_ERROR_BAD_REQUEST)
      | some st =>
        if ¬ st.S_IROTH then (.CANNOT_ACCESS, resp.setStatusCode CLIENT_ERROR_BAD_REQUEST)
        else if st.S_ISDIR then (.IS_DIR, resp.setStatusCode CLIENT_ERROR_BAD_REQUEST)
        else (.IS_FILE, resp.withFile st) := by
  rw [openFile, FileSystem.Open]
  cases files (content path) with
  | none => rfl
  | some st =>
    dsimp only
    split
    · rfl
    · split <;> rfl

/-- The last assignment of `openFile` decides the status. -/
theorem openFile_mStatusCode (resp : HttpResponse) (files : FileTable) (path : List UInt8) :
    (resp.openFile files path).2.mStatusCode = CLIENT_ERROR_BAD_REQUEST := rfl

/-- Calls of `openFile`, each with the files there are when it is made. -/
def openFiles (resp : HttpResponse) (calls : List (FileTable × List UInt8)) : HttpResponse :=
  calls.foldl (fun resp call => (resp.openFile call.1 call.2).2) resp

theorem openFiles_mStatusCode (resp : HttpResponse) {calls : List (FileTable × List UInt8)}
    (h : calls ≠ []) : (resp.openFiles calls).mStatusCode = CLIENT_ERROR_BAD_REQUEST := by
  induction calls generalizing resp with
  | nil => exact absurd rfl h
  | cons call calls ih =>
    cases calls with
    | nil => exact resp.openFile_mStatusCode call.1 call.2
    | cons next calls => exact ih _ (List.cons_ne_nil _ _)

/-- Before the first call any status is possible, afterwards only one. -/
theorem openFiles_mStatusCode_iff (resp : HttpResponse) (calls : List (FileTable × List UInt8)) :
    (resp.openFiles calls).mStatusCode = CLIENT_ERROR_BAD_REQUEST ↔
      calls ≠ [] ∨ resp.mStatusCode = CLIENT_ERROR_BAD_REQUEST := by
  cases calls with
  | nil => simp [openFiles]
  | cons call calls =>
    have hcalls : call :: calls ≠ [] := List.cons_ne_nil _ _
    exact ⟨fun _ => .inl hcalls, fun _ => resp.openFiles_mStatusCode hcalls⟩

/-- A call that finds a file attaches it whole, with its length and with the
status there was; a call that finds none says so and leaves no file. -/
def Coherent (resp : HttpResponse) (files : FileTable) (path : List UInt8) : Prop :=
  let resp' := (resp.openFile files path).2
  match (resp.openFile files path).1 with
  | .IS_FILE => resp'.mStatusCode = resp.mStatusCode ∧ resp'.hasFile = true ∧
      ∃ st, files (content path) = some st ∧ st.mapped.length = st.st_size ∧
        resp'.mFile = ⟨st.st_size, some st.mapped⟩ ∧ resp'.ContentLength.toInt = st.st_size
  | .CANNOT_ACCESS => resp'.mStatusCode = CLIENT_ERROR_FORBIDDEN ∧ resp'.hasFile = false
  | .NO_FILE => resp'.mStatusCode = CLIENT_ERROR_NOT_FOUND ∧ resp'.hasFile = false
  | .IS_DIR => True

/-- The length of a file survives the conversion to `int` below 2³¹. -/
theorem toInt_ofNat_iff {n : ℕ} (hn : n < 9223372036854775808) :
    (Int32.ofNat n).toInt = n ↔ n < 2147483648 := by
  have hlt := (Int32.ofNat n).toInt_lt
  constructor
  · intro h
    omega
  · intro h
    exact Int32.toInt_ofNat_of_lt h

/-- After any calls of `openFile` on a response, a last one leaves it coherent
exactly when it meets an accessible directory, or an accessible file that was
mapped and is shorter than 2³¹ bytes while the status was already the one that
`openFile` leaves. -/
theorem openFile_coherent_iff (resp : HttpResponse) (before : List (FileTable × List UInt8))
    (files : FileTable) (path : List UInt8) :
    (resp.openFiles before).Coherent files path ↔
      ∃ st, files (content path) = some st ∧ st.S_IROTH = true ∧
        (st.S_ISDIR = true ∨ st.st_size < 2147483648 ∧ st.mapped.length = st.st_size ∧
          (before ≠ [] ∨ resp.mStatusCode = CLIENT_ERROR_BAD_REQUEST)) := by
  rw [Coherent, openFile_eq]
  cases hstat : files (content path) with
  | none =>
    constructor
    · rintro ⟨hstatus, -⟩
      cases hstatus
    · rintro ⟨st, hst, -⟩
      cases hst
  | some st =>
    have hopened := resp.openFiles_mStatusCode_iff before
    dsimp only
    by_cases hread : st.S_IROTH = true
    · rw [if_neg (not_not_intro hread)]
      by_cases hdir : st.S_ISDIR = true
      · rw [if_pos hdir]
        exact ⟨fun _ => ⟨st, rfl, hread, .inl hdir⟩, fun _ => trivial⟩
      · rw [if_neg hdir]
        constructor
        · rintro ⟨hstatus, -, st', hst, hmapped, -, hlength⟩
          cases hst
          have hshort := (toInt_ofNat_iff st.st_size_lt).mp hlength
          exact ⟨st, rfl, hread, .inr ⟨hshort, hmapped, hopened.mp hstatus.symm⟩⟩
        · rintro ⟨st', hst, -, hfile⟩
          cases hst
          obtain ⟨hshort, hmapped, hstatus⟩ := hfile.resolve_left hdir
          exact ⟨(hopened.mpr hstatus).symm, rfl, st, rfl, hmapped, rfl,
            (toInt_ofNat_iff st.st_size_lt).mpr hshort⟩
    · rw [if_pos hread]
      constructor
      · rintro ⟨hstatus, -⟩
        cases hstatus
      · rintro ⟨st', hst, hread', -⟩
        cases hst
        exact absurd hread' hread

/-- A table with one file, `a`, of two bytes. -/
def oneFile : FileTable := fun path =>
  if path = [97] then some ⟨true, false, 2, [104, 105], by decide, .inr rfl⟩ else none

/-- A failed call leaves the file of the one before it, and another status than
the one for a file that does not exist. -/
theorem openFile_keeps_file :
    let resp := create.openFiles [(oneFile, [97])]
    (resp.openFile oneFile [98]).1 = .NO_FILE ∧ (resp.openFile oneFile [98]).2.hasFile = true ∧
      ¬ resp.Coherent oneFile [98] := by
  intro resp
  refine ⟨rfl, rfl, ?_⟩
  rintro ⟨hstatus, -⟩
  cases hstatus

/-- The response with a file, written into a buffer, announces as many bytes as
the connection is told to send. -/
def FramesFile (resp : HttpResponse) (b : FixedBuffer) (conn : Connection) : Prop :=
  ∃ b' more, resp.appendToBuffer b = .ok b' ∧
    b'.unread = b.unread ++ (resp.statusLine ++ resp.connectionLine ++
      (ascii "Content-Length".toList ++ 58 ::
        (decimal (setFile conn resp.mFile).m_iv1.iov_len ++ crlf)) ++ more)

theorem decimalInt_natCast (n : ℕ) : decimalInt n = decimal n := by
  rw [decimalInt, if_neg (by omega), Int.natAbs_natCast]

/-- `openFile` answers `IS_FILE` with the response it has given the file. -/
theorem openFile_isFile {resp : HttpResponse} {files : FileTable} {path : List UInt8}
    {st : FileStat} (hstat : files (content path) = some st)
    (hopen : (resp.openFile files path).1 = .IS_FILE) :
    (resp.openFile files path).2 = resp.withFile st := by
  rw [openFile_eq, hstat] at hopen ⊢
  dsimp only at hopen ⊢
  split at hopen
  · cases hopen
  · rename_i hread
    split at hopen
    · cases hopen
    · rename_i hdir
      rw [if_neg hread, if_neg hdir]

/-- The line with the length tells the truth when the `int` is the number of
bytes attached. -/
theorem framesFile_iff_length (resp : HttpResponse) {b : FixedBuffer} (hb : b.Valid)
    (hroom : resp.text.length ≤ b.avail) (conn : Connection) :
    resp.FramesFile b conn ↔
      resp.ContentLength.toInt = (setFile conn resp.mFile).m_iv1.iov_len := by
  obtain ⟨consumed, free, h⟩ := hb.holds
  have hl := h.length_eq
  rw [h.avail_eq] at hroom
  obtain ⟨b₁, _, _, happend, hb₁⟩ := resp.appendToBuffer_room h (by omega)
  constructor
  · rintro ⟨b', more, happend', hunread⟩
    rw [happend] at happend'
    cases happend'
    rw [hb₁.unread_eq, resp.text_eq, lengthLine_eq] at hunread
    simp only [List.append_assoc, List.cons_append, List.append_cancel_left_eq, List.cons.injEq,
      true_and] at hunread
    -- both numbers end at the CR
    have hdigits := (append_cons_inj (cr_notMem_decimalInt _)
      (by rw [← decimalInt_natCast]; exact cr_notMem_decimalInt _) hunread).1
    rw [← decimalInt_natCast] at hdigits
    exact decimalInt_inj hdigits
  · intro hsame
    refine ⟨b₁, (resp.Headers.entries.map headerLine).flatten ++ (crlf ++ resp.Body), happend, ?_⟩
    rw [hb₁.unread_eq, resp.text_eq, lengthLine_eq, hsame, decimalInt_natCast]
    simp only [List.append_assoc, List.cons_append]

/-- For every file that is opened, and whatever the response was before, the
announced number is the number of bytes attached exactly when that is below
2³¹. -/
theorem framesFile_iff (resp : HttpResponse) {files : FileTable} {path : List UInt8}
    {st : FileStat} (hstat : files (content path) = some st)
    (hopen : (resp.openFile files path).1 = .IS_FILE) {b : FixedBuffer} (hb : b.Valid)
    (hroom : (resp.openFile files path).2.text.length ≤ b.avail) (conn : Connection) :
    (resp.openFile files path).2.FramesFile b conn ↔ st.st_size < 2147483648 := by
  rw [framesFile_iff_length _ hb hroom, openFile_isFile hstat hopen]
  exact toInt_ofNat_iff st.st_size_lt

/-- A file of two bytes into a new buffer. -/
theorem framesFile_iff_short :
    (create.openFile oneFile [97]).2.FramesFile blank (Connection.create blank blank) ↔
      2 < 2147483648 := by
  have hstat : oneFile (content [97]) = some ⟨true, false, 2, [104, 105], by decide, .inr rfl⟩ := rfl
  exact create.framesFile_iff hstat rfl (create_holds _ length_zeros).valid (by decide +kernel) _

/-- A table with one file, `a`, of 2³¹ bytes. -/
def longFile : FileTable := fun path =>
  if path = [97] then
    some ⟨true, false, 2147483648, List.replicate 2147483648 0, by decide, .inr List.length_replicate⟩
  else none

/-- A file of 2³¹ bytes is announced with a negative length. -/
theorem openFile_misframes :
    let resp := (create.openFile longFile [97]).2
    (create.openFile longFile [97]).1 = .IS_FILE ∧ resp.text.length ≤ blank.avail ∧
      (setFile (Connection.create blank blank) resp.mFile).m_iv1.iov_len = 2147483648 ∧
      resp.lengthLine = ascii "Content-Length:-2147483648".toList ++ crlf ∧
      ¬ resp.FramesFile blank (Connection.create blank blank) := by
  intro resp
  have hroom : resp.text.length ≤ blank.avail := by decide +kernel
  refine ⟨rfl, hroom, rfl, by decide +kernel, fun hframes => ?_⟩
  have hlength := (resp.framesFile_iff_length (create_holds _ length_zeros).valid hroom _).mp hframes
  revert hlength
  decide +kernel

end HttpResponse

end KyrosWebServer.Http
