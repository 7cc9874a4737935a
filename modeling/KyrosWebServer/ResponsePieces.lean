import KyrosWebServer.ResponseText

/-!
# Whole lines and no holes

A header line goes through an array of 128 bytes and loses what is behind the
first 127 of them. A piece that a buffer refuses is passed over, and a later
one may still go in. Both are decided by lengths alone.
-/

namespace KyrosWebServer.Http

open CMemory CString Base Net FixedBuffer

/-- The sizes of pieces that fit one after the other. -/
def totalSize (pieces : List (List UInt8)) : ℕ := (pieces.map pieceSize).sum

/-- What was skipped is never made up for: the bytes admitted are those of the
first few pieces. -/
def NoHoles (room : ℕ) (pieces : List (List UInt8)) : Prop :=
  ∃ k, admitted room pieces = ((pieces.take k).map taken).flatten

theorem length_admitted_le {room : ℕ} (hroom : room ≤ kBufferSize) (pieces : List (List UInt8)) :
    (admitted room pieces).length ≤ room := by
  induction pieces generalizing room with
  | nil => exact Nat.zero_le _
  | cons piece pieces ih =>
    by_cases hfits : pieceSize piece ≤ room
    · have hrest : (admitted (room - pieceSize piece) pieces).length ≤ room - pieceSize piece :=
        ih (by omega)
      rw [admitted, if_pos hfits, List.length_append, length_taken (by omega)]
      omega
    · rw [admitted, if_neg hfits]
      exact ih hroom

/-- A piece that is refused has more bytes than there is room. -/
theorem lt_length_taken {room : ℕ} {piece : List UInt8} (hroom : room ≤ kBufferSize)
    (h : room < pieceSize piece) : room < (taken piece).length := by
  have hk := kBufferSize_eq
  rw [taken, List.length_take]
  by_cases hlen : piece.length < 2147483648
  · rw [pieceSize_eq hlen] at h ⊢
    omega
  · omega

/-- Pieces that fit together are admitted, and the rest finds the room they leave. -/
theorem admitted_append {room : ℕ} {fit : List (List UInt8)} (h : totalSize fit ≤ room)
    (rest : List (List UInt8)) :
    admitted room (fit ++ rest) = (fit.map taken).flatten ++ admitted (room - totalSize fit) rest := by
  induction fit generalizing room with
  | nil => rfl
  | cons piece fit ih =>
    have hsum : totalSize (piece :: fit) = pieceSize piece + totalSize fit := rfl
    rw [hsum] at h ⊢
    rw [List.cons_append, admitted, if_pos (by omega), ih (by omega), List.map_cons,
      List.flatten_cons, List.append_assoc, Nat.sub_add_eq]

theorem length_flatten_taken {room : ℕ} (hroom : room ≤ kBufferSize) {fit : List (List UInt8)}
    (h : totalSize fit ≤ room) : (fit.map taken).flatten.length = totalSize fit := by
  induction fit with
  | nil => rfl
  | cons piece fit ih =>
    have hsum : totalSize (piece :: fit) = pieceSize piece + totalSize fit := rfl
    rw [hsum] at h ⊢
    rw [List.map_cons, List.flatten_cons, List.length_append, length_taken (by omega),
      ih (by omega)]

/-- Either all pieces fit, or there is a first one that does not. -/
theorem exists_first_refused (room : ℕ) (pieces : List (List UInt8)) :
    totalSize pieces ≤ room ∨ ∃ fit piece rest, pieces = fit ++ piece :: rest ∧
      totalSize fit ≤ room ∧ room < totalSize fit + pieceSize piece := by
  induction pieces generalizing room with
  | nil => exact .inl (Nat.zero_le _)
  | cons first pieces ih =>
    by_cases hfits : pieceSize first ≤ room
    · rcases ih (room - pieceSize first) with hall | ⟨fit, piece, rest, rfl, hfit, hlt⟩
      · left
        change pieceSize first + totalSize pieces ≤ room
        omega
      · right
        refine ⟨first :: fit, piece, rest, rfl, ?_, ?_⟩
        · change pieceSize first + totalSize fit ≤ room
          omega
        · change room < pieceSize first + totalSize fit + pieceSize piece
          omega
    · right
      refine ⟨[], first, pieces, rfl, Nat.zero_le _, ?_⟩
      change room < 0 + pieceSize first
      omega

/-- Behind the first refused piece nothing may go in. -/
theorem noHoles_iff_of_refused {room : ℕ} (hroom : room ≤ kBufferSize)
    {fit rest : List (List UInt8)} {piece : List UInt8} (hfit : totalSize fit ≤ room)
    (hlt : room < totalSize fit + pieceSize piece) :
    NoHoles room (fit ++ piece :: rest) ↔ admitted (room - totalSize fit) rest = [] := by
  have hrefused : ¬ pieceSize piece ≤ room - totalSize fit := by omega
  have hadmitted : admitted room (fit ++ piece :: rest) =
      (fit.map taken).flatten ++ admitted (room - totalSize fit) rest := by
    rw [admitted_append hfit, admitted, if_neg hrefused]
  have hlen := length_flatten_taken hroom hfit
  have hmore : (admitted (room - totalSize fit) rest).length ≤ room - totalSize fit :=
    length_admitted_le (by omega) rest
  have hlong : room - totalSize fit < (taken piece).length :=
    lt_length_taken (by omega) (by omega)
  constructor
  · rintro ⟨k, hk⟩
    have hsize := congrArg List.length hk
    rw [hadmitted, List.length_append] at hsize
    apply List.eq_nil_of_length_eq_zero
    by_cases hle : k ≤ fit.length
    · -- no more than the pieces that fit
      have hsplit : (fit.map taken).flatten =
          ((fit.take k).map taken).flatten ++ ((fit.drop k).map taken).flatten := by
        rw [← List.flatten_append, ← List.map_append, List.take_append_drop]
      have hall := congrArg List.length hsplit
      rw [List.length_append] at hall
      rw [List.take_append_of_le_length hle] at hsize
      omega
    · obtain ⟨j, rfl⟩ : ∃ j, k = fit.length + (j + 1) := ⟨k - fit.length - 1, by omega⟩
      rw [List.take_length_add_append, List.take_succ_cons, List.map_append, List.flatten_append,
        List.map_cons, List.flatten_cons, List.length_append, List.length_append] at hsize
      omega
  · intro hnone
    refine ⟨fit.length, ?_⟩
    rw [hadmitted, hnone, List.append_nil, List.take_left]

/-- Pieces that fit open no hole in front of the rest. -/
theorem NoHoles.append {room : ℕ} {fit rest : List (List UInt8)} (hfit : totalSize fit ≤ room)
    (h : NoHoles (room - totalSize fit) rest) : NoHoles room (fit ++ rest) := by
  obtain ⟨k, hk⟩ := h
  refine ⟨fit.length + k, ?_⟩
  rw [admitted_append hfit, hk, List.take_length_add_append, List.map_append, List.flatten_append]

/-- Pieces of usual lengths are as long as `append` takes them to be. -/
theorem totalSize_eq {pieces : List (List UInt8)}
    (h : ∀ piece ∈ pieces, piece.length < 2147483648) :
    totalSize pieces = pieces.flatten.length := by
  induction pieces with
  | nil => rfl
  | cons piece pieces ih =>
    obtain ⟨hfirst, hrest⟩ := List.forall_mem_cons.mp h
    rw [List.flatten_cons, List.length_append, ← ih hrest, ← pieceSize_eq hfirst]
    rfl

/-- Leading pieces stay within the first ones or go past the next one. -/
theorem length_flatten_take_le (fit : List (List UInt8)) (piece : List UInt8)
    (rest : List (List UInt8)) (i : ℕ) :
    ((fit ++ piece :: rest).take i).flatten.length ≤ fit.flatten.length ∨
      fit.flatten.length + piece.length ≤ ((fit ++ piece :: rest).take i).flatten.length := by
  by_cases hle : i ≤ fit.length
  · left
    have hsplit : fit.flatten = (fit.take i).flatten ++ (fit.drop i).flatten := by
      rw [← List.flatten_append, List.take_append_drop]
    rw [List.take_append_of_le_length hle, hsplit, List.length_append]
    omega
  · right
    obtain ⟨j, rfl⟩ : ∃ j, i = fit.length + (j + 1) := ⟨i - fit.length - 1, by omega⟩
    rw [List.take_length_add_append, List.take_succ_cons, List.flatten_append, List.flatten_cons,
      List.length_append, List.length_append]
    omega

/-- The last item is behind an item, or it is the item. -/
theorem eq_or_mem_of_getLast? {fit rest : List (List UInt8)} {piece last : List UInt8}
    (h : (fit ++ piece :: rest).getLast? = some last) : piece = last ∨ last ∈ rest := by
  rw [List.getLast?_append] at h
  cases rest with
  | nil => exact .inl (Option.some.inj h)
  | cons next rest =>
    rw [List.getLast?_cons_cons] at h
    cases hnext : (next :: rest).getLast? with
    | none => exact absurd (List.getLast?_eq_none_iff.mp hnext) (List.cons_ne_nil _ _)
    | some x =>
      rw [hnext] at h
      cases h
      exact .inr (List.mem_of_getLast? hnext)

/-- A piece that still fits goes in, unless it is empty. -/
theorem admitted_eq_nil {room : ℕ} (hroom : room ≤ kBufferSize) {pieces : List (List UInt8)}
    (h : admitted room pieces = []) {piece : List UInt8} (hpiece : piece ∈ pieces) :
    pieceSize piece = 0 ∨ room < pieceSize piece := by
  induction pieces generalizing room with
  | nil => cases hpiece
  | cons first pieces ih =>
    by_cases hfits : pieceSize first ≤ room
    · rw [admitted, if_pos hfits, List.append_eq_nil_iff] at h
      have hempty : pieceSize first = 0 := by
        rw [← length_taken (by omega), h.1, List.length_nil]
      rcases List.mem_cons.mp hpiece with rfl | hpiece
      · exact .inl hempty
      · rw [hempty, Nat.sub_zero] at h
        exact ih hroom h.2 hpiece
    · rw [admitted, if_neg hfits] at h
      rcases List.mem_cons.mp hpiece with rfl | hpiece
      · exact .inr (by omega)
      · exact ih hroom h hpiece

/-- Pieces that are all too long change nothing. -/
theorem admitted_of_long {room : ℕ} {long : List (List UInt8)}
    (h : ∀ piece ∈ long, room < pieceSize piece) (rest : List (List UInt8)) :
    admitted room (long ++ rest) = admitted room rest := by
  induction long with
  | nil => rfl
  | cons piece long ih =>
    obtain ⟨hfirst, hlong⟩ := List.forall_mem_cons.mp h
    rw [List.cons_append, admitted, if_neg (by omega), ih hlong]

/-- A header line: key, colon, value and the end of the line. -/
def rawLine (pair : List UInt8 × List UInt8) : List UInt8 := pair.1 ++ 58 :: (pair.2 ++ crlf)

/-- The same for strings that `%s` prints. -/
def printedLine (pair : List UInt8 × List UInt8) : List UInt8 :=
  rawLine (content pair.1, content pair.2)

namespace HttpResponse

/-- The head, line by line and uncut, with the blank line. -/
def headPieces (resp : HttpResponse) (line : List UInt8 × List UInt8 → List UInt8) :
    List (List UInt8) :=
  (ascii "HTTP/1.1 ".toList ++ decimal resp.mStatusCode.value ++
      32 :: kStatusMessage resp.mStatusCode ++ crlf) ::
    resp.connectionLine ::
    (ascii "Content-Length".toList ++ 58 :: (decimalInt resp.ContentLength.toInt ++ crlf)) ::
    (resp.Headers.entries.map line ++ [crlf])

/-- The body, if there is one. -/
def bodyPieces (resp : HttpResponse) : List (List UInt8) := if resp.Body ≠ [] then [resp.Body] else []

/-- The full serialisation: the head, then the body. -/
def serialisation (resp : HttpResponse) (line : List UInt8 × List UInt8 → List UInt8) :
    List UInt8 := (resp.headPieces line).flatten ++ resp.Body

theorem flatten_bodyPieces (resp : HttpResponse) : resp.bodyPieces.flatten = resp.Body := by
  by_cases h : resp.Body = []
  · simp [bodyPieces, h]
  · simp [bodyPieces, h]

/-- What `snprintf` prints of a header is the line or its first 127 bytes. -/
theorem headerLine_eq (pair : List UInt8 × List UInt8) :
    headerLine pair = (printedLine pair).take 127 := by
  rw [headerLine, snprintf, printedLine, rawLine, List.append_assoc, List.cons_append]

theorem printedLine_eq {pair : List UInt8 × List UInt8} (hkey : 0 ∉ pair.1) (hval : 0 ∉ pair.2) :
    printedLine pair = rawLine pair := by
  rw [printedLine, content_eq_self hkey, content_eq_self hval]

/-- The pieces are those of the serialisation, with the header lines cut. -/
theorem pieces_eq (resp : HttpResponse) :
    resp.pieces = resp.headPieces (fun pair => (printedLine pair).take 127) ++ resp.bodyPieces := by
  rw [pieces, statusLine_eq, lengthLine_eq, headPieces, bodyPieces]
  rw [List.map_congr_left fun pair _ => headerLine_eq pair]
  simp only [List.cons_append, List.append_assoc, List.nil_append]

/-- The header lines stand between the first three lines and the blank one. -/
theorem flatten_headPieces (resp : HttpResponse) : ∃ front : List UInt8, ∀ line,
    (resp.headPieces line).flatten = front ++ ((resp.Headers.entries.map line).flatten ++ crlf) := by
  refine ⟨((resp.headPieces rawLine).take 3).flatten, fun line => ?_⟩
  simp only [headPieces, List.take_succ_cons, List.take_zero, List.flatten_cons,
    List.flatten_append, List.flatten_nil, List.append_nil, List.append_assoc, List.cons_append]

end HttpResponse

/-- Cutting lines leaves at most as many bytes, and fewer unless none is cut. -/
theorem length_flatten_take (n : ℕ) (lines : List (List UInt8)) :
    (lines.map (List.take n)).flatten.length ≤ lines.flatten.length ∧
      ((lines.map (List.take n)).flatten.length = lines.flatten.length →
        ∀ line ∈ lines, line.length ≤ n) := by
  induction lines with
  | nil => exact ⟨Nat.le_refl _, by simp⟩
  | cons line lines ih =>
    simp only [List.map_cons, List.flatten_cons, List.length_append, List.length_take,
      List.forall_mem_cons]
    refine ⟨by omega, fun heq => ⟨by omega, ih.2 (by omega)⟩⟩

namespace HttpResponse

/-- The text of a response and its serialisation differ in the cut lines. -/
theorem text_split (resp : HttpResponse)
    (hstrings : ∀ pair ∈ resp.Headers.entries, (0 : UInt8) ∉ pair.1 ∧ (0 : UInt8) ∉ pair.2) :
    ∃ front : List UInt8,
      resp.text = front ++
        (((resp.Headers.entries.map rawLine).map (List.take 127)).flatten ++ crlf) ++ resp.Body ∧
      resp.serialisation rawLine =
        front ++ ((resp.Headers.entries.map rawLine).flatten ++ crlf) ++ resp.Body := by
  obtain ⟨front, hfront⟩ := resp.flatten_headPieces
  refine ⟨front, ?_, by rw [serialisation, hfront]⟩
  have hlines : resp.Headers.entries.map (fun pair => (printedLine pair).take 127) =
      (resp.Headers.entries.map rawLine).map (List.take 127) := by
    rw [List.map_map]
    apply List.map_congr_left
    intro pair hpair
    rw [printedLine_eq (hstrings pair hpair).1 (hstrings pair hpair).2]
    rfl
  rw [text, pieces_eq, List.flatten_append, flatten_bodyPieces, hfront, hlines]

/-- They are the same when no line is cut, and only then. -/
theorem text_eq_iff (resp : HttpResponse)
    (hstrings : ∀ pair ∈ resp.Headers.entries, (0 : UInt8) ∉ pair.1 ∧ (0 : UInt8) ∉ pair.2) :
    resp.text = resp.serialisation rawLine ↔
      ∀ pair ∈ resp.Headers.entries, (rawLine pair).length < 128 := by
  obtain ⟨front, htext, hwhole⟩ := resp.text_split hstrings
  have hcut := length_flatten_take 127 (resp.Headers.entries.map rawLine)
  constructor
  · intro heq
    have hlen := congrArg List.length heq
    simp only [htext, hwhole, List.length_append] at hlen
    have hlines := hcut.2 (by omega)
    intro pair hpair
    exact Nat.lt_succ_of_le (hlines _ (List.mem_map_of_mem hpair))
  · intro hshort
    have hlines : (resp.Headers.entries.map rawLine).map (List.take 127) =
        resp.Headers.entries.map rawLine := by
      rw [List.map_map]
      exact List.map_congr_left fun pair hpair =>
        List.take_of_length_le (Nat.le_of_lt_succ (hshort pair hpair))
    rw [htext, hwhole, hlines]

/-- Where the serialisation has room, the text is appended. -/
theorem appendToBuffer_text (resp : HttpResponse)
    (hstrings : ∀ pair ∈ resp.Headers.entries, (0 : UInt8) ∉ pair.1 ∧ (0 : UInt8) ∉ pair.2)
    {b : FixedBuffer} (hb : b.Valid) (hroom : (resp.serialisation rawLine).length ≤ b.avail) :
    ∃ b', resp.appendToBuffer b = .ok b' ∧ b'.Valid ∧ b'.unread = b.unread ++ resp.text := by
  obtain ⟨consumed, free, h⟩ := hb.holds
  obtain ⟨front, htext, hwhole⟩ := resp.text_split hstrings
  have hcut := (length_flatten_take 127 (resp.Headers.entries.map rawLine)).1
  have hshorter : resp.text.length ≤ (resp.serialisation rawLine).length := by
    simp only [htext, hwhole, List.length_append]
    omega
  have hl := h.length_eq
  rw [h.avail_eq] at hroom
  obtain ⟨b', consumed', free', happend, hb'⟩ := resp.appendToBuffer_room h (by omega)
  exact ⟨b', happend, hb'.valid, hb'.unread_eq⟩

/-- A buffer with room for the serialisation of a response gets exactly that
when every header line has less than 128 bytes, and otherwise does not. -/
theorem appendToBuffer_whole_iff (resp : HttpResponse)
    (hstrings : ∀ pair ∈ resp.Headers.entries, (0 : UInt8) ∉ pair.1 ∧ (0 : UInt8) ∉ pair.2)
    {b : FixedBuffer} (hb : b.Valid) (hroom : (resp.serialisation rawLine).length ≤ b.avail) :
    (∃ b', resp.appendToBuffer b = .ok b' ∧ b'.Valid ∧
        b'.unread = b.unread ++ resp.serialisation rawLine) ↔
      ∀ pair ∈ resp.Headers.entries, (rawLine pair).length < 128 := by
  obtain ⟨b₁, happend, hb₁, hunread⟩ := resp.appendToBuffer_text hstrings hb hroom
  rw [← resp.text_eq_iff hstrings]
  constructor
  · rintro ⟨b', happend', -, hwhole⟩
    rw [happend] at happend'
    cases happend'
    rw [hunread] at hwhole
    exact List.append_cancel_left hwhole
  · intro htext
    exact ⟨b₁, happend, hb₁, by rw [hunread, htext]⟩

/-- One short header into a new buffer. -/
theorem appendToBuffer_whole_iff_short :
    (∃ b', (create.setHeader [107] [118]).appendToBuffer blank = .ok b' ∧ b'.Valid ∧
        b'.unread = blank.unread ++ (create.setHeader [107] [118]).serialisation rawLine) ↔
      ∀ pair ∈ (create.setHeader [107] [118]).Headers.entries, (rawLine pair).length < 128 := by
  apply appendToBuffer_whole_iff _ ?_ (create_holds _ length_zeros).valid (by decide +kernel)
  intro pair hpair
  rw [List.mem_singleton.mp hpair]
  decide

/-- A header of one and 126 bytes loses its CR and LF. -/
theorem appendToBuffer_cuts :
    let resp := create.setHeader [107] (List.replicate 126 97)
    (∀ pair ∈ resp.Headers.entries, (0 : UInt8) ∉ pair.1 ∧ (0 : UInt8) ∉ pair.2) ∧
      (resp.serialisation rawLine).length ≤ blank.avail ∧
      ¬ ∃ b', resp.appendToBuffer blank = .ok b' ∧ b'.Valid ∧
        b'.unread = blank.unread ++ resp.serialisation rawLine := by
  intro resp
  have hstrings : ∀ pair ∈ resp.Headers.entries, (0 : UInt8) ∉ pair.1 ∧ (0 : UInt8) ∉ pair.2 := by
    intro pair hpair
    rw [List.mem_singleton.mp hpair]
    decide
  have hroom : (resp.serialisation rawLine).length ≤ blank.avail := by decide +kernel
  refine ⟨hstrings, hroom, ?_⟩
  rintro ⟨b', happend, -, hwhole⟩
  obtain ⟨b₁, happend₁, -, htext⟩ :=
    resp.appendToBuffer_text hstrings (create_holds _ length_zeros).valid hroom
  have hsame : b₁ = b' := Except.ok.inj (happend₁.symm.trans happend)
  rw [hsame, hwhole] at htext
  have hcut := (resp.text_eq_iff hstrings).mp (List.append_cancel_left htext).symm
  have hlong := hcut (_, _) (List.mem_singleton.mpr rfl)
  exact absurd hlong (by decide +kernel)

/-- With short header lines, the pieces are those of the serialisation. -/
theorem pieces_eq_of_short (resp : HttpResponse)
    (hshort : ∀ pair ∈ resp.Headers.entries, (printedLine pair).length < 128) :
    resp.pieces = resp.headPieces printedLine ++ resp.bodyPieces := by
  have hlines : resp.Headers.entries.map (fun pair => (printedLine pair).take 127) =
      resp.Headers.entries.map printedLine := by
    apply List.map_congr_left
    intro pair hpair
    exact List.take_of_length_le (Nat.le_of_lt_succ (hshort pair hpair))
  rw [pieces_eq, headPieces, hlines]
  rfl

/-- No line of the head is shorter than its CR and LF, and none is long. -/
theorem length_headPieces (resp : HttpResponse)
    (hshort : ∀ pair ∈ resp.Headers.entries, (printedLine pair).length < 128) :
    ∀ piece ∈ resp.headPieces printedLine, 2 ≤ piece.length ∧ piece.length < 2147483648 := by
  have hdigits := length_decimalInt_le (x := resp.ContentLength)
  have hname : (ascii "Content-Length".toList).length = 14 := by decide
  have hcrlf : crlf.length = 2 := rfl
  rw [headPieces, List.forall_mem_cons, List.forall_mem_cons, List.forall_mem_cons,
    List.forall_mem_append, List.forall_mem_singleton, List.forall_mem_map]
  refine ⟨?_, ?_, ?_, ?_, ?_⟩
  · cases resp.mStatusCode <;> decide +kernel
  · rw [connectionLine]
    split <;> decide +kernel
  · simp only [List.length_append, List.length_cons, hname, hcrlf]
    omega
  · intro pair hpair
    have hlen := hshort pair hpair
    simp only [printedLine, rawLine, List.length_append, List.length_cons, hcrlf] at hlen ⊢
    omega
  · omega

/-- The blank line ends the head. -/
theorem getLast?_headPieces (resp : HttpResponse)
    (line : List UInt8 × List UInt8 → List UInt8) :
    (resp.headPieces line).getLast? = some crlf := by
  rw [headPieces, ← List.cons_append, ← List.cons_append, ← List.cons_append]
  exact List.getLast?_concat ..

/-- The body goes in as far as its length as an `int` tells, or not at all. -/
theorem admitted_bodyPieces (resp : HttpResponse) (room : ℕ) :
    admitted room resp.bodyPieces = if pieceSize resp.Body ≤ room then taken resp.Body else [] := by
  rw [bodyPieces]
  by_cases hbody : resp.Body ≠ []
  · simp only [if_pos hbody, admitted, List.append_nil]
  · have hempty : resp.Body = [] := Classical.not_not.mp hbody
    rw [if_neg hbody, hempty, taken, List.take_nil, ite_self, admitted]

/-- A body alone leaves no hole. -/
theorem noHoles_bodyPieces (resp : HttpResponse) (room : ℕ) : NoHoles room resp.bodyPieces := by
  by_cases hfits : pieceSize resp.Body ≤ room
  · refine ⟨1, ?_⟩
    rw [admitted_bodyPieces, if_pos hfits, bodyPieces]
    by_cases hbody : resp.Body ≠ []
    · rw [if_pos hbody]
      simp
    · have hempty : resp.Body = [] := Classical.not_not.mp hbody
      rw [if_neg hbody, hempty]
      rfl
  · refine ⟨0, ?_⟩
    rw [admitted_bodyPieces, if_neg hfits]
    rfl

/-- The head fits, or its first lines leave no byte of the room, or one that
the body does not go into. -/
def StopsClean (resp : HttpResponse) (room : ℕ) : Prop :=
  (resp.headPieces printedLine).flatten.length ≤ room ∨
    ∃ i, ((resp.headPieces printedLine).take i).flatten.length = room ∨
      ((resp.headPieces printedLine).take i).flatten.length + 1 = room ∧ pieceSize resp.Body ≠ 1

/-- Behind a refused line the blank line goes into two bytes, and a body of one
byte into one. -/
theorem noHoles_iff_stopsClean (resp : HttpResponse)
    (hshort : ∀ pair ∈ resp.Headers.entries, (printedLine pair).length < 128) {room : ℕ}
    (hroom : room ≤ kBufferSize) :
    NoHoles room (resp.headPieces printedLine ++ resp.bodyPieces) ↔ resp.StopsClean room := by
  have hlengths := resp.length_headPieces hshort
  have hlast := resp.getLast?_headPieces printedLine
  unfold StopsClean
  generalize resp.headPieces printedLine = head at hlengths hlast ⊢
  rcases exists_first_refused room head with hall | ⟨fit, piece, rest, rfl, hfit, hlt⟩
  · -- only the body can be refused
    have hsize := totalSize_eq fun piece hpiece => (hlengths piece hpiece).2
    exact ⟨fun _ => .inl (by omega), fun _ => .append hall (resp.noHoles_bodyPieces _)⟩
  · rw [List.append_assoc, List.cons_append, noHoles_iff_of_refused hroom hfit hlt]
    have hsmall : ∀ piece ∈ fit, piece.length < 2147483648 := fun piece hpiece =>
      (hlengths piece (List.mem_append_left _ hpiece)).2
    have hpiece := hlengths piece (List.mem_append_right _ List.mem_cons_self)
    have hsize := totalSize_eq hsmall
    rw [pieceSize_eq hpiece.2] at hlt
    constructor
    · intro hnone
      have hroom₁ : room - totalSize fit ≤ 1 := by
        rcases eq_or_mem_of_getLast? hlast with rfl | hblank
        · change room < totalSize fit + 2 at hlt
          omega
        · have hline := admitted_eq_nil (by omega) hnone (List.mem_append_left _ hblank)
          change 2 = 0 ∨ room - totalSize fit < 2 at hline
          omega
      refine .inr ⟨fit.length, ?_⟩
      rw [List.take_left, ← hsize]
      by_cases hfull : totalSize fit = room
      · exact .inl hfull
      · refine .inr ⟨by omega, fun hone => ?_⟩
        have hbody : resp.Body ≠ [] := fun hempty => by
          rw [hempty] at hone
          cases hone
        have hmem : resp.Body ∈ resp.bodyPieces := by
          rw [bodyPieces, if_pos hbody]
          exact List.mem_singleton.mpr rfl
        have hrefused := admitted_eq_nil (by omega) hnone (List.mem_append_right _ hmem)
        omega
    · intro hclean
      have hleft : room - totalSize fit = 0 ∨
          room - totalSize fit = 1 ∧ pieceSize resp.Body ≠ 1 := by
        rcases hclean with hall | ⟨i, hi⟩
        · rw [List.flatten_append, List.flatten_cons, List.length_append, List.length_append] at hall
          omega
        · have htake := length_flatten_take_le fit piece rest i
          omega
      have hlong : ∀ piece ∈ rest, room - totalSize fit < pieceSize piece := by
        intro long hlong
        have hlen := hlengths long (List.mem_append_right _ (List.mem_cons_of_mem _ hlong))
        rw [pieceSize_eq hlen.2]
        omega
      rw [admitted_of_long hlong, admitted_bodyPieces]
      split
      · have hempty : pieceSize resp.Body = 0 := by omega
        rw [taken, hempty, List.take_zero]
      · rfl

/-- The first few pieces are the beginning of the serialisation. -/
theorem flatten_take_isPrefix (resp : HttpResponse)
    (hshort : ∀ pair ∈ resp.Headers.entries, (printedLine pair).length < 128) (k : ℕ) :
    (((resp.headPieces printedLine ++ resp.bodyPieces).take k).map taken).flatten <+:
      resp.serialisation printedLine := by
  have hsame : ∀ pieces : List (List UInt8), (∀ piece ∈ pieces, piece ∈ resp.headPieces printedLine) →
      pieces.map taken = pieces := by
    intro pieces hpieces
    have hlines : ∀ piece ∈ pieces, taken piece = piece := fun piece hpiece =>
      taken_eq (resp.length_headPieces hshort piece (hpieces piece hpiece)).2
    exact (List.map_congr_left hlines).trans (List.map_id' _)
  rw [serialisation]
  by_cases hle : k ≤ (resp.headPieces printedLine).length
  · rw [List.take_append_of_le_length hle, hsame _ fun piece hpiece => List.mem_of_mem_take hpiece]
    have hhead := List.take_append_drop k (resp.headPieces printedLine)
    refine ⟨((resp.headPieces printedLine).drop k).flatten ++ resp.Body, ?_⟩
    rw [← List.append_assoc, ← List.flatten_append, hhead]
  · obtain ⟨j, rfl⟩ : ∃ j, k = (resp.headPieces printedLine).length + j :=
      ⟨k - (resp.headPieces printedLine).length, by omega⟩
    rw [List.take_length_add_append, List.map_append, List.flatten_append,
      hsame _ fun _ hpiece => hpiece, List.prefix_append_right_inj]
    rw [bodyPieces]
    split
    · cases j with
      | zero => exact List.nil_prefix
      | succ j =>
        rw [List.take_succ_cons, List.take_nil, List.map_singleton, List.flatten_singleton]
        exact List.take_prefix _ _
    · rw [List.take_nil]
      exact List.nil_prefix

/-- The bytes added are a prefix of the serialisation that ends with a piece. -/
def AddsPrefix (resp : HttpResponse) (b : FixedBuffer) : Prop :=
  ∃ b' added, resp.appendToBuffer b = .ok b' ∧ b'.Valid ∧ b'.unread = b.unread ++ added ∧
    added <+: resp.serialisation printedLine ∧
    ∃ k, added = (((resp.headPieces printedLine ++ resp.bodyPieces).take k).map taken).flatten

/-- For responses with short header lines, no piece follows a refused one
exactly when the lengths stop cleanly at the room there is. -/
theorem addsPrefix_iff (resp : HttpResponse)
    (hshort : ∀ pair ∈ resp.Headers.entries, (printedLine pair).length < 128)
    {b : FixedBuffer} (hb : b.Valid) : resp.AddsPrefix b ↔ resp.StopsClean b.avail := by
  obtain ⟨consumed, free, h⟩ := hb.holds
  have havail := h.avail_eq
  obtain ⟨b₁, consumed₁, free₁, hall, hb₁⟩ := appendAll_admitted h resp.pieces
  rw [← appendToBuffer_eq] at hall
  rw [pieces_eq_of_short resp hshort, ← havail] at hb₁
  rw [← resp.noHoles_iff_stopsClean hshort (by omega)]
  constructor
  · rintro ⟨b', added, happend, -, hunread, -, k, hk⟩
    refine ⟨k, ?_⟩
    rw [happend] at hall
    cases hall
    rw [hb₁.unread_eq] at hunread
    rw [← hk]
    exact List.append_cancel_left hunread
  · rintro ⟨k, hk⟩
    refine ⟨b₁, _, hall, hb₁.valid, hb₁.unread_eq, ?_, k, hk⟩
    rw [hk]
    exact resp.flatten_take_isPrefix hshort k

/-- A response with one header line. -/
def html : HttpResponse := (create.setStatusCode SUCCESS_OK).setContentType (ascii "text/html".toList)

/-- With 70 bytes of room, its header line of 24 bytes does not go in behind the
60 bytes of the lines in front of it. -/
theorem addsPrefix_iff_html : ∃ b : FixedBuffer, b.Valid ∧ b.avail = 70 ∧
    html.Headers.entries.map (fun pair => (printedLine pair).length) = [24] ∧
    (html.AddsPrefix b ↔ html.StopsClean b.avail) := by
  obtain ⟨b, consumed, free, _, hb⟩ :=
    (create_holds _ length_zeros).append_room (s := List.replicate 954 0)
      (by rw [List.length_replicate]; decide)
  have havail : b.avail = 70 := by
    rw [hb.avail_eq, List.nil_append, List.length_replicate]
    rfl
  have hshort : ∀ pair ∈ html.Headers.entries, (printedLine pair).length < 128 := by
    decide +kernel
  exact ⟨b, hb.valid, havail, by decide +kernel, html.addsPrefix_iff hshort hb.valid⟩

/-- With two bytes of room, the blank line goes in and nothing in front of it. -/
theorem addsPrefix_fails : ∃ b : FixedBuffer, b.Valid ∧ b.avail = 2 ∧ ¬ create.AddsPrefix b := by
  obtain ⟨b, consumed, free, _, hb⟩ :=
    (create_holds _ length_zeros).append_room (s := List.replicate 1022 0)
      (by rw [List.length_replicate]; decide)
  have hlen : (List.replicate 1022 (0 : UInt8)).length = 1022 := List.length_replicate
  have havail : b.avail = 2 := by
    rw [hb.avail_eq, List.nil_append, hlen]
    rfl
  refine ⟨b, hb.valid, havail, ?_⟩
  rintro ⟨b', added, happend, -, hunread, hprefix, -⟩
  obtain ⟨b₁, _, _, hall, hb₁⟩ := appendAll_admitted hb create.pieces
  rw [← appendToBuffer_eq, happend] at hall
  cases hall
  rw [hb₁.unread_eq, hb.unread_eq, List.nil_append, hlen] at hunread
  have hblank : added = crlf := by
    rw [← List.append_cancel_left hunread]
    decide +kernel
  rw [hblank] at hprefix
  revert hprefix
  decide +kernel

end HttpResponse

end KyrosWebServer.Http
