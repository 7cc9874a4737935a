import KyrosWebServer.RequestDelivery
import KyrosWebServer.RequestWindow

/-!
# The declared length of a body

A declared length above the buffer size is only logged, and a negative one is
not looked at. The body state handles the length as it should exactly when it
is neither, or when the scanner rejects the bytes before the length matters.
-/

namespace KyrosWebServer.Http

open CMemory Base FixedBuffer

/-- In the body state with unread bytes: the scan does not reject them and
reaches the declared length, so that `body.assign` is called. -/
def CallsAssign (req : HttpRequest) (b : FixedBuffer) : Prop :=
  ∃ text ls pos text', b.readPtr = .ok text ∧
    parseLine text b.used req.mCheckIndex = .ok (ls, pos, text') ∧ ls ≠ LINE_BAD ∧
    (pos : ℤ) ≥ req.contentLength

/-- In the body state, `body.assign` is called with a length of at most the
unread bytes, and a negative length or one above 1024 gives `BAD_REQUEST`. -/
def LengthValidated (req : HttpRequest) (b : FixedBuffer) : Prop :=
  (CallsAssign req b → 0 ≤ req.contentLength ∧ req.contentLength ≤ b.used) ∧
  (req.contentLength < 0 ∨ 1024 < req.contentLength →
    ∃ req' b', processReadTurn req b = .ok (.ret BAD_REQUEST req' b'))

/-- While the chunks are fed, a turn begins in the body state with unread bytes. -/
inductive ExaminesBody : HttpRequest → FixedBuffer → List (List UInt8) →
    HttpRequest → FixedBuffer → Prop
  | here {req req₁ : HttpRequest} {b b₁ b₂ : FixedBuffer} {k : ℕ} {chunk : List UInt8}
      {chunks : List (List UInt8)} : b.append chunk = .ok (k, b₁) → Turns (req, b₁) (req₁, b₂) →
      b₂.used > 0 → req₁.mCheckState = CHECK_STATE_BODY → ExaminesBody req b (chunk :: chunks) req₁ b₂
  | later {req req₁ : HttpRequest} {b b₁ : FixedBuffer} {chunk : List UInt8}
      {chunks : List (List UInt8)} {r : Received} : receive req b chunk = .ok r →
      ExaminesBody r.req r.buf chunks req₁ b₁ → ExaminesBody req b (chunk :: chunks) req₁ b₁

/-- The call of `body.assign` decides the result of the turn. -/
theorem processReadTurn_assign {req : HttpRequest} {b b' : FixedBuffer} {text text' : List UInt8}
    {ls : LINE_STATE} {pos : ℕ} (hst : req.mCheckState = CHECK_STATE_BODY)
    (hptr : b.readPtr = .ok text) (hline : parseLine text b.used req.mCheckIndex = .ok (ls, pos, text'))
    (hstore : b.store b.mReadPtr text' = .ok b') (hls : ls ≠ LINE_BAD) :
    processReadTurn req b =
      if (pos : ℤ) ≥ req.contentLength then
        (HttpRequest.assign text' req.contentLength).map fun body => .ret GET_REQUEST
          { req.scanned ls pos with body := body, mCheckState := CHECK_STATE_SUCCESS } b'
      else .ok (.ret NO_REQUEST (req.scanned ls pos) b') := by
  have hstate : (req.scanned ls pos).mCheckState = CHECK_STATE_BODY := hst
  have hlen : (req.scanned ls pos).contentLength = req.contentLength := rfl
  have hidx : (req.scanned ls pos).mCheckIndex = pos := rfl
  rw [processReadTurn_scan hptr hline hstore, if_neg (fun h => h.2 hst), if_neg hls]
  simp only [switchCheckState, hstate, HttpRequest.parseContent, hidx, hlen]
  by_cases h : (pos : ℤ) ≥ req.contentLength
  · rw [if_pos h, if_pos h]
    cases HttpRequest.assign text' req.contentLength <;> rfl
  · rw [if_neg h, if_neg h]
    rfl

/-- One examination of the body state. -/
theorem lengthValidated_iff {req : HttpRequest} {b : FixedBuffer} {consumed w free : List UInt8}
    (hb : b.Holds consumed w free) (hi : req.InLine w) (hst : req.mCheckState = CHECK_STATE_BODY) :
    LengthValidated req b ↔
      (0 ≤ req.contentLength ∧ req.contentLength ≤ 1024) ∨ LoneBreak w := by
  have hline := parseLine_nextLine free hi
  rw [loneBreak_iff]
  by_cases hbreak : ∃ pos, nextLine w = .broken pos
  · refine ⟨fun _ => .inr hbreak, fun _ => ?_⟩
    obtain ⟨pos, hnext⟩ := hbreak
    rw [hnext, ← hb.used_eq] at hline
    constructor
    · rintro ⟨text, ls, pos', text', hptr, hline', hls, -⟩
      rw [hb.readPtr_eq] at hptr
      cases hptr
      rw [hline] at hline'
      cases hline'
      exact absurd rfl hls
    · intro _
      obtain ⟨b', hturn, -⟩ := processReadTurn_broken hb hi hnext
      exact ⟨_, b', hturn⟩
  · -- the scanner does not reject, so the length decides
    obtain ⟨ls, pos, text, hscan, hls⟩ : ∃ ls pos text,
        parseLine (w ++ free) w.length req.mCheckIndex = .ok (ls, pos, text) ∧ ls ≠ LINE_BAD := by
      rw [hline]
      cases hnext : nextLine w with
      | unfinished pos => exact ⟨_, _, _, rfl, nofun⟩
      | broken pos => exact absurd ⟨pos, hnext⟩ hbreak
      | complete line rest => exact ⟨_, _, _, rfl, nofun⟩
    obtain ⟨w', rfl, hlen, -⟩ := parseLine_zero hscan
    obtain ⟨b', hstore, -⟩ := hb.store_window w' hlen
    have hpos := parseLine_le hscan (inLine_le hi)
    have hfull := hb.length_eq
    have hsize := kBufferSize_eq
    rw [← hb.used_eq] at hscan hpos
    have hturn := processReadTurn_assign hst hb.readPtr_eq hscan hstore hls
    constructor
    · rintro ⟨-, hrefused⟩
      left
      by_contra hout
      obtain ⟨req', b'', hbad⟩ := hrefused (by omega)
      rw [hturn] at hbad
      split at hbad
      · cases hassign : HttpRequest.assign (w' ++ free) req.contentLength with
        | error e =>
          rw [hassign] at hbad
          cases hbad
        | ok body =>
          rw [hassign] at hbad
          cases hbad
      · cases hbad
    · rintro (⟨hlow, hhigh⟩ | hbad)
      · constructor
        · rintro ⟨text, ls', pos', text', hptr, hline', -, hreached⟩
          rw [hb.readPtr_eq] at hptr
          cases hptr
          rw [hscan] at hline'
          cases hline'
          exact ⟨hlow, by omega⟩
        · intro hout
          omega
      · exact absurd hbad hbreak

/-- Every examination happens with the scan position within the first line. -/
theorem ExaminesBody.inLine {req req₁ : HttpRequest} {b b₁ : FixedBuffer}
    {chunks : List (List UInt8)} {consumed w free : List UInt8}
    (h : ExaminesBody req b chunks req₁ b₁) (hb : b.Holds consumed w free) (hi : req.InLine w) :
    req₁.mCheckState = CHECK_STATE_BODY ∧
      ∃ consumed' w' free', b₁.Holds consumed' w' free' ∧ req₁.InLine w' := by
  have happended : ∀ {b' : FixedBuffer} {k : ℕ} {chunk : List UInt8} {req : HttpRequest}
      {b : FixedBuffer} {consumed w free : List UInt8}, b.Holds consumed w free → req.InLine w →
      b.append chunk = .ok (k, b') → ∃ consumed' w' free', b'.Holds consumed' w' free' ∧ req.InLine w' := by
    intro b' k chunk req b consumed w free hb hi happend
    obtain ⟨consumed', w', free', hb', ⟨-, rfl⟩ | ⟨-, rfl⟩⟩ := append_window hb happend
    · exact ⟨_, _, _, hb', hi.append chunk⟩
    · exact ⟨_, _, _, hb', hi⟩
  induction h generalizing consumed w free with
  | here happend hturns _ hst =>
    obtain ⟨consumed₁, w₁, free₁, hb₁, hi₁⟩ := happended hb hi happend
    obtain ⟨consumed₂, w₂, hb₂, hi₂⟩ := hturns.inLine hb₁ hi₁
    exact ⟨hst, consumed₂, w₂, free₁, hb₂, hi₂⟩
  | later hreceive _ ih =>
    obtain ⟨⟨k, b₁⟩, happend, hreceive⟩ := bind_eq_ok hreceive
    obtain ⟨⟨code, req', b'⟩, hread, hreceive⟩ := bind_eq_ok hreceive
    cases hreceive
    obtain ⟨consumed₁, w₁, free₁, hb₁, hi₁⟩ := happended hb hi happend
    obtain ⟨consumed₂, w₂, hb₂, hi₂⟩ := processRead_inLine hb₁ hi₁ hread
    exact ih hb₂ hi₂

/-- However a stream is cut into chunks, every examination of the body state
handles the declared length as it should exactly when in every one of them the
length is between 0 and 1024, or the first CR or LF of the unread bytes
belongs to no CRLF. -/
theorem length_validated_iff {buf : FixedBuffer} (hvalid : buf.Valid) (hempty : buf.unread = [])
    (chunks : List (List UInt8)) :
    (∀ req b, ExaminesBody HttpRequest.fresh buf chunks req b → LengthValidated req b) ↔
      ∀ req b, ExaminesBody HttpRequest.fresh buf chunks req b →
        (0 ≤ req.contentLength ∧ req.contentLength ≤ 1024) ∨ LoneBreak b.unread := by
  obtain ⟨consumed, free, hb⟩ := hvalid.holds
  rw [hempty] at hb
  have hone : ∀ req b, ExaminesBody HttpRequest.fresh buf chunks req b →
      (LengthValidated req b ↔
        (0 ≤ req.contentLength ∧ req.contentLength ≤ 1024) ∨ LoneBreak b.unread) := by
    intro req b h
    obtain ⟨hst, consumed', w', free', hb', hi'⟩ := h.inLine hb (Nat.le_refl _)
    rw [hb'.unread_eq]
    exact lengthValidated_iff hb' hi' hst
  constructor
  · intro hall req b h
    exact (hone req b h).mp (hall req b h)
  · intro hall req b h
    exact (hone req b h).mpr (hall req b h)

/-- A body of one byte in one chunk with its head. -/
theorem length_validated_iff_sample :
    (∀ req b, ExaminesBody HttpRequest.fresh blank [postHead ++ [65]] req b → LengthValidated req b) ↔
      ∀ req b, ExaminesBody HttpRequest.fresh blank [postHead ++ [65]] req b →
        (0 ≤ req.contentLength ∧ req.contentLength ≤ 1024) ∨ LoneBreak b.unread := by
  have hblank : blank.Holds [] [] (List.replicate kBufferSize 0) := create_holds _ _
  exact length_validated_iff hblank.valid hblank.unread_eq [postHead ++ [65]]

/-- A request with this declared length, and one byte behind its head. -/
def declaring (length : List Char) : List UInt8 :=
  minimalGet.take 16 ++ textContentLength ++ ascii length ++ [CR, LF, CR, LF, 65]

/-- The request object behind the head of `declaring`. -/
def declared (n : ℤ) : HttpRequest :=
  { HttpRequest.requested GET [slash] textVersion with
    contentLength := n, mCheckState := CHECK_STATE_BODY }

/-- The byte behind the head is examined, and its length is not refused. -/
theorem declaring_notValidated {length : List Char} {n : ℤ}
    (hlen : (declaring length).length ≤ kBufferSize)
    (hrun : runHead HttpRequest.fresh (declaring length) = .ok (.past (declared n) [65]))
    (hn : n < 0 ∨ 1024 < n) :
    ¬ ∀ req b, ExaminesBody HttpRequest.fresh blank [declaring length] req b →
      LengthValidated req b := by
  intro hall
  have hblank : blank.Holds [] [] (List.replicate kBufferSize 0) := create_holds _ _
  obtain ⟨b, consumed, free, happend, hb⟩ := hblank.append_room (s := declaring length) hlen
  have hout := processRead_runHead hb (show HttpRequest.fresh.InLine _ from Nat.zero_le _)
  rw [List.nil_append, hrun] at hout
  cases hout with
  | past hturns hb' hi' =>
    have hvalidated := hall _ _ (.here happend hturns (hb'.used_pos (by simp)) rfl)
    rcases (lengthValidated_iff hb' hi' rfl).mp hvalidated with hrange | hbreak
    · have hlength : (declared n).contentLength = n := rfl
      omega
    · obtain ⟨pos, hpos⟩ := loneBreak_iff.mp hbreak
      have hnext : nextLine [65] = .unfinished 1 := by decide
      rw [hnext] at hpos
      cases hpos

/-- A negative length reaches `body.assign`, and a length above the buffer size
waits for more bytes. -/
theorem lengths_notValidated :
    (¬ ∀ req b, ExaminesBody HttpRequest.fresh blank [declaring ['-', '1']] req b →
      LengthValidated req b) ∧
    ¬ ∀ req b, ExaminesBody HttpRequest.fresh blank [declaring ['1', '0', '2', '5']] req b →
      LengthValidated req b := by
  have hnegative : runHead HttpRequest.fresh (declaring ['-', '1']) =
      .ok (.past (declared (-1)) [65]) := by decide +kernel
  have hlarge : runHead HttpRequest.fresh (declaring ['1', '0', '2', '5']) =
      .ok (.past (declared 1025) [65]) := by decide +kernel
  exact ⟨declaring_notValidated (by decide) hnegative (.inl (by decide)),
    declaring_notValidated (by decide) hlarge (.inr (by decide))⟩

end KyrosWebServer.Http
