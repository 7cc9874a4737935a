import KyrosWebServer.HttpResponse
import Mathlib.Algebra.Ring.Nat

/-!
# What a response puts into a buffer

The lines of the head as texts, and the pieces of a response that a buffer
admits. Each piece is taken or refused by itself: what is added is decided by
the lengths of the pieces and by the room.
-/

namespace KyrosWebServer.Http

open CMemory CString Base Net FixedBuffer

/-- The characters of a decimal are the ten digits. -/
theorem toNat_digit {n : ℕ} {d : Char} (h : d ∈ Nat.toDigits 10 n) : 48 ≤ d.toNat ∧ d.toNat ≤ 57 := by
  have hdigit := Nat.isDigit_of_mem_toDigits (by decide) (by decide) h
  simp only [Char.isDigit, Bool.and_eq_true, decide_eq_true_eq, ge_iff_le, UInt32.le_iff_toNat_le] at hdigit
  exact hdigit

/-- A decimal has digits only. -/
theorem digit_of_mem_decimal {n : ℕ} {c : UInt8} (h : c ∈ decimal n) : 48 ≤ c.toNat ∧ c.toNat ≤ 57 := by
  obtain ⟨d, hd, rfl⟩ := List.mem_map.mp h
  have hdigit := toNat_digit hd
  rw [UInt8.toNat_ofNat']
  omega

theorem notMem_decimal {n : ℕ} {c : UInt8} (hc : c.toNat < 48) : c ∉ decimal n := by
  intro h
  have hdigit := digit_of_mem_decimal h
  omega

/-- The digits determine the number. -/
theorem decimal_inj {m n : ℕ} (h : decimal m = decimal n) : m = n := by
  have hback : ∀ k, (decimal k).map (fun c => Char.ofNat c.toNat) = Nat.toDigits 10 k := by
    intro k
    have hchar : ∀ d ∈ Nat.toDigits 10 k, Char.ofNat (UInt8.ofNat d.toNat).toNat = d := by
      intro d hd
      have hdigit := toNat_digit hd
      rw [UInt8.toNat_ofNat', Nat.mod_eq_of_lt (by omega), Char.ofNat_toNat]
    rw [decimal, ascii, List.map_map]
    exact (List.map_congr_left hchar).trans (List.map_id' _)
  have hdigits : Nat.toDigits 10 m = Nat.toDigits 10 n := by rw [← hback, ← hback, h]
  have hvalue := congrArg (fun digits => Nat.ofDigitChars 10 digits 0) hdigits
  simpa only [Nat.ofDigitChars_ten_toDigits] using hvalue

theorem length_decimal_le {n k : ℕ} (hk : 0 < k) (h : n < 10 ^ k) : (decimal n).length ≤ k := by
  rw [decimal, ascii, List.length_map]
  exact (Nat.length_toDigits_le_iff (by decide) hk).mpr h

theorem length_decimalInt_le {x : Int32} : (decimalInt x.toInt).length ≤ 11 := by
  have hlow := x.le_toInt
  have hhigh := x.toInt_lt
  have hlen : (decimal x.toInt.natAbs).length ≤ 10 := length_decimal_le (by decide) (by omega)
  unfold decimalInt
  split
  · rw [List.length_cons]
    omega
  · omega

/-- The text determines the number, with its sign. -/
theorem decimalInt_inj {y z : ℤ} (h : decimalInt y = decimalInt z) : y = z := by
  have hsign : ∀ (k : ℕ) (text : List UInt8), decimal k ≠ 45 :: text := by
    intro k text heq
    have hminus : (45 : UInt8) ∈ decimal k := heq ▸ List.mem_cons_self
    exact notMem_decimal (by decide) hminus
  unfold decimalInt at h
  by_cases hy : y < 0
  · by_cases hz : z < 0
    · rw [if_pos hy, if_pos hz] at h
      have habs := decimal_inj (List.cons.inj h).2
      omega
    · rw [if_pos hy, if_neg hz] at h
      exact absurd h.symm (hsign _ _)
  · by_cases hz : z < 0
    · rw [if_neg hy, if_pos hz] at h
      exact absurd h (hsign _ _)
    · rw [if_neg hy, if_neg hz] at h
      have habs := decimal_inj h
      omega

/-- Texts that end at the same byte, which occurs in neither of them. -/
theorem append_cons_inj {a b t u : List UInt8} {c : UInt8} (ha : c ∉ a) (hb : c ∉ b)
    (h : a ++ c :: t = b ++ c :: u) : a = b ∧ t = u := by
  have hlen : a.length = b.length := by
    rcases List.append_eq_append_iff.mp h with ⟨m, rfl, hm⟩ | ⟨m, rfl, hm⟩
    · cases m with
      | nil => simp
      | cons x m => exact absurd (List.mem_append_right a ((List.cons.inj hm).1 ▸ List.mem_cons_self)) hb
    · cases m with
      | nil => simp
      | cons x m => exact absurd (List.mem_append_right b ((List.cons.inj hm).1 ▸ List.mem_cons_self)) ha
  obtain ⟨rfl, hrest⟩ := List.append_inj h hlen
  exact ⟨rfl, (List.cons.inj hrest).2⟩

theorem cr_notMem_decimalInt (z : ℤ) : CR ∉ decimalInt z := by
  unfold decimalInt
  split
  · intro h
    rcases List.mem_cons.mp h with h | h
    · cases h
    · exact notMem_decimal (by decide) h
  · exact notMem_decimal (by decide)

namespace HttpResponse

theorem text_eq (resp : HttpResponse) :
    resp.text = resp.statusLine ++ (resp.connectionLine ++ (resp.lengthLine ++
      ((resp.Headers.entries.map headerLine).flatten ++ (crlf ++ resp.Body)))) := by
  have hbody : (if resp.Body ≠ [] then [resp.Body] else []).flatten = resp.Body := by
    by_cases h : resp.Body = []
    · simp [h]
    · simp [h]
  simp only [text, pieces, List.flatten_cons, List.flatten_append, hbody]

/-- The line with the length is never cut. -/
theorem lengthLine_eq (resp : HttpResponse) :
    resp.lengthLine =
      ascii "Content-Length".toList ++ 58 :: (decimalInt resp.ContentLength.toInt ++ crlf) := by
  have hlen := length_decimalInt_le (x := resp.ContentLength)
  have hname : (ascii "Content-Length".toList).length = 14 := by decide
  rw [lengthLine, snprintf, List.append_assoc, List.cons_append, List.take_of_length_le]
  simp only [List.length_append, List.length_cons, hname, crlf, List.length_nil]
  omega

/-- The two values of the Connection line differ in their first byte. -/
theorem isAlive_of_connectionLine (resp : HttpResponse) {more rest : List UInt8}
    (h : resp.connectionLine ++ more =
      ascii "Connection:keep-isAlive".toList ++ crlf ++ rest) : resp.isAlive = true := by
  cases halive : resp.isAlive with
  | true => rfl
  | false =>
    have hclosed : resp.connectionLine = ascii "Connection:closed".toList ++ crlf := by
      rw [connectionLine, halive]
      rfl
    rw [hclosed, List.append_assoc, List.append_assoc] at h
    have hbyte := congrArg (fun text : List UInt8 => text[11]?) h
    rw [List.getElem?_append_left (by decide), List.getElem?_append_left (by decide)] at hbyte
    revert hbyte
    decide

theorem headerLine_ne_nil (pair : List UInt8 × List UInt8) : headerLine pair ≠ [] := by
  intro h
  have hlen := congrArg List.length h
  simp only [headerLine, snprintf, List.length_take, List.length_append, List.length_cons,
    List.length_nil] at hlen
  omega

/-- The messages are short: the line with the status is never cut. -/
theorem statusLine_eq (resp : HttpResponse) :
    resp.statusLine = ascii "HTTP/1.1 ".toList ++ decimal resp.mStatusCode.value ++
      32 :: kStatusMessage resp.mStatusCode ++ crlf := by
  rw [statusLine, snprintf]
  cases resp.mStatusCode <;> exact List.take_of_length_le (by decide +kernel)

end HttpResponse

/-- How many bytes of a piece `append` is told to take: a `StringPiece` keeps
the length in an `int`, which becomes a `size_t`. -/
def pieceSize (piece : List UInt8) : ℕ := toSize (toInt piece.length)

/-- The bytes that go in when a piece does. -/
def taken (piece : List UInt8) : List UInt8 := piece.take (pieceSize piece)

/-- What a buffer with this much room takes of a sequence of pieces: each one
that still fits, whether or not earlier ones did. -/
def admitted (room : ℕ) : List (List UInt8) → List UInt8
  | [] => []
  | piece :: pieces =>
    if pieceSize piece ≤ room then taken piece ++ admitted (room - pieceSize piece) pieces
    else admitted room pieces

/-- Up to 2³¹ bytes the length is kept. -/
theorem pieceSize_eq {piece : List UInt8} (h : piece.length < 2147483648) :
    pieceSize piece = piece.length := by
  have hint : toInt piece.length = piece.length := by
    unfold toInt
    omega
  rw [pieceSize, hint, toSize_of_range (by omega) (by omega)]
  rfl

theorem taken_eq {piece : List UInt8} (h : piece.length < 2147483648) : taken piece = piece := by
  rw [taken, pieceSize_eq h, List.take_length]

/-- A length that fits in a buffer is not beyond the piece. -/
theorem pieceSize_le {piece : List UInt8} (h : pieceSize piece ≤ kBufferSize) :
    pieceSize piece ≤ piece.length := by
  have hk := kBufferSize_eq
  unfold pieceSize toSize toInt at h ⊢
  omega

theorem length_taken {piece : List UInt8} (h : pieceSize piece ≤ kBufferSize) :
    (taken piece).length = pieceSize piece := by
  rw [taken, List.length_take]
  exact Nat.min_eq_left (pieceSize_le h)

/-- One piece, taken or refused. -/
theorem appendPiece_admitted {b : FixedBuffer} {consumed w free : List UInt8}
    (h : b.Holds consumed w free) (piece : List UInt8) :
    ∃ n b' consumed' free', b.appendPiece piece = .ok (n, b') ∧
      b'.Holds consumed' (w ++ admitted (kBufferSize - w.length) [piece]) free' := by
  rw [FixedBuffer.appendPiece]
  change ∃ n b' consumed' free', (if pieceSize piece ≤ piece.length then b.append (taken piece)
    else .ok (0, b)) = .ok (n, b') ∧ _
  by_cases hroom : pieceSize piece ≤ kBufferSize - w.length
  · have hsize : pieceSize piece ≤ kBufferSize := by omega
    obtain ⟨b', consumed', free', happend, hb'⟩ :=
      h.append_room (s := taken piece) (by rw [length_taken hsize]; exact hroom)
    refine ⟨(taken piece).length, b', consumed', free', ?_, ?_⟩
    · rw [if_pos (pieceSize_le hsize)]
      exact happend
    · rw [admitted, if_pos hroom, admitted, List.append_nil]
      exact hb'
  · refine ⟨0, b, consumed, free, ?_, ?_⟩
    · split
      · rename_i hlen
        apply h.append_no_room
        rw [taken, List.length_take, Nat.min_eq_left hlen]
        exact hroom
      · rfl
    · rw [admitted, if_neg hroom, admitted, List.append_nil]
      exact h

/-- All pieces, one after the other. -/
theorem appendAll_admitted {b : FixedBuffer} {consumed w free : List UInt8}
    (h : b.Holds consumed w free) (pieces : List (List UInt8)) :
    ∃ b' consumed' free', appendAll b pieces = .ok b' ∧
      b'.Holds consumed' (w ++ admitted (kBufferSize - w.length) pieces) free' := by
  induction pieces generalizing b consumed w free with
  | nil => exact ⟨b, consumed, free, rfl, by simpa [admitted] using h⟩
  | cons piece pieces ih =>
    obtain ⟨n, b₁, consumed₁, free₁, happend, hb₁⟩ := appendPiece_admitted h piece
    obtain ⟨b', consumed', free', hall, hb'⟩ := ih hb₁
    have hadmitted : w ++ admitted (kBufferSize - w.length) (piece :: pieces) =
        (w ++ admitted (kBufferSize - w.length) [piece]) ++
          admitted (kBufferSize - (w ++ admitted (kBufferSize - w.length) [piece]).length)
            pieces := by
      by_cases hroom : pieceSize piece ≤ kBufferSize - w.length
      · have hlen : (taken piece).length = pieceSize piece := length_taken (by omega)
        simp only [admitted, if_pos hroom, List.append_nil, List.length_append, hlen,
          List.append_assoc, Nat.sub_add_eq]
      · simp only [admitted, if_neg hroom, List.append_nil]
    refine ⟨b', consumed', free', ?_, hadmitted ▸ hb'⟩
    rw [appendAll_cons, happend]
    exact hall

end KyrosWebServer.Http
