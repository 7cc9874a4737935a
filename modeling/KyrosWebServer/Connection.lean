import KyrosWebServer.Buffer

/-!
# Connections

The buffers and the scatter list of net/Connection. `Read` takes bytes out of
the receive buffer, `send` hands the send buffer and the attached file to
`writev` until the socket stops taking them. The kernel's answers to `writev`
are the input of `send`.
-/

namespace KyrosWebServer.Net

open CMemory Base

/-- One entry of the scatter list. -/
structure Iovec where
  /-- The bytes from the base pointer on; a null pointer has none. -/
  iov_base : List UInt8
  /-- Bytes to send, a `size_t`. -/
  iov_len : ℕ

/-- The bytes an entry offers. -/
def Iovec.bytes (v : Iovec) : List UInt8 := v.iov_base.take v.iov_len

/-- The entry `{nullptr, 0}`. -/
def Iovec.null : Iovec := ⟨[], 0⟩

/-- A mapped file: its content, of a length that `size_t` can hold. -/
structure FileSystem where
  /-- The mapped bytes. -/
  content : List UInt8
  /-- `mFileLength` is a `size_t`. -/
  length_lt : content.length < 18446744073709551616

/-- The buffers, the liveness flag and the file part of the scatter list.
The buffer part `m_iv[0]` is set anew before every `writev`. -/
structure Connection where
  /-- Bytes received and not yet handed on. -/
  mReadBuffer : FixedBuffer
  /-- Bytes queued and not yet sent. -/
  mWriteBuffer : FixedBuffer
  /-- Whether the connection outlives the response. -/
  mAlive : Bool
  /-- `m_iv[1]`, the rest of the attached file. -/
  m_iv1 : Iovec

namespace Connection

/-- The constructor, given the two new buffers. -/
def create (rb wb : FixedBuffer) : Connection := ⟨rb, wb, true, Iovec.null⟩

/-- `Connection::Read`: the count and the bytes copied out. A `size_t` length
is never negative, so the first test of the source never succeeds. -/
def Read (conn : Connection) (len : ℕ) : Except Fault ((ℕ × List UInt8) × Connection) :=
  if len < conn.mReadBuffer.used then do
    let out ← conn.mReadBuffer.load conn.mReadBuffer.mReadPtr len
    return ((len, out), { conn with mReadBuffer := (conn.mReadBuffer.readPtrMove len).2 })
  else do
    let out ← conn.mReadBuffer.load conn.mReadBuffer.mReadPtr conn.mReadBuffer.used
    return ((conn.mReadBuffer.used, out), { conn with mReadBuffer := conn.mReadBuffer.reset })

/-- `Connection::setFile`. -/
def setFile (conn : Connection) (F : FileSystem) : Connection :=
  { conn with m_iv1 := ⟨F.content, F.content.length⟩ }

end Connection

/-- What one `writev` reports. -/
inductive WritevResult
  /-- A positive count of bytes taken by the socket. -/
  | count (n : ℕ)
  /-- Zero. -/
  | zero
  /-- `-1` with `errno` `EAGAIN`. -/
  | again
  /-- `-1` with another `errno`. -/
  | failed
  deriving DecidableEq, Repr

/-- Conversion to a 32-bit `int`. -/
def toInt (z : ℤ) : ℤ := (z + 2147483648) % 4294967296 - 2147483648

namespace Connection

/-- The bytes that `writev` is offered: `m_iv[0]`, then `m_iv[1]`. -/
def offered (conn : Connection) : Except Fault (List UInt8) := do
  let front ← conn.mWriteBuffer.load conn.mWriteBuffer.mReadPtr conn.mWriteBuffer.used
  return front ++ conn.m_iv1.bytes

/-- One turn of the loop in `Connection::send` with what `writev` reported:
the value returned when the turn leaves the loop, the bytes that went out,
and the connection afterwards. -/
def sendTurn (conn : Connection) (r : WritevResult) :
    Except Fault ((Option ℤ × List UInt8) × Connection) := do
  let bytes ← conn.offered
  match r with
  | .count n =>
    if n > conn.mWriteBuffer.used then
      let temp := n - conn.mWriteBuffer.used
      let iv : Iovec := ⟨conn.m_iv1.iov_base.drop temp, toSize (conn.m_iv1.iov_len - temp)⟩
      return ((none, bytes.take n),
        { conn with m_iv1 := iv, mWriteBuffer := conn.mWriteBuffer.reset })
    else
      return ((none, bytes.take n),
        { conn with mWriteBuffer := (conn.mWriteBuffer.readPtrMove n).2 })
  | .zero => return ((some 0, []), { conn with m_iv1 := Iovec.null })
  | .again =>
    return ((some (toInt (toSize (conn.mWriteBuffer.used + conn.m_iv1.iov_len))), []), conn)
  | .failed => return ((some (-1), []), { conn with m_iv1 := Iovec.null })

/-- `Connection::send` against the reports of its `writev` calls: the value
returned (`none` while the last call has not come back), the bytes that went
out, the reports it did not need, and the connection. -/
def send (conn : Connection) :
    List WritevResult → Except Fault ((Option ℤ × List UInt8 × List WritevResult) × Connection)
  | [] => .ok ((none, [], []), conn)
  | r :: rs => do
    let ((ret, out), conn) ← conn.sendTurn r
    match ret with
    | some v => return ((some v, out, rs), conn)
    | none =>
      let ((ret, out', rest), conn) ← conn.send rs
      return ((ret, out ++ out', rest), conn)

/-- A turn leaves the receive buffer and the flag alone, and the pointers of
the send buffer in order. -/
theorem sendTurn_frame {conn conn' : Connection} {r : WritevResult} {out : Option ℤ × List UInt8}
    (h : conn.sendTurn r = .ok (out, conn')) :
    conn'.mReadBuffer = conn.mReadBuffer ∧ conn'.mAlive = conn.mAlive ∧
      (conn.mWriteBuffer.Valid → conn'.mWriteBuffer.Valid) := by
  obtain ⟨bytes, -, h⟩ := bind_eq_ok h
  cases r with
  | count n =>
    dsimp only at h
    split at h
    · cases h
      exact ⟨rfl, rfl, fun _ => (FixedBuffer.reset_holds _).valid⟩
    · rename_i hle
      cases h
      refine ⟨rfl, rfl, fun hvalid => ?_⟩
      obtain ⟨consumed, free, hb⟩ := hvalid.holds
      have hlen := hb.used_eq
      have hsplit := List.take_append_drop n conn.mWriteBuffer.unread
      rw [← hsplit] at hb
      have hmove := hb.readPtrMove_eq.2.valid
      rw [List.length_take_of_le (by omega)] at hmove
      exact hmove
  | zero | again | failed =>
    cases h
    exact ⟨rfl, rfl, id⟩

/-- So does the whole call. -/
theorem send_frame {rs : List WritevResult} {conn conn' : Connection}
    {out : Option ℤ × List UInt8 × List WritevResult} (h : conn.send rs = .ok (out, conn')) :
    conn'.mReadBuffer = conn.mReadBuffer ∧ conn'.mAlive = conn.mAlive ∧
      (conn.mWriteBuffer.Valid → conn'.mWriteBuffer.Valid) := by
  induction rs generalizing conn out with
  | nil =>
    cases h
    exact ⟨rfl, rfl, id⟩
  | cons r rs ih =>
    obtain ⟨⟨⟨ret, sent⟩, conn₁⟩, hturn, h⟩ := bind_eq_ok h
    obtain ⟨hread, halive, hvalid⟩ := sendTurn_frame hturn
    cases ret with
    | some v =>
      cases h
      exact ⟨hread, halive, hvalid⟩
    | none =>
      obtain ⟨⟨⟨ret, sent', rest⟩, conn₂⟩, hsend, h⟩ := bind_eq_ok h
      cases h
      obtain ⟨hread', halive', hvalid'⟩ := ih hsend
      exact ⟨hread'.trans hread, halive'.trans halive, hvalid' ∘ hvalid⟩

end Connection

end KyrosWebServer.Net
