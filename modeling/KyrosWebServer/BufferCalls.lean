import KyrosWebServer.Connection
import KyrosWebServer.Refinement

/-!
# The public calls of the buffer

`appendPiece`, `add`, `clear` and `readFd` complete `FixedBuffer`. Any sequence
of calls keeps the pointers in order exactly when no `readPtrMove` leaves the
window, which is found out only after the pointer has moved, and no `add` goes
past the end of the storage, which is measured against the free bytes on both
sides.
-/

namespace KyrosWebServer.Base

open CMemory Refinement
open Net (toInt)

/-- What one `recv` reports. -/
inductive RecvResult
  /-- Bytes from the socket, as many as were asked for at most; none at the
  end of the stream. -/
  | bytes (data : List UInt8)
  /-- `-1` with `errno` `EAGAIN` or `EWOULDBLOCK`. -/
  | again
  /-- `-1` with another `errno`. -/
  | failed
  deriving DecidableEq, Repr

namespace FixedBuffer

/-- `append(const StringPiece &str)`: the length of a `StringPiece` is an `int`.
A negative one becomes a `size_t` that nothing has room for. -/
def appendPiece (b : FixedBuffer) (str : List UInt8) : Except Fault (ℕ × FixedBuffer) :=
  let len := toSize (toInt str.length)
  if len ≤ str.length then b.append (str.take len) else .ok (0, b)

/-- `add(len)`: the bytes have been written behind the write pointer by others. -/
def add (b : FixedBuffer) (len : ℕ) : ℤ × FixedBuffer :=
  if len > b.avail then (-1, b)
  else (toInt len, { b with mWritePtr := b.mWritePtr + len })

/-- Zeros everywhere, and both pointers at the start. -/
def clear (b : FixedBuffer) : FixedBuffer :=
  reset { b with buf := List.replicate kBufferSize 0, length_buf := length_zeros }

/-- The unread bytes slide to the front of the storage. -/
def slide (b : FixedBuffer) : Except Fault FixedBuffer := do
  let used_len := b.used
  let held ← b.load b.mReadPtr used_len
  let b ← b.store 0 held
  return { b with mReadPtr := 0, mWritePtr := used_len }

/-- Room at the tail, in the terms of `readFd`. -/
def tail (b : FixedBuffer) : ℕ := toSize (kBufferSize - b.mWritePtr)

/-- The length that `readFd` passes to `recv`. -/
def asked (b : FixedBuffer) : ℕ := b.tail

/-- When there is any room, sliding brings it to the tail. -/
theorem slide_tail {b b' : FixedBuffer} (h : b.slide = .ok b') (havail : b.avail > 0) :
    b'.tail ≠ 0 := by
  obtain ⟨held, -, h⟩ := bind_eq_ok h
  obtain ⟨b₁, -, h⟩ := bind_eq_ok h
  cases h
  unfold avail at havail
  unfold tail
  exact Nat.ne_of_gt havail

/-- The loop of `readFd`: the value returned (`none` while `recv` has not come
back), the reports it did not need, and the buffer. -/
def readFdLoop (last_used : ℕ) (rs : List RecvResult) (b : FixedBuffer) :
    Except Fault ((Option ℤ × List RecvResult) × FixedBuffer) :=
  if _havail : b.avail > 0 then
    if _hlen : b.tail = 0 then
      match _hslide : b.slide with
      | .error e => .error e
      | .ok b' => readFdLoop last_used rs b'
    else
      match rs with
      | [] => .ok ((none, []), b)
      | .again :: rs => .ok ((some (toInt (toSize (b.used - last_used))), rs), b)
      | .failed :: rs => .ok ((some (-1), rs), b)
      | .bytes data :: rs =>
        let read := data.take b.asked
        if read = [] then .ok ((some (-1), rs), b)
        else
          match b.store b.mWritePtr read with
          | .error e => .error e
          | .ok b' => readFdLoop last_used rs { b' with mWritePtr := b'.mWritePtr + read.length }
  else .ok ((some (toInt (toSize (b.used - last_used))), rs), b)
termination_by 2 * rs.length + if b.tail = 0 then 1 else 0
decreasing_by
  · rw [if_pos _hlen, if_neg (slide_tail _hslide _havail)]
    exact Nat.lt_succ_self _
  · rw [List.length_cons, if_neg _hlen]
    split <;> omega

/-- `readFd` against the reports of its `recv` calls. -/
def readFd (b : FixedBuffer) (rs : List RecvResult) :
    Except Fault ((Option ℤ × List RecvResult) × FixedBuffer) :=
  if b.avail = 0 then .ok ((some 0, rs), b)
  else readFdLoop b.used rs b

variable {b : FixedBuffer} {consumed w free : List UInt8}

theorem Holds.tail_eq (h : b.Holds consumed w free) : b.tail = free.length := h.toSize_tail

theorem Holds.asked_eq (h : b.Holds consumed w free) : b.asked = free.length := h.tail_eq

/-- What `recv` writes into the tail extends the window. -/
theorem Holds.store_received (h : b.Holds consumed w free) (data : List UInt8) :
    ∃ b', b.store b.mWritePtr (data.take b.asked) = .ok b' ∧ b'.mReadPtr = b.mReadPtr ∧
      b'.mWritePtr = b.mWritePtr ∧
      ({ b' with mWritePtr := b'.mWritePtr + (data.take b.asked).length } : FixedBuffer).Holds
        consumed (w ++ data.take b.asked) (free.drop (data.take b.asked).length) := by
  apply h.store_tail
  rw [h.asked_eq, List.length_take]
  exact Nat.min_le_left ..

/-- A piece that fits is appended. -/
theorem Holds.appendPiece_room (h : b.Holds consumed w free) {s : List UInt8}
    (hs : s.length ≤ kBufferSize - w.length) :
    ∃ b' consumed' free', b.appendPiece s = .ok (s.length, b') ∧ b'.Holds consumed' (w ++ s) free' := by
  have hk := kBufferSize_eq
  have hint : toInt s.length = s.length := by
    unfold toInt
    omega
  have hlen : toSize (toInt s.length) = s.length := by
    rw [hint, toSize_of_range (by omega) (by omega)]
    rfl
  rw [appendPiece, hlen, if_pos (Nat.le_refl _), List.take_length]
  exact h.append_room hs

/-- Appending a piece, as a whole, cut by the conversion of its length, or not
at all, keeps the pointers in order. -/
theorem Holds.appendPiece (h : b.Holds consumed w free) (s : List UInt8) :
    ∃ n b', b.appendPiece s = .ok (n, b') ∧ b'.Valid := by
  rw [FixedBuffer.appendPiece]
  by_cases hlen : toSize (toInt s.length) ≤ s.length
  · rw [if_pos hlen]
    by_cases hroom : (s.take (toSize (toInt s.length))).length ≤ kBufferSize - w.length
    · obtain ⟨b', consumed', free', happend, hb'⟩ := h.append_room hroom
      exact ⟨_, b', happend, hb'.valid⟩
    · exact ⟨0, b, h.append_no_room hroom, h.valid⟩
  · rw [if_neg hlen]
    exact ⟨0, b, rfl, h.valid⟩

/-- Sliding keeps the unread bytes. -/
theorem Holds.slide_eq (h : b.Holds consumed w free) :
    ∃ b' free', b.slide = .ok b' ∧ b'.Holds [] w free' := by
  obtain ⟨b', free', hstore, hb'⟩ := h.slide
  refine ⟨_, free', ?_, hb'⟩
  simp only [FixedBuffer.slide, h.used_eq, h.load_eq, hstore, bind, Except.bind, pure, Except.pure]

/-- `readFd` extends the unread bytes by what it received. -/
theorem Holds.readFdLoop (h : b.Holds consumed w free) (last_used : ℕ) (rs : List RecvResult) :
    ∃ out b' consumed' got free', b.readFdLoop last_used rs = .ok (out, b') ∧
      b'.Holds consumed' (w ++ got) free' := by
  fun_induction FixedBuffer.readFdLoop last_used rs b generalizing consumed w free with
  | case1 rs b havail hlen e hslide =>
    obtain ⟨b', free', hok, -⟩ := h.slide_eq
    rw [hslide] at hok
    cases hok
  | case2 rs b havail hlen b' hslide ih =>
    obtain ⟨b₁, free', hok, hb₁⟩ := h.slide_eq
    rw [hslide] at hok
    cases hok
    exact ih hb₁
  | case3 b havail hlen => exact ⟨_, b, consumed, [], free, rfl, by simpa using h⟩
  | case4 b havail hlen rs => exact ⟨_, b, consumed, [], free, rfl, by simpa using h⟩
  | case5 b havail hlen rs => exact ⟨_, b, consumed, [], free, rfl, by simpa using h⟩
  | case6 b havail hlen data rs hread =>
    exact ⟨_, b, consumed, [], free, rfl, by simpa using h⟩
  | case7 b havail hlen data rs read hread e =>
    rename_i hstore
    obtain ⟨b', hok, -⟩ := h.store_received data
    rw [hstore] at hok
    cases hok
  | case8 b havail hlen data rs read hread b' hstore =>
    rename_i ih
    obtain ⟨b₁, hok, hread, hwrite, hb₁⟩ := h.store_received data
    rw [hstore] at hok
    cases hok
    obtain ⟨out, b₂, consumed', got, free', hloop, hb₂⟩ := ih hb₁
    exact ⟨out, b₂, consumed', data.take b.asked ++ got, free', hloop, by simpa using hb₂⟩
  | case9 rs b havail => exact ⟨_, b, consumed, [], free, rfl, by simpa using h⟩

/-- So does the whole call. -/
theorem Holds.readFd (h : b.Holds consumed w free) (rs : List RecvResult) :
    ∃ out b' consumed' got free', b.readFd rs = .ok (out, b') ∧
      b'.Holds consumed' (w ++ got) free' := by
  unfold FixedBuffer.readFd
  split
  · exact ⟨_, b, consumed, [], free, rfl, by simpa using h⟩
  · exact h.readFdLoop b.used rs

/-- What has been received lies behind the unread bytes. -/
theorem Holds.readFd_append (h : b.Holds consumed w free) {rs : List RecvResult}
    {out : Option ℤ × List RecvResult} {b' : FixedBuffer} {new : List UInt8}
    (hrecv : b.readFd rs = .ok (out, b')) (hnew : b'.unread = b.unread ++ new) :
    ∃ consumed' free', b'.Holds consumed' (w ++ new) free' := by
  obtain ⟨out₁, b₁, consumed₁, got, free₁, hrecv₁, hb₁⟩ := h.readFd rs
  rw [hrecv] at hrecv₁
  cases hrecv₁
  have hsame : w ++ got = w ++ new := by rw [← hb₁.unread_eq, hnew, h.unread_eq]
  rw [hsame] at hb₁
  exact ⟨consumed₁, free₁, hb₁⟩

end FixedBuffer

open FixedBuffer

/-- The public calls that change a buffer. -/
inductive Call
  /-- `append` with the bytes of its argument, in any of its three forms. -/
  | append (str : List UInt8)
  | add (len : ℕ)
  | readPtrMove (len : ℤ)
  | reset
  | clear
  /-- `readFd` with what its `recv` calls report. -/
  | readFd (rs : List RecvResult)

/-- A call as the code executes it, with the `int` it returns. -/
def Call.exec (b : FixedBuffer) : Call → Except Fault (Option ℤ × FixedBuffer)
  | .append str => do
    let (ret, b) ← b.append str
    return (some ret, b)
  | .add len => .ok ((b.add len).map some id)
  | .readPtrMove len => .ok ((b.readPtrMove len).map some id)
  | .reset => .ok (none, b.reset)
  | .clear => .ok (none, b.clear)
  | .readFd rs => do
    let ((ret, _), b) ← b.readFd rs
    return (ret, b)

/-- `add` and `readPtrMove` move no pointer when they return `-1`. -/
def Call.FailsClean (b : FixedBuffer) : Call → Option ℤ → FixedBuffer → Prop
  | .add _, ret, b' | .readPtrMove _, ret, b' =>
    ret = some (-1) → b'.mReadPtr = b.mReadPtr ∧ b'.mWritePtr = b.mWritePtr
  | _, _, _ => True

/-- The read pointer stays in the window, and bytes are added only where the
tail has room for them or where there is no room for them at all. -/
def Call.InPlace (b : FixedBuffer) : Call → Prop
  | .readPtrMove len => 0 ≤ b.mReadPtr + len ∧ b.mReadPtr + len ≤ b.mWritePtr
  | .add len => b.mWritePtr + len ≤ kBufferSize ∨ len > b.avail
  | _ => True

/-- Room counts the free bytes in front of the window as well. -/
theorem add_iff {b : FixedBuffer} (hb : b.Valid) (len : ℕ) :
    (Call.add len).InPlace b ↔ ∃ ret b', (Call.add len).exec b = .ok (ret, b') ∧
      (Call.add len).FailsClean b ret b' ∧ b'.Valid := by
  obtain ⟨consumed, free, h⟩ := hb.holds
  have hk := kBufferSize_eq
  have havail := h.avail_eq
  by_cases hlen : len > b.avail
  · have hadd : b.add len = (-1, b) := if_pos hlen
    constructor
    · intro _
      refine ⟨some (-1), b, ?_, fun _ => ⟨rfl, rfl⟩, hb⟩
      simp only [Call.exec, hadd, Prod.map, id]
    · intro _
      exact .inr hlen
  · have hadd : b.add len = (toInt len, { b with mWritePtr := b.mWritePtr + len }) := if_neg hlen
    have hint : toInt len = len := by
      unfold toInt
      omega
    constructor
    · rintro (hplace | hrefused)
      · refine ⟨some len, { b with mWritePtr := b.mWritePtr + len }, ?_, ?_, ?_⟩
        · simp only [Call.exec, hadd, hint, Prod.map, id]
        · intro hret
          have hneg : (len : ℤ) = -1 := Option.some.inj hret
          omega
        · have hle := hb.read_le_write
          refine ⟨hb.read_nonneg, ?_, hplace⟩
          change b.mReadPtr ≤ b.mWritePtr + len
          omega
      · exact absurd hrefused hlen
    · rintro ⟨ret, b', hexec, -, hvalid⟩
      simp only [Call.exec, hadd, Prod.map, id] at hexec
      cases hexec
      exact .inl hvalid.write_le_end

/-- A read pointer outside the window is kept although `-1` is returned. -/
theorem readPtrMove_iff {b : FixedBuffer} (hb : b.Valid) (len : ℤ) :
    (Call.readPtrMove len).InPlace b ↔ ∃ ret b', (Call.readPtrMove len).exec b = .ok (ret, b') ∧
      (Call.readPtrMove len).FailsClean b ret b' ∧ b'.Valid := by
  constructor
  · rintro ⟨hnonneg, hle⟩
    refine ⟨some 0, { b with mReadPtr := b.mReadPtr + len }, ?_, ?_, ⟨hnonneg, hle, hb.write_le_end⟩⟩
    · simp only [Call.exec, FixedBuffer.readPtrMove, if_pos (And.intro hnonneg hle), Prod.map, id]
    · intro hret
      cases hret
  · rintro ⟨ret, b', hexec, -, hvalid⟩
    simp only [Call.exec, FixedBuffer.readPtrMove, Prod.map, id] at hexec
    cases hexec
    exact ⟨hvalid.read_nonneg, hvalid.read_le_write⟩

/-- One call in a buffer whose pointers are in order. -/
theorem Call.step_iff {b : FixedBuffer} (c : Call) (hb : b.Valid) :
    c.InPlace b ↔ ∃ ret b', c.exec b = .ok (ret, b') ∧ c.FailsClean b ret b' ∧ b'.Valid := by
  obtain ⟨consumed, free, h⟩ := hb.holds
  cases c with
  | append str =>
    refine ⟨fun _ => ?_, fun _ => trivial⟩
    by_cases hroom : str.length ≤ kBufferSize - b.unread.length
    · obtain ⟨b', consumed', free', happ, hb'⟩ := h.append_room hroom
      refine ⟨some str.length, b', ?_, trivial, hb'.valid⟩
      simp only [Call.exec, happ, bind, Except.bind, pure, Except.pure]
    · refine ⟨some 0, b, ?_, trivial, hb⟩
      simp only [Call.exec, h.append_no_room hroom, bind, Except.bind, pure, Except.pure]
      rfl
  | add len => exact add_iff hb len
  | readPtrMove len => exact readPtrMove_iff hb len
  | reset => exact ⟨fun _ => ⟨none, _, rfl, trivial, (reset_holds b).valid⟩, fun _ => trivial⟩
  | clear => exact ⟨fun _ => ⟨none, _, rfl, trivial, (reset_holds _).valid⟩, fun _ => trivial⟩
  | readFd rs =>
    refine ⟨fun _ => ?_, fun _ => trivial⟩
    obtain ⟨out, b', consumed', got, free', hread, hb'⟩ := h.readFd rs
    refine ⟨out.1, b', ?_, trivial, hb'.valid⟩
    simp only [Call.exec, hread, bind, Except.bind, pure, Except.pure]

/-- A sequence of calls on a new buffer keeps the pointers in order throughout,
and failing calls leave them alone, exactly when every call is in place where
it is made. -/
theorem calls_sound_iff {raw : List UInt8} (hraw : raw.length = kBufferSize) (calls : List Call) :
    Stays Call.exec Valid Call.FailsClean (create raw hraw) calls ↔
      Meets Call.exec (fun b c => c.InPlace b) (create raw hraw) calls :=
  stays_iff_meets (fun _ c hb => c.step_iff hb) (create_holds raw hraw).valid calls

/-- An `add` that the tail has room for, and one that nothing has room for. -/
theorem calls_sound_iff_sample :
    Stays Call.exec Valid Call.FailsClean blank [.add 3, .add 1022] ↔
      Meets Call.exec (fun b c => c.InPlace b) blank [.add 3, .add 1022] :=
  calls_sound_iff List.length_replicate [.add 3, .add 1022]

/-- `readPtrMove(1)` on a new buffer returns `-1` behind a moved pointer, and a
byte consumed in front makes room for an `add` that leaves the storage. -/
theorem calls_unsound :
    ¬ Stays Call.exec Valid Call.FailsClean blank [.readPtrMove 1] ∧
    ¬ Stays Call.exec Valid Call.FailsClean blank [.append [0], .readPtrMove 1, .add 1024] := by
  constructor
  · rintro ⟨-, ret, b', hexec, hclean, -⟩
    cases hexec
    have hmoved := (hclean rfl).1
    cases hmoved
  · rintro ⟨-, ret₁, b₁, happend, -, -, ret₂, b₂, hmove, -, -, ret₃, b₃, hadd, -, hvalid⟩
    cases happend
    cases hmove
    cases hadd
    exact absurd hvalid.write_le_end (by decide)

end KyrosWebServer.Base
