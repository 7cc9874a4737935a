import KyrosWebServer.Connection
import KyrosWebServer.Refinement

/-!
# Scatter writes keep the byte stream

The queued bytes and the attached file form one pending stream. Whatever the
socket reports, `send` takes a prefix off that stream, although the prefix may
end inside the buffer, at the border or inside the file, and although the call
may be left and entered again in between. The reports it uses say how many bytes
that are and what it returns.
-/

namespace KyrosWebServer.Net

open CMemory Base Refinement

/-- Reports the kernel can give: a count between one and the bytes offered
that fits an `int`, zero when nothing is offered, or `EAGAIN`. -/
def Reportable (conn : Connection) : WritevResult → Prop
  | .count n => ∃ bytes, conn.offered = .ok bytes ∧ 1 ≤ n ∧ n ≤ bytes.length ∧ n < 2147483648
  | .zero => conn.offered = .ok []
  | .again => True
  | .failed => False

/-- A script of reports, each possible where its `writev` happens. -/
def Script (conn : Connection) : List WritevResult → Prop
  | [] => True
  | r :: rs => Reportable conn r ∧
      ∀ ret out conn', conn.sendTurn r = .ok ((ret, out), conn') → Script conn' rs

/-- Successive calls of `send`, each going on with the reports the previous
one left over: the bytes that went out and the connection. -/
def sends : ℕ → Connection → List WritevResult → Except Fault (List UInt8 × Connection)
  | 0, conn, _ => .ok ([], conn)
  | calls + 1, conn, rs => do
    let ((_, out, rest), conn) ← conn.send rs
    let (out', conn) ← sends calls conn rest
    return (out ++ out', conn)

/-- The number of bytes that the socket takes. -/
def taken : List WritevResult → ℕ
  | [] => 0
  | .count n :: rs => n + taken rs
  | _ :: rs => taken rs

/-- The reports that one call of `send` uses: it goes on as long as they are counts. -/
def usedByCall : List WritevResult → List WritevResult
  | [] => []
  | .count n :: rs => .count n :: usedByCall rs
  | r :: _ => [r]

/-- The reports that it leaves. -/
def leftByCall : List WritevResult → List WritevResult
  | [] => []
  | .count _ :: rs => leftByCall rs
  | _ :: rs => rs

/-- The reports that successive calls use. -/
def usedByCalls : ℕ → List WritevResult → List WritevResult
  | 0, _ => []
  | calls + 1, rs => usedByCall rs ++ usedByCalls calls (leftByCall rs)

/-- What a call returns when it leaves `left` bytes; nothing while it waits for a report. -/
def returned (left : ℕ) : List WritevResult → Option ℤ
  | [] => none
  | .count _ :: rs => returned left rs
  | .zero :: _ => some 0
  | .again :: _ => some (toInt left)
  | .failed :: _ => some (-1)

theorem taken_append (rs rs' : List WritevResult) : taken (rs ++ rs') = taken rs + taken rs' := by
  induction rs with
  | nil => exact (Nat.zero_add _).symm
  | cons r rs ih => cases r <;> simp only [List.cons_append, taken, ih, Nat.add_assoc]

/-- The turns of a script, without the boundaries between the calls. -/
def turn (conn : Connection) (r : WritevResult) : Except Fault (List UInt8 × Connection) := do
  let ((_, out), conn) ← conn.sendTurn r
  return (out, conn)

/-- What a report means for the pending stream. -/
def turnSpec (pending : List UInt8) : WritevResult → List UInt8 × List UInt8
  | .count n => (pending.take n, pending.drop n)
  | _ => ([], pending)

/-- The reports possible for a pending stream. -/
def turnPre (pending : List UInt8) : WritevResult → Prop
  | .count n => 1 ≤ n ∧ n ≤ pending.length
  | .zero => pending = []
  | .again => True
  | .failed => False

/-- The pending stream is the window of the send buffer and the rest of the
file; the file entry offers all that lies behind its base pointer. -/
structure Pending (conn : Connection) (pending : List UInt8) : Prop where
  /-- The pointers of the send buffer are in order. -/
  valid : conn.mWriteBuffer.Valid
  /-- Window first, file second. -/
  stream_eq : pending = conn.mWriteBuffer.unread ++ conn.m_iv1.bytes
  /-- The entry reaches to the end of the file. -/
  len_eq : conn.m_iv1.iov_len = conn.m_iv1.iov_base.length
  /-- The entry's length is a `size_t`. -/
  len_lt : conn.m_iv1.iov_len < 18446744073709551616

theorem Pending.bytes_eq {conn : Connection} {pending : List UInt8} (h : Pending conn pending) :
    conn.m_iv1.bytes = conn.m_iv1.iov_base := by
  rw [Iovec.bytes, h.len_eq, List.take_length]

theorem Pending.offered_eq {conn : Connection} {pending : List UInt8} (h : Pending conn pending) :
    conn.offered = .ok pending := by
  obtain ⟨consumed, free, hb⟩ := h.valid.holds
  simp only [Connection.offered, hb.used_eq, hb.load_eq, bind, Except.bind, pure, Except.pure]
  rw [← h.stream_eq]

/-- A count that stays inside the window moves the read pointer within range. -/
theorem Pending.turn_buffer {conn : Connection} {pending : List UInt8} (h : Pending conn pending)
    {n : ℕ} (hn : n ≤ conn.mWriteBuffer.unread.length) :
    (conn.mWriteBuffer.readPtrMove n).1 = 0 ∧
      Pending { conn with mWriteBuffer := (conn.mWriteBuffer.readPtrMove n).2 }
        (pending.drop n) := by
  obtain ⟨consumed, free, hb⟩ := h.valid.holds
  rw [← List.take_append_drop n conn.mWriteBuffer.unread] at hb
  obtain ⟨hret, hmove⟩ := hb.readPtrMove_eq
  rw [List.length_take, Nat.min_eq_left hn] at hret hmove
  refine ⟨hret, hmove.valid, ?_, h.len_eq, h.len_lt⟩
  rw [hmove.unread_eq, h.stream_eq, List.drop_append_of_le_length hn]

/-- A count beyond the window empties the buffer and eats into the file,
without wrapping the remaining length. -/
theorem Pending.turn_file {conn : Connection} {pending : List UInt8} (h : Pending conn pending)
    {n : ℕ} (hn : conn.mWriteBuffer.unread.length < n) (hle : n ≤ pending.length) :
    n - conn.mWriteBuffer.unread.length ≤ conn.m_iv1.iov_len ∧
      Pending { conn with
        m_iv1 := ⟨conn.m_iv1.iov_base.drop (n - conn.mWriteBuffer.unread.length),
          toSize (conn.m_iv1.iov_len - (n - conn.mWriteBuffer.unread.length : ℕ))⟩
        mWriteBuffer := conn.mWriteBuffer.reset } (pending.drop n) := by
  have hlen : pending.length = conn.mWriteBuffer.unread.length + conn.m_iv1.iov_len := by
    rw [h.stream_eq, List.length_append, h.bytes_eq, h.len_eq]
  have hlt := h.len_lt
  have htemp : n - conn.mWriteBuffer.unread.length ≤ conn.m_iv1.iov_len := by omega
  have hsize : toSize ((conn.m_iv1.iov_len : ℤ) - (n - conn.mWriteBuffer.unread.length : ℕ)) =
      conn.m_iv1.iov_len - (n - conn.mWriteBuffer.unread.length) := by
    rw [toSize_of_range (by omega) (by omega)]
    omega
  have hbase : (conn.m_iv1.iov_base.drop (n - conn.mWriteBuffer.unread.length)).length =
      conn.m_iv1.iov_len - (n - conn.mWriteBuffer.unread.length) := by
    rw [List.length_drop, h.len_eq]
  have hreset := conn.mWriteBuffer.reset_holds
  refine ⟨htemp, hreset.valid, ?_, ?_, ?_⟩
  · rw [hreset.unread_eq, Iovec.bytes]
    dsimp only
    rw [hsize, ← hbase, List.take_length, h.stream_eq, h.bytes_eq, List.drop_append,
      List.drop_of_length_le (by omega)]
  · dsimp only
    rw [hsize, hbase]
  · dsimp only
    omega

/-- One turn of the loop takes the reported prefix off the pending stream. -/
theorem turn_refines : Refines turn turnSpec turnPre Pending := by
  intro conn pending r h hpre
  obtain ⟨consumed, free, hb⟩ := h.valid.holds
  cases r with
  | count n =>
    obtain ⟨hpos, hle⟩ := hpre
    by_cases hn : n > conn.mWriteBuffer.unread.length
    · refine ⟨_, ?_, (h.turn_file hn hle).2⟩
      simp only [turn, Connection.sendTurn, h.offered_eq, hb.used_eq, if_pos hn, turnSpec, bind,
        Except.bind, pure, Except.pure]
    · refine ⟨_, ?_, (h.turn_buffer (by omega)).2⟩
      simp only [turn, Connection.sendTurn, h.offered_eq, hb.used_eq, if_neg hn, turnSpec, bind,
        Except.bind, pure, Except.pure]
  | zero =>
    have hnil : conn.mWriteBuffer.unread = [] ∧ conn.m_iv1.bytes = [] := by
      have hz : pending = [] := hpre
      rw [h.stream_eq] at hz
      exact List.append_eq_nil_iff.mp hz
    refine ⟨{ conn with m_iv1 := Iovec.null }, ?_, h.valid, ?_, rfl, by simp [Iovec.null]⟩
    · simp only [turn, Connection.sendTurn, h.offered_eq, turnSpec, bind, Except.bind, pure,
        Except.pure]
    · change pending = _
      rw [show pending = [] from hpre, hnil.1]
      rfl
  | again =>
    refine ⟨conn, ?_, h⟩
    simp only [turn, Connection.sendTurn, h.offered_eq, turnSpec, bind, Except.bind, pure,
      Except.pure]
  | failed => exact absurd hpre id

/-- What the code offers decides which reports are possible. -/
theorem Pending.pre_of_reportable {conn : Connection} {pending : List UInt8}
    (h : Pending conn pending) {r : WritevResult} (hr : Reportable conn r) : turnPre pending r := by
  cases r with
  | count n =>
    obtain ⟨bytes, hb, hpos, hle, -⟩ := hr
    rw [h.offered_eq] at hb
    cases hb
    exact ⟨hpos, hle⟩
  | zero =>
    have hz : conn.offered = .ok [] := hr
    rw [h.offered_eq] at hz
    exact Except.ok.inj hz
  | again => trivial
  | failed => exact hr

/-- On a pending stream shorter than the range of `int`, every script that the
specification permits can be reported. -/
theorem Pending.script {conn : Connection} {pending : List UInt8} (h : Pending conn pending)
    (hint : pending.length < 2147483648) {rs : List WritevResult}
    (hp : Permitted turnSpec turnPre pending rs) : Script conn rs := by
  induction rs generalizing conn pending with
  | nil => trivial
  | cons r rs ih =>
    obtain ⟨hr, hrest⟩ := hp
    constructor
    · cases r with
      | count n => exact ⟨pending, h.offered_eq, hr.1, hr.2, by have := hr.2; omega⟩
      | zero =>
        change conn.offered = .ok []
        rw [h.offered_eq, show pending = [] from hr]
      | again => trivial
      | failed => exact hr
    · intro ret out conn' hturn
      obtain ⟨conn₁, hturn₁, h₁⟩ := turn_refines conn pending r h hr
      simp only [turn, hturn, bind, Except.bind, pure, Except.pure, Except.ok.injEq,
        Prod.mk.injEq] at hturn₁
      rw [hturn₁.2]
      refine ih h₁ ?_ hrest
      cases r <;> simp only [turnSpec, List.length_drop] <;> omega

theorem turn_eq_ok {conn conn' : Connection} {r : WritevResult} {out : List UInt8}
    (h : turn conn r = .ok (out, conn')) : ∃ ret, conn.sendTurn r = .ok ((ret, out), conn') := by
  unfold turn at h
  cases hs : conn.sendTurn r with
  | error e => simp [hs, bind, Except.bind] at h
  | ok v =>
    obtain ⟨⟨ret, out'⟩, conn''⟩ := v
    simp only [hs, bind, Except.bind, pure, Except.pure, Except.ok.injEq, Prod.mk.injEq] at h
    exact ⟨ret, by rw [h.1, h.2]⟩

/-- Two narrowing conversions keep the last 32 bits. -/
theorem toInt_toSize (z : ℤ) : toInt (toSize z) = toInt z := by
  unfold toInt toSize
  omega

/-- A call that goes on after a report. -/
theorem send_cons {conn conn₁ conn' : Connection} {r : WritevResult} {sent : List UInt8}
    (h : conn.sendTurn r = .ok ((none, sent), conn₁)) {rs rest : List WritevResult}
    {ret : Option ℤ} {out : List UInt8} :
    conn.send (r :: rs) = .ok ((ret, out, rest), conn') ↔
      ∃ out', conn₁.send rs = .ok ((ret, out', rest), conn') ∧ out = sent ++ out' := by
  rw [Connection.send, h, ok_bind]
  dsimp only
  constructor
  · intro hsend
    obtain ⟨⟨⟨ret₂, out₂, rest₂⟩, conn₂⟩, hrest, hsend⟩ := bind_eq_ok hsend
    cases hsend
    exact ⟨out₂, hrest, rfl⟩
  · rintro ⟨out', hrest, hout⟩
    rw [hrest, ok_bind, hout]
    rfl

/-- A call that a report ends. -/
theorem send_of_turn {conn conn' : Connection} {r : WritevResult} {v : ℤ} {sent : List UInt8}
    (h : conn.sendTurn r = .ok ((some v, sent), conn')) (rs : List WritevResult) :
    conn.send (r :: rs) = .ok ((some v, sent, rs), conn') := by
  rw [Connection.send, h, ok_bind]
  rfl

/-- A count takes its bytes off the stream, and the call goes on. -/
theorem Pending.sendTurn_count {conn : Connection} {pending : List UInt8} (h : Pending conn pending)
    {n : ℕ} (hpos : 1 ≤ n) (hle : n ≤ pending.length) : ∃ conn₁, Pending conn₁ (pending.drop n) ∧
      conn.sendTurn (.count n) = .ok ((none, pending.take n), conn₁) := by
  obtain ⟨conn₁, hturn, hpending⟩ := turn_refines conn pending (.count n) h ⟨hpos, hle⟩
  obtain ⟨ret, hsend⟩ := turn_eq_ok hturn
  refine ⟨conn₁, hpending, ?_⟩
  obtain ⟨bytes, _, hcase⟩ := bind_eq_ok hsend
  dsimp only at hcase
  have hret : none = ret := by
    split at hcase
    · exact (Prod.mk.inj (Prod.mk.inj (Except.ok.inj hcase)).1).1
    · exact (Prod.mk.inj (Prod.mk.inj (Except.ok.inj hcase)).1).1
  rw [hret]
  exact hsend

/-- Zero clears the file entry when nothing is left. -/
theorem Pending.sendTurn_zero {conn : Connection} {pending : List UInt8} (h : Pending conn pending)
    (hnil : pending = []) : ∃ conn₁, Pending conn₁ pending ∧
      conn.sendTurn .zero = .ok ((some 0, []), conn₁) := by
  obtain ⟨conn₁, hturn, hpending⟩ := turn_refines conn pending .zero h hnil
  obtain ⟨ret, hsend⟩ := turn_eq_ok hturn
  refine ⟨conn₁, hpending, ?_⟩
  obtain ⟨bytes, -, hcase⟩ := bind_eq_ok hsend
  cases hcase
  exact hsend

/-- The value after `EAGAIN` is the length of the pending stream, as an `int`. -/
theorem Pending.sendTurn_again {conn : Connection} {pending : List UInt8} (h : Pending conn pending) :
    conn.sendTurn .again = .ok ((some (toInt pending.length), []), conn) := by
  obtain ⟨consumed, free, hb⟩ := h.valid.holds
  have hsum : ((conn.mWriteBuffer.used : ℤ) + conn.m_iv1.iov_len) = pending.length := by
    rw [hb.used_eq, h.stream_eq, List.length_append, h.bytes_eq, h.len_eq]
    omega
  rw [Connection.sendTurn, h.offered_eq, ok_bind]
  dsimp only
  rw [hsum, toInt_toSize]
  rfl

/-- A call of `send` takes the bytes that its reports say off the stream. -/
theorem send_turns {conn : Connection} {pending : List UInt8} (h : Pending conn pending)
    {rs : List WritevResult} (hs : Script conn rs) :
    taken (usedByCall rs) ≤ pending.length ∧
      ∃ conn', conn.send rs = .ok ((returned (pending.length - taken (usedByCall rs)) rs,
          pending.take (taken (usedByCall rs)), leftByCall rs), conn') ∧
        Pending conn' (pending.drop (taken (usedByCall rs))) ∧ Script conn' (leftByCall rs) := by
  induction rs generalizing conn pending with
  | nil => exact ⟨Nat.zero_le _, conn, rfl, h, trivial⟩
  | cons r rs ih =>
    obtain ⟨hr, hnext⟩ := hs
    have hpre := h.pre_of_reportable hr
    cases r with
    | count n =>
      obtain ⟨hpos, hn⟩ := hpre
      obtain ⟨conn₁, h₁, hturn⟩ := h.sendTurn_count hpos hn
      obtain ⟨hle, conn', hsend, h', hscript⟩ := ih h₁ (hnext _ _ _ hturn)
      rw [List.length_drop] at hle hsend
      rw [List.drop_drop] at h'
      refine ⟨?_, conn', ?_, h', hscript⟩
      · rw [usedByCall, taken]
        omega
      · rw [usedByCall, taken, ← Nat.sub_sub]
        exact (send_cons hturn).mpr ⟨_, hsend, List.take_add⟩
    | zero =>
      obtain ⟨conn₁, h₁, hturn⟩ := h.sendTurn_zero hpre
      exact ⟨Nat.zero_le _, conn₁, send_of_turn hturn rs, h₁, hnext _ _ _ hturn⟩
    | again =>
      have hturn := h.sendTurn_again
      exact ⟨Nat.zero_le _, conn, send_of_turn hturn rs, h, hnext _ _ _ hturn⟩
    | failed => exact absurd hpre id

/-- So do any number of calls. -/
theorem sends_turns {conn : Connection} {pending : List UInt8} (h : Pending conn pending)
    (calls : ℕ) {rs : List WritevResult} (hs : Script conn rs) :
    taken (usedByCalls calls rs) ≤ pending.length ∧
      ∃ conn', sends calls conn rs = .ok (pending.take (taken (usedByCalls calls rs)), conn') ∧
        Pending conn' (pending.drop (taken (usedByCalls calls rs))) := by
  induction calls generalizing conn pending rs with
  | zero => exact ⟨Nat.zero_le _, conn, rfl, h⟩
  | succ calls ih =>
    obtain ⟨hle, conn₁, hsend, h₁, hscript⟩ := send_turns h hs
    obtain ⟨hle₂, conn₂, hsends, h₂⟩ := ih h₁ hscript
    rw [List.length_drop] at hle₂
    rw [List.drop_drop] at h₂
    rw [usedByCalls, taken_append]
    refine ⟨by omega, conn₂, ?_, h₂⟩
    simp only [sends, hsend, hsends, bind, Except.bind, pure, Except.pure]
    rw [List.take_add]

/-- After every script over any number of `send` calls, what went out, the
window of the send buffer and the rest of the file make up the queued bytes
and the file, and the next report can neither wrap `iov_len` nor move the read
pointer out of range. As many bytes went out as the reports say that were used,
and a further call sends and returns what its reports say. -/
theorem send_stream_integrity (conn : Connection) (hv : conn.mWriteBuffer.Valid) (F : FileSystem)
    (calls : ℕ) (script : List WritevResult) (hs : Script (conn.setFile F) script) :
    ∃ out conn', sends calls (conn.setFile F) script = .ok (out, conn') ∧
      out ++ conn'.mWriteBuffer.unread ++ conn'.m_iv1.bytes =
        conn.mWriteBuffer.unread ++ F.content ∧
      conn'.mWriteBuffer.Valid ∧ conn'.m_iv1.iov_len = conn'.m_iv1.bytes.length ∧
      (∀ n, Reportable conn' (.count n) →
        if n > conn'.mWriteBuffer.used then n - conn'.mWriteBuffer.used ≤ conn'.m_iv1.iov_len
        else (conn'.mWriteBuffer.readPtrMove n).1 = 0) ∧
      out.length = taken (usedByCalls calls script) ∧
      ∀ more, Script conn' more → ∃ sent conn'',
        conn'.send more = .ok ((returned (conn''.mWriteBuffer.unread ++ conn''.m_iv1.bytes).length more,
          sent, leftByCall more), conn'') ∧ sent.length = taken (usedByCall more) := by
  have hstart : Pending (conn.setFile F) (conn.mWriteBuffer.unread ++ F.content) :=
    ⟨hv, by simp [Connection.setFile, Iovec.bytes], rfl, F.length_lt⟩
  obtain ⟨hle, conn', hsends, h⟩ := sends_turns hstart calls hs
  refine ⟨_, conn', hsends, ?_, h.valid, by rw [h.bytes_eq, h.len_eq], ?_,
    List.length_take_of_le hle, ?_⟩
  · rw [List.append_assoc, ← h.stream_eq, List.take_append_drop]
  · intro n hn
    obtain ⟨consumed, free, hb⟩ := h.valid.holds
    rw [hb.used_eq]
    split
    · rename_i hlt
      exact (h.turn_file hlt (h.pre_of_reportable hn).2).1
    · rename_i hle
      exact (h.turn_buffer (by omega)).1
  · intro more hmore
    obtain ⟨hle', conn'', hsend, h', -⟩ := send_turns h hmore
    refine ⟨_, conn'', ?_, List.length_take_of_le hle'⟩
    rw [← h'.stream_eq, List.length_drop]
    exact hsend

/-- A connection with one queued byte. -/
def oneByteQueued : Connection :=
  { Connection.create FixedBuffer.blank FixedBuffer.blank with
    mWriteBuffer := ⟨65 :: List.replicate 1023 0, 0, 1,
      by rw [List.length_cons, List.length_replicate]; rfl⟩ }

theorem oneByteQueued_holds :
    oneByteQueued.mWriteBuffer.Holds [] [65] (List.replicate 1023 0) := ⟨rfl, rfl, rfl⟩

/-- A short write that ends inside a file of two bytes, an `EAGAIN`, and a
second call that sends the rest. -/
theorem send_stream_integrity_sample :
    ∃ conn', sends 2 (oneByteQueued.setFile ⟨[66, 67], by decide⟩)
        [.count 2, .again, .count 1] = .ok ([65, 66, 67], conn') ∧
      conn'.mWriteBuffer.unread = [] ∧ conn'.m_iv1.bytes = [] := by
  have hunread := oneByteQueued_holds.unread_eq
  have hstart : Pending (oneByteQueued.setFile ⟨[66, 67], by decide⟩) [65, 66, 67] :=
    ⟨oneByteQueued_holds.valid, by
      change _ = oneByteQueued.mWriteBuffer.unread ++ _
      rw [hunread]
      rfl, rfl, by decide⟩
  obtain ⟨out, conn', hsends, hstream, -, -, -, hlen, -⟩ :=
    send_stream_integrity oneByteQueued oneByteQueued_holds.valid ⟨[66, 67], by decide⟩ 2
      [.count 2, .again, .count 1]
      (hstart.script (by decide) ⟨⟨by decide, by decide⟩, trivial, ⟨by decide, by decide⟩, trivial⟩)
  rw [hunread] at hstream
  have hthree : out.length = 3 := hlen
  have htotal := congrArg List.length hstream
  simp only [List.length_append, List.length_cons, List.length_nil] at htotal
  have hbuffer : conn'.mWriteBuffer.unread = [] := List.length_eq_zero_iff.mp (by omega)
  have hfile : conn'.m_iv1.bytes = [] := List.length_eq_zero_iff.mp (by omega)
  rw [hbuffer, hfile, List.append_nil, List.append_nil] at hstream
  rw [hstream] at hsends
  exact ⟨conn', hsends, hbuffer, hfile⟩

end KyrosWebServer.Net
