import KyrosWebServer.HttpServer
import KyrosWebServer.ScatterWrite

/-!
# The amount that `send` reports as pending

After `EAGAIN` the bytes of the window and the rest of the file are added up as
`size_t`, and the sum goes through an `int`. `handleWrite` tells by the sign of
what is left of it whether the response is finished.
-/

namespace KyrosWebServer.Net

open CMemory Base

/-- Neither the window nor the file has bytes left. -/
def AllSent (conn : Connection) : Prop := conn.mWriteBuffer.unread = [] ∧ conn.m_iv1.bytes = []

/-- Reports the kernel can give, errors included. -/
def Possible (conn : Connection) : WritevResult → Prop
  | .failed => True
  | r => Reportable conn r

/-- A script of such reports, each possible where its `writev` happens. -/
def Outcomes (conn : Connection) : List WritevResult → Prop
  | [] => True
  | r :: rs => Possible conn r ∧
      ∀ ret out conn', conn.sendTurn r = .ok ((ret, out), conn') → Outcomes conn' rs

/-- A value that counts as finished comes when everything has been sent; when
`EAGAIN` ends the call before that, the value is positive. -/
def Truthful (conn : Connection) (rs : List WritevResult) : Prop :=
  ∀ ret out rest conn', conn.send rs = .ok ((some ret, out, rest), conn') →
    (afterSend ret = .writeCb → AllSent conn') ∧
    (∀ front, rs = front ++ .again :: rest → ¬ AllSent conn' → 0 < ret ∧ afterSend ret = .enableConnWrite)

/-- The amount left at an `EAGAIN` is zero, or its last 32 bits are a positive `int`. -/
def AgainFits (left : ℕ) : List WritevResult → Prop
  | .count n :: rs => AgainFits (left - n) rs
  | .again :: _ => left = 0 ∨ 0 < left % 4294967296 ∧ left % 4294967296 < 2147483648
  | _ => True

theorem afterSend_enableConnWrite {ret : ℤ} (h : 0 < ret) : afterSend ret = .enableConnWrite := by
  rw [afterSend, if_neg (by omega), if_pos h]

theorem afterSend_writeCb {ret : ℤ} : afterSend ret = .writeCb ↔ ret = 0 := by
  unfold afterSend
  split
  · simp only [reduceCtorEq, false_iff]
    omega
  · split
    · simp only [reduceCtorEq, false_iff]
      omega
    · split <;> simp_all

/-- The report that ends a call is the only one in front of the rest. -/
theorem front_of_ends {r : WritevResult} {front rs : List WritevResult}
    (h : r :: rs = front ++ .again :: rs) : r = .again := by
  cases front with
  | nil => exact (List.cons.inj h).1
  | cons x front =>
    have hlen := congrArg List.length h
    simp only [List.length_cons, List.length_append] at hlen
    omega

/-- A count in front changes nothing about the end of the call. -/
theorem truthful_count {conn conn₁ : Connection} {n : ℕ} {sent : List UInt8}
    (h : conn.sendTurn (.count n) = .ok ((none, sent), conn₁)) (rs : List WritevResult) :
    Truthful conn (.count n :: rs) ↔ Truthful conn₁ rs := by
  constructor
  · intro htrue ret out rest conn' hsend
    obtain ⟨hfinished, hagain⟩ := htrue ret _ rest conn' ((send_cons h).mpr ⟨out, hsend, rfl⟩)
    exact ⟨hfinished, fun front hfront => hagain (.count n :: front) (by rw [hfront]; rfl)⟩
  · intro htrue ret out rest conn' hsend
    obtain ⟨out', hsend', -⟩ := (send_cons h).mp hsend
    obtain ⟨hfinished, hagain⟩ := htrue ret out' rest conn' hsend'
    refine ⟨hfinished, fun front hfront => ?_⟩
    cases front with
    | nil => cases (List.cons.inj hfront).1
    | cons x front => exact hagain front (List.cons.inj hfront).2

/-- A report other than `EAGAIN` that ends the call may count as finished only
when everything has been sent. -/
theorem truthful_of_turn {conn conn' : Connection} {r : WritevResult} {v : ℤ} {sent : List UInt8}
    (h : conn.sendTurn r = .ok ((some v, sent), conn')) (hr : r ≠ .again)
    (hfinished : afterSend v = .writeCb → AllSent conn') (rs : List WritevResult) :
    Truthful conn (r :: rs) := by
  intro ret out rest conn₂ hsend
  rw [send_of_turn h] at hsend
  cases hsend
  exact ⟨hfinished, fun front hfront => absurd (front_of_ends hfront) hr⟩

section Turns

variable {conn : Connection} {pending : List UInt8}

theorem Pending.allSent_iff (h : Pending conn pending) : AllSent conn ↔ pending.length = 0 := by
  rw [List.length_eq_zero_iff, h.stream_eq, List.append_eq_nil_iff]
  rfl

/-- `EAGAIN` tells the truth when nothing is left, or the `int` that is left is positive. -/
theorem Pending.truthful_again (h : Pending conn pending) (rs : List WritevResult) :
    Truthful conn (.again :: rs) ↔ pending.length = 0 ∨ 0 < toInt pending.length := by
  have hsend := send_of_turn h.sendTurn_again rs
  constructor
  · intro htrue
    obtain ⟨_, hagain⟩ := htrue _ _ _ _ hsend
    by_cases hempty : AllSent conn
    · exact .inl (h.allSent_iff.mp hempty)
    · exact .inr (hagain [] rfl hempty).1
  · intro hfits ret out rest conn' hsend'
    rw [hsend] at hsend'
    obtain ⟨hout, hsame⟩ := Prod.mk.inj (Except.ok.inj hsend')
    have hret := Option.some.inj (Prod.mk.inj hout).1
    rw [← hret, ← hsame, afterSend_writeCb, h.allSent_iff]
    refine ⟨fun hzero => by omega, fun _ _ hleft => ?_⟩
    have hpos := hfits.resolve_left hleft
    exact ⟨hpos, afterSend_enableConnWrite hpos⟩

/-- A call tells the truth exactly when the amounts left at its `EAGAIN` fit. -/
theorem Pending.truthful_iff (h : Pending conn pending) {rs : List WritevResult}
    (hrs : Outcomes conn rs) : Truthful conn rs ↔ AgainFits pending.length rs := by
  induction rs generalizing conn pending with
  | nil =>
    refine ⟨fun _ => trivial, fun _ ret out rest conn' hsend => ?_⟩
    cases hsend
  | cons r rs ih =>
    obtain ⟨hr, hnext⟩ := hrs
    cases r with
    | count n =>
      obtain ⟨bytes, hoffered, hpos, hle, -⟩ := hr
      rw [h.offered_eq] at hoffered
      cases hoffered
      obtain ⟨conn₁, h₁, hturn⟩ := h.sendTurn_count hpos hle
      have hrest := ih h₁ (hnext _ _ _ hturn)
      rw [List.length_drop] at hrest
      rw [AgainFits, ← hrest]
      exact truthful_count hturn rs
    | again =>
      rw [h.truthful_again rs]
      unfold AgainFits toInt
      omega
    | zero =>
      have hnil : pending = [] := h.pre_of_reportable (r := .zero) hr
      have hturn : conn.sendTurn .zero = .ok ((some 0, []), { conn with m_iv1 := Iovec.null }) := by
        rw [Connection.sendTurn, h.offered_eq, ok_bind]
        rfl
      have hempty := h.allSent_iff.mpr (by rw [hnil, List.length_nil])
      exact ⟨fun _ => trivial, fun _ => truthful_of_turn hturn WritevResult.noConfusion
        (fun _ => ⟨hempty.1, List.take_nil⟩) rs⟩
    | failed =>
      have hturn : conn.sendTurn .failed =
          .ok ((some (-1), []), { conn with m_iv1 := Iovec.null }) := by
        rw [Connection.sendTurn, h.offered_eq, ok_bind]
        rfl
      exact ⟨fun _ => trivial, fun _ => truthful_of_turn hturn WritevResult.noConfusion
        (fun hbranch => by cases hbranch) rs⟩

end Turns

end KyrosWebServer.Net

namespace KyrosWebServer.Http

open CMemory Base Net

namespace HttpConnection

/-- What a branch of `handleWrite` does to the connection. -/
def perform (s : HttpConnection) : HandlerAt → HttpConnection
  | .closeDel _ => s.CloseConn
  | .enableConnWrite => s.enableConnWrite
  | .writeCb => s.WriteCb.enableConnRead
  | _ => s

/-- The handler is `send` and the branch for its value. -/
theorem handleWrite_of_send {s : HttpConnection} {rs : List WritevResult} {ret : ℤ}
    {out : List UInt8 × List WritevResult} {conn : Connection}
    (h : s.conn.send rs = .ok ((some ret, out), conn)) :
    s.handleWrite rs = .ok (some (perform { s with conn := conn } (afterSend ret))) := by
  rw [HttpConnection.handleWrite, h, ok_bind]
  dsimp only
  unfold afterSend
  split
  · rfl
  · split
    · rfl
    · split <;> rfl

/-- The handler lets the response end when all of it has been sent, and when
`EAGAIN` ends the call before that, it goes on writing; the amount that `send`
reports then is positive. -/
def FinishesWhenSent (s : HttpConnection) (rs : List WritevResult) : Prop :=
  ∀ ret out rest conn', s.conn.send rs = .ok ((some ret, out, rest), conn') →
    s.handleWrite rs = .ok (some (perform { s with conn := conn' } (afterSend ret))) ∧
    (afterSend ret = .writeCb → AllSent conn') ∧
    (∀ front, rs = front ++ .again :: rest → ¬ AllSent conn' →
      0 < ret ∧ afterSend ret = .enableConnWrite)

/-- For every window, every rest of a file and every script of `writev`, the
response ends when it is sent, and only then, exactly when the amount left at
an `EAGAIN` fits. -/
theorem finishesWhenSent_iff {s : HttpConnection} {pending : List UInt8}
    (h : Pending s.conn pending) {rs : List WritevResult} (hrs : Outcomes s.conn rs) :
    s.FinishesWhenSent rs ↔ AgainFits pending.length rs := by
  rw [← h.truthful_iff hrs]
  constructor
  · intro hall ret out rest conn' hsend
    exact (hall ret out rest conn' hsend).2
  · intro htrue ret out rest conn' hsend
    exact ⟨handleWrite_of_send hsend, htrue ret out rest conn' hsend⟩

/-- A connection whose response is in its buffer and its scatter list. -/
def sending (conn : Connection) : HttpConnection :=
  ⟨conn, ⟨HttpRequest.fresh, HttpResponse.create⟩, .armed .EPOLLOUT⟩

/-- One queued byte and an `EAGAIN`. -/
theorem finishesWhenSent_iff_byte :
    (sending oneByteQueued).FinishesWhenSent [.again] ↔ AgainFits 1 [.again] := by
  have hpending : Pending (sending oneByteQueued).conn [65] :=
    ⟨oneByteQueued_holds.valid, oneByteQueued_holds.unread_eq.symm, rfl, by decide⟩
  have hscript : Outcomes (sending oneByteQueued).conn [.again] := ⟨trivial, fun _ _ _ _ => trivial⟩
  exact finishesWhenSent_iff hpending hscript

/-- A file of 2³² bytes behind an empty window: after an `EAGAIN`, the handler
takes the response for finished. -/
theorem handleWrite_finishes_early : ∃ F : Net.FileSystem, F.content.length = 4294967296 ∧
    let s := sending ((Connection.create FixedBuffer.blank FixedBuffer.blank).setFile F)
    Outcomes s.conn [.again] ∧ s.conn.send [.again] = .ok ((some 0, [], []), s.conn) ∧
      ¬ AllSent s.conn ∧ ¬ s.FinishesWhenSent [.again] := by
  obtain ⟨F, hF⟩ : ∃ F : Net.FileSystem, F.content.length = 4294967296 :=
    ⟨⟨List.replicate 4294967296 0, by rw [List.length_replicate]; decide⟩, List.length_replicate⟩
  refine ⟨F, hF, ?_⟩
  intro s
  have hblank : FixedBuffer.blank.Holds [] [] (List.replicate kBufferSize 0) :=
    FixedBuffer.create_holds _ _
  have hpending : Pending s.conn F.content := by
    refine ⟨hblank.valid, ?_, rfl, F.length_lt⟩
    change F.content = FixedBuffer.blank.unread ++ F.content.take F.content.length
    rw [hblank.unread_eq, List.take_length, List.nil_append]
  have hscript : Outcomes s.conn [.again] := ⟨trivial, fun _ _ _ _ => trivial⟩
  have hturn := hpending.sendTurn_again
  rw [hF] at hturn
  have hunsent : ¬ AllSent s.conn := by
    rw [hpending.allSent_iff, hF]
    decide
  refine ⟨hscript, send_of_turn hturn [], hunsent, fun hall => ?_⟩
  have hpositive := ((hall _ _ _ _ (send_of_turn hturn [])).2.2 [] rfl hunsent).1
  exact absurd hpositive (by decide)

end HttpConnection

end KyrosWebServer.Http
