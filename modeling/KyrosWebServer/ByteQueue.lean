import KyrosWebServer.BoundedFifo
import KyrosWebServer.Connection
import KyrosWebServer.Refinement

/-!
# The receive buffer is a bounded byte queue

Appending, consuming, resetting and `Connection::Read` are the inputs of one
component. Its specification is a queue of at most `kBufferSize` bytes that
admits a block whole or refuses it. The offsets of the buffer do not occur in
the specification.
-/

namespace KyrosWebServer.Net

open CMemory Base BoundedFifo Refinement

/-- The calls that change the receive buffer of a connection. -/
inductive BufferCall
  /-- `mReadBuffer.append(str, len)` with the `len` bytes of `str`. -/
  | append (str : List UInt8)
  /-- `mReadBuffer.readPtrMove(n)`. -/
  | readPtrMove (n : ℕ)
  /-- `mReadBuffer.reset()`. -/
  | reset
  /-- `Connection::Read(out, len)`. -/
  | Read (len : ℕ)

/-- What a call hands back. -/
inductive BufferReply
  /-- An `int`. -/
  | code (ret : ℤ)
  /-- A count and the bytes copied out. -/
  | bytes (ret : ℕ) (out : List UInt8)
  /-- Nothing. -/
  | done
  deriving DecidableEq, Repr

/-- The calls as the code executes them. -/
def BufferCall.exec (conn : Connection) : BufferCall → Except Fault (BufferReply × Connection)
  | .append str => do
    let (ret, b) ← conn.mReadBuffer.append str
    return (.code ret, { conn with mReadBuffer := b })
  | .readPtrMove n =>
    let moved := conn.mReadBuffer.readPtrMove n
    .ok (.code moved.1, { conn with mReadBuffer := moved.2 })
  | .reset => .ok (.done, { conn with mReadBuffer := conn.mReadBuffer.reset })
  | .Read len => do
    let ((ret, out), conn) ← conn.Read len
    return (.bytes ret out, conn)

/-- The byte queue behind the buffer. -/
abbrev ByteQueue := BoundedQueue UInt8 kBufferSize

/-- What each call means on the queue. -/
def BufferCall.spec (q : ByteQueue) : BufferCall → BufferReply × ByteQueue
  | .append str =>
    match q.enqueue str with
    | some r => (.code str.length, r)
    | none => (.code 0, q)
  | .readPtrMove n => (.code 0, (q.dequeue n).2)
  | .reset => (.done, (q.dequeue q.items.length).2)
  | .Read len => (.bytes (min len q.items.length) (q.dequeue len).1, (q.dequeue len).2)

/-- Callers consume at most the bytes held. -/
def BufferCall.pre (q : ByteQueue) : BufferCall → Prop
  | .readPtrMove n => n ≤ q.items.length
  | _ => True

/-- The queue event of a call. -/
def BufferCall.event (q : ByteQueue) : BufferCall → Event UInt8
  | .append str => .enqueued (if str.length ≤ kBufferSize - q.items.length then str else [])
  | .readPtrMove n => .dequeued (q.dequeue n).1
  | .reset => .dequeued q.items
  | .Read len => .dequeued (q.dequeue len).1

/-- The events of a call sequence. -/
def BufferCall.events : ByteQueue → List BufferCall → List (Event UInt8)
  | _, [] => []
  | q, c :: cs => c.event q :: BufferCall.events (c.spec q).2 cs

/-- The window of a well-placed buffer is the queue. -/
def Windowed (conn : Connection) (q : ByteQueue) : Prop :=
  ∃ consumed free, conn.mReadBuffer.Holds consumed q.items free

/-- `Connection::Read` takes the first bytes of the window, or all of it. -/
theorem Read_holds {conn : Connection} {consumed w free : List UInt8}
    (h : conn.mReadBuffer.Holds consumed w free) (len : ℕ) :
    ∃ conn' consumed' free', conn.Read len = .ok ((min len w.length, w.take len), conn') ∧
      conn'.mReadBuffer.Holds consumed' (w.drop len) free' := by
  by_cases hlen : len < w.length
  · have hsplit : conn.mReadBuffer.Holds consumed (w.take len ++ w.drop len) free := by
      rwa [List.take_append_drop]
    have hx : (w.take len).length = len := by
      rw [List.length_take]
      omega
    have hmove := hsplit.readPtrMove_eq.2
    rw [hx] at hmove
    have hload : conn.mReadBuffer.load conn.mReadBuffer.mReadPtr len = .ok (w.take len) := by
      have hl := h.length_eq
      rw [FixedBuffer.load, if_pos ⟨h.valid.read_nonneg, by rw [h.read_eq]; omega⟩, h.toNat_read,
        h.buf_eq, List.drop_left, List.take_append_of_le_length (by omega)]
    refine ⟨{ conn with mReadBuffer := (conn.mReadBuffer.readPtrMove len).2 }, _, _, ?_, hmove⟩
    simp only [Connection.Read, h.used_eq, if_pos hlen, hload, bind, Except.bind, pure, Except.pure]
    rw [Nat.min_eq_left (by omega)]
  · have hnil : w.drop len = [] := List.drop_of_length_le (by omega)
    refine ⟨{ conn with mReadBuffer := conn.mReadBuffer.reset }, [], conn.mReadBuffer.buf, ?_, ?_⟩
    · simp only [Connection.Read, h.used_eq, if_neg hlen, h.load_eq, bind, Except.bind, pure,
        Except.pure]
      rw [Nat.min_eq_right (by omega), List.take_of_length_le (by omega)]
    · rw [hnil]
      exact conn.mReadBuffer.reset_holds

/-- One call at a time, the code answers as the queue does. -/
theorem exec_refines : Refines BufferCall.exec BufferCall.spec BufferCall.pre Windowed := by
  rintro conn q call ⟨consumed, free, h⟩ hpre
  cases call with
  | append str =>
    by_cases hroom : str.length ≤ kBufferSize - q.items.length
    · obtain ⟨b, consumed', free', happ, hb⟩ := h.append_room hroom
      obtain ⟨r, hr, hitems⟩ := BoundedQueue.enqueue_of_room _ hroom
      refine ⟨{ conn with mReadBuffer := b }, ?_, consumed', free', ?_⟩
      · simp only [BufferCall.exec, BufferCall.spec, happ, hr, bind, Except.bind, pure, Except.pure]
      · simp only [BufferCall.spec, hr, hitems]
        exact hb
    · refine ⟨conn, ?_, consumed, free, ?_⟩
      · simp only [BufferCall.exec, BufferCall.spec, h.append_no_room hroom,
          BoundedQueue.enqueue_of_no_room hroom, bind, Except.bind, pure, Except.pure]
        rfl
      · simp only [BufferCall.spec, BoundedQueue.enqueue_of_no_room hroom]
        exact h
  | readPtrMove n =>
    have hn : n ≤ q.items.length := hpre
    have hx : (q.items.take n).length = n := by
      rw [List.length_take]
      omega
    have hsplit : conn.mReadBuffer.Holds consumed (q.items.take n ++ q.items.drop n) free := by
      rwa [List.take_append_drop]
    obtain ⟨hret, hmove⟩ := hsplit.readPtrMove_eq
    rw [hx] at hret hmove
    refine ⟨{ conn with mReadBuffer := (conn.mReadBuffer.readPtrMove n).2 }, ?_, _, _, hmove⟩
    simp only [BufferCall.exec, BufferCall.spec, hret]
  | reset =>
    refine ⟨_, rfl, [], conn.mReadBuffer.buf, ?_⟩
    have hnil : (BufferCall.spec q .reset).2.items = [] := List.drop_length
    rw [hnil]
    exact conn.mReadBuffer.reset_holds
  | Read len =>
    obtain ⟨conn', consumed', free', hread, hb⟩ := Read_holds h len
    refine ⟨conn', ?_, consumed', free', hb⟩
    simp only [BufferCall.exec, BufferCall.spec, hread, bind, Except.bind, pure, Except.pure]
    rfl

/-- The specified answers make up a history of the bounded queue. -/
theorem events_run {q₀ q : ByteQueue} {es : List (Event UInt8)}
    (h : (fifo UInt8 kBufferSize).Run q₀ es q) (calls : List BufferCall) :
    (fifo UInt8 kBufferSize).Run q₀ (es ++ BufferCall.events q calls)
      (specRuns BufferCall.spec q calls).2 := by
  induction calls generalizing q es with
  | nil => simpa [BufferCall.events, specRuns] using h
  | cons c cs ih =>
    have hstep : (fifo UInt8 kBufferSize).step q (c.event q) (c.spec q).2 := by
      cases c with
      | append str =>
        by_cases hroom : str.length ≤ kBufferSize - q.items.length
        · obtain ⟨r, hr, -⟩ := BoundedQueue.enqueue_of_room _ hroom
          simp only [BufferCall.event, BufferCall.spec, if_pos hroom, hr]
          exact hr
        · simp only [BufferCall.event, BufferCall.spec, if_neg hroom,
            BoundedQueue.enqueue_of_no_room hroom]
          obtain ⟨r, hr, hitems⟩ := BoundedQueue.enqueue_of_room (q := q) [] (by simp)
          have hrq : r = q := BoundedQueue.ext (by simpa using hitems)
          exact hrq ▸ hr
      | readPtrMove n => exact (List.take_append_drop n q.items).symm
      | reset =>
        change q.items = q.items ++ q.items.drop q.items.length
        simp
      | Read len => exact (List.take_append_drop len q.items).symm
    have hrest := ih (h.snoc hstep)
    rw [List.append_assoc] at hrest
    exact hrest

/-- Every call sequence from a new buffer behaves as the bounded byte queue:
no call faults, the replies are the specified ones, the window is what was
admitted and not yet taken, in order, the free room is the rest of the
capacity, and a block without room is refused with the buffer untouched. -/
theorem fixedBuffer_refines_byteQueue (conn : Connection) {raw : List UInt8}
    (hraw : raw.length = kBufferSize) (hnew : conn.mReadBuffer = FixedBuffer.create raw hraw)
    (calls : List BufferCall)
    (hpre : Permitted BufferCall.spec BufferCall.pre BoundedQueue.empty calls) :
    ∃ conn', runs BufferCall.exec conn calls =
        .ok ((specRuns BufferCall.spec BoundedQueue.empty calls).1, conn') ∧
      conn'.mReadBuffer.unread =
        (specRuns BufferCall.spec BoundedQueue.empty calls).2.items ∧
      (BufferCall.events BoundedQueue.empty calls).flatMap Event.left ++
          conn'.mReadBuffer.unread =
        (BufferCall.events BoundedQueue.empty calls).flatMap Event.entered ∧
      conn'.mReadBuffer.used = conn'.mReadBuffer.unread.length ∧
      conn'.mReadBuffer.used + conn'.mReadBuffer.avail = kBufferSize ∧
      ∀ str : List UInt8, if str.length ≤ kBufferSize - conn'.mReadBuffer.unread.length then
          ∃ b, conn'.mReadBuffer.append str = .ok (str.length, b) ∧
            b.unread = conn'.mReadBuffer.unread ++ str
        else conn'.mReadBuffer.append str = .ok (0, conn'.mReadBuffer) := by
  have hstart : Windowed conn BoundedQueue.empty :=
    ⟨[], raw, hnew ▸ FixedBuffer.create_holds raw hraw⟩
  obtain ⟨conn', hruns, consumed, free, h⟩ := exec_refines.runs hstart hpre
  have hempty : (fifo UInt8 kBufferSize).Run BoundedQueue.empty [] BoundedQueue.empty := .nil
  have hrun := events_run hempty calls
  rw [List.nil_append] at hrun
  have hl := h.length_eq
  refine ⟨conn', hruns, h.unread_eq, ?_, ?_, ?_, ?_⟩
  · rw [h.unread_eq]
    exact history hrun
  · rw [h.unread_eq, h.used_eq]
  · rw [h.used_eq, h.avail_eq]
    omega
  · intro str
    rw [h.unread_eq]
    split
    · rename_i hroom
      obtain ⟨b, consumed', free', happ, hb⟩ := h.append_room hroom
      exact ⟨b, happ, hb.unread_eq⟩
    · rename_i hroom
      exact h.append_no_room hroom

/-- The general statement at a short run: three bytes in, two out, one left. -/
theorem fixedBuffer_refines_byteQueue_sample :
    ∃ conn', runs BufferCall.exec (Connection.create FixedBuffer.blank FixedBuffer.blank)
        [.append [7, 8, 9], .Read 1, .readPtrMove 1] =
          .ok ([.code 3, .bytes 1 [7], .code 0], conn') ∧
      conn'.mReadBuffer.unread = [9] := by
  obtain ⟨conn', hruns, hunread, -⟩ := fixedBuffer_refines_byteQueue
    (Connection.create FixedBuffer.blank FixedBuffer.blank) List.length_replicate rfl
    [.append [7, 8, 9], .Read 1, .readPtrMove 1] ⟨trivial, trivial, Nat.le_succ 1, trivial⟩
  exact ⟨conn', hruns, hunread⟩

end KyrosWebServer.Net
