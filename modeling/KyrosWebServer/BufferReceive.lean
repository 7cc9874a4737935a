import KyrosWebServer.BufferCalls

/-!
# Draining a socket into the buffer

A turn of `readFd` slides the unread bytes to the front, after which there is
room at the tail, or it receives at least one byte. Whatever the socket
reports, the call therefore returns, and it has put behind the unread bytes
exactly what it received.
-/

namespace KyrosWebServer.Base

open CMemory
open Net (toInt)

/-- The bytes that came with a report. -/
def RecvResult.data : RecvResult → List UInt8
  | .bytes data => data
  | .again | .failed => []

/-- An error other than `EAGAIN`, or the end of the stream. -/
def RecvResult.Closes : RecvResult → Prop
  | .bytes data => data = []
  | .again => False
  | .failed => True

/-- What closes the loop brings no bytes. -/
theorem RecvResult.Closes.data_eq {r : RecvResult} (h : r.Closes) : r.data = [] := by
  cases r with
  | bytes data => exact h
  | again => rfl
  | failed => rfl

/-- The first reports of a socket. -/
def reports (rs : ℕ → RecvResult) (n : ℕ) : List RecvResult := (List.range n).map rs

/-- All bytes of a sequence of reports, in order. -/
def received (rs : List RecvResult) : List UInt8 := rs.flatMap RecvResult.data

theorem reports_succ (rs : ℕ → RecvResult) (n : ℕ) :
    reports rs (n + 1) = rs 0 :: reports (fun k => rs (k + 1)) n := by
  simp only [reports, List.range_succ_eq_map, List.map_cons, List.map_map]
  rfl

theorem reports_one (rs : ℕ → RecvResult) : reports rs 1 = [rs 0] := rfl

@[simp] theorem received_cons (r : RecvResult) (rs : List RecvResult) :
    received (r :: rs) = r.data ++ received rs := List.flatMap_cons

namespace FixedBuffer

/-- After these reports the call stands in a `recv` to the write pointer of `b₁`. -/
def Asks (b : FixedBuffer) (rs : List RecvResult) (b₁ : FixedBuffer) : Prop :=
  b.readFd rs = .ok ((none, []), b₁)

/-- No report has more bytes than its `recv` asked for. -/
def Answers (b : FixedBuffer) (rs : ℕ → RecvResult) : Prop :=
  ∀ n b₁ data, b.Asks (reports rs n) b₁ → rs n = .bytes data → data.length ≤ b₁.asked

/-- How the loop ended after the reports `got`, and the value it returned. -/
def Ended (last_used : ℕ) (got : List RecvResult) (ret : ℤ) (b : FixedBuffer) : Prop :=
  (got.getLast? = some .again ∨ b.avail = 0) ∧ ret = toInt (toSize (b.used - last_used)) ∨
    (∃ r, got.getLast? = some r ∧ r.Closes) ∧ b.avail > 0 ∧ ret = -1

variable {b : FixedBuffer} {consumed w free : List UInt8} {last_used : ℕ}

/-- A report in front changes nothing about the end of a loop that goes on. -/
theorem Ended.cons {got : List RecvResult} {ret : ℤ} (h : Ended last_used got ret b)
    (r : RecvResult) : Ended last_used (r :: got) ret b := by
  have hlast : ∀ x, got.getLast? = some x → (r :: got).getLast? = some x := by
    intro x hx
    rw [List.getLast?_cons, hx]
    rfl
  obtain ⟨hend | hend, hret⟩ | ⟨⟨x, hx, hcloses⟩, havail, hret⟩ := h
  · exact .inl ⟨.inl (hlast _ hend), hret⟩
  · exact .inl ⟨.inr hend, hret⟩
  · exact .inr ⟨⟨x, hlast x hx, hcloses⟩, havail, hret⟩

/-- While there is room at all, the loop comes to a `recv` with room at the tail. -/
theorem Holds.readFdLoop_ready (h : b.Holds consumed w free) (last_used : ℕ) (havail : b.avail > 0) :
    ∃ (b₁ : FixedBuffer) (consumed₁ free₁ : List UInt8), b₁.Holds consumed₁ w free₁ ∧
      b₁.avail > 0 ∧ b₁.tail ≠ 0 ∧
      ∀ rs, b.readFdLoop last_used rs = b₁.readFdLoop last_used rs := by
  by_cases htail : b.tail = 0
  · obtain ⟨b₁, free₁, hslide, hb₁⟩ := h.slide_eq
    have havail₁ : b₁.avail > 0 := by
      rw [hb₁.avail_eq, ← h.avail_eq]
      exact havail
    refine ⟨b₁, [], free₁, hb₁, havail₁, slide_tail hslide havail, fun rs => ?_⟩
    rw [FixedBuffer.readFdLoop.eq_def, dif_pos havail, dif_pos htail]
    split
    · rename_i e herror
      rw [hslide] at herror
      cases herror
    · rename_i b₂ hok
      rw [hslide] at hok
      cases hok
      rfl
  · exact ⟨b, consumed, free, h, havail, htail, fun _ => rfl⟩

theorem readFdLoop_nil (havail : b.avail > 0) (htail : b.tail ≠ 0) :
    b.readFdLoop last_used [] = .ok ((none, []), b) := by
  rw [FixedBuffer.readFdLoop, dif_pos havail, dif_neg htail]

theorem readFdLoop_again (havail : b.avail > 0) (htail : b.tail ≠ 0) :
    b.readFdLoop last_used [.again] =
      .ok ((some (toInt (toSize (b.used - last_used))), []), b) := by
  rw [FixedBuffer.readFdLoop, dif_pos havail, dif_neg htail]

theorem readFdLoop_closes {r : RecvResult} (hr : r.Closes) (havail : b.avail > 0)
    (htail : b.tail ≠ 0) : b.readFdLoop last_used [r] = .ok ((some (-1), []), b) := by
  cases r with
  | bytes data =>
    have hdata : data = [] := hr
    rw [FixedBuffer.readFdLoop, dif_pos havail, dif_neg htail, hdata, List.take_nil]
    exact if_pos rfl
  | again => exact hr.elim
  | failed => rw [FixedBuffer.readFdLoop, dif_pos havail, dif_neg htail]

/-- Received bytes go behind the unread ones, and the loop goes on. -/
theorem Holds.readFdLoop_bytes (h : b.Holds consumed w free) (last_used : ℕ)
    (havail : b.avail > 0) {data : List UInt8} (hdata : data ≠ []) (hlen : data.length ≤ b.asked) :
    ∃ b' : FixedBuffer, b'.Holds consumed (w ++ data) (free.drop data.length) ∧
      ∀ rs, b.readFdLoop last_used (.bytes data :: rs) = b'.readFdLoop last_used rs := by
  have hpos := List.length_pos_iff.mpr hdata
  have hfree : data.length ≤ free.length := by rw [← h.asked_eq]; exact hlen
  have htail : b.tail ≠ 0 := by
    rw [h.tail_eq]
    omega
  obtain ⟨b', hstore, -, -, hb'⟩ := h.store_tail hfree
  refine ⟨_, hb', fun rs => ?_⟩
  rw [FixedBuffer.readFdLoop, dif_pos havail, dif_neg htail]
  simp only [List.take_of_length_le hlen, if_neg hdata, hstore]

/-- A `recv` is issued only where the tail has room. -/
theorem readFdLoop_asks {rs left : List RecvResult} {b₁ : FixedBuffer}
    (h : b.readFdLoop last_used rs = .ok ((none, left), b₁)) : b₁.asked ≠ 0 := by
  fun_induction FixedBuffer.readFdLoop last_used rs b with
  | case2 rs b havail hlen b' hslide ih => exact ih h
  | case3 b havail hlen =>
    cases h
    exact hlen
  | case8 b havail hlen data rs read hread b' hstore ih => exact ih h
  | _ => cases h

/-- The loop ends on every sequence of reports: the room shrinks with each
report that does not end it. -/
theorem Holds.readFdLoop_ends (h : b.Holds consumed w free) {rs : ℕ → RecvResult}
    (hrs : ∀ n b₁ data, b.readFdLoop last_used (reports rs n) = .ok ((none, []), b₁) →
      rs n = .bytes data → data.length ≤ b₁.asked) :
    ∃ n ret b' consumed' free', b.readFdLoop last_used (reports rs n) = .ok ((some ret, []), b') ∧
      b'.Holds consumed' (w ++ received (reports rs n)) free' ∧
      Ended last_used (reports rs n) ret b' := by
  induction hroom : kBufferSize - w.length using Nat.strongRecOn
    generalizing b consumed w free rs with
  | _ room ih =>
  by_cases havail : b.avail > 0
  · obtain ⟨b₁, consumed₁, free₁, hb₁, havail₁, htail₁, hready⟩ :=
      h.readFdLoop_ready last_used havail
    -- The first report is the only one a closed or drained socket gives.
    by_cases hcloses : (rs 0).Closes
    · refine ⟨1, -1, b₁, consumed₁, free₁, ?_, ?_, .inr ⟨⟨rs 0, rfl, hcloses⟩, havail₁, rfl⟩⟩
      · rw [hready]
        exact readFdLoop_closes hcloses havail₁ htail₁
      · have hnone : received (reports rs 1) = [] := by
          rw [reports_one, received_cons, hcloses.data_eq]
          rfl
        rw [hnone, List.append_nil]
        exact hb₁
    · cases hr : rs 0 with
      | failed =>
        rw [hr] at hcloses
        exact absurd trivial hcloses
      | again =>
        refine ⟨1, _, b₁, consumed₁, free₁, ?_, ?_, .inl ⟨.inl ?_, rfl⟩⟩
        · rw [hready, reports_one, hr]
          exact readFdLoop_again havail₁ htail₁
        · simpa [reports, received, hr, RecvResult.data] using hb₁
        · rw [reports_one, hr]
          rfl
      | bytes data =>
        have hdata : data ≠ [] := fun h₀ => hcloses (hr ▸ h₀)
        have hlen : data.length ≤ b₁.asked := by
          apply hrs 0 b₁ data ?_ hr
          rw [hready]
          exact readFdLoop_nil havail₁ htail₁
        obtain ⟨b₂, hb₂, hstep⟩ := hb₁.readFdLoop_bytes last_used havail₁ hdata hlen
        have hrun : ∀ n, b.readFdLoop last_used (reports rs (n + 1)) =
            b₂.readFdLoop last_used (reports (fun k => rs (k + 1)) n) := by
          intro n
          rw [hready, reports_succ, hr, hstep]
        have hless : kBufferSize - (w ++ data).length < room := by
          have hpos := List.length_pos_iff.mpr hdata
          rw [h.avail_eq] at havail
          rw [List.length_append]
          omega
        obtain ⟨n, ret, b', consumed', free', hloop, hb', hended⟩ :=
          ih _ hless hb₂ (fun n b₃ data₃ hask hdata₃ =>
            hrs (n + 1) b₃ data₃ ((hrun n).trans hask) hdata₃) rfl
        refine ⟨n + 1, ret, b', consumed', free', (hrun n).trans hloop, ?_, ?_⟩
        · rw [reports_succ, received_cons, hr, ← List.append_assoc]
          exact hb'
        · rw [reports_succ]
          exact hended.cons (rs 0)
  · refine ⟨0, _, b, consumed, free, ?_, ?_, .inl ⟨.inr (by omega), rfl⟩⟩
    · rw [FixedBuffer.readFdLoop.eq_def, dif_neg havail]
      rfl
    · simpa [reports, received] using h

end FixedBuffer

open FixedBuffer

/-- On every socket the call returns after finitely many reports. Each `recv` is
asked for room that the tail has, the received bytes stand behind the old ones,
and their number is returned unless the connection failed or was closed. -/
theorem readFd_drains {b : FixedBuffer} (hb : b.Valid) {rs : ℕ → RecvResult}
    (hrs : b.Answers rs) :
    (∀ n b₁, b.Asks (reports rs n) b₁ →
      0 < b₁.asked ∧ (b₁.asked : ℤ) ≤ kBufferSize - b₁.mWritePtr) ∧
    ∃ n ret b', b.readFd (reports rs n) = .ok ((some ret, []), b') ∧ b'.Valid ∧
      b'.unread = b.unread ++ received (reports rs n) ∧
      (((reports rs n).getLast? = some .again ∨ b'.avail = 0) ∧
          ret = (received (reports rs n)).length ∨
        (∃ r, (reports rs n).getLast? = some r ∧ r.Closes) ∧ b'.avail > 0 ∧ ret = -1) := by
  obtain ⟨consumed, free, h⟩ := hb.holds
  have hk := kBufferSize_eq
  by_cases havail : b.avail = 0
  · have hread : ∀ got, b.readFd got = .ok ((some 0, got), b) := fun got => if_pos havail
    constructor
    · intro n b₁ hask
      rw [Asks, hread] at hask
      cases hask
    · refine ⟨0, 0, b, hread _, hb, ?_, .inl ⟨.inr havail, rfl⟩⟩
      exact (List.append_nil _).symm
  · have hread : ∀ got, b.readFd got = b.readFdLoop b.used got := fun got => if_neg havail
    constructor
    · intro n b₁ hask
      rw [Asks, hread] at hask
      have hasked := readFdLoop_asks hask
      obtain ⟨out, b', consumed', got, free', hloop, hb'⟩ := h.readFdLoop b.used (reports rs n)
      rw [hask] at hloop
      cases hloop
      have hl := hb'.length_eq
      rw [hb'.asked_eq] at hasked ⊢
      rw [hb'.write_eq]
      omega
    · obtain ⟨n, ret, b', consumed', free', hloop, hb', hended⟩ :=
        h.readFdLoop_ends fun n b₁ data hask => hrs n b₁ data ((hread _).trans hask)
      refine ⟨n, ret, b', (hread _).trans hloop, hb'.valid, hb'.unread_eq, ?_⟩
      obtain ⟨hend, hret⟩ | hclosed := hended
      · refine .inl ⟨hend, ?_⟩
        have hl := hb'.length_eq
        rw [List.length_append] at hl
        rw [hret, hb'.used_eq, h.used_eq, List.length_append,
          toSize_of_range (by omega) (by omega)]
        unfold toInt
        omega
      · exact .inr hclosed

/-- A socket with one byte in it. -/
def oneByte : ℕ → RecvResult
  | 0 => .bytes [65]
  | _ => .again

/-- One byte into a new buffer. -/
theorem readFd_drains_byte :
    ∃ n ret b', blank.readFd (reports oneByte n) = .ok ((some ret, []), b') ∧ b'.Valid ∧
      b'.unread = blank.unread ++ received (reports oneByte n) := by
  have hanswers : blank.Answers oneByte := by
    intro n b₁ data hask hr
    have hread : ∀ got, blank.readFd got = blank.readFdLoop blank.used got := fun _ => rfl
    rw [Asks, hread] at hask
    have hasked := readFdLoop_asks hask
    cases n with
    | zero =>
      cases hr
      exact Nat.one_le_iff_ne_zero.mpr hasked
    | succ n => cases hr
  obtain ⟨n, ret, b', hread, hvalid, hunread, -⟩ :=
    (readFd_drains (create_holds _ length_zeros).valid hanswers).2
  exact ⟨n, ret, b', hread, hvalid, hunread⟩

end KyrosWebServer.Base
