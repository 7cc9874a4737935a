import KyrosWebServer.BufferCalls

/-!
# Making room with `memcpy`

`append` and `readFd` slide the unread bytes to the front of the storage with
`memcpy`, which requires that source and destination do not overlap. Each
compaction is recorded as an interval copied to another. Whether the two are
apart depends on how much was read before.
-/

namespace KyrosWebServer.Base

open CMemory Refinement
open Net (toInt)

/-- A `memcpy` within the storage, by offsets. -/
structure Copy where
  /-- Where the first byte goes. -/
  dst : ℤ
  /-- Where the first byte comes from. -/
  src : ℤ
  /-- How many bytes. -/
  n : ℕ
  deriving DecidableEq, Repr

/-- What `memcpy` requires of its regions. -/
def Copy.Apart (m : Copy) : Prop := m.n = 0 ∨ m.dst + m.n ≤ m.src ∨ m.src + m.n ≤ m.dst

namespace FixedBuffer

/-- `memcpy(_buf, mReadPtr, used())`. -/
def compaction (b : FixedBuffer) : Copy := ⟨0, b.mReadPtr, b.used⟩

/-- The compactions that `append(str, len)` executes. -/
def appendCopies (b : FixedBuffer) (str : List UInt8) : List Copy :=
  let len := str.length
  if toSize (kBufferSize - b.mWritePtr) > len then []
  else if b.avail ≥ len then [b.compaction]
  else []

/-- The compactions that the loop of `readFd` executes. -/
def readFdLoopCopies (rs : List RecvResult) (b : FixedBuffer) : List Copy :=
  if _havail : b.avail > 0 then
    if _hlen : b.tail = 0 then
      match _hslide : b.slide with
      | .error _ => [b.compaction]
      | .ok b' => b.compaction :: readFdLoopCopies rs b'
    else
      match rs with
      | .bytes data :: rs =>
        let read := data.take b.asked
        if read = [] then []
        else
          match b.store b.mWritePtr read with
          | .error _ => []
          | .ok b' => readFdLoopCopies rs { b' with mWritePtr := b'.mWritePtr + read.length }
      | _ => []
  else []
termination_by 2 * rs.length + if b.tail = 0 then 1 else 0
decreasing_by
  · rw [if_pos _hlen, if_neg (slide_tail _hslide _havail)]
    exact Nat.lt_succ_self _
  · rw [List.length_cons, if_neg _hlen]
    split <;> omega

/-- The compactions that `readFd` executes. -/
def readFdCopies (b : FixedBuffer) (rs : List RecvResult) : List Copy :=
  if b.avail = 0 then [] else readFdLoopCopies rs b

end FixedBuffer

open FixedBuffer

/-- How many bytes arrive before the first report that ends the loop. -/
def burst : List RecvResult → ℕ
  | .bytes data :: rs => if data = [] then 0 else data.length + burst rs
  | _ => 0

namespace FixedBuffer

variable {b : FixedBuffer} {consumed w free : List UInt8}

/-- The read pointer returns to the front with a compaction and stays without. -/
theorem append_readPtr {str : List UInt8} {n : ℕ} {b' : FixedBuffer}
    (h : b.append str = .ok (n, b')) :
    b'.mReadPtr = if b.appendCopies str = [] then b.mReadPtr else 0 := by
  unfold append at h
  unfold appendCopies
  dsimp only at h ⊢
  split at h
  · rename_i htail
    obtain ⟨b₁, hstore, h⟩ := bind_eq_ok h
    cases h
    rw [if_pos htail, if_pos rfl]
    exact (store_pointers hstore).1
  · rename_i htail
    rw [if_neg htail]
    split at h
    · rename_i havail
      obtain ⟨held, -, h⟩ := bind_eq_ok h
      obtain ⟨b₁, -, h⟩ := bind_eq_ok h
      obtain ⟨b₂, hstore, h⟩ := bind_eq_ok h
      cases h
      rw [if_pos havail]
      exact (store_pointers hstore).1
    · rename_i havail
      cases h
      rw [if_neg havail, if_pos rfl]

theorem readFdLoop_readPtr {last_used : ℕ} {rs : List RecvResult}
    {out : Option ℤ × List RecvResult} {b' : FixedBuffer}
    (h : b.readFdLoop last_used rs = .ok (out, b')) :
    b'.mReadPtr = if readFdLoopCopies rs b = [] then b.mReadPtr else 0 := by
  fun_induction FixedBuffer.readFdLoop last_used rs b with
  | case1 rs b havail hlen e hslide => cases h
  | case2 rs b havail hlen b₁ hslide ih =>
    have hfront : b₁.mReadPtr = 0 := by
      obtain ⟨held, -, hslide⟩ := bind_eq_ok hslide
      obtain ⟨b₂, -, hslide⟩ := bind_eq_ok hslide
      cases hslide
      rfl
    have hcopies : readFdLoopCopies rs b ≠ [] := by
      rw [readFdLoopCopies.eq_def, dif_pos havail, dif_pos hlen]
      split <;> exact List.cons_ne_nil _ _
    rw [if_neg hcopies, ih h, hfront, ite_self]
  | case8 b havail hlen data rs read hread b₁ hstore =>
    rename_i ih
    have hcopies : readFdLoopCopies (.bytes data :: rs) b =
        readFdLoopCopies rs { b₁ with mWritePtr := b₁.mWritePtr + read.length } := by
      rw [readFdLoopCopies, dif_pos havail, dif_neg hlen]
      change (if read = [] then [] else _) = _
      rw [if_neg hread]
      simp only [read, hstore]
    rw [hcopies, ih h]
    simp only [(store_pointers hstore).1]
  | case3 b havail hlen =>
    cases h
    rw [readFdLoopCopies.eq_def, dif_pos havail, dif_neg hlen]
    rfl
  | case4 b havail hlen rs =>
    cases h
    rw [readFdLoopCopies.eq_def, dif_pos havail, dif_neg hlen]
    rfl
  | case5 b havail hlen rs =>
    cases h
    rw [readFdLoopCopies.eq_def, dif_pos havail, dif_neg hlen]
    rfl
  | case6 b havail hlen data rs read =>
    rename_i hread
    cases h
    rw [readFdLoopCopies.eq_def, dif_pos havail, dif_neg hlen]
    change _ = if (if read = [] then [] else _) = [] then _ else _
    rw [if_pos hread, if_pos rfl]
  | case7 => cases h
  | case9 rs b havail =>
    cases h
    rw [readFdLoopCopies.eq_def, dif_neg havail, if_pos rfl]

/-- The unread bytes are copied onto themselves or their neighbours unless as
many bytes were consumed in front of them. -/
theorem Holds.compaction_apart (h : b.Holds consumed w free) :
    b.compaction.Apart ↔ b.used = 0 ∨ (b.used : ℤ) ≤ b.mReadPtr := by
  have hr := h.valid.read_nonneg
  change b.used = 0 ∨ 0 + (b.used : ℤ) ≤ b.mReadPtr ∨ b.mReadPtr + (b.used : ℤ) ≤ 0 ↔ _
  omega

theorem Holds.appendCopies_apart (h : b.Holds consumed w free) (str : List UInt8) :
    (∀ m ∈ b.appendCopies str, m.Apart) ↔ str.length < b.tail ∨ str.length > b.avail ∨
      b.used = 0 ∨ (b.used : ℤ) ≤ b.mReadPtr := by
  have hcompaction := h.compaction_apart
  change (∀ m ∈ if b.tail > str.length then [] else if b.avail ≥ str.length then _ else [], _) ↔ _
  by_cases htail : b.tail > str.length
  · simp only [if_pos htail, List.not_mem_nil, false_implies, implies_true, true_iff]
    exact .inl htail
  · by_cases havail : b.avail ≥ str.length
    · simp only [if_neg htail, if_pos havail, List.mem_singleton, forall_eq, hcompaction]
      omega
    · simp only [if_neg htail, if_neg havail, List.not_mem_nil, false_implies, implies_true,
        true_iff]
      omega

/-- Only a loop whose reports fill the tail slides, and then everything up to
the end of the storage. -/
theorem Holds.readFdLoopCopies_apart (h : b.Holds consumed w free) (rs : List RecvResult) :
    (∀ m ∈ readFdLoopCopies rs b, m.Apart) ↔
      consumed = [] ∨ kBufferSize ≤ 2 * consumed.length ∨ burst rs < free.length := by
  fun_induction FixedBuffer.readFdLoopCopies rs b generalizing consumed w free with
  | case1 rs b havail hlen e hslide =>
    obtain ⟨b', free', hok, -⟩ := h.slide_eq
    rw [hslide] at hok
    cases hok
  | case2 rs b havail hlen b' hslide ih =>
    obtain ⟨b₁, free', hok, hb₁⟩ := h.slide_eq
    rw [hslide] at hok
    cases hok
    have hrest := (ih hb₁).mpr (.inl rfl)
    have hl := h.length_eq
    rw [h.avail_eq] at havail
    rw [h.tail_eq] at hlen
    have hconsumed : consumed ≠ [] := by
      rintro rfl
      simp only [List.length_nil] at hl
      omega
    rw [List.forall_mem_cons, h.compaction_apart, h.used_eq, h.read_eq]
    constructor
    · rintro ⟨hapart, -⟩
      exact .inr (.inl (by omega))
    · rintro (hnil | hhalf | hburst)
      · exact absurd hnil hconsumed
      · exact ⟨.inr (by omega), hrest⟩
      · omega
  | case3 b havail hlen data rs read =>
    rename_i hread
    have htail : free.length ≠ 0 := by rwa [← h.tail_eq]
    have hdata : data = [] := (List.take_eq_nil_iff.mp hread).resolve_left hlen
    refine ⟨fun _ => .inr (.inr ?_), by simp⟩
    rw [burst, if_pos hdata]
    omega
  | case4 b havail hlen data rs read hread e =>
    rename_i hstore
    obtain ⟨b', hok, -⟩ := h.store_received data
    rw [hstore] at hok
    cases hok
  | case5 b havail hlen data rs read hread b' hstore =>
    rename_i ih
    obtain ⟨b₁, hok, -, -, hb₁⟩ := h.store_received data
    rw [hstore] at hok
    cases hok
    have hdata : data ≠ [] := by
      rintro rfl
      exact hread List.take_nil
    rw [ih hb₁, burst, if_neg hdata, List.length_drop, List.length_take, h.asked_eq,
      ← List.length_eq_zero_iff]
    omega
  | case6 rs b havail hlen hother =>
    have htail : free.length ≠ 0 := by rwa [← h.tail_eq]
    refine ⟨fun _ => .inr (.inr ?_), by simp⟩
    cases rs with
    | nil => exact Nat.pos_of_ne_zero htail
    | cons r rs =>
      cases r with
      | bytes data => exact absurd rfl (hother data rs)
      | again => exact Nat.pos_of_ne_zero htail
      | failed => exact Nat.pos_of_ne_zero htail
  | case7 rs b havail =>
    have hl := h.length_eq
    rw [h.avail_eq] at havail
    refine ⟨fun _ => .inl (List.eq_nil_of_length_eq_zero (by omega)), by simp⟩

theorem Holds.readFdCopies_apart (h : b.Holds consumed w free) (rs : List RecvResult) :
    (∀ m ∈ b.readFdCopies rs, m.Apart) ↔
      b.mReadPtr = 0 ∨ (kBufferSize : ℤ) ≤ 2 * b.mReadPtr ∨ burst rs < b.tail := by
  have hloop := h.readFdLoopCopies_apart rs
  have hl := h.length_eq
  rw [← List.length_eq_zero_iff] at hloop
  rw [h.read_eq, h.tail_eq, readFdCopies]
  split
  · rename_i havail
    rw [h.avail_eq] at havail
    refine ⟨fun _ => .inl (by omega), by simp⟩
  · rw [hloop]
    omega

end FixedBuffer

namespace Call

/-- The calls that put bytes into the buffer. -/
def Fills : Call → Prop
  | .append _ | .readFd _ => True
  | _ => False

/-- The calls that fill the buffer, and those that consume unread bytes. -/
def Consumes (b : FixedBuffer) : Call → Prop
  | .append _ | .readFd _ => True
  | .readPtrMove n => 0 ≤ n ∧ n ≤ b.used
  | _ => False

/-- The compactions a call executes. -/
def copies (b : FixedBuffer) : Call → List Copy
  | .append str => b.appendCopies str
  | .readFd rs => b.readFdCopies rs
  | _ => []

/-- The call finds room at the tail or none at all, or what it has to slide was
preceded by as many consumed bytes. A socket read slides all the way from the
read pointer to the end of the storage. -/
def Clear (b : FixedBuffer) : Call → Prop
  | .append str => str.length < b.tail ∨ str.length > b.avail ∨ b.used = 0 ∨
      (b.used : ℤ) ≤ b.mReadPtr
  | .readFd rs => b.mReadPtr = 0 ∨ (kBufferSize : ℤ) ≤ 2 * b.mReadPtr ∨ burst rs < b.tail
  | _ => True

variable {b b' : FixedBuffer}

/-- A call that fills the buffer leaves the read pointer alone or, with a
compaction, at the front. -/
theorem exec_readPtr {c : Call} {o : Option ℤ} (hc : c.Fills) (h : c.exec b = .ok (o, b')) :
    b'.mReadPtr = if c.copies b = [] then b.mReadPtr else 0 := by
  cases c with
  | append str =>
    obtain ⟨⟨n, b₁⟩, happend, h⟩ := bind_eq_ok h
    cases h
    exact append_readPtr happend
  | readFd rs =>
    obtain ⟨⟨out, b₁⟩, hread, h⟩ := bind_eq_ok h
    cases h
    change b'.mReadPtr = if b.readFdCopies rs = [] then b.mReadPtr else 0
    unfold FixedBuffer.readFd at hread
    unfold readFdCopies
    split at hread
    · rename_i havail
      cases hread
      rw [if_pos havail, if_pos rfl]
    · rename_i havail
      rw [if_neg havail]
      exact readFdLoop_readPtr hread
  | _ => exact hc.elim

theorem apart_iff (c : Call) (hb : b.Valid) : (∀ m ∈ c.copies b, m.Apart) ↔ c.Clear b := by
  obtain ⟨consumed, free, h⟩ := hb.holds
  cases c with
  | append str => exact h.appendCopies_apart str
  | readFd rs => exact h.readFdCopies_apart rs
  | add len => exact ⟨fun _ => trivial, fun _ => by simp [copies]⟩
  | readPtrMove len => exact ⟨fun _ => trivial, fun _ => by simp [copies]⟩
  | reset => exact ⟨fun _ => trivial, fun _ => by simp [copies]⟩
  | clear => exact ⟨fun _ => trivial, fun _ => by simp [copies]⟩

theorem Consumes.inPlace {c : Call} (hc : c.Consumes b) (hb : b.Valid) : c.InPlace b := by
  cases c with
  | readPtrMove len =>
    obtain ⟨consumed, free, h⟩ := hb.holds
    obtain ⟨hnonneg, hused⟩ := hc
    rw [h.used_eq] at hused
    have hr := h.read_eq
    have hw := h.write_eq
    exact ⟨by omega, by omega⟩
  | add len => exact hc.elim
  | append str => trivial
  | readFd rs => trivial
  | reset => trivial
  | clear => trivial

/-- Filling and consuming keep the pointers in order. -/
theorem Consumes.valid {c : Call} {o : Option ℤ} (hc : c.Consumes b) (hb : b.Valid)
    (h : c.exec b = .ok (o, b')) : b'.Valid := by
  obtain ⟨o₁, b₁, hexec, -, hvalid⟩ := (c.step_iff hb).mp (hc.inPlace hb)
  rw [h] at hexec
  cases hexec
  exact hvalid

end Call

/-- In every sequence of calls on a new buffer, every `memcpy` that makes room
finds its regions apart exactly when every call is clear where it is made. -/
theorem compactions_apart_iff {raw : List UInt8} (hraw : raw.length = kBufferSize)
    {calls : List Call}
    (hcalls : Meets Call.exec (fun b c => c.Consumes b) (create raw hraw) calls) :
    Meets Call.exec (fun b c => ∀ m ∈ c.copies b, m.Apart) (create raw hraw) calls ↔
      Meets Call.exec (fun b c => c.Clear b) (create raw hraw) calls := by
  have hstart := (create_holds raw hraw).valid
  constructor
  · intro h
    exact (hcalls.and h).imp (fun _ _ _ _ hb hc hexec => hc.1.valid hb hexec)
      (fun _ c hb hc => (c.apart_iff hb).mp hc.2) hstart
  · intro h
    exact (hcalls.and h).imp (fun _ _ _ _ hb hc hexec => hc.1.valid hb hexec)
      (fun _ c hb hc => (c.apart_iff hb).mpr hc.2) hstart

/-- A byte in, a byte out, a byte in. -/
theorem compactions_apart_iff_bytes :
    Meets Call.exec (fun b c => ∀ m ∈ c.copies b, m.Apart) blank
        [.append [1], .readPtrMove 1, .append [2]] ↔
      Meets Call.exec (fun b c => c.Clear b) blank [.append [1], .readPtrMove 1, .append [2]] := by
  apply compactions_apart_iff length_zeros
  refine ⟨trivial, fun _ b₁ happend => ?_⟩
  cases happend
  refine ⟨⟨by decide, by decide⟩, fun _ b₂ hmove => ?_⟩
  cases hmove
  exact ⟨trivial, fun _ _ _ => trivial⟩

/-- After a thousand bytes came in and ten were consumed, thirty more move the
rest ten bytes down, onto itself. -/
theorem compaction_overlaps :
    let calls : List Call :=
      [.append (List.replicate 1000 0), .readPtrMove 10, .append (List.replicate 30 0)]
    Meets Call.exec (fun b c => c.Consumes b) blank calls ∧
      ¬ Meets Call.exec (fun b c => ∀ m ∈ c.copies b, m.Apart) blank calls := by
  have hk := kBufferSize_eq
  obtain ⟨b₁, consumed, free, happend, h₁⟩ :=
    (create_holds _ length_zeros).append_room (s := List.replicate 1000 0)
      (by rw [List.length_replicate]; decide)
  have hexec₁ : (Call.append (List.replicate 1000 0)).exec blank = .ok (some 1000, b₁) := by
    rw [List.length_replicate] at happend
    simp only [Call.exec, blank, happend, bind, Except.bind, pure, Except.pure]
    rfl
  rw [List.nil_append, show (1000 : ℕ) = 10 + 990 from rfl,
    ← List.replicate_append_replicate] at h₁
  have hl := h₁.length_eq
  have h₂ := h₁.readPtrMove_eq.2
  rw [List.length_append, List.length_replicate, List.length_replicate] at hl
  rw [List.length_replicate] at h₂
  have hexec₂ : (Call.readPtrMove 10).exec b₁ =
      .ok (some (b₁.readPtrMove 10).1, (b₁.readPtrMove 10).2) := rfl
  have hused : (b₁.readPtrMove (10 : ℕ)).2.used = 990 := by
    rw [h₂.used_eq, List.length_replicate]
  dsimp only
  rw [meets_cons hexec₁, meets_cons hexec₂, meets_cons hexec₁, meets_cons hexec₂]
  constructor
  · refine ⟨trivial, ⟨by decide, ?_⟩, trivial, fun _ _ _ => trivial⟩
    rw [h₁.used_eq, List.length_append, List.length_replicate, List.length_replicate]
    decide
  · rintro ⟨-, -, happart, -⟩
    have hclear := (h₂.appendCopies_apart _).mp happart
    rw [hused, h₂.tail_eq, h₂.avail_eq, h₂.read_eq, List.length_append, List.length_replicate,
      List.length_replicate, List.length_replicate] at hclear
    omega

end KyrosWebServer.Base
