import KyrosWebServer.Admission
import KyrosWebServer.BufferCompaction
import KyrosWebServer.IntegerText

/-!
# Log records

A record is written by one stream and never read before its end, so the read
pointer stays at the front and all the room is behind the write pointer. There
the two ways into the buffer agree: an operand goes in as a whole, or not at
all. The newline comes last, with no room kept for it.
-/

namespace KyrosWebServer.Base

open CMemory Integral Admission
open Net (toInt)

/-- The byte that ends a record. -/
def newline : UInt8 := Char.toUInt8 '\n'

/-- `0x` and the digits of an address. -/
def pointerText (v : UInt64) : List UInt8 := chars ['0', 'x'] ++ hexadecimal.numeral v.toNat

/-- The complete text of an operand. -/
def Operand.text : Operand → List UInt8
  | .bool v => chars [if v then '1' else '0']
  | .short v => decimalText v.toInt
  | .unsignedShort v => decimalText v.toNat
  | .int v => decimalText v.toInt
  | .unsignedInt v => decimalText v.toNat
  | .long v | .longLong v => decimalText v.toInt
  | .unsignedLong v | .unsignedLongLong v => decimalText v.toNat
  | .pointer v => pointerText v
  | .char v => [v]
  | .cstring none => chars ['(', 'n', 'u', 'l', 'l', ')']
  | .cstring (some str) => str.text
  | .string v => v

/-- Whether the operand is a number or an address. -/
def Operand.isNumber : Operand → Bool
  | .bool _ | .char _ | .cstring _ | .string _ => false
  | _ => true

/-- The room without which an operand is left out. -/
def Operand.need (op : Operand) : ℕ :=
  if op.isNumber then LogStream.kMaxNumericSize else op.text.length

theorem length_pointerText (v : UInt64) :
    (pointerText v).length = 2 + (hexadecimal.numeral v.toNat).length := by
  rw [pointerText, List.length_append]
  rfl

/-- A `short` is logged as an `int`. -/
theorem value_toInt32 (v : Int16) : value v.toInt32 = v.toInt := v.toInt_toInt32

/-- An `unsigned short` is logged as an `unsigned int`. -/
theorem value_toUInt32 (v : UInt16) : value v.toUInt32 = v.toNat :=
  congrArg Nat.cast v.toNat_toUInt32

/-- The longest numbers need less than what is asked for. -/
theorem Operand.length_text_le (op : Operand) : op.text.length ≤ op.need := by
  have hdecimal {T : Type} [Integral T] (v : T) :
      (decimalText (value v)).length ≤ LogStream.kMaxNumericSize :=
    Nat.le_trans (length_decimalText_le v) (by decide)
  cases op with
  | bool v => exact Nat.le_refl _
  | short v =>
    have hint := hdecimal v.toInt32
    rwa [value_toInt32] at hint
  | unsignedShort v =>
    have hint := hdecimal v.toUInt32
    rwa [value_toUInt32] at hint
  | int v | unsignedInt v | long v | unsignedLong v | longLong v | unsignedLongLong v =>
    exact hdecimal v
  | pointer v =>
    have hdigits := length_hexadecimal_le v
    change (pointerText v).length ≤ 32
    rw [length_pointerText]
    omega
  | char v | cstring str | string v => exact Nat.le_refl _

/-- Operands as items that are admitted by room. -/
def operands : Policy Operand UInt8 := ⟨Operand.need, Operand.text, Operand.length_text_le⟩

namespace FixedBuffer

variable {b : FixedBuffer} {w free : List UInt8}

/-- With nothing consumed, all the room is behind the write pointer. -/
theorem Holds.length_free (h : b.Holds [] w free) : free.length = b.avail := by
  have hl := h.length_eq
  rw [h.avail_eq, ← hl, List.length_nil]
  omega

/-- The memory behind the write pointer is the free bytes. -/
theorem Holds.writePtr_eq {consumed : List UInt8} (h : b.Holds consumed w free) :
    b.writePtr = .ok free := by
  have hl := h.length_eq
  have hwrite : b.mWritePtr.toNat = (consumed ++ w).length := by
    rw [h.write_eq, List.length_append]
    omega
  have hn : ((kBufferSize : ℤ) - b.mWritePtr).toNat = free.length := by
    rw [h.write_eq]
    omega
  rw [writePtr, load, if_pos ⟨by rw [h.write_eq]; omega, by rw [h.write_eq]; omega⟩, hwrite, hn,
    h.buf_eq, ← List.append_assoc, List.drop_left, List.take_length]

/-- With nothing consumed, `append` adds the whole block or nothing, and leaves the
read pointer at the front. -/
theorem Holds.append_front (h : b.Holds [] w free) (str : List UInt8) :
    ∃ n b' free', b.append str = .ok (n, b') ∧
      b'.Holds [] (w ++ if str.length ≤ b.avail then str else []) free' := by
  by_cases hroom : str.length ≤ b.avail
  · obtain ⟨b', consumed', free', happend, hb'⟩ := h.append_room (by rw [← h.avail_eq]; exact hroom)
    have hread := append_readPtr happend
    have hfront : b'.mReadPtr = 0 := by
      rw [hread, h.read_eq, List.length_nil, Nat.cast_zero, ite_self]
    have hconsumed : consumed' = [] := by
      apply List.eq_nil_of_length_eq_zero
      have hlen := hb'.read_eq
      omega
    subst hconsumed
    rw [if_pos hroom]
    exact ⟨_, b', free', happend, hb'⟩
  · rw [if_neg hroom, List.append_nil]
    exact ⟨0, b, free, h.append_no_room (by rw [← h.avail_eq]; exact hroom), h⟩

end FixedBuffer

namespace LogStream

variable {s : LogStream} {w free : List UInt8}

theorem append_front (h : s.mBuffer.Holds [] w free) (str : List UInt8) :
    ∃ s' free', s.append str = .ok s' ∧
      s'.mBuffer.Holds [] (w ++ if str.length ≤ s.mBuffer.avail then str else []) free' := by
  obtain ⟨n, b', free', happend, hb'⟩ := h.append_front str
  refine ⟨{ s with mBuffer := b' }, free', ?_, hb'⟩
  rw [append, happend]
  rfl

/-- A text with its NUL and what was behind them, committed without the NUL. -/
theorem commit_text (h : s.mBuffer.Holds [] w free) {text rest : List UInt8}
    (hmem : (text ++ 0 :: rest).length = free.length) :
    ∃ s', s.commit text.length (text ++ 0 :: rest) = .ok s' ∧
      s'.mBuffer.Holds [] (w ++ text) (0 :: rest) := by
  obtain ⟨b', hstore, hread, hwrite, hb'⟩ := h.store_tail (Nat.le_of_eq hmem)
  have havail : b'.avail = free.length := by
    rw [h.length_free, FixedBuffer.avail, FixedBuffer.store_used hstore]
    rfl
  have hlen : ¬ text.length > b'.avail := by
    rw [havail, ← hmem, List.length_append]
    omega
  refine ⟨⟨{ b' with mWritePtr := b'.mWritePtr + text.length }⟩, ?_, ?_⟩
  · rw [commit, hstore]
    simp only [ok_bind, FixedBuffer.add, if_neg hlen]
    rfl
  · refine ⟨?_, hb'.read_eq, ?_⟩
    · have hbuf := hb'.buf_eq
      rw [hmem, List.drop_length] at hbuf
      simpa using hbuf
    · change b'.mWritePtr + text.length = _
      rw [hwrite, h.write_eq, List.length_append]
      omega

/-- A number goes straight into the free bytes if there is room for any. -/
theorem formatInteger_front {T : Type} [Integral T] (h : s.mBuffer.Holds [] w free) (v : T) :
    ∃ s' free', s.formatInteger v = .ok s' ∧
      s'.mBuffer.Holds []
        (w ++ if kMaxNumericSize ≤ s.mBuffer.avail then decimalText (value v) else []) free' := by
  by_cases hroom : kMaxNumericSize ≤ s.mBuffer.avail
  · have hlen := length_decimalText_le v
    have hfree := h.length_free
    have hk : kMaxNumericSize = 32 := rfl
    have hmem : (decimalText (value v) ++
        0 :: free.drop ((decimalText (value v)).length + 1)).length = free.length := by
      rw [List.length_append, List.length_cons, List.length_drop]
      omega
    obtain ⟨s', hcommit, hs'⟩ := commit_text h hmem
    rw [if_pos hroom]
    refine ⟨s', _, ?_, hs'⟩
    rw [formatInteger, if_pos hroom, h.writePtr_eq, ok_bind, convert_eq v (by omega)]
    exact hcommit
  · rw [if_neg hroom, List.append_nil]
    exact ⟨s, free, if_neg hroom, h⟩

/-- An address goes behind `0x`. -/
theorem formatPointer_front (h : s.mBuffer.Holds [] w free) (v : UInt64) :
    ∃ s' free', s.formatPointer v = .ok s' ∧
      s'.mBuffer.Holds []
        (w ++ if kMaxNumericSize ≤ s.mBuffer.avail then pointerText v else []) free' := by
  by_cases hroom : kMaxNumericSize ≤ s.mBuffer.avail
  · have hlen := length_hexadecimal_le v
    have hfree := h.length_free
    have hk : kMaxNumericSize = 32 := rfl
    obtain ⟨a, rest, rfl⟩ := List.exists_cons_of_length_pos (l := free) (by omega)
    obtain ⟨b, rest, rfl⟩ := List.exists_cons_of_length_pos (l := rest) (by simp at hfree; omega)
    simp only [List.length_cons] at hfree
    have hmem : (pointerText v ++
        0 :: rest.drop ((hexadecimal.numeral v.toNat).length + 1)).length =
          (a :: b :: rest).length := by
      rw [List.length_append, length_pointerText]
      simp only [List.length_cons, List.length_drop]
      omega
    obtain ⟨s', hcommit, hs'⟩ := commit_text h hmem
    have hzero : put (a :: b :: rest) 0 (Char.toUInt8 '0') = .ok (Char.toUInt8 '0' :: b :: rest) :=
      put_append [] (b :: rest) a _
    have hx : put (Char.toUInt8 '0' :: b :: rest) 1 (Char.toUInt8 'x') =
        .ok (Char.toUInt8 '0' :: Char.toUInt8 'x' :: rest) :=
      put_append [Char.toUInt8 '0'] rest b _
    rw [if_pos hroom]
    refine ⟨s', _, ?_, hs'⟩
    rw [formatPointer, if_pos hroom, h.writePtr_eq, ok_bind, hzero, ok_bind, hx, ok_bind,
      List.drop_succ_cons, List.drop_succ_cons, List.drop_zero, convertHex_eq v (by omega)]
    rw [length_pointerText, Nat.add_comm] at hcommit
    exact hcommit
  · rw [if_neg hroom, List.append_nil]
    exact ⟨s, free, if_neg hroom, h⟩

/-- Every operand goes in as a whole if the room it needs is there, and not at
all otherwise. -/
theorem log_front (h : s.mBuffer.Holds [] w free) (op : Operand) :
    ∃ s' free', s.log op = .ok s' ∧
      s'.mBuffer.Holds [] (w ++ if op.need ≤ s.mBuffer.avail then op.text else []) free' := by
  cases op with
  | bool v => exact append_front h _
  | short v =>
    have hlog := formatInteger_front h v.toInt32
    rwa [value_toInt32] at hlog
  | unsignedShort v =>
    have hlog := formatInteger_front h v.toUInt32
    rwa [value_toUInt32] at hlog
  | int v | unsignedInt v | long v | unsignedLong v | longLong v | unsignedLongLong v =>
    exact formatInteger_front h v
  | pointer v => exact formatPointer_front h v
  | char v | string v => exact append_front h _
  | cstring str =>
    cases str with
    | none => exact append_front h _
    | some str => exact append_front h _

/-- The operands of a chain that found the room they need when they came. -/
def kept (s : LogStream) : List Operand → List Operand
  | [] => []
  | op :: ops =>
    match s.log op with
    | .error _ => []
    | .ok s' => if op.need ≤ s.mBuffer.avail then op :: s'.kept ops else s'.kept ops

/-- A chain is a run of the admission of its operands by the room that is left. -/
theorem logAll_front (h : s.mBuffer.Holds [] w free) (ops : List Operand) :
    s.kept ops = operands.admitted s.mBuffer.avail ops ∧
    ∃ s' free', s.logAll ops = .ok s' ∧
      s'.mBuffer.Holds [] (w ++ operands.content s.mBuffer.avail ops) free' := by
  induction ops generalizing s w free with
  | nil => exact ⟨rfl, s, free, rfl, by simpa [Policy.content, Policy.admitted] using h⟩
  | cons op ops ih =>
    obtain ⟨s₁, free₁, hlog, hs₁⟩ := log_front h op
    obtain ⟨hkept, s₂, free₂, hrest, hs₂⟩ := ih hs₁
    have havail := hs₁.avail_eq
    rw [kept, logAll, hlog, ok_bind]
    by_cases hroom : op.need ≤ s.mBuffer.avail
    · rw [if_pos hroom] at hs₂ havail
      have hleft : s₁.mBuffer.avail = s.mBuffer.avail - (operands.text op).length := by
        rw [havail, h.avail_eq, List.length_append]
        exact Nat.sub_add_eq ..
      rw [operands.admitted_of_le ops hroom, operands.content_of_le ops hroom, ← hleft]
      refine ⟨?_, s₂, free₂, hrest, ?_⟩
      · simp only [if_pos hroom, hkept]
      · rw [← List.append_assoc]
        exact hs₂
    · rw [if_neg hroom, List.append_nil] at hs₂ havail
      have hleft : s₁.mBuffer.avail = s.mBuffer.avail := by rw [havail, h.avail_eq]
      rw [operands.admitted_of_lt ops hroom, operands.content_of_lt ops hroom, ← hleft]
      refine ⟨?_, s₂, free₂, hrest, hs₂⟩
      simp only [if_neg (hleft ▸ hroom), hkept]

-- the second number finds 31 bytes of room, and the character behind it goes in
example : operands.admitted 32 [.int 7, .int 8, .char 65] = [.int 7, .char 65] := rfl

/-- Whatever is logged, nothing is written outside the storage and the record
is made of whole texts, in order: an operand is missing exactly when it did not
find the room it needs. -/
theorem record_whole_items {raw : List UInt8} (hraw : raw.length = kBufferSize)
    (ops : List Operand) :
    ∃ s, (create raw hraw).logAll ops = .ok s ∧ s.mBuffer.Valid ∧
      s.mBuffer.unread = ((create raw hraw).kept ops).flatMap Operand.text ∧
      ((create raw hraw).kept ops).Sublist ops := by
  have hnew : (create raw hraw).mBuffer.Holds [] [] raw := FixedBuffer.create_holds raw hraw
  obtain ⟨hkept, s, free, hlog, hs⟩ := logAll_front hnew ops
  refine ⟨s, hlog, hs.valid, ?_, ?_⟩
  · rw [hs.unread_eq, hkept]
    rfl
  · rw [hkept]
    exact operands.admitted_sublist ops _

/-- A number that no longer fits, between texts that do. -/
theorem record_whole_items_sample :
    ∃ s, (create (List.replicate kBufferSize 0) length_zeros).logAll
        [.string (List.replicate 1000 97), .int 5, .cstring none] = .ok s ∧ s.mBuffer.Valid ∧
      s.mBuffer.unread = ((create (List.replicate kBufferSize 0) length_zeros).kept
        [.string (List.replicate 1000 97), .int 5, .cstring none]).flatMap Operand.text ∧
      ((create (List.replicate kBufferSize 0) length_zeros).kept
        [.string (List.replicate 1000 97), .int 5, .cstring none]).Sublist
        [.string (List.replicate 1000 97), .int 5, .cstring none] :=
  record_whole_items length_zeros _

/-- The life of a stream: what its destructor hands on after a chain of `<<`. -/
def record (raw : List UInt8) (h : raw.length = kBufferSize) (ops : List Operand) :
    Except Fault (List UInt8) := do
  let s ← (create raw h).logAll ops
  s.destroy

/-- The newline is left out when it finds no room. -/
theorem record_eq {raw : List UInt8} (hraw : raw.length = kBufferSize) (ops : List Operand) :
    record raw hraw ops = .ok (operands.content kBufferSize ops ++
      if (operands.content kBufferSize ops).length < kBufferSize then [newline] else []) := by
  have hnew : (create raw hraw).mBuffer.Holds [] [] raw := FixedBuffer.create_holds raw hraw
  obtain ⟨-, s, free, hlog, hs⟩ := logAll_front hnew ops
  have hroom : (create raw hraw).mBuffer.avail = kBufferSize := hnew.avail_eq
  rw [hroom, List.nil_append] at hs
  obtain ⟨s', free', happend, hs'⟩ := append_front hs [newline]
  have hk := kBufferSize_eq
  have hone : [newline].length ≤ s.mBuffer.avail ↔
      (operands.content kBufferSize ops).length < kBufferSize := by
    rw [hs.avail_eq, List.length_singleton]
    omega
  simp only [hone] at hs'
  have hint : (toInt s'.mBuffer.used).toNat = s'.mBuffer.used := by
    have hlen := hs'.length_eq
    have hused := hs'.used_eq
    simp only [List.length_nil] at hlen
    unfold toInt
    omega
  rw [record, hlog, ok_bind, destroy]
  change (s.append [newline] >>= fun s =>
    s.mBuffer.load s.mBuffer.mReadPtr (toInt s.mBuffer.used).toNat) = _
  rw [happend, ok_bind, hint, hs'.used_eq]
  exact hs'.load_eq

end LogStream

/-- No character of an operand is a newline. Numbers have none anyway. -/
def Operand.NewlineFree : Operand → Prop
  | .char v => v ≠ newline
  | .cstring (some str) => newline ∉ str.text
  | .string v => newline ∉ v
  | _ => True

theorem newline_notMem_decimalText (z : ℤ) : newline ∉ decimalText z := by
  have hdigits : newline ∉ decimal.numeral z.natAbs :=
    fun hmem => absurd (decimal.numeral_subset _ hmem) (by decide)
  unfold decimalText
  split
  · exact List.not_mem_cons_of_ne_of_not_mem (by decide) hdigits
  · exact hdigits

theorem newline_notMem_pointerText (v : UInt64) : newline ∉ pointerText v := by
  intro hmem
  rcases List.mem_append.mp hmem with hmark | hdigits
  · exact absurd hmark (by decide)
  · exact absurd (hexadecimal.numeral_subset _ hdigits) (by decide)

/-- The text of an operand has no newline that the operand does not have. -/
theorem Operand.NewlineFree.notMem_text {op : Operand} (h : op.NewlineFree) :
    newline ∉ op.text := by
  cases op with
  | bool v =>
    cases v
    · decide
    · decide
  | short v | int v | long v | longLong v => exact newline_notMem_decimalText _
  | unsignedShort v | unsignedInt v | unsignedLong v | unsignedLongLong v =>
    exact newline_notMem_decimalText _
  | pointer v => exact newline_notMem_pointerText v
  | char v => exact fun hmem => h (List.mem_singleton.mp hmem).symm
  | cstring str =>
    cases str with
    | none => decide
    | some str => exact h
  | string v => exact h

/-- One line: a newline at the end and no other. -/
def IsLine (bytes : List UInt8) : Prop := ∃ text, newline ∉ text ∧ bytes = text ++ [newline]

/-- A record of operands without newlines is one line exactly when the operands
that go in leave a byte of room. -/
theorem record_line_iff {raw : List UInt8} (hraw : raw.length = kBufferSize)
    {ops : List Operand} (hops : ∀ op ∈ ops, op.NewlineFree) :
    (∃ bytes, LogStream.record raw hraw ops = .ok bytes ∧ IsLine bytes) ↔
      operands.left kBufferSize ops ≠ 0 := by
  have hfree : newline ∉ operands.content kBufferSize ops :=
    operands.notMem_content kBufferSize fun op hop => (hops op hop).notMem_text
  have hleft := operands.left_add_length_content ops kBufferSize
  have hrecord := LogStream.record_eq hraw ops
  constructor
  · rintro ⟨bytes, hbytes, text, -, rfl⟩ hfull
    rw [hrecord, if_neg (by omega), List.append_nil] at hbytes
    apply hfree
    rw [Except.ok.inj hbytes]
    exact List.mem_append_right text (List.mem_singleton_self newline)
  · intro hroom
    rw [if_pos (by omega)] at hrecord
    exact ⟨_, hrecord, _, hfree, rfl⟩

/-- A short record. -/
theorem record_line_iff_sample :
    (∃ bytes, LogStream.record (List.replicate kBufferSize 0) length_zeros
      [.int (-5), .string [97]] = .ok bytes ∧ IsLine bytes) ↔
      operands.left kBufferSize [.int (-5), .string [97]] ≠ 0 :=
  record_line_iff length_zeros (by
    intro op hop
    rcases List.mem_cons.mp hop with rfl | hop
    · exact trivial
    · rw [List.mem_singleton.mp hop]
      exact (by decide : newline ∉ [97]))

/-- A string that fills the buffer is handed on without a newline. -/
theorem record_not_line :
    ∃ ops : List Operand, (∀ op ∈ ops, op.NewlineFree) ∧
      ¬ ∃ bytes, LogStream.record (List.replicate kBufferSize 0) length_zeros ops = .ok bytes ∧
        IsLine bytes := by
  have hnewline : newline ∉ List.replicate kBufferSize (97 : UInt8) :=
    fun hmem => absurd (List.eq_of_mem_replicate hmem) (by decide)
  have hlen : (List.replicate kBufferSize (97 : UInt8)).length = kBufferSize :=
    List.length_replicate
  have hneed : operands.need (.string (List.replicate kBufferSize 97)) ≤ kBufferSize :=
    Nat.le_of_eq hlen
  have hcontent : operands.content kBufferSize [.string (List.replicate kBufferSize 97)] =
      List.replicate kBufferSize 97 := by
    rw [operands.content_of_le [] hneed]
    exact List.append_nil _
  refine ⟨[.string (List.replicate kBufferSize 97)],
    List.forall_mem_singleton.mpr hnewline, ?_⟩
  rintro ⟨bytes, hbytes, text, -, rfl⟩
  rw [LogStream.record_eq, hcontent, hlen, if_neg (Nat.lt_irrefl _), List.append_nil] at hbytes
  apply hnewline
  rw [Except.ok.inj hbytes]
  exact List.mem_append_right text (List.mem_singleton_self newline)

end KyrosWebServer.Base
