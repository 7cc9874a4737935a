import KyrosWebServer.LogStream
import KyrosWebServer.Numeral

/-!
# The text of a number

What `convert` and `convertHex` write is the canonical numeral of the value.
The loop never takes an absolute value: quotients and remainders of a negative
number are negative, and the table of digits is mirrored around zero. One turn
peels off the last glyph of a numeral, so the loop writes the numeral of the
magnitude backwards and the reversal puts it right, with the sign in front.
-/

namespace KyrosWebServer.Base

open CMemory Integral Numeral
open Net (toInt)

/-- The decimal digits. -/
def decimal : Alphabet UInt8 where
  glyphs := chars ['0', '1', '2', '3', '4', '5', '6', '7', '8', '9']
  two_le := by decide
  nodup := by decide

/-- The upper-case hexadecimal digits. -/
def hexadecimal : Alphabet UInt8 where
  glyphs := chars ['0', '1', '2', '3', '4', '5', '6', '7', '8', '9', 'A', 'B', 'C', 'D', 'E', 'F']
  two_le := by decide
  nodup := by decide

/-- The sign of negative numbers. -/
def minus : UInt8 := Char.toUInt8 '-'

/-- The numeral of the magnitude, behind the sign of a negative number. -/
def decimalText (z : ℤ) : List UInt8 :=
  if z < 0 then minus :: decimal.numeral z.natAbs else decimal.numeral z.natAbs

/-- The number that a text of digits, signed or not, denotes. -/
def decimalReading (text : List UInt8) : ℤ :=
  if text.head? = some minus then -decimal.reading text.tail else decimal.reading text

/-- A canonical decimal numeral with a sign for negative numbers only. -/
structure IsDecimal (text : List UInt8) (z : ℤ) : Prop where
  /-- The sign is there exactly for negative numbers. -/
  sign : text.head? = some minus ↔ z < 0
  /-- What is left without it is canonical. -/
  canonical : decimal.IsNumeral (if z < 0 then text.tail else text) z.natAbs
  /-- Reading the whole text gives the number back. -/
  reading_eq : decimalReading text = z

/-- The remainders of a division are inside a table of digits. -/
structure Spells (T : Type) [Integral T] (table : Digits) (A : Alphabet UInt8) : Prop where
  /-- One digit for each remainder. -/
  base_eq : table.base = A.base
  /-- Each has its glyph. -/
  get_eq : ∀ i : T, table.get (toInt (value (i % (literal table.base : T)))) =
    .ok (A.glyph (value i).natAbs)

section Turn

variable {T : Type} [Integral T] (table : Digits)

theorem literal_base : value (literal table.base : T) = table.base :=
  value_literal _ table.base_lt

theorem literal_base_pos : 0 < value (literal table.base : T) := by
  have hbase := table.two_le
  rw [literal_base]
  omega

/-- Dividing by the base does not overflow. -/
theorem value_quotient (i : T) :
    value (i / (literal table.base : T)) = (value i).tdiv table.base := by
  rw [value_div i _ (literal_base_pos table), literal_base]

/-- The remainder is an `int`. -/
theorem value_remainder (i : T) :
    toInt (value (i % (literal table.base : T))) = (value i).tmod table.base := by
  have hbase := table.base_lt
  have hpos := table.two_le
  rw [value_mod i _ (literal_base_pos table), literal_base]
  have hlow := Int.lt_tmod_of_pos (value i) (b := table.base) (by omega)
  have hhigh := Int.tmod_lt_of_pos (value i) (b := table.base) (by omega)
  unfold toInt
  omega

theorem natAbs_quotient (i : T) :
    (value (i / (literal table.base : T))).natAbs = (value i).natAbs / table.base := by
  rw [value_quotient, Int.natAbs_tdiv, Int.natAbs_natCast]
  rfl

end Turn

/-- Both halves of the mirrored table. -/
theorem digits_get : ∀ d < 10, digits.get (d : ℕ) = .ok (decimal.glyph d) ∧
    digits.get (-(d : ℕ)) = .ok (decimal.glyph d) := by
  decide

theorem digitsHex_get : ∀ d < 16, digitsHex.get (d : ℕ) = .ok (hexadecimal.glyph d) := by
  decide

/-- The mirrored table serves remainders of either sign. -/
theorem digits_spells (T : Type) [Integral T] : Spells T digits decimal := by
  refine ⟨rfl, fun i => ?_⟩
  have hmod : ((value i).tmod digits.base).natAbs = (value i).natAbs % decimal.base :=
    Int.natAbs_tmod ..
  have hlt : (value i).natAbs % decimal.base < 10 := Nat.mod_lt _ (by decide)
  rw [value_remainder, ← decimal.glyph_mod]
  obtain ⟨hpos, hneg⟩ := digits_get _ hlt
  rcases Int.natAbs_eq ((value i).tmod digits.base) with heq | heq
  · rw [heq, hmod]
    exact hpos
  · rw [heq, hmod]
    exact hneg

/-- The addresses that `convertHex` renders are not negative. -/
theorem digitsHex_spells : Spells UInt64 digitsHex hexadecimal := by
  refine ⟨rfl, fun i => ?_⟩
  have hlt : (value i).natAbs % hexadecimal.base < 16 := Nat.mod_lt _ (by decide)
  rw [value_remainder, ← hexadecimal.glyph_mod]
  exact digitsHex_get _ hlt

/-- Writing over the first byte behind a prefix. -/
theorem put_append (pre post : List UInt8) (old c : UInt8) :
    put (pre ++ old :: post) pre.length c = .ok (pre ++ c :: post) := by
  rw [put, if_pos (by simp)]
  simp

/-- Reversing a text in front of its NUL. -/
theorem finish_append (text post : List UInt8) (old : UInt8) :
    finish (text ++ old :: post) text.length = .ok (text.length, text.reverse ++ 0 :: post) := by
  rw [finish, put_append]
  simp only [bind, Except.bind, pure, Except.pure, List.take_left, List.drop_left]

section Loop

variable {T : Type} [Integral T] {table : Digits} {A : Alphabet UInt8}

/-- One turn of the loop over the bytes behind a prefix. -/
theorem digitLoop_turn (h : Spells T table A) (pre post : List UInt8) (old : UInt8) (i : T) :
    digitLoop table (pre ++ old :: post) pre.length i =
      if value (i / (literal table.base : T)) ≠ 0 then
        digitLoop table (pre ++ A.glyph (value i).natAbs :: post) (pre.length + 1)
          (i / (literal table.base : T))
      else .ok (pre ++ A.glyph (value i).natAbs :: post, pre.length + 1) := by
  rw [digitLoop]
  simp only [h.get_eq, put_append, bind, Except.bind, pure, Except.pure, dite_eq_ite]

/-- The loop writes the mirror image of the numeral over as many bytes. -/
theorem digitLoop_eq (h : Spells T table A) (pre mid post : List UInt8) (i : T)
    (hmid : mid.length = (A.numeral (value i).natAbs).reverse.length) :
    digitLoop table (pre ++ (mid ++ post)) pre.length i =
      .ok (pre ++ ((A.numeral (value i).natAbs).reverse ++ post), pre.length + mid.length) := by
  induction hn : (value i).natAbs using Nat.strong_induction_on generalizing pre mid i with
  | _ n ih =>
    subst hn
    have hquot : (value (i / (literal table.base : T))).natAbs = (value i).natAbs / A.base := by
      rw [natAbs_quotient, h.base_eq]
    have hlast : A.glyph ((value i).natAbs % A.base) = A.glyph (value i).natAbs := A.glyph_mod _
    by_cases hmore : value (i / (literal table.base : T)) = 0
    · have hzero : (value i).natAbs / A.base = 0 := by
        rw [← hquot, hmore]
        rfl
      rw [A.reverse_numeral_last hzero, hlast] at hmid ⊢
      obtain ⟨old, rfl⟩ := List.length_eq_one_iff.mp hmid
      rw [List.singleton_append, digitLoop_turn h, if_neg (not_not_intro hmore)]
      rfl
    · have hne : (value i).natAbs / A.base ≠ 0 := by
        rw [← hquot]
        exact Int.natAbs_ne_zero.mpr hmore
      rw [A.reverse_numeral_step hne, hlast, ← hquot] at hmid ⊢
      obtain ⟨old, mid, rfl⟩ := List.exists_cons_of_length_eq_add_one hmid
      have hmid' := Nat.succ.inj hmid
      -- the turns that are left start behind one more byte
      have hturns := ih _ (natAbs_div_lt table hmore) (pre ++ [A.glyph (value i).natAbs]) mid
        (i / (literal table.base : T)) hmid' rfl
      rw [List.cons_append, digitLoop_turn h, if_pos hmore]
      simpa [Nat.add_assoc, Nat.add_comm 1] using hturns

/-- From the start of the memory, with `k` bytes to follow. -/
theorem digitLoop_start (h : Spells T table A) {buf : List UInt8} {i : T} {k : ℕ}
    (hroom : (A.numeral (value i).natAbs).length + k ≤ buf.length) :
    ∃ rest, rest.length = k ∧ digitLoop table buf 0 i =
      .ok ((A.numeral (value i).natAbs).reverse ++
          (rest ++ buf.drop ((A.numeral (value i).natAbs).length + k)),
        (A.numeral (value i).natAbs).reverse.length) := by
  have hmid : (buf.take (A.numeral (value i).natAbs).length).length =
      (A.numeral (value i).natAbs).reverse.length := by
    rw [List.length_take, List.length_reverse]
    omega
  have hloop := digitLoop_eq h [] _ (buf.drop (A.numeral (value i).natAbs).length) i hmid
  rw [List.take_append_drop, hmid] at hloop
  refine ⟨(buf.drop (A.numeral (value i).natAbs).length).take k, ?_, ?_⟩
  · rw [List.length_take, List.length_drop]
    omega
  · rw [← List.drop_drop, List.take_append_drop]
    simpa only [List.nil_append, List.length_nil, Nat.zero_add] using hloop

end Loop

/-- `convert` writes the text of the value and its NUL. -/
theorem convert_eq {T : Type} [Integral T] (v : T) {buf : List UInt8}
    (hroom : (decimalText (value v)).length + 1 ≤ buf.length) :
    convert buf v = .ok ((decimalText (value v)).length,
      decimalText (value v) ++ 0 :: buf.drop ((decimalText (value v)).length + 1)) := by
  unfold decimalText at hroom ⊢
  by_cases hneg : value v < 0
  · rw [if_pos hneg] at hroom ⊢
    obtain ⟨rest, hrest, hloop⟩ := digitLoop_start (digits_spells T) (i := v) (k := 2) hroom
    obtain ⟨old, last, rfl⟩ := List.length_eq_two.mp hrest
    have hfinish := finish_append ((decimal.numeral (value v).natAbs).reverse ++ [minus])
      (buf.drop ((decimal.numeral (value v).natAbs).length + 2)) last
    rw [convert, hloop]
    simp only [ok_bind, if_pos hneg, List.cons_append, List.nil_append, put_append]
    simpa [minus] using hfinish
  · rw [if_neg hneg] at hroom ⊢
    obtain ⟨rest, hrest, hloop⟩ := digitLoop_start (digits_spells T) (i := v) (k := 1) hroom
    obtain ⟨old, rfl⟩ := List.length_eq_one_iff.mp hrest
    have hfinish := finish_append (decimal.numeral (value v).natAbs).reverse
      (buf.drop ((decimal.numeral (value v).natAbs).length + 1)) old
    rw [convert, hloop]
    simp only [ok_bind, if_neg hneg, List.cons_append, List.nil_append]
    simpa using hfinish

/-- So does `convertHex`. -/
theorem convertHex_eq (v : UInt64) {buf : List UInt8}
    (hroom : (hexadecimal.numeral v.toNat).length + 1 ≤ buf.length) :
    convertHex buf v = .ok ((hexadecimal.numeral v.toNat).length,
      hexadecimal.numeral v.toNat ++
        0 :: buf.drop ((hexadecimal.numeral v.toNat).length + 1)) := by
  have hvalue : (value v).natAbs = v.toNat := Int.natAbs_natCast _
  rw [← hvalue] at hroom ⊢
  obtain ⟨rest, hrest, hloop⟩ := digitLoop_start digitsHex_spells (i := v) (k := 1) hroom
  obtain ⟨old, rfl⟩ := List.length_eq_one_iff.mp hrest
  have hfinish := finish_append (hexadecimal.numeral (value v).natAbs).reverse
    (buf.drop ((hexadecimal.numeral (value v).natAbs).length + 1)) old
  rw [convertHex, hloop]
  simp only [ok_bind, List.cons_append, List.nil_append]
  simpa using hfinish

/-- Twenty digits and a sign are the longest decimal text. -/
theorem length_decimalText_le {T : Type} [Integral T] (v : T) :
    (decimalText (value v)).length ≤ 21 := by
  have hrange := value_range v
  have hlt : (value v).natAbs < decimal.base ^ 20 := by
    change (value v).natAbs < 10 ^ 20
    omega
  have hdigits := decimal.length_numeral_le (Nat.succ_pos 19) hlt
  unfold decimalText
  split
  · exact Nat.succ_le_succ hdigits
  · exact Nat.le_succ_of_le hdigits

/-- Sixteen digits are the longest address. -/
theorem length_hexadecimal_le (v : UInt64) : (hexadecimal.numeral v.toNat).length ≤ 16 := by
  have hlt : v.toNat < hexadecimal.base ^ 16 := v.toNat_lt
  exact hexadecimal.length_numeral_le (Nat.succ_pos 15) hlt

/-- The sign is not a digit. -/
theorem head?_numeral (n : ℕ) : (decimal.numeral n).head? ≠ some minus := by
  intro hhead
  have hmem := decimal.numeral_subset n (List.mem_of_mem_head? hhead)
  exact absurd hmem (by decide)

/-- The text of a number is its canonical signed numeral. -/
theorem decimalText_isDecimal (z : ℤ) : IsDecimal (decimalText z) z := by
  have hnumeral := decimal.numeral_isNumeral z.natAbs
  have hhead := head?_numeral z.natAbs
  by_cases hneg : z < 0
  · have htext : decimalText z = minus :: decimal.numeral z.natAbs := if_pos hneg
    rw [htext]
    refine ⟨iff_of_true rfl hneg, ?_, ?_⟩
    · rw [if_pos hneg]
      exact hnumeral
    · rw [decimalReading, List.head?_cons, if_pos rfl, List.tail_cons, hnumeral.reading_eq]
      omega
  · have htext : decimalText z = decimal.numeral z.natAbs := if_neg hneg
    rw [htext]
    refine ⟨iff_of_false hhead hneg, ?_, ?_⟩
    · rw [if_neg hneg]
      exact hnumeral
    · rw [decimalReading, if_neg hhead, hnumeral.reading_eq]
      omega

example : decimalText (-120) = chars ['-', '1', '2', '0'] := by decide

/-- What one call of `convert` does for a number: the arithmetic of every turn
stays within its type, and the memory holds the text and its NUL. -/
def RendersDecimal {T : Type} [Integral T] (buf : List UInt8) (v : T) : Prop :=
  (∀ i : T, value (i / (literal digits.base : T)) = (value i).tdiv 10 ∧
    toInt (value (i % (literal digits.base : T))) = (value i).tmod 10) ∧
  ∃ text, convert buf v = .ok (text.length, text ++ 0 :: buf.drop (text.length + 1)) ∧
    IsDecimal text (value v) ∧ text.length + 1 ≤ LogStream.kMaxNumericSize

/-- The same for `convertHex`, which writes behind `0x`. -/
def RendersHexadecimal (buf : List UInt8) (v : UInt64) : Prop :=
  ∃ text, convertHex (buf.drop 2) v =
      .ok (text.length, text ++ 0 :: buf.drop (2 + (text.length + 1))) ∧
    hexadecimal.IsNumeral text v.toNat ∧ 2 + (text.length + 1) ≤ LogStream.kMaxNumericSize

theorem rendersDecimal {T : Type} [Integral T] {buf : List UInt8}
    (hbuf : LogStream.kMaxNumericSize ≤ buf.length) (v : T) : RendersDecimal buf v := by
  have hlen := length_decimalText_le v
  have hk : LogStream.kMaxNumericSize = 32 := rfl
  refine ⟨fun i => ⟨value_quotient digits i, value_remainder digits i⟩,
    decimalText (value v), ?_, decimalText_isDecimal _, ?_⟩
  · exact convert_eq v (by omega)
  · omega

theorem rendersHexadecimal {buf : List UInt8} (hbuf : LogStream.kMaxNumericSize ≤ buf.length)
    (v : UInt64) : RendersHexadecimal buf v := by
  have hlen := length_hexadecimal_le v
  have hk : LogStream.kMaxNumericSize = 32 := rfl
  refine ⟨hexadecimal.numeral v.toNat, ?_, hexadecimal.numeral_isNumeral _, ?_⟩
  · rw [← List.drop_drop]
    exact convertHex_eq v (by rw [List.length_drop]; omega)
  · omega

/-- In the memory that its callers make sure of, every integer of every type is
written as its canonical numeral. -/
theorem integer_text_exact {buf : List UInt8} (hbuf : LogStream.kMaxNumericSize ≤ buf.length) :
    (∀ v : Int32, RendersDecimal buf v) ∧ (∀ v : UInt32, RendersDecimal buf v) ∧
    (∀ v : Int64, RendersDecimal buf v) ∧ (∀ v : UInt64, RendersDecimal buf v) ∧
    ∀ v : UInt64, RendersHexadecimal buf v :=
  ⟨rendersDecimal hbuf, rendersDecimal hbuf, rendersDecimal hbuf, rendersDecimal hbuf,
    rendersHexadecimal hbuf⟩

/-- The most negative `int` and the highest address, in memory of just the size
that is asked for. -/
theorem integer_text_exact_sample :
    RendersDecimal (List.replicate 32 0) Int32.minValue ∧
    RendersHexadecimal (List.replicate 32 0) 18446744073709551615 := by
  have hbuf : LogStream.kMaxNumericSize ≤ (List.replicate 32 (0 : UInt8)).length := by
    rw [List.length_replicate]
    exact Nat.le_refl 32
  obtain ⟨hint, -, -, -, haddress⟩ := integer_text_exact hbuf
  exact ⟨hint _, haddress _⟩

end KyrosWebServer.Base
