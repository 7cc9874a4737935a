import Mathlib.Data.Nat.Digits.Lemmas

/-!
# Positional numerals over an alphabet

A numeral is a text over as many glyphs as the base, most significant glyph
first. It is canonical when it is not empty and begins with the glyph of zero
only if that is all of it. `numeral` writes the canonical numeral of a number;
what a digit loop produces, from the least significant digit on, is its mirror
image.
-/

namespace KyrosWebServer.Numeral

/-- Glyphs in the order of the digits they stand for. -/
structure Alphabet (γ : Type*) where
  /-- The glyph of digit `d` is at index `d`. -/
  glyphs : List γ
  /-- No positional system has a smaller base. -/
  two_le : 2 ≤ glyphs.length
  /-- A glyph stands for one digit. -/
  nodup : glyphs.Nodup

namespace Alphabet

variable {γ : Type*}

/-- One glyph for every digit. -/
def base (A : Alphabet γ) : ℕ := A.glyphs.length

theorem one_lt_base (A : Alphabet γ) : 1 < A.base := A.two_le

theorem base_pos (A : Alphabet γ) : 0 < A.base := Nat.lt_trans Nat.zero_lt_one A.one_lt_base

/-- The glyph of a digit, and of any number the glyph of its last digit. -/
def glyph (A : Alphabet γ) (d : ℕ) : γ := A.glyphs.get ⟨d % A.base, Nat.mod_lt d A.base_pos⟩

/-- The canonical numeral of a number. -/
def numeral (A : Alphabet γ) (n : ℕ) : List γ :=
  if n = 0 then [A.glyph 0] else (Nat.digits A.base n).reverse.map A.glyph

variable (A : Alphabet γ)

theorem glyph_mem (d : ℕ) : A.glyph d ∈ A.glyphs := List.get_mem ..

theorem glyph_of_lt {d : ℕ} (h : d < A.base) : A.glyph d = A.glyphs.get ⟨d, h⟩ := by
  unfold glyph
  congr 2
  exact Nat.mod_eq_of_lt h

/-- A remainder by the base has the same last digit. -/
theorem glyph_mod (d : ℕ) : A.glyph (d % A.base) = A.glyph d := by
  unfold glyph
  congr 2
  exact Nat.mod_mod d A.base

theorem numeral_subset (n : ℕ) : A.numeral n ⊆ A.glyphs := by
  intro c hc
  unfold numeral at hc
  split at hc
  · rw [List.mem_singleton.mp hc]
    exact A.glyph_mem 0
  · obtain ⟨d, -, rfl⟩ := List.mem_map.mp hc
    exact A.glyph_mem d

/-- A number below a power of the base has no more digits than its exponent. -/
theorem length_numeral_le {n k : ℕ} (hk : 0 < k) (h : n < A.base ^ k) :
    (A.numeral n).length ≤ k := by
  unfold numeral
  split
  · exact hk
  · rw [List.length_map, List.length_reverse]
    exact (Nat.digits_length_le_iff A.one_lt_base n).mpr h

/-- The first turn of a digit loop writes the last glyph. If nothing is left of
the number after the division, it is the only one. -/
theorem reverse_numeral_last {n : ℕ} (h : n / A.base = 0) :
    (A.numeral n).reverse = [A.glyph (n % A.base)] := by
  have hn : n < A.base := (Nat.div_eq_zero_iff_lt A.base_pos).mp h
  rw [Nat.mod_eq_of_lt hn, numeral]
  split
  · rename_i hzero
    rw [hzero]
    rfl
  · rename_i hpos
    rw [Nat.digits_of_lt A.base n hpos hn]
    rfl

/-- Otherwise the next turns write the numeral of the quotient. -/
theorem reverse_numeral_step {n : ℕ} (h : n / A.base ≠ 0) :
    (A.numeral n).reverse = A.glyph (n % A.base) :: (A.numeral (n / A.base)).reverse := by
  have hn : n ≠ 0 := by
    rintro rfl
    exact h (Nat.zero_div _)
  rw [numeral, if_neg hn, numeral, if_neg h, List.map_reverse, List.map_reverse,
    List.reverse_reverse, List.reverse_reverse,
    Nat.digits_def' A.one_lt_base (Nat.pos_of_ne_zero hn), List.map_cons]

variable [DecidableEq γ]

/-- The digit a glyph stands for. -/
def digit (c : γ) : ℕ := A.glyphs.idxOf c

/-- The number a text over the alphabet denotes. -/
def reading (text : List γ) : ℕ := Nat.ofDigits A.base (text.reverse.map A.digit)

/-- The canonical numeral of a number, by what a reader sees of it. -/
structure IsNumeral (text : List γ) (n : ℕ) : Prop where
  /-- There are no other characters. -/
  subset : text ⊆ A.glyphs
  /-- There is at least one digit. -/
  ne_nil : text ≠ []
  /-- Only zero itself begins with a zero. -/
  leading : text.head? = some (A.glyph 0) → text = [A.glyph 0]
  /-- Reading gives the number back. -/
  reading_eq : A.reading text = n

theorem digit_glyph {d : ℕ} (h : d < A.base) : A.digit (A.glyph d) = d := by
  rw [digit, A.glyph_of_lt h, List.get_eq_getElem]
  exact A.nodup.idxOf_getElem d h

/-- The digits survive being written. -/
theorem map_digit_glyph {ds : List ℕ} (h : ∀ d ∈ ds, d < A.base) :
    (ds.map A.glyph).map A.digit = ds := by
  rw [List.map_map]
  calc
    ds.map (A.digit ∘ A.glyph) = ds.map id :=
      List.map_congr_left fun d hd => A.digit_glyph (h d hd)
    _ = ds := List.map_id ds

theorem numeral_isNumeral (n : ℕ) : A.IsNumeral (A.numeral n) n := by
  have hdigits : ∀ d ∈ Nat.digits A.base n, d < A.base :=
    fun d hd => Nat.digits_lt_base A.one_lt_base hd
  by_cases hn : n = 0
  · have hzero : A.numeral n = [A.glyph 0] := if_pos hn
    refine ⟨A.numeral_subset n, by simp [hzero], fun _ => hzero, ?_⟩
    rw [hzero, hn, reading, List.reverse_singleton, List.map_singleton, A.digit_glyph A.base_pos,
      Nat.ofDigits_singleton]
  · have heq : A.numeral n = (Nat.digits A.base n).reverse.map A.glyph := if_neg hn
    have hne : Nat.digits A.base n ≠ [] := Nat.digits_ne_nil_iff_ne_zero.mpr hn
    refine ⟨A.numeral_subset n, by simpa [heq] using hne, ?_, ?_⟩
    · -- the first glyph is that of the last digit found, which is not zero
      intro hhead
      have hlast := Nat.getLast_digit_ne_zero A.base hn
      have hlt := hdigits _ (List.getLast_mem hne)
      rw [heq, List.head?_map, List.head?_reverse, List.getLast?_eq_some_getLast hne,
        Option.map_some, Option.some.injEq] at hhead
      have hdigit := congrArg A.digit hhead
      rw [A.digit_glyph hlt, A.digit_glyph A.base_pos] at hdigit
      exact absurd hdigit hlast
    · have hreverse : (A.numeral n).reverse = (Nat.digits A.base n).map A.glyph := by
        rw [heq, List.map_reverse, List.reverse_reverse]
      rw [reading, hreverse, A.map_digit_glyph hdigits, Nat.ofDigits_digits]

end Alphabet

end KyrosWebServer.Numeral
