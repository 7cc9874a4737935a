import KyrosWebServer.Numeral
import Mathlib.Algebra.Ring.Nat

/-!
# Texts that sort as numbers do

Texts of one width can stand for numbers in such a way that the lexicographic
order of the texts is the order of the numbers. A number that is told by two
others, of which the first decides, is written as the two texts one behind the
other. Quotient and remainder tell a number in this way, and so do a block of a
line and the place in the block when the blocks have different lengths. The
texts to begin with are numerals filled up with zeros.
-/

namespace KyrosWebServer.Lexicographic

open Numeral

/-- Two functions that tell a number; the first decides. -/
structure Splits (key sub : ℕ → ℕ) : Prop where
  /-- A greater number has a greater key, or the same and a greater rest. -/
  lt : ∀ m n, m < n → key m < key n ∨ key m = key n ∧ sub m < sub n

/-- A line of blocks. -/
structure Blocks where
  /-- The lengths of the blocks. -/
  len : ℕ → ℕ
  /-- No block is empty. -/
  pos : ∀ k, 0 < len k

/-- The block and the place in it of the `n`-th point from the start of block `k` on. -/
def Blocks.locate (B : Blocks) (k n : ℕ) : ℕ × ℕ :=
  if n < B.len k then (k, n) else B.locate (k + 1) (n - B.len k)
termination_by n
decreasing_by
  have hpos := B.pos k
  omega

theorem Splits.divMod (b : ℕ) : Splits (· / b) (· % b) where
  lt m n h := by
    rcases Nat.lt_or_eq_of_le (Nat.div_le_div_right (c := b) h.le) with hlt | heq
    · exact .inl hlt
    · have hm := Nat.div_add_mod m b
      have hn := Nat.div_add_mod n b
      rw [heq] at hm
      exact .inr ⟨heq, by omega⟩

namespace Blocks

variable (B : Blocks)

/-- The place is in the block. -/
theorem locate_lt (k n : ℕ) : (B.locate k n).2 < B.len (B.locate k n).1 := by
  fun_induction B.locate k n with
  | case1 k n h => exact h
  | case2 k n h ih => exact ih

theorem locate_of_le {k n : ℕ} (h : ¬ n < B.len k) :
    B.locate k n = B.locate (k + 1) (n - B.len k) := by
  rw [locate, if_neg h]

theorem le_locate (k n : ℕ) : k ≤ (B.locate k n).1 := by
  fun_induction B.locate k n with
  | case1 k n h => exact Nat.le_refl k
  | case2 k n h ih => omega

/-- A point within the next few blocks is in one of them. -/
theorem locate_lt_add {k j n : ℕ} (h : n < ((List.range j).map fun i => B.len (k + i)).sum) :
    (B.locate k n).1 < k + j := by
  induction j generalizing k n with
  | zero => cases h
  | succ j ih =>
    rw [List.range_succ_eq_map, List.map_cons, List.sum_cons, List.map_map] at h
    by_cases hn : n < B.len k
    · rw [locate, if_pos hn]
      exact Nat.lt_add_of_pos_right (Nat.succ_pos j)
    · rw [B.locate_of_le hn]
      have hrest : (List.range j).map ((fun i => B.len (k + i)) ∘ Nat.succ) =
          (List.range j).map fun i => B.len (k + 1 + i) :=
        List.map_congr_left fun i _ => congrArg B.len (by omega)
      rw [hrest, Nat.add_zero] at h
      have hlt := ih (k := k + 1) (n := n - B.len k) (by omega)
      omega

/-- A later point is in a later block, or later in the same. -/
theorem splits (k : ℕ) : Splits (fun n => (B.locate k n).1) fun n => (B.locate k n).2 where
  lt m n hmn := by
    fun_induction B.locate k m generalizing n with
    | case1 k m h =>
      by_cases hn : n < B.len k
      · rw [locate, if_pos hn]
        exact .inr ⟨rfl, hmn⟩
      · rw [B.locate_of_le hn]
        have hlater := B.le_locate (k + 1) (n - B.len k)
        exact .inl hlater
    | case2 k m h ih =>
      rw [B.locate_of_le (show ¬ n < B.len k by omega)]
      exact ih _ (by omega)

end Blocks

section Texts

variable {γ : Type*} [LT γ]

/-- Texts of one width that rise with the numbers of a set. -/
structure Rising (S : ℕ → Prop) (w : ℕ) (f : ℕ → List γ) : Prop where
  /-- All texts have one width. -/
  width : ∀ n, S n → (f n).length = w
  /-- The text of a greater number is greater. -/
  lt : ∀ m n, S m → S n → m < n → f m < f n

/-- A difference in front decides, whatever follows. -/
theorem append_lt_append {a b : List γ} (hlen : a.length = b.length) (h : a < b) (x y : List γ) :
    a ++ x < b ++ y := by
  induction a generalizing b with
  | nil =>
    rw [List.length_nil, eq_comm, List.length_eq_zero_iff] at hlen
    exact absurd (hlen ▸ h) (List.not_lt_nil _)
  | cons c a ih =>
    cases b with
    | nil => exact absurd h (List.not_lt_nil _)
    | cons d b =>
      rw [List.cons_append, List.cons_append]
      rcases List.cons_lt_cons_iff.mp h with hlt | ⟨rfl, hlt⟩
      · exact List.cons_lt_cons_iff.mpr (.inl hlt)
      · exact List.cons_lt_cons_iff.mpr (.inr ⟨rfl, ih (Nat.succ.inj hlen) hlt⟩)

namespace Rising

variable {S T : ℕ → Prop} {w : ℕ} {f : ℕ → List γ}

/-- The order of the texts is the order of the numbers. -/
theorem lt_iff [Std.Asymm (· < · : γ → γ → Prop)] (h : Rising S w f) {m n : ℕ} (hm : S m)
    (hn : S n) : f m < f n ↔ m < n := by
  constructor
  · intro hlt
    rcases Nat.lt_trichotomy m n with hmn | rfl | hnm
    · exact hmn
    · exact absurd hlt (Std.Asymm.asymm _ _ hlt)
    · exact absurd hlt (Std.Asymm.asymm _ _ (h.lt n m hn hm hnm))
  · exact h.lt m n hm hn

theorem subset (h : Rising S w f) (hsub : ∀ n, T n → S n) : Rising T w f :=
  ⟨fun n hn => h.width n (hsub n hn), fun m n hm hn => h.lt m n (hsub m hm) (hsub n hn)⟩

/-- Counting from elsewhere. -/
theorem offset (h : Rising S w f) (k : ℕ) :
    Rising (fun n => S (n + k)) w fun n => f (n + k) :=
  ⟨fun _ hn => h.width _ hn, fun _ _ hm hn hlt => h.lt _ _ hm hn (Nat.add_lt_add_right hlt k)⟩

/-- The same text in front of all of them. -/
theorem append_left (h : Rising S w f) (text : List γ) :
    Rising S (text.length + w) fun n => text ++ f n where
  width n hn := by rw [List.length_append, h.width n hn]
  lt m n hm hn hlt := List.append_left_lt (h.lt m n hm hn hlt)

/-- The text of the key and behind it that of the rest. -/
theorem append {key sub : ℕ → ℕ} {v : ℕ} {R : ℕ → ℕ → Prop} {g : ℕ → ℕ → List γ}
    (hsplit : Splits key sub) (hf : Rising S w f) (hg : ∀ k, S k → Rising (R k) v (g k)) :
    Rising (fun n => S (key n) ∧ R (key n) (sub n)) (w + v)
      fun n => f (key n) ++ g (key n) (sub n) where
  width n hn := by rw [List.length_append, hf.width _ hn.1, (hg _ hn.1).width _ hn.2]
  lt m n hm hn hlt := by
    rcases hsplit.lt m n hlt with hkey | ⟨hkey, hsub⟩
    · exact append_lt_append ((hf.width _ hm.1).trans (hf.width _ hn.1).symm)
        (hf.lt _ _ hm.1 hn.1 hkey) _ _
    · rw [hkey]
      exact List.append_left_lt ((hg _ hn.1).lt _ _ (hkey ▸ hm.2) hn.2 hsub)

end Rising

end Texts

section Filled

variable {γ : Type*} (A : Alphabet γ)

/-- The numeral of a number, filled up on the left to a width if it is shorter. -/
def filled (fill : γ) (w n : ℕ) : List γ :=
  List.replicate (w - (A.numeral n).length) fill ++ A.numeral n

/-- A numeral has digits enough for its number. -/
theorem lt_pow_length_numeral (n : ℕ) : n < A.base ^ (A.numeral n).length := by
  unfold Alphabet.numeral
  split
  · rename_i hzero
    rw [hzero]
    exact Nat.pow_pos A.base_pos
  · rw [List.length_map, List.length_reverse]
    exact Nat.lt_base_pow_length_digits A.one_lt_base

/-- The numeral of a number is that of its quotient by the base and the last digit. -/
theorem numeral_step {n : ℕ} (h : n / A.base ≠ 0) :
    A.numeral n = A.numeral (n / A.base) ++ [A.glyph (n % A.base)] := by
  have hstep := congrArg List.reverse (A.reverse_numeral_step h)
  rwa [List.reverse_reverse, List.reverse_cons, List.reverse_reverse] at hstep

theorem numeral_last {n : ℕ} (h : n / A.base = 0) : A.numeral n = [A.glyph (n % A.base)] := by
  have hlast := congrArg List.reverse (A.reverse_numeral_last h)
  rwa [List.reverse_reverse, List.reverse_singleton] at hlast

/-- Filling up with zeros is writing digits for all places. -/
theorem filled_succ {w : ℕ} (hw : 0 < w) (n : ℕ) :
    filled A (A.glyph 0) (w + 1) n = filled A (A.glyph 0) w (n / A.base) ++ [A.glyph (n % A.base)] := by
  unfold filled
  by_cases h : n / A.base = 0
  · rw [numeral_last A h, h, show A.numeral 0 = [A.glyph 0] from if_pos rfl]
    have hlen : w + 1 - [A.glyph (n % A.base)].length = w - [A.glyph 0].length + 1 := by
      simp only [List.length_singleton]
      omega
    rw [hlen, List.replicate_succ']
  · rw [numeral_step A h, List.length_append, List.length_singleton, Nat.add_sub_add_right,
      List.append_assoc]

theorem filled_one {n : ℕ} (h : n < A.base) : filled A (A.glyph 0) 1 n = [A.glyph n] := by
  have hlast : n / A.base = 0 := Nat.div_eq_of_lt h
  rw [filled, numeral_last A hlast, Nat.mod_eq_of_lt h]
  rfl

/-- Filling up with zeros does not change what is read. -/
theorem reading_filled [DecidableEq γ] (w n : ℕ) : A.reading (filled A (A.glyph 0) w n) = n := by
  have hnumeral : A.reading (A.numeral n) = n := (A.numeral_isNumeral n).reading_eq
  have hzeros : (List.replicate (w - (A.numeral n).length) (A.glyph 0)).map A.digit =
      List.replicate (w - (A.numeral n).length) 0 := by
    rw [List.map_replicate, A.digit_glyph A.base_pos]
  rw [Alphabet.reading, filled, List.reverse_append, List.reverse_replicate, List.map_append, hzeros,
    Nat.ofDigits_append_replicate_zero]
  exact hnumeral

variable [LT γ]

/-- Numerals of one width sort as their numbers if the glyphs sort as the digits. -/
theorem rising_filled (hglyphs : A.glyphs.Pairwise (· < ·)) (w : ℕ) :
    Rising (· < A.base ^ (w + 1)) (w + 1) (filled A (A.glyph 0) (w + 1)) := by
  have hglyph : ∀ m n, m < A.base → n < A.base → m < n → A.glyph m < A.glyph n := by
    intro m n hm hn hlt
    rw [A.glyph_of_lt hm, A.glyph_of_lt hn]
    exact List.pairwise_iff_get.mp hglyphs _ _ hlt
  induction w with
  | zero =>
    refine ⟨fun n hn => ?_, fun m n hm hn hlt => ?_⟩
    · rw [Nat.zero_add, Nat.pow_one] at hn
      rw [filled_one A hn]
      rfl
    · rw [Nat.zero_add, Nat.pow_one] at hm hn
      rw [filled_one A hm, filled_one A hn]
      exact List.cons_lt_cons_iff.mpr (.inl (hglyph m n hm hn hlt))
  | succ w ih =>
    have hlast : ∀ k, k < A.base ^ (w + 1) → Rising (· < A.base) 1 fun d => [A.glyph d] := by
      intro k _
      refine ⟨fun n _ => rfl, fun m n hm hn hlt => ?_⟩
      exact List.cons_lt_cons_iff.mpr (.inl (hglyph m n hm hn hlt))
    have hall := ih.append (Splits.divMod A.base) hlast
    have heq : filled A (A.glyph 0) (w + 1 + 1) =
        fun n => filled A (A.glyph 0) (w + 1) (n / A.base) ++ [A.glyph (n % A.base)] :=
      funext fun n => filled_succ A (Nat.succ_pos w) n
    rw [heq]
    refine hall.subset fun n hn => ⟨?_, Nat.mod_lt n A.base_pos⟩
    rw [Nat.pow_succ] at hn
    exact Nat.div_lt_of_lt_mul (by rw [Nat.mul_comm]; exact hn)

end Filled

end KyrosWebServer.Lexicographic
