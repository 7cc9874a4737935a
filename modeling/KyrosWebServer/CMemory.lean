import Mathlib.Data.Nat.Notation
import Mathlib.Data.Int.Notation

/-!
# Byte storage behind C pointers

A pointer into a block is an integer offset. Accesses outside the block, null
strings and rejected library arguments are faults, never values. Conversions
to `size_t` reduce modulo its 64-bit range.
-/

namespace KyrosWebServer.CMemory

/-- What stops a C++ computation instead of a result. -/
inductive Fault
  /-- An access outside the storage the pointer belongs to. -/
  | outOfBounds
  /-- A `std::string` built from a null pointer. -/
  | nullPointer
  /-- `std::length_error`, thrown by `std::string::assign`. -/
  | lengthError
  deriving DecidableEq, Repr

/-- Outcomes are compared by their values, so that runs can be evaluated. -/
instance {β : Type} [DecidableEq β] : DecidableEq (Except Fault β)
  | .ok a, .ok b => decidable_of_iff (a = b) ⟨congrArg _, Except.ok.inj⟩
  | .error a, .error b => decidable_of_iff (a = b) ⟨congrArg _, Except.error.inj⟩
  | .ok _, .error _ => .isFalse nofun
  | .error _, .ok _ => .isFalse nofun

/-- A computation that succeeds succeeded in its first part. -/
theorem bind_eq_ok {ε β γ : Type} {x : Except ε β} {f : β → Except ε γ} {c : γ}
    (h : (x >>= f) = .ok c) : ∃ b, x = .ok b ∧ f b = .ok c := by
  cases x with
  | error e => cases h
  | ok b => exact ⟨b, rfl, h⟩

/-- What is computed from a result fails where the result does. -/
theorem map_eq_error {ε β γ : Type} {f : β → γ} {x : Except ε β} {e : ε} :
    x.map f = .error e ↔ x = .error e := by
  cases x <;> simp [Except.map]

theorem ok_bind {ε β γ : Type} (b : β) (f : β → Except ε γ) :
    ((Except.ok b : Except ε β) >>= f) = f b := rfl

/-- Conversion to `size_t`. -/
def toSize (z : ℤ) : ℕ := (z % 18446744073709551616).toNat

theorem toSize_of_range {z : ℤ} (h₀ : 0 ≤ z) (h : z < 18446744073709551616) :
    toSize z = z.toNat := by
  unfold toSize
  rw [Int.emod_eq_of_lt h₀ h]

/-- Moving by no more than the distance lowers it by the move. -/
theorem toSize_sub {z : ℤ} {n : ℕ} (h : n ≤ toSize z) : toSize (z - n) = toSize z - n := by
  unfold toSize at h ⊢
  omega

variable {α : Type}

/-- Replace the items from an offset on, dropping what would leave the block. -/
def overwrite (xs : List α) (off : ℕ) (ys : List α) : List α :=
  xs.take off ++ ys.take (xs.length - off) ++ xs.drop (off + ys.length)

@[simp] theorem length_overwrite (xs : List α) (off : ℕ) (ys : List α) :
    (overwrite xs off ys).length = xs.length := by
  simp only [overwrite, List.length_append, List.length_take, List.length_drop]
  omega

/-- Writing over a part of equal length exchanges exactly that part. -/
theorem overwrite_middle {pre mid post ys : List α} (h : ys.length = mid.length) :
    overwrite (pre ++ (mid ++ post)) pre.length ys = pre ++ (ys ++ post) := by
  have htake : ys.take ((pre ++ (mid ++ post)).length - pre.length) = ys := by
    apply List.take_of_length_le
    simp only [List.length_append]
    omega
  have hdrop : (pre ++ (mid ++ post)).drop (pre.length + ys.length) = post := by
    rw [List.drop_append, h, List.drop_of_length_le (by omega)]
    simp
  rw [overwrite, htake, hdrop]
  simp

/-- Writing at the front of a block exchanges its first items. -/
theorem overwrite_front {xs ys : List α} (h : ys.length ≤ xs.length) :
    overwrite xs 0 ys = ys ++ xs.drop ys.length := by
  have htake : ys.take (xs.length - 0) = ys := List.take_of_length_le (by omega)
  rw [overwrite, htake]
  simp

end KyrosWebServer.CMemory
