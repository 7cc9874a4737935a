import Mathlib.Algebra.BigOperators.Group.Finset.Basic
import Mathlib.Data.Fintype.Basic

/-!
# Condition variables

The threads of a family stand at program points, two of which belong to a
condition variable: waiting, and woken but not yet back with the mutex. A
signal wakes one waiter and is lost when there is none; a broadcast wakes all.
The sums at the end measure a family thread by thread.
-/

namespace KyrosWebServer.Condition

variable {ι κ : Type*} [DecidableEq ι]

/-- `pthread_cond_signal`, with the thread that it wakes. -/
inductive Post (waiting woken : κ) (stands : ι → κ) : Option ι → (ι → κ) → Prop
  /-- Nobody waits. -/
  | lost : (∀ j, stands j ≠ waiting) → Post waiting woken stands none stands
  /-- Any one of the waiters. -/
  | wake (j : ι) : stands j = waiting →
      Post waiting woken stands (some j) (Function.update stands j woken)

/-- A signal under a condition of the program. -/
def PostIf (signalled : Bool) (waiting woken : κ) (stands : ι → κ) (who : Option ι)
    (stands' : ι → κ) : Prop :=
  if signalled then Post waiting woken stands who stands' else who = none ∧ stands' = stands

variable {waiting woken : κ} {stands stands' : ι → κ} {who : Option ι} {signalled : Bool}

/-- A signal can always be sent. -/
theorem PostIf.exists (signalled : Bool) (waiting woken : κ) (stands : ι → κ) :
    ∃ who stands', PostIf signalled waiting woken stands who stands' := by
  cases signalled with
  | false => exact ⟨none, stands, rfl, rfl⟩
  | true =>
    by_cases h : ∃ j, stands j = waiting
    · obtain ⟨j, hj⟩ := h
      exact ⟨some j, _, .wake j hj⟩
    · exact ⟨none, stands, .lost fun j hj => h ⟨j, hj⟩⟩

/-- A signal is lost when nobody waits. -/
theorem PostIf.idle (h : ∀ j, stands j ≠ waiting) :
    PostIf signalled waiting woken stands none stands := by
  cases signalled with
  | false => exact ⟨rfl, rfl⟩
  | true => exact .lost h

/-- A signal moves at most one thread, from waiting to woken. -/
theorem PostIf.cases (h : PostIf signalled waiting woken stands who stands') :
    stands' = stands ∨ ∃ j, stands j = waiting ∧ stands' = Function.update stands j woken := by
  unfold PostIf at h
  split at h
  · cases h with
    | lost _ => exact .inl rfl
    | wake j hj => exact .inr ⟨j, hj, rfl⟩
  · exact .inl h.2

/-- Threads that do not wait are not affected. -/
theorem PostIf.stays (h : PostIf signalled waiting woken stands who stands') {j : ι}
    (hj : stands j ≠ waiting) : stands' j = stands j := by
  rcases h.cases with rfl | ⟨k, hk, rfl⟩
  · rfl
  · rw [Function.update_of_ne]
    rintro rfl
    exact hj hk

/-- A signal makes nobody wait. -/
theorem PostIf.waited (h : PostIf signalled waiting woken stands who stands')
    {j : ι} (hj : stands' j = waiting) : stands j = waiting := by
  by_contra hw
  rw [h.stays hw] at hj
  exact hw hj

/-- A signal that is sent while somebody waits wakes somebody. -/
theorem PostIf.wakes (h : PostIf true waiting woken stands who stands') {j : ι}
    (hj : stands j = waiting) :
    ∃ k, stands k = waiting ∧ stands' = Function.update stands k woken := by
  change Post waiting woken stands who stands' at h
  cases h with
  | lost hnone => exact absurd hj (hnone j)
  | wake k hk => exact ⟨k, hk, rfl⟩

variable [Fintype ι]

/-- Changing one thread changes the sum by what that thread contributes. -/
theorem sum_of_agree {f g : ι → ℕ} (i : ι) (h : ∀ j, j ≠ i → f j = g j) :
    ∑ j, f j + g i = ∑ j, g j + f i := by
  have hrest : ∑ j ∈ Finset.univ.erase i, f j = ∑ j ∈ Finset.univ.erase i, g j :=
    Finset.sum_congr rfl fun j hj => h j (Finset.ne_of_mem_erase hj)
  have hf := Finset.add_sum_erase Finset.univ f (Finset.mem_univ i)
  have hg := Finset.add_sum_erase Finset.univ g (Finset.mem_univ i)
  omega

/-- The same for a family of which one thread moves to `x`. -/
theorem sum_update (m : ι → κ → ℕ) (stands : ι → κ) (i : ι) (x : κ) :
    ∑ j, m j (Function.update stands i x j) + m i (stands i) = ∑ j, m j (stands j) + m i x := by
  have hrest : ∀ j, j ≠ i → m j (Function.update stands i x j) = m j (stands j) := by
    intro j hj
    rw [Function.update_of_ne hj]
  have hsum := sum_of_agree i hrest
  rwa [Function.update_self] at hsum

end KyrosWebServer.Condition
