import Mathlib.Data.Nat.Notation
import Mathlib.Data.List.Basic

/-!
# Whole items in a bounded room

Items arrive one after the other. Each has a text and asks for some room,
which is never less than its text takes: it is admitted with its whole text
when the room asked for is left, and leaves no trace otherwise. An item that
was refused does not keep later ones out.
-/

namespace KyrosWebServer.Admission

/-- What an item asks for and what it brings. -/
structure Policy (α β : Type*) where
  /-- Room that has to be left. -/
  need : α → ℕ
  /-- What an admitted item adds. -/
  text : α → List β
  /-- The room asked for is enough. -/
  length_text_le : ∀ a, (text a).length ≤ need a

namespace Policy

variable {α β : Type*} (P : Policy α β)

/-- The items that find the room they ask for. -/
def admitted (room : ℕ) : List α → List α
  | [] => []
  | a :: as =>
    if P.need a ≤ room then a :: admitted (room - (P.text a).length) as
    else admitted room as

/-- Their texts. -/
def content (room : ℕ) (as : List α) : List β := (P.admitted room as).flatMap P.text

/-- The room behind the last item. -/
def left (room : ℕ) : List α → ℕ
  | [] => room
  | a :: as => left (if P.need a ≤ room then room - (P.text a).length else room) as

variable {room : ℕ} {a : α} (as : List α)

theorem admitted_of_le (h : P.need a ≤ room) :
    P.admitted room (a :: as) = a :: P.admitted (room - (P.text a).length) as := if_pos h

theorem admitted_of_lt (h : ¬ P.need a ≤ room) :
    P.admitted room (a :: as) = P.admitted room as := if_neg h

theorem content_of_le (h : P.need a ≤ room) :
    P.content room (a :: as) = P.text a ++ P.content (room - (P.text a).length) as := by
  rw [content, P.admitted_of_le as h, List.flatMap_cons, content]

theorem content_of_lt (h : ¬ P.need a ≤ room) :
    P.content room (a :: as) = P.content room as := by
  rw [content, P.admitted_of_lt as h, content]

/-- Items keep their order. -/
theorem admitted_sublist (room : ℕ) : (P.admitted room as).Sublist as := by
  induction as generalizing room with
  | nil => exact List.Sublist.refl []
  | cons a as ih =>
    unfold admitted
    split
    · exact (ih _).cons_cons a
    · exact (ih _).cons a

/-- What goes in takes its length off the room. -/
theorem left_add_length_content (room : ℕ) :
    P.left room as + (P.content room as).length = room := by
  induction as generalizing room with
  | nil => rfl
  | cons a as ih =>
    rw [left]
    by_cases h : P.need a ≤ room
    · have hrest := ih (room - (P.text a).length)
      have htext := P.length_text_le a
      rw [if_pos h, P.content_of_le as h, List.length_append]
      omega
    · rw [if_neg h, P.content_of_lt as h]
      exact ih room

/-- What is in no text is not in the content. -/
theorem notMem_content {c : β} (room : ℕ) {as : List α} (h : ∀ a ∈ as, c ∉ P.text a) :
    c ∉ P.content room as := by
  intro hc
  obtain ⟨a, ha, hca⟩ := List.mem_flatMap.mp hc
  exact h a ((P.admitted_sublist as room).subset ha) hca

end Policy

end KyrosWebServer.Admission
