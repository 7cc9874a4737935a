import KyrosWebServer.TransitionSystem

/-!
# Bounded first-in first-out queues

A queue that can hold at most `cap` items carries that bound as a field.
Blocks of items enter whole or not at all and leave from the front. Every
history returns the items in the order of their arrival, each exactly once.
-/

namespace KyrosWebServer.BoundedFifo

open TransitionSystem

/-- At most `cap` items, oldest first. -/
structure BoundedQueue (α : Type*) (cap : ℕ) where
  /-- The items held, in order of arrival. -/
  items : List α
  /-- The capacity is never exceeded. -/
  bounded : items.length ≤ cap

namespace BoundedQueue

variable {α : Type*} {cap : ℕ}

@[ext] theorem ext {q r : BoundedQueue α cap} (h : q.items = r.items) : q = r := by
  cases q
  cases r
  cases h
  rfl

/-- The queue without items. -/
def empty : BoundedQueue α cap := ⟨[], Nat.zero_le cap⟩

/-- Admit a whole block, or refuse it for lack of room. -/
def enqueue (q : BoundedQueue α cap) (xs : List α) : Option (BoundedQueue α cap) :=
  if h : xs.length ≤ cap - q.items.length then
    some ⟨q.items ++ xs, by have := q.bounded; rw [List.length_append]; omega⟩
  else none

/-- Remove up to `n` items from the front. -/
def dequeue (q : BoundedQueue α cap) (n : ℕ) : List α × BoundedQueue α cap :=
  (q.items.take n, ⟨q.items.drop n, by have := q.bounded; rw [List.length_drop]; omega⟩)

@[simp] theorem empty_items : (empty : BoundedQueue α cap).items = [] := rfl

@[simp] theorem dequeue_fst (q : BoundedQueue α cap) (n : ℕ) :
    (q.dequeue n).1 = q.items.take n := rfl

@[simp] theorem dequeue_items (q : BoundedQueue α cap) (n : ℕ) :
    (q.dequeue n).2.items = q.items.drop n := rfl

theorem enqueue_of_room {q : BoundedQueue α cap} (xs : List α)
    (h : xs.length ≤ cap - q.items.length) :
    ∃ r, q.enqueue xs = some r ∧ r.items = q.items ++ xs := by
  unfold enqueue
  rw [dif_pos h]
  exact ⟨_, rfl, rfl⟩

theorem enqueue_of_no_room {q : BoundedQueue α cap} {xs : List α}
    (h : ¬ xs.length ≤ cap - q.items.length) : q.enqueue xs = none := dif_neg h

theorem enqueue_items {q r : BoundedQueue α cap} {xs : List α} (h : q.enqueue xs = some r) :
    r.items = q.items ++ xs := by
  unfold enqueue at h
  split at h
  · cases h
    rfl
  · contradiction

end BoundedQueue

/-- A block that entered, or a block that left. -/
inductive Event (α : Type*)
  | enqueued (xs : List α)
  | dequeued (xs : List α)

namespace Event

variable {α : Type*}

/-- The items an event brought in. -/
def entered : Event α → List α
  | enqueued xs => xs
  | dequeued _ => []

/-- The items an event took out. -/
def left : Event α → List α
  | enqueued _ => []
  | dequeued xs => xs

end Event

/-- The queue as a transition system over its events. -/
def fifo (α : Type*) (cap : ℕ) : System (BoundedQueue α cap) (Event α) where
  start q := q = BoundedQueue.empty
  step q e r := match e with
    | .enqueued xs => q.enqueue xs = some r
    | .dequeued xs => q.items = xs ++ r.items

/-- What left, followed by what is held, is what entered, in order. -/
theorem history {α : Type*} {cap : ℕ} {q : BoundedQueue α cap} {es : List (Event α)}
    (h : (fifo α cap).Run BoundedQueue.empty es q) :
    es.flatMap Event.left ++ q.items = es.flatMap Event.entered := by
  induction h with
  | nil => rfl
  | @snoc q r es e _ hstep ih =>
    rw [List.flatMap_append, List.flatMap_append, ← ih]
    cases e with
    | enqueued xs =>
      have hr : r.items = q.items ++ xs := BoundedQueue.enqueue_items hstep
      simp [Event.left, Event.entered, hr]
    | dequeued xs =>
      have hq : q.items = xs ++ r.items := hstep
      simp [Event.left, Event.entered, hq]

end KyrosWebServer.BoundedFifo
