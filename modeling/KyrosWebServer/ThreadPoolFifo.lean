import KyrosWebServer.BoundedFifo
import KyrosWebServer.ThreadPool

/-!
# The pool as a bounded queue

Every run of the pool is a history of the bounded queue: pushes enter, takes
leave, and no other move touches the tasks. So each accepted task is taken at
most once and in the order of the pushes, whichever threads are woken by
signals, by broadcasts or spuriously.
-/

namespace KyrosWebServer.Base.ThreadPool

open TransitionSystem Condition BoundedFifo

variable {τ : Type} {W P : ℕ}

/-- The task that a move pushes. -/
def Label.pushed : Label τ W P → Option τ
  | .push _ t _ => some t
  | _ => none

/-- The task that a move takes. -/
def Label.taken : Label τ W P → Option τ
  | .take _ t _ => t
  | _ => none

/-- The queue event of a move. -/
def Label.event (a : Label τ W P) : Option (Event τ) :=
  match a.pushed, a.taken with
  | some t, _ => some (.enqueued [t])
  | none, some t => some (.dequeued [t])
  | none, none => none

/-- A move pushes one task, takes one task, or shows no event. -/
theorem Label.event_cases (a : Label τ W P) :
    (∃ t, a.event = some (.enqueued [t]) ∧ a.pushed = some t ∧ a.taken = none) ∨
    (∃ t, a.event = some (.dequeued [t]) ∧ a.pushed = none ∧ a.taken = some t) ∨
    (a.event = none ∧ a.pushed = none ∧ a.taken = none) := by
  cases a with
  | push p t who => exact .inl ⟨t, rfl, rfl, rfl⟩
  | take i t who =>
    cases t with
    | some t => exact .inr (.inl ⟨t, rfl, rfl, rfl⟩)
    | none => exact .inr (.inr ⟨rfl, rfl, rfl⟩)
  | _ => exact .inr (.inr ⟨rfl, rfl, rfl⟩)

/-- What entered and what left, according to the labels of a run. -/
theorem event_tasks (as : List (Label τ W P)) :
    (as.filterMap Label.event).flatMap Event.entered = as.filterMap Label.pushed ∧
    (as.filterMap Label.event).flatMap Event.left = as.filterMap Label.taken := by
  induction as with
  | nil => exact ⟨rfl, rfl⟩
  | cons a as ih =>
    obtain ⟨hin, hout⟩ := ih
    rcases a.event_cases with ⟨t, he, hp, ht⟩ | ⟨t, he, hp, ht⟩ | ⟨he, hp, ht⟩ <;>
      simp [he, hp, ht, hin, hout, Event.entered, Event.left]

/-- A move of the pool is the event of its label on the queue. -/
theorem Step.queue {qSize : ℕ} {s s' : ThreadPool τ W P} {a : Label τ W P}
    (h : Step qSize s a s') :
    s'.mTasks = s.mTasks ++ a.pushed.toList ∧ a.taken = none ∧
        (a.pushed ≠ none → s.mTasks.length < qSize) ∨
      s.mTasks = a.taken.toList ++ s'.mTasks ∧ a.pushed = none ∧ s.mTasks ≠ [] := by
  cases h with
  | take hi hfree htake hpost =>
    obtain ⟨hne, hqueue, -, -⟩ := take_eq_some htake
    exact .inr ⟨hqueue, rfl, hne⟩
  | push hp hfree hcalls hadd hpost =>
    obtain ⟨hroom, hqueue, -⟩ := addTask_eq_some hadd
    exact .inl ⟨hqueue, rfl, fun _ => hroom⟩
  | _ => exact .inl ⟨(List.append_nil _).symm, rfl, fun h => absurd rfl h⟩

/-- The pool is simulated by the bounded queue that holds the same tasks. -/
theorem fifo_simulation (W qSize : ℕ) (calls : Fin P → List τ) :
    System.Simulation (system W qSize calls) (fifo τ qSize) Label.event
      (fun s q => s.mTasks = q.items) where
  start := by
    rintro s rfl
    exact ⟨BoundedQueue.empty, rfl, rfl⟩
  silent := by
    intro s a s' q hs hstep hnone
    have hqueue := Step.queue hstep
    rcases a.event_cases with ⟨t, he, -, -⟩ | ⟨t, he, -, -⟩ | ⟨-, hp, ht⟩
    · rw [he] at hnone
      cases hnone
    · rw [he] at hnone
      cases hnone
    · rw [hp, ht] at hqueue
      rcases hqueue with ⟨h, -⟩ | ⟨h, -⟩
      · rw [h, ← hs]
        exact List.append_nil _
      · rw [← hs, h]
        rfl
  visible := by
    intro s a s' q e hs hstep hsome
    have hqueue := Step.queue hstep
    rcases a.event_cases with ⟨t, he, hp, ht⟩ | ⟨t, he, hp, ht⟩ | ⟨he, -, -⟩
    · rw [he] at hsome
      cases hsome
      rw [hp, ht] at hqueue
      rcases hqueue with ⟨h, -, hroom⟩ | ⟨-, h, -⟩
      · have hlt := hroom nofun
        rw [hs] at hlt h
        obtain ⟨r, hr, hitems⟩ := BoundedQueue.enqueue_of_room (q := q) [t]
          (by simp; omega)
        exact ⟨r, hr, by rw [h, hitems]; rfl⟩
      · cases h
    · rw [he] at hsome
      cases hsome
      rw [hp, ht] at hqueue
      rcases hqueue with ⟨-, h, -⟩ | ⟨h, -, -⟩
      · cases h
      · have hlen := q.bounded
        rw [hs] at h
        rw [h, List.length_append] at hlen
        exact ⟨⟨s'.mTasks, by omega⟩, h, rfl⟩
    · rw [he] at hsome
      cases hsome

/-- In every run the tasks taken so far, followed by the queue, are the tasks
pushed so far in the order of their pushes; the queue holds at most `qSize`
tasks, and no worker takes from an empty queue. -/
theorem run_fifo {qSize : ℕ} {calls : Fin P → List τ} {as : List (Label τ W P)}
    {s : ThreadPool τ W P} (h : (system W qSize calls).Run (started calls) as s) :
    as.filterMap Label.taken ++ s.mTasks = as.filterMap Label.pushed ∧
    s.mTasks.length ≤ qSize ∧
    ∀ i t who s', Step qSize s (.take i t who) s' → s.mTasks ≠ [] := by
  have hstart : (started (W := W) calls).mTasks = (BoundedQueue.empty : BoundedQueue τ qSize).items :=
    rfl
  obtain ⟨q, hrun, hq⟩ := (fifo_simulation W qSize calls).run h hstart
  have hist := history hrun
  obtain ⟨hin, hout⟩ := event_tasks as
  rw [hin, hout, ← hq] at hist
  refine ⟨hist, ?_, ?_⟩
  · rw [hq]
    exact q.bounded
  · intro i t who s' hstep
    cases hstep with
    | take hi hfree htake hpost => exact (take_eq_some htake).1

/-- A producer adds two tasks, and a worker takes the first. -/
theorem run_fifo_sample : ∃ (s : ThreadPool ℕ 1 1) (as : List (Label ℕ 1 1)),
    as.filterMap Label.pushed = [5, 6] ∧ s.mTasks = [6] ∧
      as.filterMap Label.taken ++ s.mTasks = [5, 6] ∧ s.mTasks.length ≤ 2 ∧
        ∀ i t who s', Step 2 s (.take i t who) s' → s.mTasks ≠ [] := by
  have hstart : (system 1 2 fun _ : Fin 1 => [5, 6]).Run (started fun _ => [5, 6]) [] _ := .nil
  have hcall := hstart.snoc (.call (p := 0) rfl (List.cons_ne_nil _ _))
  have hpush := hcall.snoc (.push (p := 0) (.inl rfl) (mutexFree rfl) rfl rfl (.idle (by decide)))
  have hcall₂ := hpush.snoc (.call (p := 0) rfl (List.cons_ne_nil _ _))
  have hpush₂ := hcall₂.snoc (.push (p := 0) (.inl rfl) (mutexFree rfl) rfl rfl (.idle (by decide)))
  have htest := hpush₂.snoc (.test (i := 0) rfl)
  have htake := htest.snoc (.take (i := 0) (.inl rfl) (mutexFree rfl) rfl (.idle (by decide)))
  exact ⟨_, _, rfl, rfl, run_fifo htake⟩

end KyrosWebServer.Base.ThreadPool
