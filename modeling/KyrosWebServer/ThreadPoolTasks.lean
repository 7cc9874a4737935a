import KyrosWebServer.ThreadPool
import Mathlib.Algebra.BigOperators.Group.Finset.Piecewise
import Mathlib.Algebra.Order.BigOperators.Group.Finset
import Mathlib.Algebra.Order.BigOperators.Group.List
import Mathlib.Algebra.Ring.Nat

/-!
# Conservation of tasks

The pool neither makes, loses nor copies tasks: give every task a weight, and
the weight of the tasks still to be pushed, queued and running changes only
where a task returns. Users of the pool that hand something over with a task
know from this that it stays in one place. A pool with one producer is also seen
at work on a single task.
-/

namespace KyrosWebServer.Base.ThreadPool

open Condition

variable {τ : Type} {W P : ℕ}

/-- The weight of the task that a worker runs. -/
def weight (w : τ → ℕ) : WorkerAt τ → ℕ
  | .running t => w t
  | _ => 0

/-- The weight of all tasks of the pool. -/
def load (w : τ → ℕ) (s : ThreadPool τ W P) : ℕ :=
  ∑ p, ((s.calls p).map w).sum + (s.mTasks.map w).sum + ∑ i, weight w (s.workers i)

/-- The weight of the task that a move ends. -/
def ended (w : τ → ℕ) (s : ThreadPool τ W P) : Label τ W P → ℕ
  | .finish i => weight w (s.workers i)
  | _ => 0

/-- A task that no worker has taken. -/
def Pending (s : ThreadPool τ W P) (t : τ) : Prop := (∃ p, t ∈ s.calls p) ∨ t ∈ s.mTasks

/-- A task that has not returned. -/
def Has (s : ThreadPool τ W P) (t : τ) : Prop := s.Pending t ∨ ∃ i, s.workers i = .running t

/-- A producer is given one more task to push. -/
def request (s : ThreadPool τ W P) (p : Fin P) (t : τ) : ThreadPool τ W P :=
  { s with calls := Function.update s.calls p (s.calls p ++ [t]) }

@[simp] theorem weight_wake (w : τ → ℕ) (a : WorkerAt τ) : weight w a.wake = weight w a := by
  cases a <;> rfl

@[simp] theorem weight_after (w : τ → ℕ) (t : Option τ) :
    weight w (.after t) = (t.toList.map w).sum := by
  cases t <;> simp [WorkerAt.after, weight]

/-- Moving one worker changes the sum by what it runs before and after. -/
theorem sum_update_worker (w : τ → ℕ) (workers : Fin W → WorkerAt τ) (i : Fin W) (a : WorkerAt τ) :
    ∑ j, weight w (Function.update workers i a j) + weight w (workers i) =
      ∑ j, weight w (workers j) + weight w a :=
  sum_update (fun _ => weight w) workers i a

/-- Changing the calls of one producer changes the sum by the calls of that producer. -/
theorem sum_update_calls (w : τ → ℕ) (calls : Fin P → List τ) (p : Fin P) (ts : List τ) :
    ∑ j, ((Function.update calls p ts j).map w).sum + ((calls p).map w).sum =
      ∑ j, ((calls j).map w).sum + (ts.map w).sum :=
  sum_update (fun _ us => (us.map w).sum) calls p ts

/-- A worker that runs nothing before or after its move leaves the load as it is. -/
theorem load_setWorker (w : τ → ℕ) (s : ThreadPool τ W P) (i : Fin W) (a : WorkerAt τ) :
    (s.setWorker i a).load w + weight w (s.workers i) = s.load w + weight w a := by
  have h := sum_update_worker w s.workers i a
  unfold load setWorker
  dsimp only
  omega

/-- The requested task adds its weight. -/
theorem load_request (w : τ → ℕ) (s : ThreadPool τ W P) (p : Fin P) (t : τ) :
    (s.request p t).load w = s.load w + w t := by
  have h := sum_update_calls w s.calls p (s.calls p ++ [t])
  rw [List.map_append, List.sum_append, List.map_singleton, List.sum_singleton] at h
  unfold load request
  dsimp only
  omega

/-- What is pending after a request was pending before or is the new task. -/
theorem pending_of_request {s : ThreadPool τ W P} {p : Fin P} {t u : τ}
    (h : (s.request p t).Pending u) : s.Pending u ∨ u = t := by
  rcases h with ⟨q, hq⟩ | h
  · unfold request at hq
    dsimp only at hq
    by_cases hqp : q = p
    · subst hqp
      rw [Function.update_self] at hq
      rcases List.mem_append.mp hq with hq | hq
      · exact .inl (.inl ⟨q, hq⟩)
      · exact .inr (List.mem_singleton.mp hq)
    · rw [Function.update_of_ne hqp] at hq
      exact .inl (.inl ⟨q, hq⟩)
  · exact .inl (.inr h)

/-- What is in the pool after a request was there before or is the new task. -/
theorem has_of_request {s : ThreadPool τ W P} {p : Fin P} {t u : τ} (h : (s.request p t).Has u) :
    s.Has u ∨ u = t := by
  rcases h with h | h
  · rcases pending_of_request h with h | h
    · exact .inl (.inl h)
    · exact .inr h
  · exact .inl (.inr h)

/-- A request leaves the other tasks where they are. -/
theorem Has.request {s : ThreadPool τ W P} {t : τ} (h : s.Has t) (p : Fin P) (u : τ) :
    (s.request p u).Has t := by
  rcases h with (⟨q, hq⟩ | h) | h
  · refine .inl (.inl ⟨q, ?_⟩)
    unfold ThreadPool.request
    dsimp only
    by_cases hqp : q = p
    · subst hqp
      rw [Function.update_self]
      exact List.mem_append_left _ hq
    · rwa [Function.update_of_ne hqp]
  · exact .inl (.inr h)
  · exact .inr h

/-- A signal to the workers moves no task. -/
theorem sum_postIf (w : τ → ℕ) {workers workers' : Fin W → WorkerAt τ} {post : Bool}
    {who : Option (Fin W)} (h : PostIf post .waiting .woken workers who workers') :
    ∑ i, weight w (workers' i) = ∑ i, weight w (workers i) := by
  rcases h.cases with rfl | ⟨j, hj, rfl⟩
  · rfl
  · have hsum := sum_update_worker w workers j .woken
    rw [hj] at hsum
    exact hsum

/-- What a worker runs after a signal it ran before. -/
theorem running_of_postIf {workers workers' : Fin W → WorkerAt τ} {post : Bool}
    {who : Option (Fin W)} (h : PostIf post .waiting .woken workers who workers') {i : Fin W} {t : τ}
    (hi : workers' i = .running t) : workers i = .running t := by
  rcases h.cases with rfl | ⟨j, -, rfl⟩
  · exact hi
  · by_cases hij : i = j
    · subst hij
      rw [Function.update_self] at hi
      cases hi
    · rwa [Function.update_of_ne hij] at hi

/-- No move but the return of a task changes the load. -/
theorem Step.load (w : τ → ℕ) {qSize : ℕ} {s s' : ThreadPool τ W P} {a : Label τ W P}
    (h : Step qSize s a s') : s.load w = s'.load w + ended w s a := by
  cases h with
  | @test i hi =>
    have hload := load_setWorker w s i (if s.isRunning then .locking else .exited)
    rw [hi] at hload
    have hnone : weight w (if s.isRunning then WorkerAt.locking else .exited : WorkerAt τ) = 0 := by
      split <;> rfl
    rw [hnone] at hload
    exact hload.symm
  | @takeWait i hi hfree htake =>
    have hload := load_setWorker w s i .waiting
    have hnone : weight w (s.workers i) = 0 := by
      rcases hi with hi | hi <;> rw [hi] <;> rfl
    rw [hnone] at hload
    exact hload.symm
  | @take i t rest post who producers hi hfree htake hpost =>
    obtain ⟨-, hqueue, -, -⟩ := take_eq_some htake
    have hsum := sum_update_worker w s.workers i (.after t)
    have hnone : weight w (s.workers i) = 0 := by
      rcases hi with hi | hi <;> rw [hi] <;> rfl
    rw [hnone, weight_after] at hsum
    unfold ThreadPool.load ended
    dsimp only
    rw [hqueue, List.map_append, List.sum_append]
    omega
  | @finish i t hi =>
    have hload := load_setWorker w s i .loopTest
    exact hload.symm
  | call hp hcalls => rfl
  | addWait hp hfree hcalls hadd => rfl
  | @push p t calls mTasks post who workers hp hfree hcalls hadd hpost =>
    obtain ⟨-, rfl, -⟩ := addTask_eq_some hadd
    have hworkers := sum_postIf w hpost
    have hsum := sum_update_calls w s.calls p calls
    rw [hcalls, List.map_cons, List.sum_cons] at hsum
    unfold ThreadPool.load ended
    dsimp only
    rw [hworkers, List.map_append, List.sum_append, List.map_singleton, List.sum_singleton]
    omega
  | stopCall h => rfl
  | stopLock h =>
    unfold ThreadPool.load ended
    simp
  | join h hexited => rfl
  | stopReturn h => rfl
  | @spuriousWorker i hi =>
    have hload := load_setWorker w s i .woken
    rw [hi] at hload
    exact hload.symm
  | spuriousProducer hp => rfl

/-- Tasks become pending only outside the pool. -/
theorem Step.pending {qSize : ℕ} {s s' : ThreadPool τ W P} {a : Label τ W P} (h : Step qSize s a s')
    {t : τ} (ht : s'.Pending t) : s.Pending t := by
  cases h with
  | take hi hfree htake hpost =>
    obtain ⟨-, hqueue, -, -⟩ := take_eq_some htake
    rcases ht with ht | ht
    · exact .inl ht
    · right
      rw [hqueue]
      exact List.mem_append_right _ ht
  | @push p u calls mTasks post who workers hp hfree hcalls hadd hpost =>
    obtain ⟨-, rfl, -⟩ := addTask_eq_some hadd
    have hhead : u ∈ s.calls p := by rw [hcalls]; exact List.mem_cons_self
    rcases ht with ⟨q, hq⟩ | ht
    · left
      refine ⟨q, ?_⟩
      by_cases hqp : q = p
      · subst hqp
        dsimp only at hq
        rw [Function.update_self] at hq
        rw [hcalls]
        exact List.mem_cons_of_mem _ hq
      · dsimp only at hq
        rwa [Function.update_of_ne hqp] at hq
    · rcases List.mem_append.mp ht with ht | ht
      · exact .inr ht
      · rw [List.mem_singleton] at ht
        rw [ht]
        exact .inl ⟨p, hhead⟩
  | _ => exact ht

/-- What a worker that has moved runs is pending or ran before. -/
theorem has_of_setWorker {s : ThreadPool τ W P} {i : Fin W} {a : WorkerAt τ} {t : τ}
    (ha : a ≠ .running t) (h : (s.setWorker i a).Has t) : s.Has t := by
  rcases h with h | ⟨j, hj⟩
  · exact .inl h
  · right
    by_cases hij : j = i
    · subst hij
      rw [setWorker_self] at hj
      exact absurd hj ha
    · rw [setWorker_of_ne a hij] at hj
      exact ⟨j, hj⟩

/-- No move makes a task. -/
theorem Step.has {qSize : ℕ} {s s' : ThreadPool τ W P} {a : Label τ W P} (h : Step qSize s a s')
    {t : τ} (ht : s'.Has t) : s.Has t := by
  rcases ht with ht | hrun
  · exact .inl (h.pending ht)
  cases h with
  | @test i hi =>
    refine has_of_setWorker ?_ (.inr hrun)
    split <;> exact nofun
  | takeWait hi hfree htake => exact has_of_setWorker (by exact nofun) (.inr hrun)
  | @take i u rest post who producers hi hfree htake hpost =>
    obtain ⟨-, hqueue, -, -⟩ := take_eq_some htake
    obtain ⟨j, hj⟩ := hrun
    dsimp only at hj
    by_cases hji : j = i
    · subst hji
      rw [Function.update_self] at hj
      left
      right
      cases u with
      | none => cases hj
      | some u =>
        cases hj
        rw [hqueue]
        exact List.mem_append_left _ List.mem_cons_self
    · rw [Function.update_of_ne hji] at hj
      exact .inr ⟨j, hj⟩
  | finish hi => exact has_of_setWorker (by exact nofun) (.inr hrun)
  | push hp hfree hcalls hadd hpost =>
    obtain ⟨j, hj⟩ := hrun
    exact .inr ⟨j, running_of_postIf hpost hj⟩
  | stopLock h =>
    obtain ⟨j, hj⟩ := hrun
    dsimp only at hj
    right
    refine ⟨j, ?_⟩
    cases hw : s.workers j with
    | running u =>
      rw [hw] at hj
      exact hj
    | _ =>
      rw [hw] at hj
      cases hj
  | spuriousWorker hi => exact has_of_setWorker (by exact nofun) (.inr hrun)
  | _ => exact .inr hrun

/-- Every task in the pool counts. -/
theorem Has.weight_le {s : ThreadPool τ W P} {t : τ} (h : s.Has t) (w : τ → ℕ) : w t ≤ s.load w := by
  unfold ThreadPool.load
  rcases h with (⟨p, hp⟩ | ht) | ⟨i, hi⟩
  · have hcall : w t ≤ ((s.calls p).map w).sum :=
      List.single_le_sum (fun _ _ => Nat.zero_le _) _ (List.mem_map_of_mem hp)
    have hsum : ((s.calls p).map w).sum ≤ ∑ q, ((s.calls q).map w).sum :=
      Finset.single_le_sum (fun q _ => Nat.zero_le ((s.calls q).map w).sum) (Finset.mem_univ p)
    omega
  · have hsum : w t ≤ (s.mTasks.map w).sum :=
      List.single_le_sum (fun _ _ => Nat.zero_le _) _ (List.mem_map_of_mem ht)
    omega
  · have hsum : weight w (s.workers i) ≤ ∑ j, weight w (s.workers j) :=
      Finset.single_le_sum (fun j _ => Nat.zero_le (weight w (s.workers j))) (Finset.mem_univ i)
    rw [hi] at hsum
    change w t ≤ _ at hsum
    omega

/-- The load is additive in the weight. -/
theorem load_add (w w' : τ → ℕ) (s : ThreadPool τ W P) :
    s.load (fun t => w t + w' t) = s.load w + s.load w' := by
  have hweight : ∀ a : WorkerAt τ, weight (fun t => w t + w' t) a = weight w a + weight w' a := by
    intro a
    cases a <;> rfl
  unfold ThreadPool.load
  simp only [hweight, List.sum_map_add, Finset.sum_add_distrib]
  omega

/-- Different tasks in the pool count separately. -/
theorem Has.weight_add_le {s : ThreadPool τ W P} {t u : τ} (ht : s.Has t) (hu : s.Has u)
    (hne : u ≠ t) (w : τ → ℕ) : w t + w u ≤ s.load w := by
  classical
  have hsplit : s.load w = s.load (fun v => if v = t then w v else 0) +
      s.load (fun v => if v = t then 0 else w v) := by
    rw [← load_add]
    congr 1
    funext v
    split <;> omega
  have hfirst := ht.weight_le fun v => if v = t then w v else 0
  have hsecond := hu.weight_le fun v => if v = t then 0 else w v
  rw [if_pos rfl] at hfirst
  rw [if_neg hne] at hsecond
  omega

/-- Elements of weight at least one are outweighed by the whole list. -/
theorem length_filter_le_sum {w : τ → ℕ} {p : τ → Bool} {ts : List τ}
    (h : ∀ t ∈ ts, p t = true → 1 ≤ w t) : (ts.filter p).length ≤ (ts.map w).sum := by
  induction ts with
  | nil => exact Nat.le_refl 0
  | cons t ts ih =>
    have hrest := ih fun u hu => h u (List.mem_cons_of_mem _ hu)
    rw [List.filter_cons, List.map_cons, List.sum_cons]
    split
    · next ht =>
      have hhead := h t List.mem_cons_self ht
      rw [List.length_cons]
      omega
    · omega

/-- Queued and running tasks of weight at least one are outweighed by the load. -/
theorem count_le_load {w : τ → ℕ} {s : ThreadPool τ W P} {p : τ → Bool} {q : Fin W → Bool}
    (hp : ∀ t ∈ s.mTasks, p t = true → 1 ≤ w t)
    (hq : ∀ i, q i = true → 1 ≤ weight w (s.workers i)) :
    (s.mTasks.filter p).length + (Finset.univ.filter fun i => q i = true).card ≤ s.load w := by
  have hqueue := length_filter_le_sum hp
  have hworkers : (Finset.univ.filter fun i => q i = true).card ≤ ∑ i, weight w (s.workers i) := by
    rw [Finset.card_filter]
    apply Finset.sum_le_sum
    intro i _
    split
    · next hi => exact hq i hi
    · exact Nat.zero_le _
  unfold ThreadPool.load
  omega

/-- A list of zeros has the sum zero. -/
theorem sum_map_eq_zero {w : τ → ℕ} {ts : List τ} (h : ∀ t ∈ ts, w t = 0) : (ts.map w).sum = 0 := by
  rw [List.sum_eq_zero_iff]
  intro n hn
  obtain ⟨t, ht, rfl⟩ := List.mem_map.mp hn
  exact h t ht

/-- A pool without tasks of some weight has no load. -/
theorem load_eq_zero (w : τ → ℕ) {s : ThreadPool τ W P} (h : ∀ t, s.Has t → w t = 0) :
    s.load w = 0 := by
  have hcalls : ∀ p, ((s.calls p).map w).sum = 0 := by
    intro p
    exact sum_map_eq_zero fun t ht => h t (.inl (.inl ⟨p, ht⟩))
  have hqueue : (s.mTasks.map w).sum = 0 := sum_map_eq_zero fun t ht => h t (.inl (.inr ht))
  have hworkers : ∀ i, weight w (s.workers i) = 0 := by
    intro i
    cases hi : s.workers i with
    | running t => exact h t (.inr ⟨i, hi⟩)
    | _ => rfl
  unfold ThreadPool.load
  simp [hcalls, hqueue, hworkers]

/-- A task stays in the pool until it returns. -/
theorem Step.has_kept {qSize : ℕ} {s s' : ThreadPool τ W P} {a : Label τ W P}
    (h : Step qSize s a s') {t : τ} (ht : s.Has t)
    (hrun : ∀ i, a = .finish i → s.workers i ≠ .running t) : s'.Has t := by
  classical
  by_contra hgone
  let w : τ → ℕ := fun u => if u = t then 1 else 0
  have hload := h.load w
  have hone : w t ≤ s.load w := ht.weight_le w
  have hzero : s'.load w = 0 := by
    refine load_eq_zero w fun u hu => if_neg ?_
    rintro rfl
    exact hgone hu
  have hended : ended w s a = 0 := by
    cases a with
    | finish i =>
      cases hi : s.workers i with
      | running u =>
        have hne : u ≠ t := by
          rintro rfl
          exact hrun i rfl hi
        simp [ended, hi, weight, w, hne]
      | _ => simp [ended, hi, weight]
    | _ => rfl
  have hwt : w t = 1 := if_pos rfl
  omega

/-- A pool that has not been stopped and whose producer waits for nothing. -/
def staged (mTasks : List τ) (workers : Fin W → WorkerAt τ) (producer : ProducerAt) (calls : List τ) :
    ThreadPool τ W 1 :=
  ⟨true, mTasks, workers, fun _ => producer, fun _ => calls, .notCalled⟩

/-- One worker runs a task, the others have not moved. -/
def running (i : Fin W) (t : τ) : ThreadPool τ W 1 :=
  staged [] (Function.update (fun _ => .loopTest) i (.running t)) .outside []

/-- There is one producer. -/
theorem update_one {β : Type} (f : Fin 1 → β) (p : Fin 1) (x : β) :
    Function.update f p x = fun _ => x := by
  funext q
  rw [Subsingleton.elim q p, Function.update_self]

/-- The loop calls `AddTask`. -/
theorem request_started (t : τ) : (started fun _ => [] : ThreadPool τ W 1).request 0 t =
    staged [] (fun _ => .loopTest) .outside [t] := by
  rw [request, update_one]
  rfl

/-- It enters `AddTask`. -/
theorem staged_call (qSize : ℕ) (w : Fin W → WorkerAt τ) (t : τ) :
    Step qSize (staged [] w .outside [t]) (.call 0) (staged [] w .locking [t]) := by
  have h := @Step.call τ W 1 qSize (staged [] w .outside [t]) 0 rfl (List.cons_ne_nil _ _)
  rw [setProducer, update_one] at h
  exact h

/-- The task is queued; no worker waits for it yet. -/
theorem staged_push {qSize : ℕ} (hq : 0 < qSize) {w : Fin W → WorkerAt τ} (hw : ∀ j, w j ≠ .waiting)
    (t : τ) : Step qSize (staged [] w .locking [t]) (.push 0 t none) (staged [t] w .outside []) := by
  have hadd : addTask qSize ([] : List τ) t = some ([t], true) := if_neg (Nat.not_le.mpr hq)
  have h := @Step.push τ W 1 qSize (staged [] w .locking [t]) 0 t [] _ _ none w (.inl rfl)
    (mutexFree rfl) rfl hadd (Condition.PostIf.idle hw)
  rw [update_one, update_one] at h
  exact h

/-- A worker takes it. -/
theorem staged_take (qSize : ℕ) {w : Fin W → WorkerAt τ} {i : Fin W} (hi : w i = .locking) (t : τ) :
    Step qSize (staged [t] w .outside []) (.take i (some t) none)
      (staged [] (Function.update w i (.running t)) .outside []) := by
  have hfree : (staged [t] w .outside []).MutexFree := mutexFree rfl
  exact .take (.inl hi) hfree rfl (Condition.PostIf.idle fun _ => ProducerAt.noConfusion)

theorem running_self (i : Fin W) (t : τ) : (running i t).workers i = .running t := by
  change Function.update (fun _ => WorkerAt.loopTest) i (.running t) i = _
  rw [Function.update_self]

theorem running_setWorker (i : Fin W) (t u : τ) :
    (running i t).setWorker i (.running u) = running i u := by
  rw [setWorker, running, running, staged, staged, Function.update_idem]

/-- When its task returns, the pool is as after its start. -/
theorem running_finish (qSize : ℕ) (i : Fin W) (t : τ) :
    Step qSize (running i t) (.finish i) (started fun _ => []) := by
  have hback : (running i t).setWorker i .loopTest = started fun _ => [] := by
    rw [setWorker, running, staged, Function.update_idem, started,
      Function.update_eq_self_iff.mpr rfl]
  rw [← hback]
  exact .finish (running_self i t)

end KyrosWebServer.Base.ThreadPool
