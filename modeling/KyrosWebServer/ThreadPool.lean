import KyrosWebServer.Condition
import KyrosWebServer.TransitionSystem

/-!
# The thread pool

`ThreadPool` from base/ThreadPool as a transition system over the places where
its threads can stand. What a thread does between locking and releasing
`mMutex` is one move; `Condition::wait` ends such a move and starts another.
Workers are there from `Start` on. Producers are the threads that call
`AddTask`; each has a list of calls, the first of which is the one it is in.
-/

namespace KyrosWebServer.Base

open TransitionSystem Condition

/-- Where a worker stands in `runInThread` and `take`. -/
inductive WorkerAt (τ : Type)
  /-- At the loop condition `isRunning`. -/
  | loopTest
  /-- Before the lock in `take`. -/
  | locking
  /-- In `isEmpty.wait()`, not woken. -/
  | waiting
  /-- In `isEmpty.wait()`, woken, without the mutex. -/
  | woken
  /-- Inside the task `t()`. -/
  | running (t : τ)
  /-- Behind the loop. -/
  | exited
  deriving DecidableEq

/-- Where a producer stands in `AddTask`. -/
inductive ProducerAt
  /-- Not in `AddTask`. -/
  | outside
  /-- Before the lock. -/
  | locking
  /-- In `isFull.wait()`, not woken. -/
  | waiting
  /-- In `isFull.wait()`, woken, without the mutex. -/
  | woken
  deriving DecidableEq

/-- Where the thread that calls `Stop` stands. -/
inductive StopAt
  | notCalled
  /-- Before the lock. -/
  | locking
  /-- In `join` of a worker, with the mutex. -/
  | joining (i : ℕ)
  | returned
  deriving DecidableEq

/-- The pool and its threads. -/
structure ThreadPool (τ : Type) (W P : ℕ) where
  /-- Cleared by `Stop`. -/
  isRunning : Bool
  /-- The queue. -/
  mTasks : List τ
  /-- The threads in `mThreads`. -/
  workers : Fin W → WorkerAt τ
  /-- The threads that add tasks. -/
  producers : Fin P → ProducerAt
  /-- Tasks each producer has still to push. -/
  calls : Fin P → List τ
  /-- Progress of `Stop`. -/
  stop : StopAt

variable {τ : Type} {W P : ℕ}

/-- `pthread_cond_broadcast` on `isEmpty`. -/
def WorkerAt.wake : WorkerAt τ → WorkerAt τ
  | waiting => woken
  | w => w

/-- `pthread_cond_broadcast` on `isFull`. -/
def ProducerAt.wake : ProducerAt → ProducerAt
  | waiting => woken
  | p => p

/-- `AddTask` with the mutex: `none` waits on `isFull`, otherwise the queue
and whether `isEmpty.post()` is called. -/
def addTask (qSize : ℕ) (mTasks : List τ) (t : τ) : Option (List τ × Bool) :=
  if mTasks.length ≥ qSize then none
  else some (mTasks ++ [t], (mTasks ++ [t]).length = 1)

/-- `take` with the mutex: `none` waits on `isEmpty`, otherwise the task, the
queue and whether `isFull.post()` is called. -/
def take (qSize : ℕ) (isRunning : Bool) (mTasks : List τ) : Option (Option τ × List τ × Bool) :=
  match mTasks with
  | [] => none
  | front :: rest =>
    if isRunning then some (some front, rest, (rest.length : ℤ) = qSize - 1)
    else some (none, front :: rest, ((front :: rest).length : ℤ) = qSize - 1)

/-- Where a worker goes with what `take` returned: an empty task is not called. -/
def WorkerAt.after : Option τ → WorkerAt τ
  | some t => running t
  | none => loopTest

namespace ThreadPool

/-- Moves of the pool, with the thread that makes them, the task handed over
and the thread that a signal wakes. -/
inductive Label (τ : Type) (W P : ℕ)
  | test (i : Fin W)
  | takeWait (i : Fin W)
  | take (i : Fin W) (t : Option τ) (who : Option (Fin P))
  | finish (i : Fin W)
  | call (p : Fin P)
  | addWait (p : Fin P)
  | push (p : Fin P) (t : τ) (who : Option (Fin W))
  | stopCall
  | stopLock
  | join
  | stopReturn
  | spuriousWorker (i : Fin W)
  | spuriousProducer (p : Fin P)

/-- `Stop` keeps the mutex while it joins; all other owners release it within
their move. -/
def MutexFree (s : ThreadPool τ W P) : Prop := ∀ i, s.stop ≠ .joining i

/-- A worker that needs the mutex to go on in `take`. -/
def WantsTake (s : ThreadPool τ W P) (i : Fin W) : Prop :=
  s.workers i = .locking ∨ s.workers i = .woken

/-- A producer that needs the mutex to go on in `AddTask`. -/
def WantsAdd (s : ThreadPool τ W P) (p : Fin P) : Prop :=
  s.producers p = .locking ∨ s.producers p = .woken

/-- The worker moves to another place. -/
def setWorker (s : ThreadPool τ W P) (i : Fin W) (w : WorkerAt τ) : ThreadPool τ W P :=
  { s with workers := Function.update s.workers i w }

/-- The producer moves to another place. -/
def setProducer (s : ThreadPool τ W P) (p : Fin P) (a : ProducerAt) : ThreadPool τ W P :=
  { s with producers := Function.update s.producers p a }

@[simp] theorem setWorker_self (s : ThreadPool τ W P) (i : Fin W) (w : WorkerAt τ) :
    (s.setWorker i w).workers i = w := by
  simp [setWorker]

theorem setWorker_of_ne {s : ThreadPool τ W P} {i j : Fin W} (w : WorkerAt τ) (h : j ≠ i) :
    (s.setWorker i w).workers j = s.workers j := by
  simp [setWorker, h]

@[simp] theorem setProducer_self (s : ThreadPool τ W P) (p : Fin P) (a : ProducerAt) :
    (s.setProducer p a).producers p = a := by
  simp [setProducer]

theorem setProducer_of_ne {s : ThreadPool τ W P} {p j : Fin P} (a : ProducerAt) (h : j ≠ p) :
    (s.setProducer p a).producers j = s.producers j := by
  simp [setProducer, h]

/-- The mutex is free as long as `Stop` is not called. -/
theorem mutexFree {s : ThreadPool τ W P} (h : s.stop = .notCalled) : s.MutexFree := by
  intro i hi
  rw [h] at hi
  cases hi

/-- One move of one thread. -/
inductive Step (qSize : ℕ) : ThreadPool τ W P → Label τ W P → ThreadPool τ W P → Prop
  /-- `while(isRunning)`. -/
  | test {s : ThreadPool τ W P} {i : Fin W} (h : s.workers i = .loopTest) :
      Step qSize s (.test i) (s.setWorker i (if s.isRunning then .locking else .exited))
  /-- `take` finds the queue empty. -/
  | takeWait {s : ThreadPool τ W P} {i : Fin W} (h : s.WantsTake i) (hfree : s.MutexFree)
      (htake : Base.take qSize s.isRunning s.mTasks = none) :
      Step qSize s (.takeWait i) (s.setWorker i .waiting)
  /-- `take` returns. -/
  | take {s : ThreadPool τ W P} {i : Fin W} {t : Option τ} {rest : List τ} {post : Bool}
      {who : Option (Fin P)} {producers : Fin P → ProducerAt} (h : s.WantsTake i)
      (hfree : s.MutexFree) (htake : Base.take qSize s.isRunning s.mTasks = some (t, rest, post))
      (hpost : PostIf post .waiting .woken s.producers who producers) :
      Step qSize s (.take i t who)
        { s with mTasks := rest, workers := Function.update s.workers i (.after t),
                 producers := producers }
  /-- The task returns. -/
  | finish {s : ThreadPool τ W P} {i : Fin W} {t : τ} (h : s.workers i = .running t) :
      Step qSize s (.finish i) (s.setWorker i .loopTest)
  /-- A producer calls `AddTask`. -/
  | call {s : ThreadPool τ W P} {p : Fin P} (h : s.producers p = .outside)
      (hcalls : s.calls p ≠ []) : Step qSize s (.call p) (s.setProducer p .locking)
  /-- `AddTask` finds the queue full. -/
  | addWait {s : ThreadPool τ W P} {p : Fin P} {t : τ} {calls : List τ} (h : s.WantsAdd p)
      (hfree : s.MutexFree) (hcalls : s.calls p = t :: calls)
      (hadd : addTask qSize s.mTasks t = none) :
      Step qSize s (.addWait p) (s.setProducer p .waiting)
  /-- `AddTask` returns. -/
  | push {s : ThreadPool τ W P} {p : Fin P} {t : τ} {calls mTasks : List τ} {post : Bool}
      {who : Option (Fin W)} {workers : Fin W → WorkerAt τ} (h : s.WantsAdd p)
      (hfree : s.MutexFree) (hcalls : s.calls p = t :: calls)
      (hadd : addTask qSize s.mTasks t = some (mTasks, post))
      (hpost : PostIf post .waiting .woken s.workers who workers) :
      Step qSize s (.push p t who)
        { s with mTasks := mTasks, producers := Function.update s.producers p .outside,
                 calls := Function.update s.calls p calls, workers := workers }
  /-- A thread calls `Stop`. -/
  | stopCall {s : ThreadPool τ W P} (h : s.stop = .notCalled) :
      Step qSize s .stopCall { s with stop := .locking }
  /-- `Stop` up to the first `join`. -/
  | stopLock {s : ThreadPool τ W P} (h : s.stop = .locking) :
      Step qSize s .stopLock
        { s with isRunning := false, producers := fun p => (s.producers p).wake,
                 workers := fun i => (s.workers i).wake, stop := .joining 0 }
  /-- `join` returns when its thread has ended. -/
  | join {s : ThreadPool τ W P} {i : Fin W} (h : s.stop = .joining i)
      (hexited : s.workers i = .exited) :
      Step qSize s .join { s with stop := .joining (i + 1) }
  /-- The last `join` has returned. -/
  | stopReturn {s : ThreadPool τ W P} (h : s.stop = .joining W) :
      Step qSize s .stopReturn { s with stop := .returned }
  /-- `pthread_cond_wait` returns without a signal. -/
  | spuriousWorker {s : ThreadPool τ W P} {i : Fin W} (h : s.workers i = .waiting) :
      Step qSize s (.spuriousWorker i) (s.setWorker i .woken)
  | spuriousProducer {s : ThreadPool τ W P} {p : Fin P} (h : s.producers p = .waiting) :
      Step qSize s (.spuriousProducer p) (s.setProducer p .woken)

/-- The pool behind `Start`, with the calls that its producers are going to make. -/
def started (calls : Fin P → List τ) : ThreadPool τ W P where
  isRunning := true
  mTasks := []
  workers _ := .loopTest
  producers _ := .outside
  calls := calls
  stop := .notCalled

/-- All runs of a started pool. -/
def system (W qSize : ℕ) (calls : Fin P → List τ) : System (ThreadPool τ W P) (Label τ W P) where
  start s := s = started calls
  step := Step qSize

/-- What holds in every state of every run. -/
structure Inv (qSize : ℕ) (s : ThreadPool τ W P) : Prop where
  /-- The queue is bounded. -/
  bounded : s.mTasks.length ≤ qSize
  /-- Tasks are never left to workers that all wait. -/
  awake : 0 < W → s.mTasks ≠ [] → ∃ i, s.workers i ≠ .waiting
  /-- A producer inside `AddTask` has a task to push. -/
  calling : ∀ p, s.producers p ≠ .outside → s.calls p ≠ []
  /-- `isRunning` holds until `Stop` has the mutex. -/
  running : s.isRunning = true ↔ s.stop = .notCalled ∨ s.stop = .locking
  /-- Workers leave the loop only after that. -/
  alive : s.isRunning = true → ∀ i, s.workers i ≠ .exited

theorem addTask_eq_some {qSize : ℕ} {mTasks mTasks' : List τ} {t : τ} {post : Bool}
    (h : addTask qSize mTasks t = some (mTasks', post)) :
    mTasks.length < qSize ∧ mTasks' = mTasks ++ [t] ∧ (post = true ↔ mTasks = []) := by
  unfold addTask at h
  split at h
  · cases h
  · cases h
    refine ⟨by omega, rfl, ?_⟩
    simp

theorem addTask_eq_none {qSize : ℕ} {mTasks : List τ} {t : τ} :
    addTask qSize mTasks t = none ↔ qSize ≤ mTasks.length := by
  unfold addTask
  split <;> simp <;> omega

theorem take_eq_none {qSize : ℕ} {isRunning : Bool} {mTasks : List τ} :
    Base.take qSize isRunning mTasks = none ↔ mTasks = [] := by
  cases mTasks with
  | nil => simp [Base.take]
  | cons front rest =>
    simp only [Base.take]
    split <;> simp

theorem take_eq_some {qSize : ℕ} {isRunning post : Bool} {mTasks rest : List τ} {t : Option τ}
    (h : Base.take qSize isRunning mTasks = some (t, rest, post)) :
    mTasks ≠ [] ∧ mTasks = t.toList ++ rest ∧ (isRunning = true ↔ t ≠ none) ∧
      (post = true ↔ rest.length + 1 = qSize) := by
  cases mTasks with
  | nil => cases h
  | cons front rest' =>
    simp only [Base.take] at h
    split at h
    · cases h
      refine ⟨by simp, rfl, by simp [*], ?_⟩
      simp
      omega
    · cases h
      refine ⟨by simp, rfl, by simp [*], ?_⟩
      simp
      omega

theorem WorkerAt.after_ne (t : Option τ) :
    WorkerAt.after t ≠ .waiting ∧ WorkerAt.after t ≠ .exited := by
  cases t with
  | none => exact ⟨nofun, nofun⟩
  | some t => exact ⟨nofun, nofun⟩

theorem started_inv (qSize : ℕ) (calls : Fin P → List τ) :
    Inv qSize (started (W := W) calls) where
  bounded := Nat.zero_le _
  awake _ h := absurd rfl h
  calling p h := absurd rfl h
  running := by simp [started]
  alive _ i := by simp [started]

/-- The worker that moves to a place other than waiting keeps the tasks attended. -/
theorem update_awake (workers : Fin W → WorkerAt τ) (i : Fin W) {w : WorkerAt τ}
    (h : w ≠ .waiting) : ∃ j, Function.update workers i w j ≠ .waiting :=
  ⟨i, by rw [Function.update_self]; exact h⟩

theorem update_ne_exited {workers : Fin W → WorkerAt τ} (h : ∀ i, workers i ≠ .exited) (i : Fin W)
    (w : WorkerAt τ) (hw : w ≠ .exited) (j : Fin W) : Function.update workers i w j ≠ .exited := by
  by_cases hj : j = i
  · subst hj
    rw [Function.update_self]
    exact hw
  · rw [Function.update_of_ne hj]
    exact h j

theorem update_calling {producers : Fin P → ProducerAt} {calls : Fin P → List τ}
    (h : ∀ p, producers p ≠ .outside → calls p ≠ []) {p : Fin P} (hp : calls p ≠ [])
    (a : ProducerAt) (j : Fin P) (hj : Function.update producers p a j ≠ .outside) :
    calls j ≠ [] := by
  by_cases hjp : j = p
  · rw [hjp]
    exact hp
  · rw [Function.update_of_ne hjp] at hj
    exact h j hj

/-- Every move keeps the invariant. -/
theorem Step.inv {qSize : ℕ} {s s' : ThreadPool τ W P} {a : Label τ W P} (h : Step qSize s a s')
    (hs : Inv qSize s) : Inv qSize s' := by
  cases h with
  | @test i hi =>
    have hne : (if s.isRunning then WorkerAt.locking else .exited : WorkerAt τ) ≠ .waiting := by
      split <;> exact nofun
    refine ⟨hs.bounded, fun _ _ => update_awake s.workers i hne, hs.calling, hs.running, ?_⟩
    intro hrun j
    refine update_ne_exited (hs.alive hrun) i _ ?_ j
    have hrun' : s.isRunning = true := hrun
    rw [if_pos hrun']
    exact nofun
  | @takeWait i hi hfree htake =>
    have hempty := take_eq_none.mp htake
    refine ⟨hs.bounded, fun _ h => absurd hempty h, hs.calling, hs.running, ?_⟩
    intro hrun j
    exact update_ne_exited (hs.alive hrun) i .waiting nofun j
  | @take i t rest post who producers hi hfree htake hpost =>
    obtain ⟨-, hqueue, -, -⟩ := take_eq_some htake
    obtain ⟨hwait, hexit⟩ := WorkerAt.after_ne t
    refine ⟨?_, fun _ _ => update_awake s.workers i hwait, ?_, hs.running, ?_⟩
    · have hlen := hs.bounded
      rw [hqueue, List.length_append] at hlen
      dsimp only
      omega
    · intro p hp
      apply hs.calling
      intro hout
      have hstay := hpost.stays (j := p) (by rw [hout]; exact nofun)
      exact hp (hstay.trans hout)
    · intro hrun j
      exact update_ne_exited (hs.alive hrun) i _ hexit j
  | @finish i t hi =>
    refine ⟨hs.bounded, fun _ _ => update_awake s.workers i nofun, hs.calling, hs.running, ?_⟩
    intro hrun j
    exact update_ne_exited (hs.alive hrun) i .loopTest nofun j
  | @call p hp hcalls =>
    exact ⟨hs.bounded, hs.awake, update_calling hs.calling hcalls _, hs.running, hs.alive⟩
  | @addWait p t calls hp hfree hcalls hadd =>
    have hne : s.calls p ≠ [] := by simp [hcalls]
    exact ⟨hs.bounded, hs.awake, update_calling hs.calling hne _, hs.running, hs.alive⟩
  | @push p t calls mTasks post who workers hp hfree hcalls hadd hpost =>
    obtain ⟨hroom, rfl, hsignal⟩ := addTask_eq_some hadd
    refine ⟨?_, ?_, ?_, hs.running, ?_⟩
    · rw [List.length_append]
      exact hroom
    · intro hW _
      by_cases hempty : s.mTasks = []
      · rw [hsignal.mpr hempty] at hpost
        by_cases hwait : s.workers ⟨0, hW⟩ = .waiting
        · obtain ⟨k, -, rfl⟩ := hpost.wakes hwait
          exact update_awake s.workers k nofun
        · exact ⟨⟨0, hW⟩, fun h => hwait (hpost.waited h)⟩
      · obtain ⟨j, hj⟩ := hs.awake hW hempty
        exact ⟨j, fun h => hj (hpost.waited h)⟩
    · intro j hj
      by_cases hjp : j = p
      · subst hjp
        dsimp only at hj
        rw [Function.update_self] at hj
        exact absurd rfl hj
      · dsimp only at hj ⊢
        rw [Function.update_of_ne hjp] at hj ⊢
        exact hs.calling j hj
    · intro hrun j
      rcases hpost.cases with rfl | ⟨k, hk, rfl⟩
      · exact hs.alive hrun j
      · exact update_ne_exited (hs.alive hrun) k .woken nofun j
  | stopCall h =>
    refine ⟨hs.bounded, hs.awake, hs.calling, ?_, hs.alive⟩
    have hrun := hs.running
    simp [h] at hrun
    simp [hrun]
  | stopLock h =>
    refine ⟨hs.bounded, ?_, ?_, by simp, fun hrun => by cases hrun⟩
    · intro hW _
      exact ⟨⟨0, hW⟩, by dsimp only; cases s.workers ⟨0, hW⟩ <;> exact nofun⟩
    · intro p hp
      apply hs.calling p
      intro hout
      dsimp only at hp
      rw [hout] at hp
      exact hp rfl
  | @join i h hexited =>
    refine ⟨hs.bounded, hs.awake, hs.calling, ?_, hs.alive⟩
    have hrun := hs.running
    simpa [h] using hrun
  | stopReturn h =>
    refine ⟨hs.bounded, hs.awake, hs.calling, ?_, hs.alive⟩
    have hrun := hs.running
    simpa [h] using hrun
  | @spuriousWorker i hi =>
    refine ⟨hs.bounded, fun _ _ => update_awake s.workers i nofun, hs.calling, hs.running, ?_⟩
    intro hrun j
    exact update_ne_exited (hs.alive hrun) i .woken nofun j
  | @spuriousProducer p hp =>
    have hne : s.calls p ≠ [] := hs.calling p (by rw [hp]; exact nofun)
    exact ⟨hs.bounded, hs.awake, update_calling hs.calling hne _, hs.running, hs.alive⟩

/-- The invariant holds in every reachable state. -/
theorem reachable_inv {qSize : ℕ} {calls : Fin P → List τ} {s : ThreadPool τ W P}
    (h : (system W qSize calls).Reachable s) : Inv qSize s := by
  refine h.invariant ?_ ?_
  · rintro s rfl
    exact started_inv qSize calls
  · intro s a t hs hstep
    exact Step.inv hstep hs

end ThreadPool

end KyrosWebServer.Base
