import KyrosWebServer.ThreadPoolFifo
import KyrosWebServer.ThreadPoolTasks
import KyrosWebServer.ThreadPoolWakeup

/-!
# Starting the thread pool

The pool from its constructor on. `AddTask` can be called before `Start` and
while `Start` creates the workers one after the other. Every such run is one of
the started pool in which workers that are not created yet have not moved. A
pool that is never started takes `qSize` tasks and then blocks its callers.
-/

namespace KyrosWebServer.Base.ThreadPool

open TransitionSystem Condition BoundedFifo

variable {τ : Type} {W P : ℕ}

/-- Where the thread that calls `Start` stands. -/
inductive StartAt
  /-- `Start` has not been called. -/
  | notCalled
  /-- In the loop over `workers`. -/
  | creating
  | returned
  deriving DecidableEq

/-- A pool and its `Start`. -/
structure Lifecycle (τ : Type) (W P : ℕ) where
  /-- The pool; threads that are not created stand at the beginning of `runInThread`. -/
  pool : ThreadPool τ W P
  /-- The size of `mThreads`. -/
  mThreads : ℕ
  /-- Progress of `Start`. -/
  start : StartAt

/-- The worker that makes a move. -/
def Label.worker : Label τ W P → Option (Fin W)
  | .test i | .takeWait i | .take i _ _ | .finish i | .spuriousWorker i => some i
  | _ => none

/-- Moves of a pool and of its `Start`. -/
inductive StartLabel (τ : Type) (W P : ℕ)
  /-- `Start` sets `isRunning`. -/
  | start
  /-- A thread is created and put into `mThreads`. -/
  | create
  /-- `Start` returns. -/
  | startReturn
  | pool (a : Label τ W P)

/-- The move of the pool, if it is one. -/
def StartLabel.toLabel : StartLabel τ W P → Option (Label τ W P)
  | pool a => some a
  | _ => none

/-- The tasks that a sequence of moves pushes. -/
def pushes (as : List (StartLabel τ W P)) : List τ :=
  (as.filterMap StartLabel.toLabel).filterMap Label.pushed

/-- The tasks that it takes. -/
def takes (as : List (StartLabel τ W P)) : List τ :=
  (as.filterMap StartLabel.toLabel).filterMap Label.taken

namespace Lifecycle

/-- The constructor, with the calls that the producers are going to make. -/
def new (calls : Fin P → List τ) : Lifecycle τ W P :=
  ⟨{ started calls with isRunning := false }, 0, .notCalled⟩

/-- One move; `Stop` is not called. -/
inductive Step (qSize : ℕ) : Lifecycle τ W P → StartLabel τ W P → Lifecycle τ W P → Prop
  | start {s : Lifecycle τ W P} (h : s.start = .notCalled) :
      Step qSize s .start { s with pool := { s.pool with isRunning := true }, start := .creating }
  | create {s : Lifecycle τ W P} (h : s.start = .creating) (hless : s.mThreads < W) :
      Step qSize s .create { s with mThreads := s.mThreads + 1 }
  | startReturn {s : Lifecycle τ W P} (h : s.start = .creating) (hall : s.mThreads = W) :
      Step qSize s .startReturn { s with start := .returned }
  /-- Only threads that exist move. -/
  | pool {s : Lifecycle τ W P} {a : Label τ W P} {pool : ThreadPool τ W P} (ha : a ≠ .stopCall)
      (hcreated : ∀ i, a.worker = some i → i.val < s.mThreads)
      (hstep : ThreadPool.Step qSize s.pool a pool) :
      Step qSize s (.pool a) { s with pool := pool }

/-- All runs of a pool from its constructor on. -/
def system (W qSize : ℕ) (calls : Fin P → List τ) :
    System (Lifecycle τ W P) (StartLabel τ W P) where
  start s := s = new calls
  step := Step qSize

/-- Moves other than spurious wakeups. -/
def quiet : StartLabel τ W P → Prop
  | .pool a => a.quiet = true
  | _ => True

/-- The pool as if it had been started. -/
def on (s : Lifecycle τ W P) : ThreadPool τ W P := { s.pool with isRunning := true }

/-- How far `Start` has got. -/
structure Started (s : Lifecycle τ W P) : Prop where
  /-- Before `Start` there are no threads. -/
  none : s.start = .notCalled → s.mThreads = 0
  /-- It makes as many as it is told. -/
  most : s.mThreads ≤ W
  /-- All are there when it returns. -/
  all : s.start = .returned → s.mThreads = W
  /-- `isRunning` says whether it was called. -/
  running : s.pool.isRunning = true ↔ s.start ≠ .notCalled
  /-- Nobody calls `Stop`. -/
  notStopped : s.pool.stop = .notCalled

end Lifecycle

/-- As long as nobody calls `Stop`, no move changes `isRunning`. -/
theorem Step.isRunning {qSize : ℕ} {s s' : ThreadPool τ W P} {a : Label τ W P}
    (h : Step qSize s a s') (ha : a ≠ .stopCall) (hstop : s.stop = .notCalled) :
    s'.isRunning = s.isRunning ∧ s'.stop = .notCalled := by
  cases h with
  | stopCall h => exact absurd rfl ha
  | stopLock h => cases h.symm.trans hstop
  | join h hexited => cases h.symm.trans hstop
  | stopReturn h => cases h.symm.trans hstop
  | _ => exact ⟨rfl, hstop⟩

/-- Producers do not look at `isRunning`. -/
theorem Step.on {qSize : ℕ} {s s' : ThreadPool τ W P} {a : Label τ W P} (h : Step qSize s a s')
    (ha : a ≠ .stopCall) (hstop : s.stop = .notCalled) (hworker : a.worker = none) :
    Step qSize { s with isRunning := true } a { s' with isRunning := true } := by
  cases h with
  | call hp hcalls => exact .call hp hcalls
  | addWait hp hfree hcalls hadd => exact .addWait hp hfree hcalls hadd
  | push hp hfree hcalls hadd hpost => exact .push hp hfree hcalls hadd hpost
  | spuriousProducer hp => exact .spuriousProducer hp
  | stopCall h => exact absurd rfl ha
  | stopLock h => cases h.symm.trans hstop
  | join h hexited => cases h.symm.trans hstop
  | stopReturn h => cases h.symm.trans hstop
  | _ => cases hworker

namespace Lifecycle

theorem new_started (calls : Fin P → List τ) : Started (new (W := W) calls) :=
  ⟨fun _ => rfl, Nat.zero_le W, nofun, by simp [new], rfl⟩

/-- Every move keeps the progress of `Start` in order. -/
theorem Step.started {qSize : ℕ} {s s' : Lifecycle τ W P} {a : StartLabel τ W P}
    (h : Step qSize s a s') (hs : Started s) : Started s' := by
  cases h with
  | start h => exact ⟨nofun, hs.most, nofun, by simp, hs.notStopped⟩
  | create h hless =>
    refine ⟨fun hno => ?_, hless, fun hret => ?_, hs.running, hs.notStopped⟩
    · cases hno.symm.trans h
    · cases hret.symm.trans h
  | startReturn h hall =>
    refine ⟨nofun, hs.most, fun _ => hall, ?_, hs.notStopped⟩
    have hrun := hs.running
    rw [h] at hrun
    simpa using hrun
  | pool ha hcreated hstep =>
    obtain ⟨hrun, hstop⟩ := hstep.isRunning ha hs.notStopped
    exact ⟨hs.none, hs.most, hs.all, by rw [hrun]; exact hs.running, hstop⟩

/-- The pool of a lifecycle moves as the started pool does. -/
theorem Step.on {qSize : ℕ} {s s' : Lifecycle τ W P} {a : StartLabel τ W P}
    (h : Step qSize s a s') (hs : Started s) :
    a.toLabel = none ∧ s'.on = s.on ∨
      ∃ b, a.toLabel = some b ∧ b ≠ .stopCall ∧ ThreadPool.Step qSize s.on b s'.on := by
  cases h with
  | start h => exact .inl ⟨rfl, rfl⟩
  | create h hless => exact .inl ⟨rfl, rfl⟩
  | startReturn h hall => exact .inl ⟨rfl, rfl⟩
  | @pool b pool ha hcreated hstep =>
    refine .inr ⟨b, rfl, ha, ?_⟩
    by_cases hcalled : s.start = .notCalled
    · refine hstep.on ha hs.notStopped ?_
      cases hworker : b.worker with
      | none => rfl
      | some i =>
        have hlt := hcreated i hworker
        rw [hs.none hcalled] at hlt
        exact absurd hlt (Nat.not_lt_zero _)
    · have hrun := hs.running.mpr hcalled
      have hon : s.on = s.pool := by
        unfold Lifecycle.on
        rw [← hrun]
      have hon' : pool = { pool with isRunning := true } := by
        rw [← hrun, ← (hstep.isRunning ha hs.notStopped).1]
      rw [hon]
      unfold Lifecycle.on
      rw [← hon']
      exact hstep

/-- A pool that is fed before or during `Start` behaves as a started pool. -/
theorem refines_started (W qSize : ℕ) (calls : Fin P → List τ) :
    System.Simulation (system W qSize calls) (ThreadPool.system W qSize calls)
      StartLabel.toLabel (fun s p => p = s.on ∧ Started s) where
  start := by
    rintro s rfl
    exact ⟨_, rfl, rfl, new_started calls⟩
  silent := by
    rintro s a t p ⟨rfl, hs⟩ hstep hnone
    refine ⟨?_, Step.started hstep hs⟩
    rcases Step.on hstep hs with ⟨-, hsame⟩ | ⟨b, hsome, -⟩
    · exact hsame.symm
    · cases hnone.symm.trans hsome
  visible := by
    rintro s a t p b ⟨rfl, hs⟩ hstep hsome
    rcases Step.on hstep hs with ⟨hnone, -⟩ | ⟨c, hc, -, hmove⟩
    · cases hnone.symm.trans hsome
    · cases hc.symm.trans hsome
      exact ⟨t.on, hmove, rfl, Step.started hstep hs⟩

/-- The run of the started pool behind a run. -/
theorem run_on {qSize : ℕ} {calls : Fin P → List τ} {as : List (StartLabel τ W P)}
    {s : Lifecycle τ W P} (h : (system W qSize calls).Run (new calls) as s) :
    (ThreadPool.system W qSize calls).Run (started calls) (as.filterMap StartLabel.toLabel) s.on := by
  have hall : (ThreadPool.system W qSize calls).Run (started calls)
      (as.filterMap StartLabel.toLabel) s.on ∧ Started s := by
    induction h with
    | nil => exact ⟨.nil, new_started calls⟩
    | snoc _ hstep ih =>
      obtain ⟨hrun, hs⟩ := ih
      refine ⟨?_, Step.started hstep hs⟩
      rw [List.filterMap_append]
      rcases Step.on hstep hs with ⟨hnone, hsame⟩ | ⟨b, hsome, -, hmove⟩
      · rw [hsame]
        simpa [hnone] using hrun
      · simpa [hsome] using hrun.snoc hmove
  exact hall.1

/-- So tasks leave in the order in which they were added, each once, whenever `Start` is called. -/
theorem tasks_in_order {qSize : ℕ} {calls : Fin P → List τ} {as : List (StartLabel τ W P)}
    {s : Lifecycle τ W P} (h : (system W qSize calls).Run (new calls) as s) :
    takes as ++ s.pool.mTasks = pushes as ∧ s.pool.mTasks.length ≤ qSize := by
  have hstart : (started (W := W) calls).mTasks = (BoundedQueue.empty : BoundedQueue τ qSize).items :=
    rfl
  obtain ⟨q, hqueue, hq⟩ := (fifo_simulation W qSize calls).run (run_on h) hstart
  obtain ⟨hin, hout⟩ := event_tasks (as.filterMap StartLabel.toLabel)
  have hist := history hqueue
  rw [hin, hout, ← hq] at hist
  refine ⟨hist, ?_⟩
  have hlen := q.bounded
  rw [← hq] at hlen
  exact hlen

/-- The moves that `Start` has still to make. -/
def startRank (s : Lifecycle τ W P) : ℕ :=
  match s.start with
  | .notCalled => W + 2
  | .creating => W - s.mThreads + 1
  | .returned => 0

/-- What holds in every state of every run: the pool is the one that `Start`
has brought so far, and it would do as a started pool. -/
def Sound (qSize : ℕ) (s : Lifecycle τ W P) : Prop := Started s ∧ QuietInv qSize s.on

theorem new_sound (qSize : ℕ) (calls : Fin P → List τ) : Sound qSize (new (W := W) calls) :=
  ⟨new_started calls, started_quietInv qSize calls⟩

theorem Step.sound {qSize : ℕ} {s s' : Lifecycle τ W P} {a : StartLabel τ W P}
    (h : Step qSize s a s') (hs : Sound qSize s) : Sound qSize s' := by
  obtain ⟨hstarted, hquiet⟩ := hs
  refine ⟨h.started hstarted, ?_⟩
  rcases h.on hstarted with ⟨-, hsame⟩ | ⟨b, -, hb, hmove⟩
  · rw [hsame]
    exact hquiet
  · exact hmove.quietInv hb hquiet

/-- Every move without spurious wakeups lowers the rank of the pool or that of `Start`. -/
theorem Step.rank_lt {qSize : ℕ} {s s' : Lifecycle τ W P} {a : StartLabel τ W P}
    (h : Step qSize s a s') (ha : quiet a) (hs : Sound qSize s) :
    s'.on.rank + s'.startRank < s.on.rank + s.startRank := by
  obtain ⟨hstarted, hquiet⟩ := hs
  have hmost := hstarted.most
  have hstep := h
  cases h with
  | start h =>
    change s.on.rank + (W - s.mThreads + 1) < _
    unfold startRank
    rw [h]
    dsimp only
    omega
  | create h hless =>
    change s.on.rank + startRank { s with mThreads := s.mThreads + 1 } < _
    unfold startRank
    rw [h]
    dsimp only
    omega
  | startReturn h hall =>
    change s.on.rank + 0 < _
    unfold startRank
    rw [h]
    dsimp only
    omega
  | @pool b pool hb hcreated hmove =>
    rcases hstep.on hstarted with ⟨hnone, -⟩ | ⟨c, hc, -, hmove'⟩
    · cases hnone
    · cases hc
      have hlt := (hmove'.quietMove ha hquiet).1.rank_lt hquiet
      exact Nat.add_lt_add_right hlt _

/-- Where nobody can move any more, `Start` has returned and the pool has nothing to do. -/
theorem stuck_drained {qSize : ℕ} {calls : Fin P → List τ} {s : Lifecycle τ W P} (hW : 0 < W)
    (hq : 0 < qSize) (hs : Sound qSize s) (hstuck : ((system W qSize calls).restrict quiet).Stuck s) :
    s.start = .returned ∧ (∀ i, s.pool.workers i = .waiting) ∧ s.pool.mTasks = [] := by
  obtain ⟨hstarted, hquiet⟩ := hs
  have hreturned : s.start = .returned := by
    cases hstart : s.start with
    | notCalled => exact absurd ⟨trivial, .start hstart⟩ (hstuck .start _)
    | creating =>
      by_cases hall : s.mThreads = W
      · exact absurd ⟨trivial, .startReturn hstart hall⟩ (hstuck .startReturn _)
      · have hmost := hstarted.most
        exact absurd ⟨trivial, .create hstart (by omega)⟩ (hstuck .create _)
    | returned => rfl
  have hrun : s.pool.isRunning = true := hstarted.running.mpr (by rw [hreturned]; exact nofun)
  have hon : s.on = s.pool := by
    unfold Lifecycle.on
    rw [← hrun]
  rw [hon] at hquiet
  have hpool : (undisturbed W qSize calls).Stuck s.pool := by
    rintro a pool ⟨ha, hstep⟩
    refine hstuck (.pool a) _ ⟨ha, .pool ?_ (fun i _ => ?_) hstep⟩
    · rintro rfl
      cases ha
    · rw [hstarted.all hreturned]
      exact i.isLt
  obtain ⟨hwait, hempty, -⟩ := stuck_state hW hq hquiet hpool
  exact ⟨hreturned, hwait, hempty⟩

/-- Every run without spurious wakeups uses up the rank of its start. -/
theorem quiet_run {qSize : ℕ} {calls : Fin P → List τ} {as : List (StartLabel τ W P)}
    {s : Lifecycle τ W P} (h : ((system W qSize calls).restrict quiet).Run (new calls) as s) :
    Sound qSize s ∧
      as.length + (s.on.rank + s.startRank) ≤ (started (W := W) calls).rank + W + 2 := by
  have hmove : ∀ s a t, Sound qSize s → ((system W qSize calls).restrict quiet).step s a t →
      Sound qSize t ∧ t.on.rank + t.startRank < s.on.rank + s.startRank :=
    fun s a t hs hstep => ⟨Step.sound hstep.2 hs, Step.rank_lt hstep.2 hstep.1 hs⟩
  exact h.length_le (fun s => s.on.rank + s.startRank) hmove (new_sound qSize calls)

/-- Every run without `Stop` and spurious wakeups ends, whenever tasks are added
and `Start` is called. At its end every task that was accepted has been taken,
in order, and has returned. -/
theorem accepted_tasks_done {qSize : ℕ} {calls : Fin P → List τ} {as : List (StartLabel τ W P)}
    {s : Lifecycle τ W P} (hW : 0 < W) (hq : 0 < qSize)
    (h : ((system W qSize calls).restrict quiet).Run (new calls) as s) :
    as.length ≤ (started (W := W) calls).rank + W + 2 ∧
      (((system W qSize calls).restrict quiet).Stuck s →
        takes as = pushes as ∧ s.start = .returned ∧ ∀ i, s.pool.workers i = .waiting) := by
  obtain ⟨hs, hlen⟩ := quiet_run h
  refine ⟨by omega, fun hstuck => ?_⟩
  obtain ⟨hreturned, hwait, hempty⟩ := stuck_drained hW hq hs hstuck
  obtain ⟨horder, -⟩ := tasks_in_order h.of_restrict
  rw [hempty, List.append_nil] at horder
  exact ⟨horder, hreturned, hwait⟩

/-- A run goes on with a move of the pool. -/
theorem pool_snoc {allowed : StartLabel τ W P → Prop} {qSize : ℕ} {calls : Fin P → List τ}
    {as : List (StartLabel τ W P)} {s : Lifecycle τ W P} {a : Label τ W P} {pool : ThreadPool τ W P}
    (h : ((system W qSize calls).restrict allowed).Run (new calls) as s)
    (hstep : ThreadPool.Step qSize s.pool a pool) (hallowed : allowed (.pool a))
    (ha : a ≠ .stopCall) (hcreated : ∀ i, a.worker = some i → i.val < s.mThreads) :
    ((system W qSize calls).restrict allowed).Run (new calls) (as ++ [.pool a])
      { s with pool := pool } :=
  h.snoc_allowed (.pool ha hcreated hstep) hallowed

/-- A run of a pool with one worker: a task is added before `Start`, another
while `Start` creates the worker. -/
theorem runs_early : ∃ as s, ((system 1 2 fun _ : Fin 1 => [5, 6]).restrict quiet).Run
    (new fun _ => [5, 6]) as s ∧ as.length = 15 ∧ pushes as = [5, 6] ∧
      s.on.rank + s.startRank = 0 := by
  have hall : ∀ i : Fin 1, i.val < 1 := fun i => i.isLt
  have h₀ : ((system 1 2 fun _ : Fin 1 => [5, 6]).restrict quiet).Run (new fun _ => [5, 6]) [] _ :=
    .nil
  have h₁ := pool_snoc h₀ (.call (p := 0) rfl (List.cons_ne_nil _ _)) rfl (by simp)
    (by simp [Label.worker])
  have h₂ := pool_snoc h₁ (.push (p := 0) (.inl rfl) (ThreadPool.mutexFree rfl) rfl rfl
    (.idle (by decide))) rfl (by simp) (by simp [Label.worker])
  have h₃ := h₂.snoc_allowed (.start rfl) trivial
  have h₄ := pool_snoc h₃ (.call (p := 0) rfl (List.cons_ne_nil _ _)) rfl (by simp)
    (by simp [Label.worker])
  have h₅ := pool_snoc h₄ (.push (p := 0) (.inl rfl) (ThreadPool.mutexFree rfl) rfl rfl
    (.idle (by decide))) rfl (by simp) (by simp [Label.worker])
  have h₆ := (h₅.snoc_allowed (.create rfl Nat.one_pos) trivial).snoc_allowed (.startReturn rfl rfl)
    trivial
  have h₇ := pool_snoc h₆ (.test (i := 0) rfl) rfl (by simp) fun i _ => hall i
  have h₈ := pool_snoc h₇ (.take (i := 0) (.inl rfl) (ThreadPool.mutexFree rfl) rfl
    (.idle (by decide))) rfl (by simp) fun i _ => hall i
  have h₉ := pool_snoc (pool_snoc h₈ (.finish (i := 0) rfl) rfl (by simp) fun i _ => hall i)
    (.test (i := 0) rfl) rfl (by simp) fun i _ => hall i
  have h₁₀ := pool_snoc h₉ (.take (i := 0) (.inl rfl) (ThreadPool.mutexFree rfl) rfl
    (.idle (by decide))) rfl (by simp) fun i _ => hall i
  have h₁₁ := pool_snoc (pool_snoc h₁₀ (.finish (i := 0) rfl) rfl (by simp) fun i _ => hall i)
    (.test (i := 0) rfl) rfl (by simp) fun i _ => hall i
  have h₁₂ := pool_snoc h₁₁ (.takeWait (i := 0) (.inl rfl) (ThreadPool.mutexFree rfl) rfl) rfl
    (by simp) fun i _ => hall i
  exact ⟨_, _, h₁₂, rfl, rfl, rfl⟩

/-- The worker has taken both tasks when nobody can move any more. -/
theorem accepted_tasks_done_early : ∃ (as : List (StartLabel ℕ 1 1)) (s : Lifecycle ℕ 1 1),
    as.length = 15 ∧ pushes as = [5, 6] ∧
      as.length ≤ (started (W := 1) fun _ : Fin 1 => [5, 6]).rank + 1 + 2 ∧
      takes as = pushes as ∧ s.start = .returned ∧ ∀ i, s.pool.workers i = .waiting := by
  obtain ⟨as, s, h, hlen, hpushes, hrank⟩ := runs_early
  obtain ⟨hbound, hend⟩ := accepted_tasks_done Nat.one_pos Nat.two_pos h
  refine ⟨as, s, hlen, hpushes, hbound, hend fun a t hstep => ?_⟩
  have hlt := Step.rank_lt hstep.2 hstep.1 (quiet_run h).1
  omega

/-- A run without `Start` has no workers: nothing is taken, and callers wait
only for a queue that is full. -/
structure Unstarted (qSize : ℕ) (calls : Fin P → List τ) (s : Lifecycle τ W P) : Prop where
  /-- `Start` has not been called. -/
  notCalled : s.start = .notCalled
  /-- Tasks are queued or still to be added. -/
  load : s.pool.mTasks.length + total s.pool.calls = total calls
  /-- A queue that somebody waits for is full. -/
  full : ∀ p, s.pool.producers p = .waiting → s.pool.mTasks.length = qSize

/-- Every move other than `Start` keeps it that way. -/
theorem Step.unstarted {qSize : ℕ} {calls : Fin P → List τ} {s s' : Lifecycle τ W P}
    {a : StartLabel τ W P} (h : Step qSize s a s') (ha : a ≠ .start) (hsound : Sound qSize s)
    (hs : Unstarted qSize calls s) : Unstarted qSize calls s' ∧ takes [a] = [] := by
  have hnobody := hsound.1.none hs.notCalled
  cases h with
  | start h => exact absurd rfl ha
  | create h hless => cases h.symm.trans hs.notCalled
  | startReturn h hall => cases h.symm.trans hs.notCalled
  | @pool b pool hb hcreated hstep =>
    have hnone : b.worker = none := by
      cases hworker : b.worker with
      | none => rfl
      | some i =>
        have hlt := hcreated i hworker
        omega
    have hbounded : s.pool.mTasks.length ≤ qSize := hsound.2.bounded
    cases hstep with
    | call hp hcalls =>
      refine ⟨⟨hs.notCalled, hs.load, fun p hwait => ?_⟩, rfl⟩
      exact hs.full p (update_waiting .locking nofun hwait).2
    | @addWait p t calls' hp hfree hcalls hadd =>
      have hlen := addTask_eq_none.mp hadd
      exact ⟨⟨hs.notCalled, hs.load, fun _ _ => Nat.le_antisymm hbounded hlen⟩, rfl⟩
    | @push p t calls' mTasks post who workers hp hfree hcalls hadd hpost =>
      obtain ⟨hroom, rfl, -⟩ := addTask_eq_some hadd
      have htotal := total_update hcalls
      have hload := hs.load
      refine ⟨⟨hs.notCalled, ?_, fun j hwait => ?_⟩, rfl⟩
      · dsimp only
        rw [List.length_append, List.length_singleton]
        omega
      · have hfull := hs.full j (update_waiting .outside nofun hwait).2
        omega
    | spuriousProducer hp =>
      refine ⟨⟨hs.notCalled, hs.load, fun p hwait => ?_⟩, rfl⟩
      exact hs.full p (update_waiting .woken nofun hwait).2
    | stopCall h => exact absurd rfl hb
    | stopLock h => cases h.symm.trans hsound.1.notStopped
    | join h hexited => cases h.symm.trans hsound.1.notStopped
    | stopReturn h => cases h.symm.trans hsound.1.notStopped
    | _ => cases hnone

/-- Moves that a pool makes by itself while nobody calls `Start`. -/
def unstarted : StartLabel τ W P → Prop
  | .start => False
  | a => quiet a

theorem new_unstarted (qSize : ℕ) (calls : Fin P → List τ) :
    Unstarted qSize calls (new (W := W) calls) :=
  ⟨rfl, Nat.zero_add _, fun _ => nofun⟩

theorem takes_append (as bs : List (StartLabel τ W P)) : takes (as ++ bs) = takes as ++ takes bs := by
  simp [takes, List.filterMap_append]

/-- In a run without `Start` nothing is taken. -/
theorem unstarted_run {qSize : ℕ} {calls : Fin P → List τ} {as : List (StartLabel τ W P)}
    {s : Lifecycle τ W P} (h : ((system W qSize calls).restrict (· ≠ .start)).Run (new calls) as s) :
    Sound qSize s ∧ Unstarted qSize calls s ∧ takes as = [] := by
  induction h with
  | nil => exact ⟨new_sound qSize calls, new_unstarted qSize calls, rfl⟩
  | @snoc t u as a _ hstep ih =>
    obtain ⟨hsound, hs, htakes⟩ := ih
    obtain ⟨hne, hstep⟩ := hstep
    obtain ⟨hs', hone⟩ := Step.unstarted hstep hne hsound hs
    refine ⟨Step.sound hstep hsound, hs', ?_⟩
    rw [takes_append, htakes, hone]
    rfl

/-- Where nobody can move by himself, each producer waits for room or is done. -/
theorem unstarted_producer {qSize : ℕ} {calls : Fin P → List τ} {s : Lifecycle τ W P}
    (hs : Sound qSize s) (hstuck : ((system W qSize calls).restrict unstarted).Stuck s) (p : Fin P) :
    s.pool.producers p = .waiting ∨ s.pool.producers p = .outside ∧ s.pool.calls p = [] := by
  obtain ⟨hstarted, hquiet⟩ := hs
  have hfree : s.pool.MutexFree := ThreadPool.mutexFree hstarted.notStopped
  have hgo : ∀ a pool, a.quiet = true → a.worker = none →
      ¬ ThreadPool.Step qSize s.pool a pool := by
    intro a pool ha hworker hstep
    refine hstuck (.pool a) _ ⟨ha, .pool ?_ (fun i hi => ?_) hstep⟩
    · rintro rfl
      cases ha
    · cases hworker.symm.trans hi
  have hadd : ¬ s.pool.WantsAdd p := by
    intro hwants
    cases hcalls : s.pool.calls p with
    | nil =>
      refine hquiet.calling p ?_ hcalls
      change s.pool.producers p ≠ .outside
      rcases hwants with hp | hp <;> rw [hp] <;> exact nofun
    | cons t calls' =>
      cases hnext : addTask qSize s.pool.mTasks t with
      | none => exact hgo (.addWait p) _ rfl rfl (.addWait hwants hfree hcalls hnext)
      | some out =>
        obtain ⟨who, workers, hpost⟩ := PostIf.exists out.2 WorkerAt.waiting .woken s.pool.workers
        exact hgo (.push p t who) _ rfl rfl (.push hwants hfree hcalls hnext hpost)
  cases hp : s.pool.producers p with
  | outside =>
    refine .inr ⟨rfl, ?_⟩
    by_contra hne
    exact hgo (.call p) _ rfl rfl (.call hp hne)
  | locking => exact absurd (.inl hp) hadd
  | waiting => exact .inl rfl
  | woken => exact absurd (.inr hp) hadd

/-- A pool that is never started takes no task, whoever wakes up without a signal.
Its callers come to a stop with as many tasks in the queue as it holds, and some
of them are left in `AddTask` exactly when there were more. -/
theorem unstarted_pool_blocks {qSize : ℕ} {calls : Fin P → List τ} {as : List (StartLabel τ W P)}
    {s : Lifecycle τ W P} (h : ((system W qSize calls).restrict (· ≠ .start)).Run (new calls) as s) :
    takes as = [] ∧ (pushes as).length ≤ qSize ∧
      (((system W qSize calls).restrict unstarted).Stuck s →
        (pushes as).length = min qSize (total calls) ∧
          ((∃ p, s.pool.producers p = .waiting) ↔ qSize < total calls)) := by
  obtain ⟨hsound, hs, htakes⟩ := unstarted_run h
  obtain ⟨horder, hbounded⟩ := tasks_in_order h.of_restrict
  rw [htakes, List.nil_append] at horder
  rw [← horder]
  refine ⟨htakes, hbounded, fun hstuck => ?_⟩
  have hproducer := unstarted_producer hsound hstuck
  have hload := hs.load
  by_cases hwait : ∃ p, s.pool.producers p = .waiting
  · obtain ⟨p, hp⟩ := hwait
    have hcalls : s.pool.calls p ≠ [] := hsound.2.calling p (by
      change s.pool.producers p ≠ .outside
      rw [hp]
      exact nofun)
    have hone : (s.pool.calls p).length ≤ total s.pool.calls :=
      Finset.single_le_sum (f := fun q => (s.pool.calls q).length) (fun _ _ => Nat.zero_le _)
        (Finset.mem_univ p)
    have hpos := List.length_pos_iff.mpr hcalls
    have hfull := hs.full p hp
    refine ⟨by omega, fun _ => by omega, fun _ => ⟨p, hp⟩⟩
  · have hdone : total s.pool.calls = 0 := Finset.sum_eq_zero fun p _ => by
      rcases hproducer p with hp | ⟨-, hcalls⟩
      · exact absurd ⟨p, hp⟩ hwait
      · rw [hcalls]
        rfl
    refine ⟨by omega, fun hp => absurd hp hwait, fun hlt => by omega⟩

/-- Before `Start`, producers that all wait for room cannot move by themselves. -/
theorem waiting_stuck {qSize : ℕ} {calls : Fin P → List τ} {s : Lifecycle τ W P} (hs : Started s)
    (hnot : s.start = .notCalled) (hwait : ∀ p, s.pool.producers p = .waiting) :
    ((system W qSize calls).restrict unstarted).Stuck s := by
  have hnobody := hs.none hnot
  rintro a t ⟨hallowed, hstep⟩
  cases hstep with
  | start h => exact hallowed
  | create h hless => cases h.symm.trans hnot
  | startReturn h hall => cases h.symm.trans hnot
  | @pool b pool hb hcreated hmove =>
    have hwants : ∀ p, ¬ s.pool.WantsAdd p := by
      rintro p (hp | hp) <;> cases hp.symm.trans (hwait p)
    have hworker : b.worker = none := by
      cases hw : b.worker with
      | none => rfl
      | some i => exact absurd (hcreated i hw) (by omega)
    cases hmove with
    | call hp hcalls => cases hp.symm.trans (hwait _)
    | addWait hp hfree hcalls hadd => exact hwants _ hp
    | push hp hfree hcalls hadd hpost => exact hwants _ hp
    | spuriousProducer hp => cases hallowed
    | stopCall h => exact hb rfl
    | stopLock h => cases h.symm.trans hs.notStopped
    | join h hexited => cases h.symm.trans hs.notStopped
    | stopReturn h => cases h.symm.trans hs.notStopped
    | _ => cases hworker

/-- Two tasks and room for one: the producer waits, wakes up without a signal
and waits again. -/
theorem unstarted_pool_blocks_early : ∃ (as : List (StartLabel ℕ 1 1)) (s : Lifecycle ℕ 1 1),
    as.length = 6 ∧ pushes as = [5] ∧ takes as = [] ∧ (pushes as).length ≤ 1 ∧
      (pushes as).length = min 1 (total fun _ : Fin 1 => [5, 6]) ∧
      ((∃ p, s.pool.producers p = .waiting) ↔ 1 < total fun _ : Fin 1 => [5, 6]) := by
  have h₀ : ((system 1 1 fun _ : Fin 1 => [5, 6]).restrict (· ≠ .start)).Run
      (new fun _ => [5, 6]) [] _ := .nil
  have h₁ := pool_snoc h₀ (.call (p := 0) rfl (List.cons_ne_nil _ _)) (by simp) (by simp)
    (by simp [Label.worker])
  have h₂ := pool_snoc h₁ (.push (p := 0) (.inl rfl) (ThreadPool.mutexFree rfl) rfl rfl
    (.idle (by decide))) (by simp) (by simp) (by simp [Label.worker])
  have h₃ := pool_snoc h₂ (.call (p := 0) rfl (List.cons_ne_nil _ _)) (by simp) (by simp)
    (by simp [Label.worker])
  have h₄ := pool_snoc h₃ (.addWait (p := 0) (.inl rfl) (ThreadPool.mutexFree rfl) rfl rfl)
    (by simp) (by simp) (by simp [Label.worker])
  have h₅ := pool_snoc h₄ (.spuriousProducer (p := 0) rfl) (by simp) (by simp)
    (by simp [Label.worker])
  have h₆ := pool_snoc h₅ (.addWait (p := 0) (.inr rfl) (ThreadPool.mutexFree rfl) rfl rfl)
    (by simp) (by simp) (by simp [Label.worker])
  obtain ⟨htakes, hlen, hend⟩ := unstarted_pool_blocks h₆
  exact ⟨_, _, rfl, rfl, htakes, hlen, hend (waiting_stuck (unstarted_run h₆).1.1 rfl (by decide))⟩

end Lifecycle

end KyrosWebServer.Base.ThreadPool
