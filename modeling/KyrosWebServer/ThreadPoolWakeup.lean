import KyrosWebServer.ThreadPool
import Mathlib.Algebra.Order.BigOperators.Group.Finset

/-!
# Wakeups of the thread pool

Runs in which `Stop` is not called and threads wake up only when signalled.
Each of their moves lowers a rank, so they all end. They end with an empty
queue and nobody inside `AddTask` in every schedule exactly when two producers
can never be blocked at the same time, or every pop sends a signal.
-/

namespace KyrosWebServer.Base.ThreadPool

open TransitionSystem Condition

variable {τ : Type} {W P : ℕ}

/-- Moves other than a call of `Stop` and a spurious wakeup. -/
def Label.quiet : Label τ W P → Bool
  | .stopCall => false
  | .spuriousWorker _ => false
  | .spuriousProducer _ => false
  | _ => true

/-- The runs without `Stop` and without spurious wakeups. -/
def undisturbed (W qSize : ℕ) (calls : Fin P → List τ) : System (ThreadPool τ W P) (Label τ W P) :=
  (system W qSize calls).restrict fun a => a.quiet = true

/-- Whenever no thread can go on, the queue is empty and `AddTask` is left. -/
def NoLostWakeup (W qSize : ℕ) (calls : Fin P → List τ) : Prop :=
  ∀ s, (undisturbed W qSize calls).Reachable s → (undisturbed W qSize calls).Stuck s →
    s.mTasks = [] ∧ ∀ p, s.producers p = .outside

/-- The invariant of the runs without `Stop`. -/
structure QuietInv (qSize : ℕ) (s : ThreadPool τ W P) : Prop extends Inv qSize s where
  /-- Nobody calls `Stop`. -/
  notStopped : s.stop = .notCalled

theorem QuietInv.isRunning {qSize : ℕ} {s : ThreadPool τ W P} (h : QuietInv qSize s) :
    s.isRunning = true := h.running.mpr (.inl h.notStopped)

theorem QuietInv.mutexFree {qSize : ℕ} {s : ThreadPool τ W P} (h : QuietInv qSize s) :
    s.MutexFree := ThreadPool.mutexFree h.notStopped

/-- A worker that moves on its own: to `take`, into its wait, or back to the loop. -/
inductive WorkerMove (s : ThreadPool τ W P) (i : Fin W) : WorkerAt τ → Prop
  | test : s.workers i = .loopTest → WorkerMove s i .locking
  | wait : s.WantsTake i → s.mTasks = [] → WorkerMove s i .waiting
  | finish {t : τ} : s.workers i = .running t → WorkerMove s i .loopTest

/-- What an undisturbed move can do. -/
inductive QuietMove (qSize : ℕ) (s : ThreadPool τ W P) : ThreadPool τ W P → Prop
  | worker {i : Fin W} {w : WorkerAt τ} : WorkerMove s i w → QuietMove qSize s (s.setWorker i w)
  | take {i : Fin W} {t : τ} {rest : List τ} {who : Option (Fin P)} {producers : Fin P → ProducerAt} :
      s.WantsTake i → s.mTasks = t :: rest →
      PostIf (decide (rest.length + 1 = qSize)) .waiting .woken s.producers who producers →
      QuietMove qSize s { s with mTasks := rest, producers := producers,
                                 workers := Function.update s.workers i (.running t) }
  | call {p : Fin P} : s.producers p = .outside → s.calls p ≠ [] →
      QuietMove qSize s (s.setProducer p .locking)
  | addWait {p : Fin P} : s.WantsAdd p → qSize ≤ s.mTasks.length →
      QuietMove qSize s (s.setProducer p .waiting)
  | push {p : Fin P} {t : τ} {calls : List τ} {who : Option (Fin W)} {workers : Fin W → WorkerAt τ} :
      s.WantsAdd p → s.calls p = t :: calls → s.mTasks.length < qSize →
      PostIf (decide (s.mTasks = [])) .waiting .woken s.workers who workers →
      QuietMove qSize s { s with mTasks := s.mTasks ++ [t], workers := workers,
                                 producers := Function.update s.producers p .outside,
                                 calls := Function.update s.calls p calls }

/-- Undisturbed moves are the quiet moves, and keep `Stop` uncalled. -/
theorem Step.quietMove {qSize : ℕ} {s s' : ThreadPool τ W P} {a : Label τ W P}
    (h : Step qSize s a s') (ha : a.quiet = true) (hs : QuietInv qSize s) :
    QuietMove qSize s s' ∧ s'.stop = .notCalled := by
  have hrun := hs.isRunning
  have hstop := hs.notStopped
  cases h with
  | test h =>
    rw [if_pos hrun]
    exact ⟨.worker (.test h), hstop⟩
  | takeWait h hfree htake => exact ⟨.worker (.wait h (take_eq_none.mp htake)), hstop⟩
  | @take i t rest post who producers h hfree htake hpost =>
    obtain ⟨-, hqueue, hsome, hsignal⟩ := take_eq_some htake
    cases t with
    | none => exact absurd rfl (hsome.mp hrun)
    | some t =>
      have hpost' : post = decide (rest.length + 1 = qSize) := by
        rw [Bool.eq_iff_iff, hsignal, decide_eq_true_iff]
      rw [hpost'] at hpost
      exact ⟨.take h hqueue hpost, hstop⟩
  | finish h => exact ⟨.worker (.finish h), hstop⟩
  | call h hcalls => exact ⟨.call h hcalls, hstop⟩
  | addWait h hfree hcalls hadd => exact ⟨.addWait h (addTask_eq_none.mp hadd), hstop⟩
  | @push p t calls mTasks post who workers h hfree hcalls hadd hpost =>
    obtain ⟨hroom, rfl, hsignal⟩ := addTask_eq_some hadd
    have hpost' : post = decide (s.mTasks = []) := by
      rw [Bool.eq_iff_iff, hsignal, decide_eq_true_iff]
    rw [hpost'] at hpost
    exact ⟨.push h hcalls hroom hpost, hstop⟩
  | stopCall h => cases ha
  | stopLock h => rw [hstop] at h; cases h
  | join h hexited => rw [hstop] at h; cases h
  | stopReturn h => rw [hstop] at h; cases h
  | spuriousWorker h => cases ha
  | spuriousProducer h => cases ha

/-- Every quiet move can be made. -/
theorem QuietMove.step {qSize : ℕ} {s s' : ThreadPool τ W P} (h : QuietMove qSize s s')
    (hs : QuietInv qSize s) : ∃ a : Label τ W P, a.quiet = true ∧ Step qSize s a s' := by
  have hrun := hs.isRunning
  cases h with
  | @worker i w h =>
    cases h with
    | test h =>
      have hstep : Step qSize s (.test i) _ := .test h
      rw [if_pos hrun] at hstep
      exact ⟨.test i, rfl, hstep⟩
    | wait h hempty => exact ⟨.takeWait i, rfl, .takeWait h hs.mutexFree (take_eq_none.mpr hempty)⟩
    | finish h => exact ⟨.finish i, rfl, .finish h⟩
  | @take i t rest who producers h hqueue hpost =>
    have htake : Base.take qSize s.isRunning s.mTasks =
        some (some t, rest, decide (rest.length + 1 = qSize)) := by
      simp only [Base.take, hqueue, hrun, if_true, Option.some.injEq, Prod.mk.injEq, true_and,
        decide_eq_decide]
      omega
    exact ⟨.take i (some t) who, rfl, .take h hs.mutexFree htake hpost⟩
  | @call p h hcalls => exact ⟨.call p, rfl, .call h hcalls⟩
  | @addWait p h hfull =>
    cases hcalls : s.calls p with
    | nil =>
      have hne := hs.calling p (by rcases h with h | h <;> simp [h])
      exact absurd hcalls hne
    | cons t calls =>
      exact ⟨.addWait p, rfl, .addWait h hs.mutexFree hcalls (addTask_eq_none.mpr hfull)⟩
  | @push p t calls who workers h hcalls hroom hpost =>
    have hadd : addTask qSize s.mTasks t = some (s.mTasks ++ [t], decide (s.mTasks = [])) := by
      rw [addTask, if_neg (by omega)]
      simp
    exact ⟨.push p t who, rfl, .push h hs.mutexFree hcalls hadd hpost⟩

theorem started_quietInv (qSize : ℕ) (calls : Fin P → List τ) :
    QuietInv qSize (started (W := W) calls) := ⟨started_inv qSize calls, rfl⟩

theorem QuietMove.inv {qSize : ℕ} {s s' : ThreadPool τ W P} (h : QuietMove qSize s s')
    (hs : QuietInv qSize s) : QuietInv qSize s' := by
  obtain ⟨a, ha, hstep⟩ := h.step hs
  exact ⟨hstep.inv hs.toInv, (hstep.quietMove ha hs).2⟩

/-- Predicates kept by quiet moves hold in every undisturbed run. -/
theorem undisturbed_invariant {qSize : ℕ} {calls : Fin P → List τ} {I : ThreadPool τ W P → Prop}
    (hstart : I (started calls))
    (hmove : ∀ s s', QuietInv qSize s → I s → QuietMove qSize s s' → I s') {s : ThreadPool τ W P}
    (h : (undisturbed W qSize calls).Reachable s) : QuietInv qSize s ∧ I s := by
  refine h.invariant (I := fun s => QuietInv qSize s ∧ I s) ?_ ?_
  · rintro s rfl
    exact ⟨started_quietInv qSize calls, hstart⟩
  · rintro s a s' ⟨hs, hI⟩ ⟨ha, hstep⟩
    have hquiet := (Step.quietMove hstep ha hs).1
    exact ⟨hquiet.inv hs, hmove s s' hs hI hquiet⟩

theorem QuietInv.of_reachable {qSize : ℕ} {calls : Fin P → List τ} {s : ThreadPool τ W P}
    (h : (undisturbed W qSize calls).Reachable s) : QuietInv qSize s :=
  (undisturbed_invariant (I := fun _ => True) trivial (fun _ _ _ _ _ => trivial) h).1

/-- A worker that does not wait can move. -/
theorem worker_moves {qSize : ℕ} {s : ThreadPool τ W P} (hs : QuietInv qSize s) {i : Fin W}
    (hi : s.workers i ≠ .waiting) :
    (∃ w, WorkerMove s i w) ∨ ∃ t rest, s.WantsTake i ∧ s.mTasks = t :: rest := by
  have htake : s.WantsTake i →
      (∃ w, WorkerMove s i w) ∨ ∃ t rest, s.WantsTake i ∧ s.mTasks = t :: rest := by
    intro hwants
    cases hqueue : s.mTasks with
    | nil => exact .inl ⟨.waiting, .wait hwants hqueue⟩
    | cons t rest => exact .inr ⟨t, rest, hwants, rfl⟩
  cases hw : s.workers i with
  | loopTest => exact .inl ⟨.locking, .test hw⟩
  | locking => exact htake (.inl hw)
  | waiting => exact absurd hw hi
  | woken => exact htake (.inr hw)
  | running t => exact .inl ⟨.loopTest, .finish hw⟩
  | exited => exact absurd hw (hs.alive hs.isRunning i)

/-- In a stuck state all workers wait, the queue is empty, and each producer
waits or has made all its calls. -/
theorem stuck_state {qSize : ℕ} {calls : Fin P → List τ} {s : ThreadPool τ W P} (hW : 0 < W)
    (hq : 0 < qSize) (hs : QuietInv qSize s) (hstuck : (undisturbed W qSize calls).Stuck s) :
    (∀ i, s.workers i = .waiting) ∧ s.mTasks = [] ∧
      ∀ p, s.producers p = .waiting ∨ s.producers p = .outside := by
  have hnone : ∀ s', ¬ QuietMove qSize s s' := by
    intro s' h
    obtain ⟨a, ha, hstep⟩ := h.step hs
    exact hstuck a s' ⟨ha, hstep⟩
  have hwait : ∀ i, s.workers i = .waiting := by
    intro i
    by_contra hi
    rcases worker_moves hs hi with ⟨w, h⟩ | ⟨t, rest, h, hqueue⟩
    · exact hnone _ (.worker h)
    · obtain ⟨who, producers, hpost⟩ := PostIf.exists (decide (rest.length + 1 = qSize))
        ProducerAt.waiting .woken s.producers
      exact hnone _ (.take h hqueue hpost)
  have hempty : s.mTasks = [] := by
    by_contra hne
    obtain ⟨i, hi⟩ := hs.awake hW hne
    exact hi (hwait i)
  refine ⟨hwait, hempty, fun p => ?_⟩
  have hadd : ¬ s.WantsAdd p := by
    intro h
    cases hcalls : s.calls p with
    | nil =>
      have hne := hs.calling p (by rcases h with h | h <;> simp [h])
      exact hne hcalls
    | cons t calls =>
      obtain ⟨who, workers, hpost⟩ := PostIf.exists (decide (s.mTasks = []))
        WorkerAt.waiting .woken s.workers
      exact hnone _ (.push h hcalls (by rw [hempty]; exact hq) hpost)
  cases hp : s.producers p with
  | outside => exact .inr rfl
  | locking => exact absurd (.inl hp) hadd
  | waiting => exact .inl rfl
  | woken => exact absurd (.inr hp) hadd

/-- At most one producer has calls left. -/
def Solo (calls : Fin P → List τ) : Prop := ∀ p p', calls p ≠ [] → calls p' ≠ [] → p = p'

/-- Number of tasks that are still to be pushed. -/
def total (calls : Fin P → List τ) : ℕ := ∑ p, (calls p).length

/-- One call less. -/
theorem total_update {calls : Fin P → List τ} {p : Fin P} {t : τ} {rest : List τ}
    (h : calls p = t :: rest) : total (Function.update calls p rest) + 1 = total calls := by
  have hsum := sum_of_agree (f := fun j => (Function.update calls p rest j).length)
    (g := fun j => (calls j).length) p fun j hj => by rw [Function.update_of_ne hj]
  simp only [Function.update_self, h, List.length_cons] at hsum
  unfold total
  omega

/-- Two producers with calls have at least two calls. -/
theorem solo_of_total {calls : Fin P → List τ} (h : total calls ≤ 1) : Solo calls := by
  intro p p' hp hp'
  by_contra hne
  have hpair : ∑ j ∈ {p, p'}, (calls j).length ≤ total calls :=
    Finset.sum_le_sum_of_subset (Finset.subset_univ _)
  rw [Finset.sum_pair hne] at hpair
  have h₁ := List.length_pos_iff.mpr hp
  have h₂ := List.length_pos_iff.mpr hp'
  omega

/-- Calls of a producer that has made one more are fewer, and of others the same. -/
theorem Solo.update {calls : Fin P → List τ} (h : Solo calls) {p : Fin P} (hp : calls p ≠ [])
    (rest : List τ) : Solo (Function.update calls p rest) := by
  have hback : ∀ j, Function.update calls p rest j ≠ [] → calls j ≠ [] := by
    intro j hj
    by_cases hjp : j = p
    · rw [hjp]
      exact hp
    · rwa [Function.update_of_ne hjp] at hj
  intro j j' hj hj'
  exact h j j' (hback j hj) (hback j' hj')

/-- Few calls: one caller, or too few tasks to fill the queue twice. -/
def FewCalls (qSize : ℕ) (s : ThreadPool τ W P) : Prop :=
  Solo s.calls ∨ total s.calls + s.mTasks.length ≤ qSize + 1

theorem QuietMove.fewCalls {qSize : ℕ} {s s' : ThreadPool τ W P} (h : QuietMove qSize s s')
    (hs : FewCalls qSize s) : FewCalls qSize s' := by
  cases h with
  | worker h => exact hs
  | @take i t rest who producers h hqueue hpost =>
    rcases hs with hsolo | htotal
    · exact .inl hsolo
    · right
      rw [hqueue, List.length_cons] at htotal
      dsimp only
      omega
  | call h hcalls => exact hs
  | addWait h hfull => exact hs
  | @push p t calls who workers h hcalls hroom hpost =>
    rcases hs with hsolo | htotal
    · exact .inl (hsolo.update (by simp [hcalls]) calls)
    · right
      have hone := total_update hcalls
      dsimp only
      rw [List.length_append, List.length_singleton]
      omega

/-- When calls are few, a full queue leaves at most one producer with calls. -/
theorem FewCalls.solo {qSize : ℕ} {s : ThreadPool τ W P} (h : FewCalls qSize s)
    (hfull : s.mTasks.length = qSize) : Solo s.calls := by
  rcases h with hsolo | htotal
  · exact hsolo
  · exact solo_of_total (by omega)

/-- A producer waits only while the queue is full, or, in a queue for one
task, while another producer is about to fill it. -/
def WaitsFull (qSize : ℕ) (s : ThreadPool τ W P) : Prop :=
  ∀ p, s.producers p = .waiting →
    s.mTasks.length = qSize ∨ qSize = 1 ∧ ∃ p', s.WantsAdd p'

/-- A producer that moves to another place than waiting leaves the others alone. -/
theorem update_waiting {producers : Fin P → ProducerAt} {p j : Fin P} (a : ProducerAt)
    (ha : a ≠ .waiting) (h : Function.update producers p a j = .waiting) :
    j ≠ p ∧ producers j = .waiting := by
  by_cases hj : j = p
  · rw [hj, Function.update_self] at h
    exact absurd h ha
  · rw [Function.update_of_ne hj] at h
    exact ⟨hj, h⟩

theorem QuietMove.waitsFull {qSize : ℕ} {s s' : ThreadPool τ W P} (h : QuietMove qSize s s')
    (hs : QuietInv qSize s) (hfew : qSize = 1 ∨ FewCalls qSize s) (hwait : WaitsFull qSize s) :
    WaitsFull qSize s' := by
  cases h with
  | worker h => exact hwait
  | @take i t rest who producers h hqueue hpost =>
    intro j hj
    have hlen := hs.bounded
    rw [hqueue, List.length_cons] at hlen
    have hj₀ : s.producers j = .waiting := hpost.waited hj
    have hfull : rest.length + 1 = qSize := by
      rcases hwait j hj₀ with hfull | ⟨hone, -⟩
      · rw [hqueue] at hfull
        exact hfull
      · omega
    rw [decide_eq_true hfull] at hpost
    obtain ⟨k, hk, hwoken⟩ := hpost.wakes hj₀
    rcases hfew with hone | hfew
    · exact .inr ⟨hone, k, .inr (by dsimp only; rw [hwoken, Function.update_self])⟩
    · -- the woken producer is the only one with calls, hence the one that waited
      have hsolo := hfew.solo (by rw [hqueue]; exact hfull)
      have hjk : j = k := hsolo j k (hs.calling j (by rw [hj₀]; exact nofun))
        (hs.calling k (by rw [hk]; exact nofun))
      have hj' : producers j = .waiting := hj
      rw [hwoken, hjk, Function.update_self] at hj'
      cases hj'
  | @call p h hcalls =>
    intro j hj
    obtain ⟨-, hj₀⟩ := update_waiting .locking nofun hj
    rcases hwait j hj₀ with hfull | ⟨hone, -⟩
    · exact .inl hfull
    · exact .inr ⟨hone, p, .inl (Function.update_self ..)⟩
  | @addWait p h hfull =>
    intro j hj
    have hlen := hs.bounded
    left
    change s.mTasks.length = qSize
    omega
  | @push p t calls who workers h hcalls hroom hpost =>
    intro j hj
    obtain ⟨-, hj₀⟩ := update_waiting .outside nofun hj
    rcases hwait j hj₀ with hfull | ⟨hone, -⟩
    · omega
    · left
      dsimp only
      rw [List.length_append, List.length_singleton]
      omega

/-- No wakeup is lost when every pop signals or at most one producer can be blocked. -/
theorem noLostWakeup_of_few {qSize : ℕ} {calls : Fin P → List τ} (hW : 0 < W) (hq : 0 < qSize)
    (h : qSize = 1 ∨ Solo calls ∨ total calls ≤ qSize + 1) : NoLostWakeup W qSize calls := by
  intro s hreach hstuck
  have hstart : (qSize = 1 ∨ FewCalls qSize (started (W := W) calls)) ∧
      WaitsFull qSize (started (W := W) calls) := by
    refine ⟨?_, fun p hp => by cases hp⟩
    rcases h with hone | hsolo | htotal
    · exact .inl hone
    · exact .inr (.inl hsolo)
    · exact .inr (.inr htotal)
  have hinv := undisturbed_invariant
    (I := fun s => (qSize = 1 ∨ FewCalls qSize s) ∧ WaitsFull qSize s) hstart ?_ hreach
  · obtain ⟨hs, -, hwait⟩ := hinv
    obtain ⟨-, hempty, hprod⟩ := stuck_state hW hq hs hstuck
    refine ⟨hempty, fun p => ?_⟩
    rcases hprod p with hp | hp
    · exfalso
      rcases hwait p hp with hfull | ⟨-, p', hp'⟩
      · rw [hempty, List.length_nil] at hfull
        omega
      · rcases hprod p' with hout | hout <;> rcases hp' with hin | hin <;>
          rw [hout] at hin <;> cases hin
    · exact hp
  · rintro s s' hs ⟨hfew, hwait⟩ hmove
    refine ⟨?_, hmove.waitsFull hs hfew hwait⟩
    rcases hfew with hone | hfew
    · exact .inl hone
    · exact .inr (hmove.fewCalls hfew)

/-- Moves a worker can still make before it waits, tasks aside. -/
def workerRank : WorkerAt τ → ℕ
  | .running _ => 3
  | .loopTest => 2
  | .locking => 1
  | .woken => 1
  | .waiting => 0
  | .exited => 0

/-- A bound for the moves of a producer with `n` calls left, and for what its
pushes let the workers do. -/
def producerRank (n : ℕ) : ProducerAt → ℕ
  | .outside => 10 * n
  | .locking => 10 * n - 1
  | .woken => 10 * n - 1
  | .waiting => 10 * n - 2

theorem producerRank_outside (n : ℕ) : producerRank n .outside = 10 * n := rfl

theorem producerRank_locking (n : ℕ) : producerRank n .locking = 10 * n - 1 := rfl

theorem producerRank_woken (n : ℕ) : producerRank n .woken = 10 * n - 1 := rfl

theorem producerRank_waiting (n : ℕ) : producerRank n .waiting = 10 * n - 2 := rfl

theorem workerRank_woken : workerRank (.woken : WorkerAt τ) = 1 := rfl

theorem workerRank_waiting : workerRank (.waiting : WorkerAt τ) = 0 := rfl

theorem workerRank_running (t : τ) : workerRank (.running t) = 3 := rfl

/-- The rank that every quiet move lowers. -/
def rank (s : ThreadPool τ W P) : ℕ :=
  ∑ i, workerRank (s.workers i) + ∑ p, producerRank (s.calls p).length (s.producers p) +
    4 * s.mTasks.length

theorem sum_workerRank_update (workers : Fin W → WorkerAt τ) (i : Fin W) (w : WorkerAt τ) :
    ∑ j, workerRank (Function.update workers i w j) + workerRank (workers i) =
      ∑ j, workerRank (workers j) + workerRank w :=
  sum_update (fun _ => workerRank) workers i w

theorem sum_producerRank_update (calls : Fin P → List τ) (producers : Fin P → ProducerAt)
    (p : Fin P) (a : ProducerAt) :
    ∑ j, producerRank (calls j).length (Function.update producers p a j) +
        producerRank (calls p).length (producers p) =
      ∑ j, producerRank (calls j).length (producers j) + producerRank (calls p).length a :=
  sum_update (fun j => producerRank (calls j).length) producers p a

/-- A worker that gets closer to rest lowers the rank. -/
theorem rank_setWorker_lt {s : ThreadPool τ W P} {i : Fin W} {w : WorkerAt τ}
    (h : workerRank w < workerRank (s.workers i)) : rank (s.setWorker i w) < rank s := by
  have hsum := sum_workerRank_update s.workers i w
  unfold rank setWorker
  dsimp only
  omega

/-- A producer that gets closer to rest lowers the rank. -/
theorem rank_setProducer_lt {s : ThreadPool τ W P} {p : Fin P} {a : ProducerAt}
    (h : producerRank (s.calls p).length a < producerRank (s.calls p).length (s.producers p)) :
    rank (s.setProducer p a) < rank s := by
  have hsum := sum_producerRank_update s.calls s.producers p a
  unfold rank setProducer
  dsimp only
  omega

/-- A call of `AddTask` is a step towards rest. -/
theorem producerRank_call {n : ℕ} (h : 0 < n) :
    producerRank n .locking < producerRank n .outside := by
  rw [producerRank_locking, producerRank_outside]
  omega

/-- So is waiting in it. -/
theorem producerRank_wait {n : ℕ} {a : ProducerAt} (h : 0 < n) (ha : a = .locking ∨ a = .woken) :
    producerRank n .waiting < producerRank n a := by
  rcases ha with rfl | rfl
  · rw [producerRank_waiting, producerRank_locking]
    omega
  · rw [producerRank_waiting, producerRank_woken]
    omega

/-- Every quiet move lowers the rank. -/
theorem QuietMove.rank_lt {qSize : ℕ} {s s' : ThreadPool τ W P} (h : QuietMove qSize s s')
    (hs : QuietInv qSize s) : rank s' < rank s := by
  cases h with
  | @worker i w h =>
    apply rank_setWorker_lt
    cases h with
    | test h => rw [h]; exact Nat.one_lt_two
    | wait h hempty => rcases h with h | h <;> rw [h] <;> exact Nat.one_pos
    | finish h => rw [h]; exact Nat.lt_succ_self 2
  | @take i t rest who producers h hqueue hpost =>
    have hsum := sum_workerRank_update s.workers i (.running t)
    have hi : workerRank (s.workers i) = 1 := by rcases h with h | h <;> rw [h] <;> rfl
    have hprod : ∑ p, producerRank (s.calls p).length (producers p) ≤
        ∑ p, producerRank (s.calls p).length (s.producers p) + 1 := by
      rcases hpost.cases with rfl | ⟨k, hk, rfl⟩
      · exact Nat.le_succ _
      · have hsum := sum_producerRank_update s.calls s.producers k .woken
        have hpos := List.length_pos_iff.mpr (hs.calling k (by rw [hk]; exact nofun))
        rw [hk, producerRank_waiting, producerRank_woken] at hsum
        omega
    rw [workerRank_running] at hsum
    unfold rank
    dsimp only
    rw [hqueue, List.length_cons]
    omega
  | @call p h hcalls =>
    apply rank_setProducer_lt
    rw [h]
    exact producerRank_call (List.length_pos_iff.mpr hcalls)
  | @addWait p h hfull =>
    have hcalls := hs.calling p (by rcases h with h | h <;> simp [h])
    exact rank_setProducer_lt (producerRank_wait (List.length_pos_iff.mpr hcalls) h)
  | @push p t calls who workers h hcalls hroom hpost =>
    have hsum := sum_of_agree
      (f := fun j => producerRank (Function.update s.calls p calls j).length
        (Function.update s.producers p .outside j))
      (g := fun j => producerRank (s.calls j).length (s.producers j)) p
      fun j hj => by rw [Function.update_of_ne hj, Function.update_of_ne hj]
    have hp : producerRank (s.calls p).length (s.producers p) = 10 * (calls.length + 1) - 1 := by
      rw [hcalls]
      rcases h with h | h <;> rw [h] <;> rfl
    rw [hp, Function.update_self, Function.update_self, producerRank_outside] at hsum
    have hwork : ∑ i, workerRank (workers i) ≤ ∑ i, workerRank (s.workers i) + 1 := by
      rcases hpost.cases with rfl | ⟨k, hk, rfl⟩
      · exact Nat.le_succ _
      · have hsum := sum_workerRank_update s.workers k .woken
        rw [hk, workerRank_waiting, workerRank_woken] at hsum
        omega
    unfold rank
    dsimp only
    rw [List.length_append, List.length_singleton]
    omega

/-- A blocked producer that no signal will reach: the queue is kept below the
size at which a pop signals. -/
def Forgotten (qSize : ℕ) (b : Fin P) (s : ThreadPool τ W P) : Prop :=
  QuietInv qSize s ∧ s.producers b = .waiting ∧ s.mTasks.length + 1 ≤ qSize

/-- The workers drain the queue before a producer adds to it, and the
forgotten producer stays where it is. -/
theorem forgotten_moves {qSize : ℕ} {calls : Fin P → List τ} {b : Fin P} {s : ThreadPool τ W P}
    (hW : 0 < W) (hq : 2 ≤ qSize) (h : Forgotten qSize b s)
    (hmove : ¬ (undisturbed W qSize calls).Stuck s) :
    ∃ s', QuietMove qSize s s' ∧ Forgotten qSize b s' := by
  obtain ⟨hs, hb, hlen⟩ := h
  by_cases hwork : ∃ i, s.workers i ≠ .waiting
  · obtain ⟨i, hi⟩ := hwork
    rcases worker_moves hs hi with ⟨w, hw⟩ | ⟨t, rest, hw, hqueue⟩
    · have hquiet : QuietMove qSize s (s.setWorker i w) := .worker hw
      exact ⟨_, hquiet, hquiet.inv hs, hb, hlen⟩
    · rw [hqueue, List.length_cons] at hlen
      have hpost : PostIf (decide (rest.length + 1 = qSize)) ProducerAt.waiting .woken s.producers
          none s.producers := by
        rw [decide_eq_false (by omega)]
        exact ⟨rfl, rfl⟩
      have hquiet := QuietMove.take hw hqueue hpost
      exact ⟨_, hquiet, hquiet.inv hs, hb, by dsimp only; omega⟩
  · have hempty : s.mTasks = [] := by
      by_contra hne
      exact hwork (hs.awake hW hne)
    have hex : ∃ s', QuietMove qSize s s' := by
      by_contra hnone
      refine hmove fun a s' hstep => hnone ⟨s', ?_⟩
      exact (Step.quietMove hstep.2 hstep.1 hs).1
    obtain ⟨s', hquiet⟩ := hex
    have hs' := hquiet.inv hs
    refine ⟨s', hquiet, hs', ?_⟩
    cases hquiet with
    | worker h => exact ⟨hb, hlen⟩
    | take h hqueue hpost =>
      rw [hempty] at hqueue
      cases hqueue
    | @call p h hcalls =>
      refine ⟨?_, hlen⟩
      rw [setProducer_of_ne, hb]
      rintro rfl
      rw [hb] at h
      cases h
    | addWait h hfull =>
      rw [hempty, List.length_nil] at hfull
      omega
    | @push p t calls who workers h hcalls hroom hpost =>
      constructor
      · dsimp only
        rw [Function.update_of_ne, hb]
        rintro rfl
        rcases h with h | h <;> rw [hb] at h <;> cases h
      · dsimp only
        rw [hempty]
        exact hq

/-- A reachable state with a forgotten producer leads to a lost wakeup. -/
theorem Forgotten.lost {qSize : ℕ} {calls : Fin P → List τ} {b : Fin P} {s : ThreadPool τ W P}
    (hW : 0 < W) (hq : 2 ≤ qSize) (h : Forgotten qSize b s)
    (hreach : (undisturbed W qSize calls).Reachable s) : ¬ NoLostWakeup W qSize calls := by
  intro hnone
  obtain ⟨t, hleads, hforgot, hstuck⟩ := System.exists_stuck (M := undisturbed W qSize calls)
    rank (J := Forgotten qSize b) (fun u hu hmove => by
      obtain ⟨u', hquiet, hu'⟩ := forgotten_moves hW hq hu hmove
      obtain ⟨a, ha, hstep⟩ := hquiet.step hu.1
      exact ⟨a, u', ⟨ha, hstep⟩, hu', hquiet.rank_lt hu.1⟩) h
  have hout := (hnone t (hreach.leads hleads) hstuck).2 b
  rw [hforgot.2.1] at hout
  cases hout

theorem QuietMove.reachable {qSize : ℕ} {calls : Fin P → List τ} {s s' : ThreadPool τ W P}
    (h : QuietMove qSize s s') (hreach : (undisturbed W qSize calls).Reachable s) :
    (undisturbed W qSize calls).Reachable s' := by
  obtain ⟨a, ha, hstep⟩ := h.step (.of_reachable hreach)
  exact hreach.leads (.single (a := a) ⟨ha, hstep⟩)

/-- A producer makes a call that finds room in the queue. -/
theorem supply {qSize : ℕ} {calls : Fin P → List τ} {s : ThreadPool τ W P} {p : Fin P} {t : τ}
    {rest : List τ} {who : Option (Fin W)} {workers : Fin W → WorkerAt τ}
    (hreach : (undisturbed W qSize calls).Reachable s) (hout : s.producers p = .outside)
    (hcalls : s.calls p = t :: rest) (hroom : s.mTasks.length < qSize)
    (hpost : PostIf (decide (s.mTasks = [])) .waiting .woken s.workers who workers) :
    (undisturbed W qSize calls).Reachable
      { s with mTasks := s.mTasks ++ [t], workers := workers,
               calls := Function.update s.calls p rest } := by
  have hcall : QuietMove qSize s (s.setProducer p .locking) := .call hout (by simp [hcalls])
  have hpush : QuietMove qSize (s.setProducer p .locking) _ :=
    .push (.inl (setProducer_self ..)) hcalls hroom hpost
  have hback : Function.update (s.setProducer p .locking).producers p .outside = s.producers := by
    unfold setProducer
    rw [Function.update_idem, ← hout, Function.update_eq_self]
  rw [hback] at hpush
  exact hpush.reachable (hcall.reachable hreach)

/-- With three calls left, one can be made that leaves both of two producers
with a call. -/
theorem exists_spare {calls : Fin P → List τ} {a b : Fin P} (hab : a ≠ b) (ha : calls a ≠ [])
    (hb : calls b ≠ []) (htotal : 3 ≤ total calls) :
    ∃ p t rest, calls p = t :: rest ∧ Function.update calls p rest a ≠ [] ∧
      Function.update calls p rest b ≠ [] := by
  by_contra hnone
  have hother : ∀ p, p ≠ a ∧ p ≠ b → (calls p).length = 0 := by
    rintro p ⟨hpa, hpb⟩
    cases hp : calls p with
    | nil => rfl
    | cons t rest =>
      refine absurd ⟨p, t, rest, hp, ?_, ?_⟩ hnone
      · rwa [Function.update_of_ne hpa.symm]
      · rwa [Function.update_of_ne hpb.symm]
  have hone : (calls a).length ≤ 1 := by
    by_contra hlong
    match hp : calls a with
    | [] => exact ha hp
    | [t] => rw [hp] at hlong; exact hlong (Nat.le_refl _)
    | t :: u :: rest =>
      refine absurd ⟨a, t, u :: rest, hp, ?_, ?_⟩ hnone
      · rw [Function.update_self]
        exact List.cons_ne_nil u rest
      · rwa [Function.update_of_ne hab.symm]
  have hone' : (calls b).length ≤ 1 := by
    by_contra hlong
    match hp : calls b with
    | [] => exact hb hp
    | [t] => rw [hp] at hlong; exact hlong (Nat.le_refl _)
    | t :: u :: rest =>
      refine absurd ⟨b, t, u :: rest, hp, ?_, ?_⟩ hnone
      · rwa [Function.update_of_ne hab]
      · rw [Function.update_self]
        exact List.cons_ne_nil u rest
  have hsum : total calls = (calls a).length + (calls b).length :=
    Finset.sum_eq_add a b hab (fun p _ hp => hother p hp)
      (fun h => absurd (Finset.mem_univ a) h) (fun h => absurd (Finset.mem_univ b) h)
  omega

/-- Producers have pushed `k` tasks, no worker has moved, and two producers
still have calls. -/
structure Filling (calls : Fin P → List τ) (a b : Fin P) (k : ℕ) (s : ThreadPool τ W P) : Prop where
  /-- No worker has moved. -/
  idle : ∀ i, s.workers i = .loopTest
  /-- No producer is inside `AddTask`. -/
  outside : ∀ p, s.producers p = .outside
  /-- The tasks pushed. -/
  filled : s.mTasks.length = k
  /-- The first producer still has calls. -/
  left_calls : s.calls a ≠ []
  /-- The second producer still has calls. -/
  right_calls : s.calls b ≠ []
  /-- No call is lost. -/
  conserved : total s.calls + k = total calls

/-- The queue can be filled with two producers left over. -/
theorem exists_filling {qSize : ℕ} {calls : Fin P → List τ} {a b : Fin P} (hab : a ≠ b)
    (ha : calls a ≠ []) (hb : calls b ≠ []) (htotal : qSize + 2 ≤ total calls) {k : ℕ}
    (hk : k ≤ qSize) :
    ∃ s, (undisturbed W qSize calls).Reachable s ∧ Filling calls a b k s := by
  induction k with
  | zero =>
    exact ⟨started calls, ⟨started calls, rfl, .refl _⟩,
      ⟨fun _ => rfl, fun _ => rfl, rfl, ha, hb, rfl⟩⟩
  | succ k ih =>
    obtain ⟨s, hreach, hfill⟩ := ih (by omega)
    have hcons := hfill.conserved
    have hlen := hfill.filled
    obtain ⟨p, t, rest, hp, hpa, hpb⟩ :=
      exists_spare hab hfill.left_calls hfill.right_calls (by omega)
    have hidle : PostIf (decide (s.mTasks = [])) WorkerAt.waiting .woken s.workers none s.workers :=
      .idle fun i hi => by rw [hfill.idle i] at hi; cases hi
    have hone := total_update hp
    refine ⟨_, supply hreach (hfill.outside p) hp (by omega) hidle, hfill.idle, hfill.outside, ?_,
      hpa, hpb, ?_⟩
    · rw [List.length_append, List.length_singleton]
      omega
    · dsimp only
      omega

/-- A producer that calls `AddTask` on a full queue goes to its wait. -/
theorem block {qSize : ℕ} {calls : Fin P → List τ} {s : ThreadPool τ W P} {p : Fin P}
    (hreach : (undisturbed W qSize calls).Reachable s) (hout : s.producers p = .outside)
    (hcalls : s.calls p ≠ []) (hfull : qSize ≤ s.mTasks.length) :
    (undisturbed W qSize calls).Reachable (s.setProducer p .waiting) := by
  have hcall : QuietMove qSize s (s.setProducer p .locking) := .call hout hcalls
  have hwait : QuietMove qSize (s.setProducer p .locking)
      ((s.setProducer p .locking).setProducer p .waiting) :=
    .addWait (.inl (setProducer_self ..)) hfull
  have hsame : (s.setProducer p .locking).setProducer p .waiting = s.setProducer p .waiting := by
    unfold setProducer
    rw [Function.update_idem]
  rw [hsame] at hwait
  exact hwait.reachable (hcall.reachable hreach)

/-- Two producers are blocked, one pop wakes one of them, and the other is forgotten. -/
theorem lost_wakeup {qSize : ℕ} {calls : Fin P → List τ} {a b : Fin P} (hW : 0 < W)
    (hq : 2 ≤ qSize) (hab : a ≠ b) (ha : calls a ≠ []) (hb : calls b ≠ [])
    (htotal : qSize + 2 ≤ total calls) : ¬ NoLostWakeup W qSize calls := by
  obtain ⟨s, hreach, hfill⟩ :=
    exists_filling (W := W) hab ha hb htotal (Nat.le_refl qSize)
  have hfull : qSize ≤ s.mTasks.length := Nat.le_of_eq hfill.filled.symm
  have hreach₁ := block hreach (hfill.outside a) hfill.left_calls hfull
  have hb₁ : (s.setProducer a .waiting).producers b = .outside := by
    rw [setProducer_of_ne _ hab.symm]
    exact hfill.outside b
  have hreach₂ := block hreach₁ hb₁ hfill.right_calls hfull
  generalize hs₂_eq : (s.setProducer a .waiting).setProducer b .waiting = s₂ at hreach₂
  have hworkers : s₂.workers ⟨0, hW⟩ = .loopTest := by
    rw [← hs₂_eq]
    exact hfill.idle ⟨0, hW⟩
  have hwait_a : s₂.producers a = .waiting := by
    rw [← hs₂_eq, setProducer_of_ne _ hab, setProducer_self]
  have hwait_b : s₂.producers b = .waiting := by
    rw [← hs₂_eq, setProducer_self]
  have hlen : s₂.mTasks.length = qSize := by
    rw [← hs₂_eq]
    exact hfill.filled
  have htest : QuietMove qSize s₂ (s₂.setWorker ⟨0, hW⟩ .locking) := .worker (.test hworkers)
  cases hqueue : s₂.mTasks with
  | nil =>
    rw [hqueue, List.length_nil] at hlen
    omega
  | cons t rest =>
    rw [hqueue, List.length_cons] at hlen
    have hpost : PostIf (decide (rest.length + 1 = qSize)) ProducerAt.waiting .woken
        (s₂.setWorker ⟨0, hW⟩ .locking).producers (some a) (Function.update s₂.producers a .woken) := by
      rw [decide_eq_true hlen]
      exact Post.wake a hwait_a
    have htake := QuietMove.take (.inl (setWorker_self s₂ ⟨0, hW⟩ .locking)) hqueue hpost
    have hreach₃ := htake.reachable (htest.reachable hreach₂)
    refine Forgotten.lost (b := b) hW hq ⟨.of_reachable hreach₃, ?_, ?_⟩ hreach₃
    · dsimp only
      rw [Function.update_of_ne hab.symm]
      exact hwait_b
    · dsimp only
      omega

/-- The pool loses no wakeup exactly when its queue holds one task, at most
one thread calls `AddTask`, or the calls exceed the queue by at most one. -/
theorem noLostWakeup_iff {qSize : ℕ} {calls : Fin P → List τ} (hW : 1 ≤ W) (hq : 1 ≤ qSize) :
    NoLostWakeup W qSize calls ↔
      qSize = 1 ∨ (∀ p p', calls p ≠ [] → calls p' ≠ [] → p = p') ∨
        ∑ p, (calls p).length ≤ qSize + 1 := by
  constructor
  · intro hnone
    by_cases hone : qSize = 1
    · exact .inl hone
    · right
      by_contra hfew
      obtain ⟨hsolo, htotal⟩ := not_or.mp hfew
      push Not at hsolo
      obtain ⟨a, b, ha, hb, hab⟩ := hsolo
      exact lost_wakeup hW (by omega) hab ha hb (by unfold total; omega) hnone
  · intro h
    exact noLostWakeup_of_few hW hq h

/-- One worker, one producer. -/
theorem noLostWakeup_iff_sample :
    NoLostWakeup 1 2 (fun _ : Fin 1 => [0, 1, 2, 3]) ↔
      2 = 1 ∨ (∀ p p' : Fin 1, [0, 1, 2, 3] ≠ [] → [0, 1, 2, 3] ≠ [] → p = p') ∨
        ∑ _p : Fin 1, [0, 1, 2, 3].length ≤ 2 + 1 :=
  noLostWakeup_iff (Nat.le_refl 1) (by omega)

/-- One worker, a queue for two tasks, a producer of three tasks and one of one task. -/
theorem second_producer_forgotten :
    ¬ ∀ (W P qSize : ℕ) (calls : Fin P → List ℕ), 1 ≤ W → 1 ≤ qSize →
      NoLostWakeup W qSize calls := by
  intro hall
  have hnone := hall 1 2 2 (fun p => if p = 0 then [0, 1, 2] else [3]) (Nat.le_refl 1) (by omega)
  exact lost_wakeup (a := 0) (b := 1) Nat.one_pos (Nat.le_refl 2) (by decide) (by decide)
    (by decide) (by decide) hnone

/-- Without `Stop`, spurious wakeups included, the pool keeps running. -/
theorem Step.quietInv {qSize : ℕ} {s s' : ThreadPool τ W P} {a : Label τ W P}
    (h : Step qSize s a s') (ha : a ≠ .stopCall) (hs : QuietInv qSize s) : QuietInv qSize s' := by
  refine ⟨h.inv hs.toInv, ?_⟩
  have hstop := hs.notStopped
  cases h with
  | stopCall h => exact absurd rfl ha
  | stopLock h => rw [hstop] at h; cases h
  | join h hexited => rw [hstop] at h; cases h
  | stopReturn h => rw [hstop] at h; cases h
  | _ => exact hstop

/-- A producer that wakes up unsignalled leaves the others where they are. -/
theorem Step.waitsFull {qSize : ℕ} {s s' : ThreadPool τ W P} {a : Label τ W P}
    (h : Step qSize s a s') (ha : a ≠ .stopCall) (hs : QuietInv qSize s) (hsolo : Solo s.calls)
    (hwait : WaitsFull qSize s) : WaitsFull qSize s' := by
  cases hquiet : a.quiet with
  | true => exact (h.quietMove hquiet hs).1.waitsFull hs (.inr (.inl hsolo)) hwait
  | false =>
    cases h with
    | stopCall h => exact absurd rfl ha
    | spuriousWorker h => exact hwait
    | @spuriousProducer p hp =>
      intro j hj
      obtain ⟨-, hj₀⟩ := update_waiting .woken nofun hj
      rcases hwait j hj₀ with hfull | ⟨hone, -⟩
      · exact .inl hfull
      · exact .inr ⟨hone, p, .inr (Function.update_self ..)⟩
    | _ => cases hquiet

/-- A producer without calls stays outside. -/
theorem Step.outside {qSize : ℕ} {s s' : ThreadPool τ W P} {a : Label τ W P}
    (h : Step qSize s a s') {p : Fin P} (hp : s.producers p = .outside) (hcalls : s.calls p = []) :
    s'.producers p = .outside ∧ s'.calls p = [] := by
  have hnot : ∀ {q : Fin P} {w : ProducerAt}, q ≠ p →
      Function.update s.producers q w p = .outside := by
    intro q w hq
    rw [Function.update_of_ne (Ne.symm hq)]
    exact hp
  cases h with
  | @take i t rest post who producers h hfree htake hpost =>
    exact ⟨(hpost.stays (by rw [hp]; exact nofun)).trans hp, hcalls⟩
  | @call q h hne =>
    refine ⟨hnot ?_, hcalls⟩
    rintro rfl
    exact hne hcalls
  | @addWait q t calls h hfree hnext hadd =>
    refine ⟨hnot ?_, hcalls⟩
    rintro rfl
    cases hcalls.symm.trans hnext
  | @push q t calls mTasks post who workers h hfree hnext hadd hpost =>
    have hq : q ≠ p := by
      rintro rfl
      cases hcalls.symm.trans hnext
    refine ⟨hnot hq, ?_⟩
    dsimp only
    rw [Function.update_of_ne (Ne.symm hq)]
    exact hcalls
  | stopLock h =>
    refine ⟨?_, hcalls⟩
    dsimp only
    rw [hp]
    rfl
  | @spuriousProducer q hq =>
    refine ⟨hnot ?_, hcalls⟩
    rintro rfl
    cases hp.symm.trans hq
  | _ => exact ⟨hp, hcalls⟩

end KyrosWebServer.Base.ThreadPool
