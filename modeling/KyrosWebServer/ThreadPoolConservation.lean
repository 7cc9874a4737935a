import KyrosWebServer.ThreadPoolTasks
import KyrosWebServer.ThreadPoolWakeup

/-!
# Work conservation of the thread pool

`AddTask` signals only the push that finds the queue empty. A second push
before the woken worker has the mutex back wakes nobody, so a worker may go on
waiting beside a queued task while all others run theirs. With one producer
that happens in some run exactly when there are two workers, room for two
tasks and a call for each worker.
-/

namespace KyrosWebServer.Base.ThreadPool

open TransitionSystem Condition

variable {τ : Type} {W P : ℕ}

/-- A queued task must wait for a running one to return although a worker is
idle: that worker waits and is not woken, and all others are inside a task. -/
def IdleBesideTask (s : ThreadPool τ W P) : Prop :=
  s.mTasks ≠ [] ∧ ∃ i, s.workers i = .waiting ∧ ∀ j, j ≠ i → ∃ t, s.workers j = .running t

/-- No run of the pool leaves a worker idle beside a task. -/
def WorkConserving (W qSize : ℕ) (calls : Fin P → List τ) : Prop :=
  ∀ s, (system W qSize calls).Reachable s → ¬ s.IdleBesideTask

/-- `Stop` has joined the thread. -/
def Joined (i : ℕ) : StopAt → Prop
  | .joining k => i < k
  | .returned => True
  | _ => False

/-- A worker that has moved waits only where it moved to its wait. -/
theorem setWorker_waiting {s : ThreadPool τ W P} {i j : Fin W} {w : WorkerAt τ} (hw : w ≠ .waiting)
    (h : (s.setWorker j w).workers i = .waiting) : s.workers i = .waiting := by
  by_cases hij : i = j
  · rw [hij, setWorker_self] at h
    exact absurd h hw
  · rwa [setWorker_of_ne w hij] at h

/-- A worker waits after a move only if it waited before, or found the queue
empty; the move that clears `isRunning` leaves nobody waiting. -/
theorem Step.waits {qSize : ℕ} {s s' : ThreadPool τ W P} {a : Label τ W P} (h : Step qSize s a s')
    {i : Fin W} (hi : s'.workers i = .waiting) :
    s'.isRunning = s.isRunning ∧
      (s.workers i = .waiting ∨ s.WantsTake i ∧ s.MutexFree ∧ s'.mTasks = []) := by
  cases h with
  | @test j h =>
    refine ⟨rfl, .inl (setWorker_waiting ?_ hi)⟩
    split <;> exact nofun
  | @takeWait j h hfree htake =>
    refine ⟨rfl, ?_⟩
    by_cases hij : i = j
    · subst hij
      exact .inr ⟨h, hfree, take_eq_none.mp htake⟩
    · rw [setWorker_of_ne _ hij] at hi
      exact .inl hi
  | @take j t rest post who producers h hfree htake hpost =>
    exact ⟨rfl, .inl (setWorker_waiting (s := s) (WorkerAt.after_ne t).1 hi)⟩
  | finish h => exact ⟨rfl, .inl (setWorker_waiting (w := .loopTest) nofun hi)⟩
  | push h hfree hcalls hadd hpost => exact ⟨rfl, .inl (hpost.waited hi)⟩
  | stopLock h =>
    exfalso
    dsimp only at hi
    cases hw : s.workers i <;> rw [hw] at hi <;> cases hi
  | spuriousWorker h => exact ⟨rfl, .inl (setWorker_waiting (w := .woken) nofun hi)⟩
  | _ => exact ⟨rfl, .inl hi⟩

/-- A worker that has ended does not come back. -/
theorem Step.exited {qSize : ℕ} {s s' : ThreadPool τ W P} {a : Label τ W P} (h : Step qSize s a s')
    {i : Fin W} (hi : s.workers i = .exited) : s'.workers i = .exited := by
  have hother : ∀ {j : Fin W} (w : WorkerAt τ), s.workers j ≠ .exited →
      (s.setWorker j w).workers i = .exited := by
    intro j w hj
    rw [setWorker_of_ne]
    · exact hi
    · rintro rfl
      exact hj hi
  have hwants : ∀ {j : Fin W}, s.WantsTake j → s.workers j ≠ .exited := by
    intro j hj
    rcases hj with hj | hj <;> rw [hj] <;> exact nofun
  cases h with
  | test h => exact hother _ (by rw [h]; exact nofun)
  | takeWait h hfree htake => exact hother _ (hwants h)
  | take h hfree htake hpost => exact hother _ (hwants h)
  | finish h => exact hother _ (by rw [h]; exact nofun)
  | push h hfree hcalls hadd hpost =>
    have hstay := hpost.stays (j := i) (by rw [hi]; exact nofun)
    exact hstay.trans hi
  | stopLock h =>
    dsimp only
    rw [hi]
    rfl
  | spuriousWorker h => exact hother _ (by rw [h]; exact nofun)
  | _ => exact hi

/-- What `Stop` has done to the workers. -/
structure StopInv (s : ThreadPool τ W P) : Prop where
  /-- A joined worker has ended. -/
  joined : ∀ i : Fin W, Joined i s.stop → s.workers i = .exited
  /-- Once `isRunning` is cleared nobody waits. -/
  roused : s.isRunning = false → ∀ i, s.workers i ≠ .waiting

theorem started_stopInv (calls : Fin P → List τ) : StopInv (started (W := W) calls) where
  joined _ h := h.elim
  roused h := by cases h

/-- When `Stop` has had the mutex and does not have it, it has joined every worker. -/
theorem StopInv.exited {qSize : ℕ} {s : ThreadPool τ W P} (h : StopInv s) (hs : Inv qSize s)
    (hrun : s.isRunning = false) (hfree : s.MutexFree) (i : Fin W) : s.workers i = .exited := by
  apply h.joined
  have hcalled := mt hs.running.mpr (by rw [hrun]; exact nofun)
  cases hstop : s.stop with
  | notCalled => exact absurd (.inl hstop) hcalled
  | locking => exact absurd (.inr hstop) hcalled
  | joining k => exact absurd hstop (hfree k)
  | returned => trivial

theorem Step.stopInv {qSize : ℕ} {s s' : ThreadPool τ W P} {a : Label τ W P} (h : Step qSize s a s')
    (hs : Inv qSize s) (hstop : StopInv s) : StopInv s' := by
  constructor
  · intro i hi
    have hkept : Joined i s.stop → s'.workers i = .exited := fun hj => h.exited (hstop.joined i hj)
    cases h with
    | stopCall h => cases hi
    | stopLock h => exact absurd hi (Nat.not_lt_zero _)
    | @join j h hexited =>
      by_cases hij : i = j
      · rw [hij]
        exact hexited
      · apply hkept
        rw [h]
        have hne : (i : ℕ) ≠ j := fun hval => hij (Fin.ext hval)
        change (i : ℕ) < j + 1 at hi
        change (i : ℕ) < j
        omega
    | stopReturn h =>
      apply hkept
      rw [h]
      exact i.isLt
    | _ => exact hkept hi
  · intro hrun i hi
    obtain ⟨hsame, hwaits⟩ := h.waits hi
    rw [hsame] at hrun
    rcases hwaits with hwait | ⟨hwants, hfree, -⟩
    · exact hstop.roused hrun i hwait
    · have hexited := hstop.exited hs hrun hfree i
      rcases hwants with hw | hw <;> rw [hexited] at hw <;> cases hw

/-- A queued task has a woken worker on its way to it, or nobody waits. -/
def Served (s : ThreadPool τ W P) : Prop :=
  s.mTasks ≠ [] → ∀ i, s.workers i = .waiting → ∃ j, s.workers j = .woken

/-- In a queue for one task every push signals, and every pop empties it. -/
theorem Step.served {qSize : ℕ} {s s' : ThreadPool τ W P} {a : Label τ W P} (h : Step qSize s a s')
    (hs : Inv qSize s) (hstop : StopInv s) (hone : qSize ≤ 1) (hserved : s.Served) : s'.Served := by
  intro hqueue i hi
  obtain ⟨hsame, hwaits⟩ := h.waits hi
  have hwait : s.workers i = .waiting := by
    rcases hwaits with hwait | ⟨-, -, hempty⟩
    · exact hwait
    · exact absurd hempty hqueue
  have hrun : s.isRunning = true := by
    cases hrun : s.isRunning with
    | false => exact absurd hwait (hstop.roused hrun i)
    | true => rfl
  -- the woken worker goes on only to empty the queue
  have hkept : ∀ {j : Fin W} (w : WorkerAt τ), s.mTasks ≠ [] → s.workers j ≠ .woken →
      ∃ k, (s.setWorker j w).workers k = .woken := by
    intro j w hne hj
    obtain ⟨k, hk⟩ := hserved hne i hwait
    refine ⟨k, ?_⟩
    rw [setWorker_of_ne]
    · exact hk
    · rintro rfl
      exact hj hk
  have hlen := hs.bounded
  cases h with
  | test h => exact hkept _ hqueue (by rw [h]; exact nofun)
  | takeWait h hfree htake => exact absurd (take_eq_none.mp htake) hqueue
  | @take j t rest post who producers h hfree htake hpost =>
    obtain ⟨-, htasks, hsome, -⟩ := take_eq_some htake
    cases t with
    | none => exact absurd rfl (hsome.mp hrun)
    | some t =>
      rw [htasks, Option.toList_some, List.singleton_append, List.length_cons] at hlen
      have hrest : 0 < rest.length := List.length_pos_iff.mpr hqueue
      omega
  | finish h => exact hkept _ hqueue (by rw [h]; exact nofun)
  | push h hfree hcalls hadd hpost =>
    obtain ⟨hroom, -, hsignal⟩ := addTask_eq_some hadd
    have hempty : s.mTasks = [] := List.length_eq_zero_iff.mp (by omega)
    rw [hsignal.mpr hempty] at hpost
    obtain ⟨k, -, rfl⟩ := hpost.wakes hwait
    exact ⟨k, Function.update_self ..⟩
  | @spuriousWorker j h => exact ⟨j, setWorker_self ..⟩
  | stopLock h =>
    rw [hrun] at hsame
    cases hsame
  | _ => exact hserved hqueue i hwait

/-- A pool with room for one task never leaves a worker idle beside it. -/
theorem workConserving_of_single {qSize : ℕ} {calls : Fin P → List τ} (hone : qSize ≤ 1) :
    WorkConserving W qSize calls := by
  intro s hreach
  have hinv : Inv qSize s ∧ StopInv s ∧ s.Served := by
    refine hreach.invariant (I := fun s => Inv qSize s ∧ StopInv s ∧ s.Served) ?_ ?_
    · rintro s rfl
      refine ⟨started_inv qSize calls, started_stopInv calls, ?_⟩
      intro hqueue
      exact absurd rfl hqueue
    · rintro s a s' ⟨hs, hstop, hserved⟩ hstep
      exact ⟨hstep.inv hs, hstep.stopInv hs hstop, hstep.served hs hstop hone hserved⟩
  rintro ⟨hqueue, i, hwait, hbusy⟩
  obtain ⟨j, hj⟩ := hinv.2.2 hqueue i hwait
  have hne : j ≠ i := by
    rintro rfl
    rw [hwait] at hj
    cases hj
  obtain ⟨t, ht⟩ := hbusy j hne
  rw [ht] at hj
  cases hj

/-- A single worker does not wait while a task is queued. -/
theorem workConserving_of_worker {qSize : ℕ} {calls : Fin P → List τ} (hW : W ≤ 1) :
    WorkConserving W qSize calls := by
  rintro s hreach ⟨hqueue, i, hwait, -⟩
  obtain ⟨j, hj⟩ := (reachable_inv hreach).awake i.pos hqueue
  have hij : j = i := Fin.ext (by omega)
  rw [hij] at hj
  exact hj hwait

/-- The tasks that are not finished are no more than the calls of the producers. -/
theorem load_le_calls {qSize : ℕ} {calls : Fin P → List τ} {s : ThreadPool τ W P}
    (hreach : (system W qSize calls).Reachable s) : s.load (fun _ => 1) ≤ total calls := by
  refine hreach.invariant (I := fun s => s.load (fun _ => 1) ≤ total calls) ?_ ?_
  · rintro s rfl
    have hlength : ∀ ts : List τ, (ts.map fun _ => 1).sum = ts.length := by
      intro ts
      rw [List.map_const', List.sum_replicate_nat, Nat.mul_one]
    simp only [load, started, weight, total, hlength, List.length_nil, Finset.sum_const_zero,
      Nat.add_zero, Nat.le_refl]
  · intro s a s' hs hstep
    have hload := hstep.load fun _ => 1
    omega

/-- With fewer calls than workers there is no task left to wait. -/
theorem workConserving_of_calls {qSize : ℕ} {calls : Fin P → List τ} (hcalls : total calls < W) :
    WorkConserving W qSize calls := by
  rintro s hreach ⟨hqueue, i, -, hbusy⟩
  have hload := load_le_calls hreach
  have hcount := count_le_load (w := fun _ => 1) (s := s) (p := fun _ => true)
    (q := fun j => decide (j ≠ i)) (fun _ _ _ => Nat.le_refl 1) (fun j hj => by
      obtain ⟨t, ht⟩ := hbusy j (of_decide_eq_true hj)
      rw [ht]
      exact Nat.le_refl 1)
  have hothers : (Finset.univ.filter fun j => decide (j ≠ i) = true).card = W - 1 := by
    simp [Finset.filter_ne']
  have hpos : 0 < s.mTasks.length := List.length_pos_iff.mpr hqueue
  rw [hothers, List.filter_true] at hcount
  omega

/-- A worker that finds the queue empty goes to its wait. -/
theorem sleep {qSize : ℕ} {calls : Fin P → List τ} {s : ThreadPool τ W P} {i : Fin W}
    (hreach : (undisturbed W qSize calls).Reachable s) (hi : s.workers i = .loopTest)
    (hempty : s.mTasks = []) : (undisturbed W qSize calls).Reachable (s.setWorker i .waiting) := by
  have htest : QuietMove qSize s (s.setWorker i .locking) := .worker (.test hi)
  have hwait : QuietMove qSize (s.setWorker i .locking)
      ((s.setWorker i .locking).setWorker i .waiting) :=
    .worker (.wait (.inl (setWorker_self ..)) hempty)
  have hsame : (s.setWorker i .locking).setWorker i .waiting = s.setWorker i .waiting := by
    unfold setWorker
    rw [Function.update_idem]
  rw [hsame] at hwait
  exact hwait.reachable (htest.reachable hreach)

/-- A worker fetches a task while no producer is inside `AddTask`. -/
theorem fetch {qSize : ℕ} {calls : Fin P → List τ} {s : ThreadPool τ W P} {i : Fin W} {t : τ}
    {rest : List τ} (hreach : (undisturbed W qSize calls).Reachable s)
    (hi : s.workers i = .loopTest ∨ s.workers i = .woken) (hqueue : s.mTasks = t :: rest)
    (hout : ∀ p, s.producers p = .outside) :
    (undisturbed W qSize calls).Reachable
      { s with mTasks := rest, workers := Function.update s.workers i (.running t) } := by
  have hidle : PostIf (decide (rest.length + 1 = qSize)) ProducerAt.waiting .woken s.producers none
      s.producers := .idle fun p hp => by rw [hout p] at hp; cases hp
  rcases hi with hi | hi
  · have htest : QuietMove qSize s (s.setWorker i .locking) := .worker (.test hi)
    have htake : QuietMove qSize (s.setWorker i .locking) _ :=
      .take (.inl (setWorker_self ..)) hqueue hidle
    have hsame : Function.update (s.setWorker i .locking).workers i (.running t) =
        Function.update s.workers i (.running t) := Function.update_idem ..
    rw [hsame] at htake
    exact htake.reachable (htest.reachable hreach)
  · have htake := QuietMove.take (.inr hi) hqueue hidle
    exact htake.reachable hreach

/-- The last two workers have waited and one task has been pushed for each of
them; the first `k` workers run a task, and one task is queued. -/
structure Crowded (n : ℕ) (tasks : List τ) (k : ℕ) (s : ThreadPool τ (n + 2) 1) : Prop where
  /-- The workers that run a task. -/
  busy : ∀ i : Fin (n + 2), (i : ℕ) < k → ∃ t, s.workers i = .running t
  /-- The workers that have not moved. -/
  fresh : ∀ i : Fin (n + 2), k ≤ i → (i : ℕ) < n → s.workers i = .loopTest
  /-- The worker that was signalled. -/
  signalled : ∀ i : Fin (n + 2), k ≤ i → (i : ℕ) = n → s.workers i = .woken
  /-- The worker that was not. -/
  asleep : s.workers (Fin.last (n + 1)) = .waiting
  /-- The producer is not inside `AddTask`. -/
  outside : ∀ p, s.producers p = .outside
  /-- The queue. -/
  queued : s.mTasks.length = 1
  /-- No call is lost. -/
  conserved : (s.calls 0).length + k + 1 = tasks.length

/-- The last two workers go to their wait before anything is pushed. -/
theorem exists_asleep (n qSize : ℕ) (tasks : List τ) :
    ∃ s : ThreadPool τ (n + 2) 1, (undisturbed (n + 2) qSize fun _ => tasks).Reachable s ∧
      (∀ i : Fin (n + 2), (i : ℕ) < n → s.workers i = .loopTest) ∧
      (∀ i : Fin (n + 2), n ≤ i → s.workers i = .waiting) ∧
      (∀ p, s.producers p = .outside) ∧ s.mTasks = [] ∧ s.calls 0 = tasks := by
  have hstart : (undisturbed (n + 2) qSize fun _ : Fin 1 => tasks).Reachable
      (started fun _ => tasks) := ⟨_, rfl, .refl _⟩
  let a : Fin (n + 2) := ⟨n, by omega⟩
  have hlast : Fin.last (n + 1) ≠ a := by
    intro h
    have hval := congrArg Fin.val h
    change n + 1 = n at hval
    omega
  have hfirst := sleep hstart (i := a) rfl rfl
  have hsecond := sleep hfirst (i := Fin.last (n + 1)) (setWorker_of_ne _ hlast) rfl
  refine ⟨_, hsecond, ?_, ?_, fun _ => rfl, rfl, rfl⟩
  · intro i hi
    have hia : i ≠ a := by
      rintro rfl
      exact Nat.lt_irrefl n hi
    have hil : i ≠ Fin.last (n + 1) := by
      rintro rfl
      change n + 1 < n at hi
      omega
    rw [setWorker_of_ne _ hil, setWorker_of_ne _ hia]
    rfl
  · intro i hi
    by_cases hil : i = Fin.last (n + 1)
    · rw [hil, setWorker_self]
    · have hval : (i : ℕ) ≠ n + 1 := fun h => hil (Fin.ext h)
      have hia : i = a := Fin.ext (by change (i : ℕ) = n; omega)
      rw [setWorker_of_ne _ hil, hia, setWorker_self]

/-- The first push wakes one of two workers that wait. -/
theorem exists_crowded {n qSize : ℕ} {tasks : List τ} (hq : 2 ≤ qSize) (htasks : tasks ≠ []) :
    ∃ s, (undisturbed (n + 2) qSize fun _ : Fin 1 => tasks).Reachable s ∧
      Crowded n tasks 0 s := by
  obtain ⟨t, rest, rfl⟩ := List.exists_cons_of_ne_nil htasks
  obtain ⟨s, hreach, hfresh, hwait, hout, hempty, hcalls⟩ := exists_asleep n qSize (t :: rest)
  let a : Fin (n + 2) := ⟨n, by omega⟩
  have hpost : PostIf (decide (s.mTasks = [])) WorkerAt.waiting .woken s.workers (some a)
      (Function.update s.workers a .woken) := by
    rw [decide_eq_true hempty]
    exact Post.wake a (hwait a (Nat.le_refl n))
  have hpush := supply hreach (hout 0) hcalls (by rw [hempty, List.length_nil]; omega) hpost
  have hother : ∀ i : Fin (n + 2), (i : ℕ) ≠ n → i ≠ a := fun i hi h => hi (congrArg Fin.val h)
  refine ⟨_, hpush, ⟨fun i hi => absurd hi (Nat.not_lt_zero _), ?_, ?_, ?_, hout, ?_, ?_⟩⟩
  · intro i _ hi
    dsimp only
    rw [Function.update_of_ne (hother i (Nat.ne_of_lt hi))]
    exact hfresh i hi
  · intro i _ hi
    have hia : i = a := Fin.ext hi
    dsimp only
    rw [hia, Function.update_self]
  · dsimp only
    rw [Function.update_of_ne (hother _ (by rw [Fin.val_last]; omega))]
    exact hwait _ (by rw [Fin.val_last]; omega)
  · dsimp only
    rw [hempty]
    rfl
  · dsimp only
    rw [Function.update_self]
    rfl

/-- One more push, which signals nobody, and one more worker that fetches a task. -/
theorem Crowded.next {n qSize : ℕ} {tasks : List τ} {k : ℕ} {s : ThreadPool τ (n + 2) 1}
    (hcrowd : Crowded n tasks k s) (hq : 2 ≤ qSize) (hk : k ≤ n) (hcalls : k + 2 ≤ tasks.length)
    (hreach : (undisturbed (n + 2) qSize fun _ : Fin 1 => tasks).Reachable s) :
    ∃ s', (undisturbed (n + 2) qSize fun _ : Fin 1 => tasks).Reachable s' ∧
      Crowded n tasks (k + 1) s' := by
  have hcons := hcrowd.conserved
  have hlen := hcrowd.queued
  obtain ⟨u, hqueue⟩ := List.length_eq_one_iff.mp hlen
  cases hleft : s.calls 0 with
  | nil =>
    rw [hleft, List.length_nil] at hcons
    omega
  | cons t rest =>
    rw [hleft, List.length_cons] at hcons
    have hpost : PostIf (decide (s.mTasks = [])) WorkerAt.waiting .woken s.workers none s.workers := by
      rw [decide_eq_false (by rw [hqueue]; exact List.cons_ne_nil u [])]
      exact ⟨rfl, rfl⟩
    have hpush := supply hreach (hcrowd.outside 0) hleft (by omega) hpost
    let j : Fin (n + 2) := ⟨k, by omega⟩
    have hj : s.workers j = .loopTest ∨ s.workers j = .woken := by
      by_cases hkn : k < n
      · exact .inl (hcrowd.fresh j (Nat.le_refl k) hkn)
      · exact .inr (hcrowd.signalled j (Nat.le_refl k) (by change k = n; omega))
    have htasks : s.mTasks ++ [t] = u :: [t] := by rw [hqueue, List.singleton_append]
    have hfetch := fetch hpush hj htasks hcrowd.outside
    have hother : ∀ i : Fin (n + 2), k + 1 ≤ i → i ≠ j := by
      rintro i hi rfl
      exact Nat.not_succ_le_self k hi
    refine ⟨_, hfetch, ⟨?_, ?_, ?_, ?_, hcrowd.outside, rfl, ?_⟩⟩
    · intro i hi
      dsimp only
      by_cases hij : i = j
      · exact ⟨u, by rw [hij, Function.update_self]⟩
      · rw [Function.update_of_ne hij]
        have hne : (i : ℕ) ≠ k := fun hval => hij (Fin.ext hval)
        exact hcrowd.busy i (by omega)
    · intro i hi hin
      dsimp only
      rw [Function.update_of_ne (hother i hi)]
      exact hcrowd.fresh i (by omega) hin
    · intro i hi hin
      dsimp only
      rw [Function.update_of_ne (hother i hi)]
      exact hcrowd.signalled i (by omega) hin
    · dsimp only
      rw [Function.update_of_ne (hother _ (by rw [Fin.val_last]; omega))]
      exact hcrowd.asleep
    · dsimp only
      rw [Function.update_self]
      omega

/-- With a call for each worker all but the last worker can be kept busy. -/
theorem exists_crowd {n qSize : ℕ} {tasks : List τ} (hq : 2 ≤ qSize) (hcalls : n + 2 ≤ tasks.length)
    {k : ℕ} (hk : k ≤ n + 1) :
    ∃ s, (undisturbed (n + 2) qSize fun _ : Fin 1 => tasks).Reachable s ∧ Crowded n tasks k s := by
  induction k with
  | zero =>
    apply exists_crowded hq
    rintro rfl
    rw [List.length_nil] at hcalls
    omega
  | succ k ih =>
    obtain ⟨s, hreach, hcrowd⟩ := ih (by omega)
    exact hcrowd.next hq (by omega) (by omega) hreach

/-- Two workers, room for two tasks and a call for each worker suffice to
leave a worker idle beside a task. -/
theorem leaves_idle {qSize : ℕ} {tasks : List τ} (hW : 2 ≤ W) (hq : 2 ≤ qSize)
    (hcalls : W ≤ tasks.length) : ¬ WorkConserving W qSize fun _ : Fin 1 => tasks := by
  intro hconserving
  obtain ⟨n, rfl⟩ := Nat.exists_eq_add_of_le' hW
  obtain ⟨s, hreach, hcrowd⟩ := exists_crowd hq hcalls (Nat.le_refl (n + 1))
  refine hconserving s hreach.of_restrict ⟨?_, Fin.last (n + 1), hcrowd.asleep, ?_⟩
  · apply List.ne_nil_of_length_pos
    rw [hcrowd.queued]
    exact Nat.one_pos
  · intro j hj
    have hne : (j : ℕ) ≠ n + 1 := fun hval => hj (Fin.ext hval)
    exact hcrowd.busy j (by omega)

/-- With one producer no worker is ever left idle beside a task exactly when
there is at most one worker, room for at most one task, or fewer calls than workers. -/
theorem workConserving_iff {qSize : ℕ} {tasks : List τ} :
    (WorkConserving W qSize fun _ : Fin 1 => tasks) ↔
      W ≤ 1 ∨ qSize ≤ 1 ∨ tasks.length < W := by
  constructor
  · intro hconserving
    by_cases hW : W ≤ 1
    · exact .inl hW
    by_cases hone : qSize ≤ 1
    · exact .inr (.inl hone)
    by_cases hcalls : tasks.length < W
    · exact .inr (.inr hcalls)
    · exact absurd hconserving (leaves_idle (by omega) (by omega) (by omega))
  · rintro (hW | hone | hcalls)
    · exact workConserving_of_worker hW
    · exact workConserving_of_single hone
    · apply workConserving_of_calls
      simpa [total] using hcalls

/-- Two workers that both wait, the default queue, and two calls of one producer. -/
theorem worker_left_idle :
    ¬ ∀ (W qSize : ℕ) (tasks : List ℕ), 1 ≤ qSize →
      WorkConserving W qSize fun _ : Fin 1 => tasks := by
  intro hall
  have hidle : ¬ WorkConserving 2 4 fun _ : Fin 1 => [0, 1] :=
    leaves_idle (Nat.le_refl 2) (by omega) (Nat.le_refl 2)
  exact hidle (hall 2 4 [0, 1] (by omega))

end KyrosWebServer.Base.ThreadPool
