import KyrosWebServer.ThreadPoolWakeup

/-!
# Shutdown of the thread pool

`Stop` joins the workers while it keeps the mutex that a worker inside `take`
needs to leave it. So `Stop` returns exactly when it finds no worker there,
and since a running worker can always get there first, no call of `Stop` on a
pool with workers is safe.
-/

namespace KyrosWebServer.Base.ThreadPool

open TransitionSystem Condition

variable {τ : Type} {W P : ℕ}

/-- Moves that the threads make by themselves. -/
def Label.scheduled : Label τ W P → Bool
  | .spuriousWorker _ => false
  | .spuriousProducer _ => false
  | _ => true

/-- The moves without spurious wakeups. -/
def scheduledSystem (W qSize : ℕ) (calls : Fin P → List τ) :
    System (ThreadPool τ W P) (Label τ W P) :=
  (system W qSize calls).restrict fun a => a.scheduled = true

/-- No thread can take a step. -/
def Halted (qSize : ℕ) (s : ThreadPool τ W P) : Prop :=
  ∀ (a : Label τ W P) s', a.scheduled = true → ¬ Step qSize s a s'

/-- A worker is inside `take`, on either side of the lock. -/
def InTake (s : ThreadPool τ W P) (i : Fin W) : Prop :=
  s.WantsTake i ∨ s.workers i = .waiting

/-- A producer is inside `isFull.wait()`. -/
def Blocked (s : ThreadPool τ W P) (p : Fin P) : Prop :=
  s.producers p = .waiting ∨ s.producers p = .woken

/-- `Stop` has returned, the workers have ended, and the producers that were
blocked in `c` have finished that call. -/
def ShutDown (c t : ThreadPool τ W P) : Prop :=
  t.stop = .returned ∧ (∀ i, t.workers i = .exited) ∧
    ∀ p, c.Blocked p → (t.calls p).length < (c.calls p).length

/-- Joins that are still to be made. -/
def joinsLeft (s : ThreadPool τ W P) : ℕ :=
  match s.stop with
  | .joining k => W - k
  | _ => 0

theorem WorkerAt.wake_wants {w : WorkerAt τ} (h : w = .locking ∨ w = .woken ∨ w = .waiting) :
    w.wake = .locking ∨ w.wake = .woken := by
  rcases h with h | h | h <;> rw [h]
  · exact .inl rfl
  · exact .inr rfl
  · exact .inr rfl

/-- `Stop` waits for a worker that waits for the mutex. -/
structure Deadlocked (qSize : ℕ) (i : Fin W) (s : ThreadPool τ W P) : Prop where
  /-- The invariant of the pool. -/
  inv : Inv qSize s
  /-- `Stop` has not got behind the worker. -/
  joining : ∃ k, s.stop = .joining k ∧ k ≤ i
  /-- The worker needs the mutex. -/
  wants : s.WantsTake i

/-- No move resolves the deadlock, and each brings the other threads closer to rest. -/
theorem Deadlocked.step {qSize : ℕ} {i : Fin W} {s s' : ThreadPool τ W P} {a : Label τ W P}
    (h : Deadlocked qSize i s) (ha : a.scheduled = true) (hstep : Step qSize s a s') :
    Deadlocked qSize i s' ∧ rank s' + joinsLeft s' < rank s + joinsLeft s := by
  obtain ⟨hs, ⟨k, hstop, hk⟩, hwants⟩ := h
  have hs' := hstep.inv hs
  have hbusy : ¬ s.MutexFree := fun hfree => hfree k hstop
  have hother : ∀ {j : Fin W} (w : WorkerAt τ), s.workers j ≠ .locking → s.workers j ≠ .woken →
      (s.setWorker j w).WantsTake i := by
    intro j w hlock hwoken
    have hne : i ≠ j := by
      rintro rfl
      exact hwants.elim hlock hwoken
    unfold WantsTake
    rw [setWorker_of_ne w hne]
    exact hwants
  cases hstep with
  | @test j h =>
    refine ⟨⟨hs', ⟨k, hstop, hk⟩, hother _ (by rw [h]; exact nofun) (by rw [h]; exact nofun)⟩, ?_⟩
    apply Nat.add_lt_add_right (rank_setWorker_lt _)
    rw [h]
    split
    · exact Nat.one_lt_two
    · exact Nat.two_pos
  | takeWait h hfree htake => exact absurd hfree hbusy
  | take h hfree htake hpost => exact absurd hfree hbusy
  | @finish j t h =>
    refine ⟨⟨hs', ⟨k, hstop, hk⟩, hother _ (by rw [h]; exact nofun) (by rw [h]; exact nofun)⟩, ?_⟩
    apply Nat.add_lt_add_right (rank_setWorker_lt _)
    rw [h]
    exact Nat.lt_succ_self 2
  | @call p h hcalls =>
    refine ⟨⟨hs', ⟨k, hstop, hk⟩, hwants⟩, ?_⟩
    apply Nat.add_lt_add_right (rank_setProducer_lt _)
    rw [h]
    exact producerRank_call (List.length_pos_iff.mpr hcalls)
  | addWait h hfree hcalls hadd => exact absurd hfree hbusy
  | push h hfree hcalls hadd hpost => exact absurd hfree hbusy
  | stopCall h => rw [hstop] at h; cases h
  | stopLock h => rw [hstop] at h; cases h
  | @join j h hexited =>
    rw [hstop] at h
    cases h
    have hne : (j : ℕ) ≠ i := by
      intro hji
      have hij : j = i := Fin.ext hji
      rw [hij] at hexited
      rcases hwants with hw | hw <;> rw [hexited] at hw <;> cases hw
    refine ⟨⟨hs', ⟨j + 1, rfl, by omega⟩, hwants⟩, ?_⟩
    have hj := j.isLt
    unfold joinsLeft rank
    rw [hstop]
    dsimp only
    omega
  | stopReturn h =>
    rw [hstop] at h
    cases h
    have hi := i.isLt
    omega
  | spuriousWorker h => cases ha
  | spuriousProducer h => cases ha

/-- A worker found inside `take` keeps `Stop` from returning. -/
theorem stop_hangs {qSize : ℕ} (calls : Fin P → List τ) {s s' : ThreadPool τ W P} {i : Fin W}
    (hs : Inv qSize s) (hlock : Step qSize s .stopLock s') (hi : s.InTake i) :
    ∃ t, (system W qSize calls).Leads s' t ∧ Halted qSize t ∧ t.stop ≠ .returned := by
  have hs' := hlock.inv hs
  have hdead : Deadlocked qSize i s' := by
    cases hlock with
    | stopLock h =>
      refine ⟨hs', ⟨0, rfl, Nat.zero_le _⟩, ?_⟩
      apply WorkerAt.wake_wants
      rcases hi with (hi | hi) | hi
      · exact .inl hi
      · exact .inr (.inl hi)
      · exact .inr (.inr hi)
  obtain ⟨t, hleads, ht, hstuck⟩ := System.exists_stuck (M := scheduledSystem W qSize calls)
    (fun u => rank u + joinsLeft u) (J := Deadlocked qSize i) (fun u hu hmove => by
      by_contra hnone
      refine hmove fun a u' hstep => hnone ?_
      obtain ⟨hu', hlt⟩ := hu.step hstep.1 hstep.2
      exact ⟨a, u', hstep, hu', hlt⟩) hdead
  refine ⟨t, hleads.of_restrict, fun a u ha hstep => hstuck a u ⟨ha, hstep⟩, ?_⟩
  obtain ⟨k, hk, -⟩ := ht.joining
  rw [hk]
  exact nofun

/-- `Stop` has the mutex, and every worker that has not ended is at the loop
condition or inside its task. -/
structure Closing (qSize : ℕ) (s : ThreadPool τ W P) : Prop where
  /-- The invariant of the pool. -/
  inv : Inv qSize s
  /-- How far `Stop` has come. -/
  stopping : s.stop = .returned ∨ ∃ k, s.stop = .joining k ∧ k ≤ W
  /-- No worker is inside `take`. -/
  outside : ∀ i, ¬ s.InTake i

theorem Closing.isRunning {qSize : ℕ} {s : ThreadPool τ W P} (h : Closing qSize s) :
    s.isRunning = false := by
  rw [Bool.eq_false_iff, ne_eq, h.inv.running]
  rcases h.stopping with hstop | ⟨k, hstop, -⟩ <;> rw [hstop] <;> rintro (h | h) <;> cases h

/-- Nobody enters `take` any more. -/
theorem Closing.step {qSize : ℕ} {s s' : ThreadPool τ W P} {a : Label τ W P}
    (h : Closing qSize s) (hstep : Step qSize s a s') : Closing qSize s' := by
  have hs' := hstep.inv h.inv
  have hrun := h.isRunning
  obtain ⟨hs, hstop, hout⟩ := h
  have hmove : ∀ {j : Fin W} {w : WorkerAt τ}, w ≠ .locking → w ≠ .woken → w ≠ .waiting →
      ∀ i, ¬ (s.setWorker j w).InTake i := by
    intro j w hlock hwoken hwait i
    by_cases hij : i = j
    · subst hij
      unfold InTake WantsTake
      rw [setWorker_self]
      rintro ((h | h) | h)
      · exact hlock h
      · exact hwoken h
      · exact hwait h
    · unfold InTake WantsTake
      rw [setWorker_of_ne w hij]
      exact hout i
  cases hstep with
  | test h =>
    rw [hrun] at hs' ⊢
    exact ⟨hs', hstop, hmove nofun nofun nofun⟩
  | takeWait h hfree htake => exact absurd (.inl h) (hout _)
  | take h hfree htake hpost => exact absurd (.inl h) (hout _)
  | finish h => exact ⟨hs', hstop, hmove nofun nofun nofun⟩
  | call h hcalls => exact ⟨hs', hstop, hout⟩
  | addWait h hfree hcalls hadd => exact ⟨hs', hstop, hout⟩
  | push h hfree hcalls hadd hpost =>
    refine ⟨hs', hstop, fun i hi => hout i ?_⟩
    have hsame := hpost.stays (j := i) fun hw => hout i (.inr hw)
    unfold InTake WantsTake at hi ⊢
    dsimp only at hi
    rwa [hsame] at hi
  | stopCall h => rcases hstop with hstop | ⟨k, hstop, -⟩ <;> rw [hstop] at h <;> cases h
  | stopLock h => rcases hstop with hstop | ⟨k, hstop, -⟩ <;> rw [hstop] at h <;> cases h
  | @join i h hexited => exact ⟨hs', .inr ⟨i + 1, rfl, i.isLt⟩, hout⟩
  | stopReturn h => exact ⟨hs', .inl rfl, hout⟩
  | spuriousWorker h => exact absurd (.inr h) (hout _)
  | spuriousProducer h => exact ⟨hs', hstop, hout⟩

/-- A closing pool rests only when `Stop` has returned and all workers have ended. -/
theorem Closing.halted {qSize : ℕ} {s : ThreadPool τ W P} (h : Closing qSize s)
    (hhalt : Halted qSize s) : s.stop = .returned ∧ ∀ i, s.workers i = .exited := by
  have hexited : ∀ i, s.workers i = .exited := by
    intro i
    have hout := h.outside i
    cases hw : s.workers i with
    | loopTest => exact absurd (Step.test hw) (hhalt _ _ rfl)
    | locking => exact absurd (.inl (.inl hw)) hout
    | waiting => exact absurd (.inr hw) hout
    | woken => exact absurd (.inl (.inr hw)) hout
    | running t => exact absurd (Step.finish hw) (hhalt _ _ rfl)
    | exited => rfl
  refine ⟨?_, hexited⟩
  rcases h.stopping with hstop | ⟨k, hstop, hk⟩
  · exact hstop
  · by_cases hlast : k = W
    · rw [hlast] at hstop
      exact absurd (Step.stopReturn hstop) (hhalt _ _ rfl)
    · have hlt : k < W := by omega
      exact absurd (Step.join (i := ⟨k, hlt⟩) hstop (hexited _)) (hhalt _ _ rfl)

/-- `Stop` ends the workers and returns, whatever the other threads do, exactly
when no worker is inside `take` at the moment it gets the mutex. -/
theorem stop_returns_iff {qSize : ℕ} {calls : Fin P → List τ} {s s' : ThreadPool τ W P}
    (hs : Inv qSize s) (hlock : Step qSize s .stopLock s') :
    (∀ t, (system W qSize calls).Leads s' t → Halted qSize t →
      t.stop = .returned ∧ ∀ i, t.workers i = .exited) ↔ ∀ i, ¬ s.InTake i := by
  constructor
  · intro hall i hi
    obtain ⟨t, hleads, hhalt, hstop⟩ := stop_hangs calls hs hlock hi
    exact hstop (hall t hleads hhalt).1
  · intro hout t hleads hhalt
    have hclosing : Closing qSize s' := by
      have hs' := hlock.inv hs
      cases hlock with
      | stopLock h =>
        refine ⟨hs', .inr ⟨0, rfl, Nat.zero_le W⟩, fun i hi => hout i ?_⟩
        unfold InTake WantsTake at hi ⊢
        dsimp only at hi
        cases hw : s.workers i <;> rw [hw] at hi <;> simp [WorkerAt.wake] at hi ⊢
    have hkept : ∀ u a v, Closing qSize u → (system W qSize calls).step u a v → Closing qSize v :=
      fun u a v hu hstep => Closing.step (a := a) hu hstep
    exact (System.Leads.invariant hkept hleads hclosing).halted hhalt

/-- While `isRunning` holds, any worker can get into `take`. -/
theorem enters_take {qSize : ℕ} (calls : Fin P → List τ) {s : ThreadPool τ W P} (i : Fin W)
    (hs : Inv qSize s) (hrun : s.isRunning = true) :
    ∃ s', (system W qSize calls).Leads s s' ∧ Inv qSize s' ∧ s'.stop = s.stop ∧ s'.InTake i := by
  have htest : ∀ u : ThreadPool τ W P, u.workers i = .loopTest → u.isRunning = true →
      Step qSize u (.test i) (u.setWorker i .locking) := by
    intro u hu hrun
    have hstep : Step qSize u (.test i) _ := .test hu
    rwa [if_pos hrun] at hstep
  cases hw : s.workers i with
  | loopTest =>
    have hstep := htest s hw hrun
    exact ⟨_, .single hstep, hstep.inv hs, rfl, .inl (.inl (setWorker_self ..))⟩
  | locking => exact ⟨s, .refl s, hs, rfl, .inl (.inl hw)⟩
  | waiting => exact ⟨s, .refl s, hs, rfl, .inr hw⟩
  | woken => exact ⟨s, .refl s, hs, rfl, .inl (.inr hw)⟩
  | running t =>
    have hfinish : Step qSize s (.finish i) _ := .finish hw
    have hstep := htest (s.setWorker i .loopTest) (setWorker_self ..) hrun
    exact ⟨_, System.Leads.tail (.single hfinish) hstep, hstep.inv (hfinish.inv hs), rfl,
      .inl (.inl (setWorker_self ..))⟩
  | exited => exact absurd hw (hs.alive hrun i)

/-- In a pool without workers a producer is blocked by a full queue. -/
def FullForBlocked (qSize : ℕ) (s : ThreadPool τ 0 P) : Prop :=
  ∀ p, s.Blocked p → qSize ≤ s.mTasks.length

theorem Step.fullForBlocked {qSize : ℕ} {s s' : ThreadPool τ 0 P} {a : Label τ 0 P}
    (h : Step qSize s a s') (hs : FullForBlocked qSize s) : FullForBlocked qSize s' := by
  have hmove : ∀ {p j : Fin P} {q : ProducerAt}, j ≠ p → (s.setProducer p q).Blocked j →
      qSize ≤ s.mTasks.length := by
    intro p j q hjp hj
    apply hs j
    unfold Blocked at hj ⊢
    rwa [setProducer_of_ne q hjp] at hj
  cases h with
  | @test i h => exact i.elim0
  | @takeWait i h hfree htake => exact i.elim0
  | @take i t rest post who producers h hfree htake hpost => exact i.elim0
  | @finish i t h => exact i.elim0
  | @join i h hexited => exact i.elim0
  | @spuriousWorker i h => exact i.elim0
  | @call p h hcalls =>
    intro j hj
    by_cases hjp : j = p
    · subst hjp
      unfold Blocked at hj
      rw [setProducer_self] at hj
      rcases hj with hj | hj <;> cases hj
    · exact hmove hjp hj
  | addWait h hfree hcalls hadd => exact fun _ _ => addTask_eq_none.mp hadd
  | @push p t calls mTasks post who workers h hfree hcalls hadd hpost =>
    obtain ⟨hroom, -, -⟩ := addTask_eq_some hadd
    intro j hj
    by_cases hjp : j = p
    · subst hjp
      unfold Blocked at hj
      dsimp only at hj
      rw [Function.update_self] at hj
      rcases hj with hj | hj <;> cases hj
    · have hfull := hmove hjp hj
      omega
  | stopCall h => exact hs
  | stopLock h =>
    intro j hj
    apply hs j
    unfold Blocked at hj ⊢
    dsimp only at hj
    cases hp : s.producers j <;> rw [hp] at hj <;> simp [ProducerAt.wake] at hj ⊢
  | stopReturn h => exact hs
  | @spuriousProducer p h => exact fun _ _ => hs p (.inl h)

/-- A producer that stays blocked in a pool without workers and without `Stop`. -/
structure Stranded (qSize : ℕ) (p : Fin P) (calls : List τ) (s : ThreadPool τ 0 P) : Prop where
  /-- The invariant of the pool. -/
  inv : Inv qSize s
  /-- `Stop` is over. -/
  returned : s.stop = .returned
  /-- The producer is inside its wait. -/
  blocked : s.Blocked p
  /-- The call has not been finished. -/
  same : s.calls p = calls
  /-- There is no room and nobody to make room. -/
  full : qSize ≤ s.mTasks.length

theorem Stranded.step {qSize : ℕ} {p : Fin P} {calls : List τ} {s s' : ThreadPool τ 0 P}
    {a : Label τ 0 P} (h : Stranded qSize p calls s) (ha : a.scheduled = true)
    (hstep : Step qSize s a s') : Stranded qSize p calls s' ∧ rank s' < rank s := by
  obtain ⟨hs, hstop, hblocked, hsame, hfull⟩ := h
  have hs' := hstep.inv hs
  cases hstep with
  | @test i h => exact i.elim0
  | @takeWait i h hfree htake => exact i.elim0
  | @take i t rest post who producers h hfree htake hpost => exact i.elim0
  | @finish i t h => exact i.elim0
  | @join i h hexited => exact i.elim0
  | @spuriousWorker i h => exact i.elim0
  | @call j h hcalls =>
    have hne : p ≠ j := by
      rintro rfl
      rcases hblocked with hb | hb <;> rw [h] at hb <;> cases hb
    refine ⟨⟨hs', hstop, ?_, hsame, hfull⟩, rank_setProducer_lt ?_⟩
    · unfold Blocked
      rw [setProducer_of_ne _ hne]
      exact hblocked
    · rw [h]
      exact producerRank_call (List.length_pos_iff.mpr hcalls)
  | @addWait j t rest h hfree hcalls hadd =>
    have hpos : 0 < (s.calls j).length := by simp [hcalls]
    refine ⟨⟨hs', hstop, ?_, hsame, hfull⟩, rank_setProducer_lt (producerRank_wait hpos h)⟩
    by_cases hpj : p = j
    · subst hpj
      exact .inl (setProducer_self ..)
    · unfold Blocked
      rw [setProducer_of_ne _ hpj]
      exact hblocked
  | push h hfree hcalls hadd hpost =>
    obtain ⟨hroom, -, -⟩ := addTask_eq_some hadd
    omega
  | stopCall h => rw [hstop] at h; cases h
  | stopLock h => rw [hstop] at h; cases h
  | stopReturn h => rw [hstop] at h; cases h
  | spuriousProducer h => cases ha

/-- A producer blocked when `Stop` is called on a pool without workers stays blocked. -/
theorem stop_strands {qSize : ℕ} (calls : Fin P → List τ) {c c' : ThreadPool τ 0 P}
    (hs : Inv qSize c) (hfull : FullForBlocked qSize c) (hcall : Step qSize c .stopCall c')
    {p : Fin P} (hp : c.Blocked p) :
    ∃ t, (system 0 qSize calls).Leads c' t ∧ Halted qSize t ∧ t.calls p = c.calls p := by
  have hs' := hcall.inv hs
  cases hcall with
  | stopCall h =>
    have hlock : Step qSize { c with stop := .locking } .stopLock _ := .stopLock rfl
    have hreturn : Step qSize { c with
        isRunning := false, producers := fun p => (c.producers p).wake,
        workers := fun i => (c.workers i).wake, stop := .joining 0 } .stopReturn _ :=
      .stopReturn rfl
    have hstranded : Stranded qSize p (c.calls p) { c with
        isRunning := false, producers := fun p => (c.producers p).wake,
        workers := fun i => (c.workers i).wake, stop := .returned } := by
      refine ⟨hreturn.inv (hlock.inv hs'), rfl, .inr ?_, rfl, hfull p hp⟩
      rcases hp with hp | hp <;> (dsimp only; rw [hp]; rfl)
    obtain ⟨t, hleads, ht, hstuck⟩ := System.exists_stuck (M := scheduledSystem 0 qSize calls)
      rank (J := Stranded qSize p (c.calls p)) (fun u hu hmove => by
        by_contra hnone
        refine hmove fun a u' hstep => hnone ?_
        obtain ⟨hu', hlt⟩ := hu.step hstep.1 hstep.2
        exact ⟨a, u', hstep, hu', hlt⟩) hstranded
    have hfirst : (system 0 qSize calls).Leads { c with stop := .locking } _ :=
      System.Leads.tail (.single hlock) hreturn
    exact ⟨t, hfirst.trans hleads.of_restrict, fun a u ha hstep => hstuck a u ⟨ha, hstep⟩, ht.same⟩

/-- Without workers nothing keeps `Stop` from going through. -/
theorem Step.stopGoesOn {qSize : ℕ} {s s' : ThreadPool τ 0 P} {a : Label τ 0 P}
    (h : Step qSize s a s')
    (hs : s.stop = .locking ∨ s.stop = .joining 0 ∨ s.stop = .returned) :
    s'.stop = .locking ∨ s'.stop = .joining 0 ∨ s'.stop = .returned := by
  cases h with
  | stopCall h => exact .inl rfl
  | stopLock h => exact .inr (.inl rfl)
  | @join i h hexited => exact i.elim0
  | stopReturn h => exact .inr (.inr rfl)
  | _ => exact hs

/-- A call of `Stop` on a running pool cannot end in a deadlock exactly when
the pool has no workers and no producer is blocked. -/
theorem stop_shutsDown_iff {qSize : ℕ} {calls : Fin P → List τ} {c : ThreadPool τ W P}
    (hreach : (system W qSize calls).Reachable c) (hrunning : c.stop = .notCalled) :
    (∀ c' t, Step qSize c .stopCall c' → (system W qSize calls).Leads c' t → Halted qSize t →
      ShutDown c t) ↔ W = 0 ∧ ∀ p, ¬ c.Blocked p := by
  have hs := reachable_inv hreach
  have hcall : Step qSize c .stopCall { c with stop := .locking } := .stopCall hrunning
  constructor
  · intro hall
    have hW : W = 0 := by
      by_contra hpos
      have hrun : c.isRunning = true := hs.running.mpr (.inl hrunning)
      obtain ⟨s, hleads, hinv, hstop, hin⟩ := enters_take calls
        (⟨0, Nat.pos_of_ne_zero hpos⟩ : Fin W) (hcall.inv hs) hrun
      obtain ⟨t, hleads', hhalt, hreturned⟩ :=
        stop_hangs calls hinv (.stopLock hstop) hin
      have hlock : (system W qSize calls).step s .stopLock _ := Step.stopLock hstop
      have hdown := hall _ t hcall ((hleads.tail hlock).trans hleads') hhalt
      exact hreturned hdown.1
    refine ⟨hW, fun p hp => ?_⟩
    subst hW
    have hfull : FullForBlocked qSize c := hreach.invariant
      (I := FullForBlocked qSize) (fun s hs p hp => by
        subst hs
        rcases hp with hp | hp <;> cases hp)
      (fun s a t hs hstep => Step.fullForBlocked (a := a) hstep hs)
    obtain ⟨t, hleads, hhalt, hsame⟩ := stop_strands calls hs hfull hcall hp
    have hdown := hall _ t hcall hleads hhalt
    have hlt := hdown.2.2 p hp
    rw [hsame] at hlt
    exact Nat.lt_irrefl _ hlt
  · rintro ⟨rfl, hblocked⟩ c' t hcall' hleads hhalt
    have hstart : c'.stop = .locking ∨ c'.stop = .joining 0 ∨ c'.stop = .returned := by
      cases hcall' with
      | stopCall h => exact .inl rfl
    have hkept : ∀ u a v, (u.stop = .locking ∨ u.stop = .joining 0 ∨ u.stop = .returned) →
        (system 0 qSize calls).step u a v →
        (v.stop = .locking ∨ v.stop = .joining 0 ∨ v.stop = .returned) :=
      fun u a v hu hstep => Step.stopGoesOn (a := a) hstep hu
    refine ⟨?_, fun i => i.elim0, fun p hp => absurd hp (hblocked p)⟩
    rcases hleads.invariant hkept hstart with hstop | hstop | hstop
    · exact absurd (Step.stopLock hstop) (hhalt _ _ rfl)
    · exact absurd (Step.stopReturn hstop) (hhalt _ _ rfl)
    · exact hstop

/-- A worker waits for its first task, and a producer has two tasks to add. -/
theorem stop_shutsDown_iff_sample : ∃ c : ThreadPool ℕ 1 1, c.workers 0 = .waiting ∧ c.calls 0 = [7, 8] ∧
    ((∀ c' t, Step 1 c .stopCall c' → (system 1 1 fun _ : Fin 1 => [7, 8]).Leads c' t → Halted 1 t →
      ShutDown c t) ↔ 1 = 0 ∧ ∀ p, ¬ c.Blocked p) := by
  have htest : (system 1 1 fun _ : Fin 1 => [7, 8]).Leads (started fun _ => [7, 8]) _ :=
    System.Leads.single (.test (i := 0) rfl)
  have hwait := htest.tail (.takeWait (i := 0) (.inl rfl) (mutexFree rfl) rfl)
  exact ⟨_, rfl, rfl, stop_shutsDown_iff ⟨_, rfl, hwait⟩ rfl⟩

/-- One worker that waits for its first task is enough. -/
theorem stop_deadlocks :
    ¬ ∀ (W P qSize : ℕ) (calls : Fin P → List ℕ) (c c' t : ThreadPool ℕ W P),
      (system W qSize calls).Reachable c → c.stop = .notCalled → Step qSize c .stopCall c' →
      (system W qSize calls).Leads c' t → Halted qSize t → ShutDown c t := by
  intro hall
  have hreach : (system 1 1 fun _ : Fin 0 => ([] : List ℕ)).Reachable (started fun _ => []) :=
    ⟨_, rfl, .refl _⟩
  have hcall : Step 1 (started (W := 1) fun _ : Fin 0 => ([] : List ℕ)) .stopCall
      { started fun _ => [] with stop := .locking } := .stopCall rfl
  obtain ⟨s, hleads, hinv, hstop, hin⟩ := enters_take (fun _ : Fin 0 => ([] : List ℕ))
    (0 : Fin 1) (hcall.inv (reachable_inv hreach)) rfl
  obtain ⟨t, hleads', hhalt, hreturned⟩ :=
    stop_hangs (fun _ : Fin 0 => ([] : List ℕ)) hinv (.stopLock hstop) hin
  have hlock : (system 1 1 fun _ : Fin 0 => ([] : List ℕ)).step s .stopLock _ :=
    Step.stopLock hstop
  have hdown := hall 1 0 1 _ _ _ t hreach rfl hcall ((hleads.tail hlock).trans hleads') hhalt
  exact hreturned hdown.1

end KyrosWebServer.Base.ThreadPool
