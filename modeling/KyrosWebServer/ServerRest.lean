import KyrosWebServer.ServerAttention
import KyrosWebServer.ThreadPoolWakeup

/-!
# The server comes to rest

Left alone by the kernel, the loop and the workers lower a rank with every
move, so they come to an end. Where they end, the loop waits for events, no
task is left, all workers wait, and every connection with a proper descriptor is
armed. A single thread adds tasks, so a wakeup that the pool loses cannot hold
up any of this.
-/

namespace KyrosWebServer.Net

open TransitionSystem Base

variable {W : ℕ} {mListenFd : ℤ}

/-- A bound for the moves of a handler that are left. -/
def HandlerAt.rank : HandlerAt → ℕ
  | returned => 0
  | enableConnRead | enableConnWrite => 1
  | badRequest | getRequest | closeErase _ => 2
  | readCb | closeDel _ => 3
  | logRead | writeCb => 4
  | handleRead | handleWrite => 5

namespace Server

/-- Moves that the server makes by itself: no event is delivered, `epoll_wait`
does not return without one, and no thread wakes up unsignalled. -/
def Internal (s : Server W) : Label W → Prop
  | .deliver _ => False
  | .loop => s.loop = .waiting → s.epollEvent ≠ []
  | .pool a => a.quiet = true
  | _ => True

/-- The server when nothing comes from the kernel. -/
def busy (W : ℕ) (mListenFd : ℤ) : System (Server W) (Label W) where
  start s := s = new W
  step s a s' := Internal s a ∧ Step mListenFd s a s'

/-- A bound for the moves of the loop before it takes the next event or waits. -/
def loopRank (s : Server W) : ℕ :=
  match s.loop with
  | .waiting => if s.epollEvent = [] then 0 else 2
  | .handling => 1
  | .dispatching | .added _ | .closeErase _ => 2
  | .adding _ | .closeDel _ => 3
  | .connected _ => 4
  | .inserting _ => 5
  | .fault => 0

/-- A bound for all moves that are left without new events. -/
def rank (s : Server W) : ℕ :=
  20 * s.epollEvent.length + s.loopRank + s.mThreadpool.load (fun t => t.pc.rank) +
    s.mThreadpool.rank

/-- Nothing is left to do, and every connection can be heard. -/
structure AtRest (s : Server W) : Prop where
  /-- The loop is in `epoll_wait`. -/
  loop : s.loop = .waiting
  /-- All events have been handled. -/
  events : s.epollEvent = []
  /-- No handler is queued or at work. -/
  tasks : ∀ t, ¬ s.mThreadpool.Has t
  /-- All workers wait for tasks. -/
  workers : ∀ i, s.mThreadpool.workers i = .waiting
  /-- Every connection in the map has its registration armed. -/
  armed : ∀ fd conn, s.connMap fd = some conn → 0 ≤ fd → ∃ ev, s.mEpoll fd = .armed ev

/-- What the loop, as the only producer, finds of the pool. -/
structure Backed (s : Server W) : Prop where
  /-- The pool runs. -/
  quiet : ThreadPool.QuietInv (2 * W) s.mThreadpool
  /-- The loop is held up in `AddTask` only by a full queue. -/
  full : ThreadPool.WaitsFull (2 * W) s.mThreadpool
  /-- It has left `AddTask` when it goes on. -/
  outside : s.loop ≠ .dispatching →
    s.mThreadpool.producers 0 = .outside ∧ s.mThreadpool.calls 0 = []

/-- There is one producer. -/
theorem solo (calls : Fin 1 → List Task) : ThreadPool.Solo calls :=
  fun p p' _ _ => Subsingleton.elim p p'

/-- A handler that moves stays a task of its worker. -/
theorem quietInv_setTask {qSize : ℕ} {s : Server W} (i : Fin W) (t' : Task)
    (hs : ThreadPool.QuietInv qSize s.mThreadpool) :
    ThreadPool.QuietInv qSize (s.setTask i t').mThreadpool := by
  refine ⟨⟨hs.bounded, fun _ _ => ?_, hs.calling, hs.running, fun halive j => ?_⟩, hs.notStopped⟩
  · exact ThreadPool.update_awake s.mThreadpool.workers i nofun
  · exact ThreadPool.update_ne_exited (hs.alive halive) i (.running t') nofun j

/-- So does a task that the loop is about to add. -/
theorem quietInv_request {qSize : ℕ} {p : ThreadPool Task W 1} (t : Task)
    (hs : ThreadPool.QuietInv qSize p) : ThreadPool.QuietInv qSize (p.request 0 t) := by
  refine ⟨⟨hs.bounded, hs.awake, fun q _ => ?_, hs.running, hs.alive⟩, hs.notStopped⟩
  obtain rfl : q = 0 := Subsingleton.elim q 0
  unfold ThreadPool.request
  dsimp only
  rw [Function.update_self]
  exact List.append_ne_nil_of_right_ne_nil _ (List.cons_ne_nil t [])

/-- Every move keeps the pool behind the loop. -/
theorem Step.backed {s s' : Server W} {a : Label W} (h : Step mListenFd s a s') (hs : Backed s) :
    Backed s' := by
  cases h with
  | pool hstep hstop hreturned =>
    refine ⟨hstep.quietInv hstop hs.quiet, hstep.waitsFull hstop hs.quiet (solo _) hs.full, ?_⟩
    intro hloop
    obtain ⟨hout, hcalls⟩ := hs.outside hloop
    exact hstep.outside hout hcalls
  | @handler s' i t pc hrun hstep =>
    obtain ⟨hloop, -, hpool⟩ := hstep.frame
    refine ⟨quietInv_setTask i _ (hpool ▸ hs.quiet), ?_, ?_⟩
    · intro p hp
      change s'.mThreadpool.producers p = .waiting at hp
      rw [hpool] at hp
      have hfull := hs.full p hp
      rw [← hpool] at hfull
      exact hfull
    · intro hne
      change s'.loop ≠ _ at hne
      rw [hloop] at hne
      have hout := hs.outside hne
      rw [← hpool] at hout
      exact hout
  | dispatch hloop hev hreact hfound =>
    exact ⟨quietInv_request _ hs.quiet, hs.full, fun hne => absurd rfl hne⟩
  | dispatched hloop hproducer hcalls => exact ⟨hs.quiet, hs.full, fun _ => ⟨hproducer, hcalls⟩⟩
  | @add conn hloop =>
    obtain ⟨-, hpool, -⟩ := epollAdd_frame s conn.mConnfd
    have hout := hs.outside (by rw [hloop]; exact nofun)
    refine ⟨?_, ?_, fun _ => ?_⟩ <;> dsimp only <;> rw [hpool]
    · exact hs.quiet
    · exact hs.full
    · exact hout
  | deliver hloop hroom harmed => exact ⟨hs.quiet, hs.full, hs.outside⟩
  | deliverListen hloop hroom hlisten => exact ⟨hs.quiet, hs.full, hs.outside⟩
  | ignore hloop hev hreact => exact ⟨hs.quiet, hs.full, hs.outside⟩
  | _ hloop => exact ⟨hs.quiet, hs.full, fun _ => hs.outside (by rw [hloop]; exact nofun)⟩

/-- The pool of a new server. -/
theorem new_backed (W : ℕ) : Backed (new W) :=
  ⟨ThreadPool.started_quietInv (2 * W) (fun _ => []), fun _ => nofun, fun _ => ⟨rfl, rfl⟩⟩

/-- A handler gets closer to its end with every move. -/
theorem HandlerStep.rank_lt {conn : ConnPtr} {pc pc' : HandlerAt} {s s' : Server W}
    (h : HandlerStep conn pc s pc' s') : pc'.rank < pc.rank := by
  cases h with
  | recv ret =>
    unfold afterRecv
    split <;> decide
  | processRead ret => cases ret <;> decide
  | send ret =>
    unfold afterSend
    repeat' split
    all_goals decide
  | writeCb => split <;> decide
  | closeDel => exact Nat.lt_succ_self 2
  | @closeErase s b => cases b <;> decide
  | _ => decide

/-- Adding a task gives the pool ten moves more at most. -/
theorem rank_request (p : ThreadPool Task W 1) (t : Task) :
    (p.request 0 t).rank ≤ p.rank + 10 := by
  have hone : ∀ n a, ThreadPool.producerRank (n + 1) a ≤ ThreadPool.producerRank n a + 10 := by
    intro n a
    cases a with
    | outside => exact Nat.le_refl _
    | locking => simp only [ThreadPool.producerRank_locking]; omega
    | woken => simp only [ThreadPool.producerRank_woken]; omega
    | waiting => simp only [ThreadPool.producerRank_waiting]; omega
  have hsum := Condition.sum_of_agree
    (f := fun q => ThreadPool.producerRank ((p.request 0 t).calls q).length (p.producers q))
    (g := fun q => ThreadPool.producerRank (p.calls q).length (p.producers q)) 0
    fun q hq => absurd (Subsingleton.elim q 0) hq
  have hcalls : ((p.request 0 t).calls 0).length = (p.calls 0).length + 1 := by
    unfold ThreadPool.request
    dsimp only
    rw [Function.update_self, List.length_append, List.length_singleton]
  have hle := hone (p.calls 0).length (p.producers 0)
  rw [hcalls] at hsum
  unfold ThreadPool.rank
  change _ + ∑ q, ThreadPool.producerRank ((p.request 0 t).calls q).length (p.producers q) +
    4 * p.mTasks.length ≤ _
  have hworkers : (p.request 0 t).workers = p.workers := rfl
  rw [hworkers]
  omega

/-- A task in a worker has as many moves for the pool as any other. -/
theorem rank_setTask {s : Server W} {i : Fin W} {t : Task} (t' : Task)
    (hrun : s.mThreadpool.workers i = .running t) :
    (s.setTask i t').mThreadpool.rank = s.mThreadpool.rank := by
  have hsum := ThreadPool.sum_workerRank_update s.mThreadpool.workers i (.running t')
  rw [hrun, ThreadPool.workerRank_running, ThreadPool.workerRank_running] at hsum
  unfold ThreadPool.rank setTask ThreadPool.setWorker
  dsimp only
  omega

/-- Every move that the server makes by itself lowers its rank. -/
theorem Step.rank_lt {s s' : Server W} {a : Label W} (h : Step mListenFd s a s')
    (ha : Internal s a) (hs : Backed s) : s'.rank < s.rank := by
  unfold rank
  cases h with
  | deliver => exact absurd ha not_false
  | deliverListen => exact absurd ha not_false
  | wakeup hloop =>
    have hevents := ha hloop
    have hbefore : s.loopRank = 2 := by
      unfold loopRank
      rw [hloop]
      exact if_neg hevents
    rw [hbefore]
    dsimp only [loopRank]
    omega
  | handled hloop hev =>
    have hbefore : s.loopRank = 1 := by
      unfold loopRank
      rw [hloop]
    have hafter : loopRank { s with loop := .waiting } = 0 := if_pos hev
    rw [hbefore, hafter]
    dsimp only
    omega
  | accept hloop hev hreact hfd =>
    rw [hev, List.length_cons]
    dsimp only [loopRank]
    omega
  | close hloop hev hreact hfound =>
    rw [hev, List.length_cons]
    dsimp only [loopRank]
    omega
  | null hloop hev haccept hnothing hfound =>
    rw [hev, List.length_cons]
    dsimp only [loopRank]
    omega
  | ignore hloop hev hreact =>
    rw [hev, List.length_cons]
    dsimp only [loopRank]
    rw [hloop]
    dsimp only
    omega
  | @dispatch ev rest conn pc hloop hev hreact hfound =>
    have hpool := rank_request s.mThreadpool ⟨conn, pc⟩
    have hpc : pc.rank ≤ 5 := by
      rcases react_addTask hreact with hpc | hpc <;> rw [hpc] <;> exact Nat.le_refl 5
    rw [hev, List.length_cons]
    dsimp only [loopRank]
    rw [ThreadPool.load_request]
    dsimp only
    omega
  | @add conn hloop =>
    obtain ⟨hevents, hpool, -⟩ := epollAdd_frame s conn.mConnfd
    have hbefore : s.loopRank = 3 := by
      unfold loopRank
      rw [hloop]
    rw [hbefore]
    dsimp only [loopRank]
    rw [hevents, hpool]
    omega
  | @pool a pool hstep hstop hreturned =>
    have hlt := (ThreadPool.Step.quietMove hstep ha hs.quiet).1.rank_lt hs.quiet
    have hload := pool_load_le (fun t => t.pc.rank) hstep
    dsimp only [loopRank]
    omega
  | @handler s' i t pc hrun hstep =>
    obtain ⟨hloop, hevents, hpool⟩ := hstep.frame
    have hrun' : s'.mThreadpool.workers i = .running t := by rw [hpool]; exact hrun
    have hlt := hstep.rank_lt
    have hload := load_setTask (fun t => t.pc.rank) s' ⟨t.conn, pc⟩ hrun'
    have hsame := rank_setTask ⟨t.conn, pc⟩ hrun'
    have hloopRank : (s'.setTask i ⟨t.conn, pc⟩).loopRank = s.loopRank := by
      have hevents' : (s'.setTask i ⟨t.conn, pc⟩).epollEvent = s.epollEvent := hevents
      have hloop' : (s'.setTask i ⟨t.conn, pc⟩).loop = s.loop := hloop
      unfold loopRank
      rw [hevents', hloop']
    rw [hloopRank, hsame]
    rw [hpool] at hload ⊢
    change 20 * s'.epollEvent.length + _ + _ + _ < _
    rw [hevents]
    dsimp only at hload
    omega
  | _ hloop =>
    unfold loopRank
    rw [hloop]
    dsimp only [epollDel, mapErase]
    omega

/-- A handler that has not returned can move. -/
theorem HandlerStep.exists {pc : HandlerAt} (s : Server W) (conn : ConnPtr) (h : pc ≠ .returned) :
    ∃ pc' s', HandlerStep conn pc s pc' s' := by
  cases pc with
  | handleRead => exact ⟨_, s, .recv 0⟩
  | logRead => exact ⟨_, s, .log⟩
  | readCb => exact ⟨_, s, .processRead .NO_REQUEST⟩
  | badRequest => exact ⟨_, _, .badRequest⟩
  | getRequest => exact ⟨_, _, .getRequest true⟩
  | handleWrite => exact ⟨_, s, .send 0⟩
  | writeCb => exact ⟨_, s, .writeCb⟩
  | enableConnRead => exact ⟨_, _, .enableConnRead⟩
  | enableConnWrite => exact ⟨_, _, .enableConnWrite⟩
  | closeDel b => exact ⟨_, _, .closeDel⟩
  | closeErase b => exact ⟨_, _, .closeErase⟩
  | returned => exact absurd rfl h

/-- When the server cannot move by itself, no worker is in a handler. -/
theorem stuck_not_running {s : Server W} (hstuck : (busy W mListenFd).Stuck s) (i : Fin W) (t : Task) :
    s.mThreadpool.workers i ≠ .running t := by
  intro hrun
  by_cases hpc : t.pc = .returned
  · refine hstuck (.pool (.finish i)) _ ⟨rfl, .pool (.finish hrun) nofun ?_⟩
    rintro j u ha hu
    cases ha
    cases hrun.symm.trans hu
    exact hpc
  · obtain ⟨pc, s', hstep⟩ := HandlerStep.exists s t.conn hpc
    exact hstuck (.handler i t.conn pc) _ ⟨trivial, .handler hrun hstep⟩

/-- Nor has it a task at all; the workers wait and the loop is not in `AddTask`. -/
theorem stuck_pool {s : Server W} (hW : 0 < W) (hs : Backed s)
    (hstuck : (busy W mListenFd).Stuck s) :
    (∀ i, s.mThreadpool.workers i = .waiting) ∧ (∀ t, ¬ s.mThreadpool.Has t) ∧
      s.mThreadpool.producers 0 = .outside ∧ s.mThreadpool.calls 0 = [] := by
  have hpool : ∀ a pool, a.quiet = true → ¬ ThreadPool.Step (2 * W) s.mThreadpool a pool := by
    intro a pool ha hstep
    refine hstuck (.pool a) _ ⟨ha, .pool hstep ?_ ?_⟩
    · rintro rfl
      cases ha
    · intro i t _ hrun
      exact absurd hrun (stuck_not_running hstuck i t)
  have hquiet : (ThreadPool.undisturbed W (2 * W) fun _ => []).Stuck s.mThreadpool :=
    fun a pool h => hpool a pool h.1 h.2
  obtain ⟨hwait, hempty, hproducer⟩ := ThreadPool.stuck_state hW (by omega) hs.quiet hquiet
  have hout : s.mThreadpool.producers 0 = .outside := by
    rcases hproducer 0 with hp | hp
    · rcases hs.full 0 hp with hfull | ⟨hone, -⟩
      · rw [hempty, List.length_nil] at hfull
        omega
      · omega
    · exact hp
  have hcalls : s.mThreadpool.calls 0 = [] := by
    by_contra hne
    exact hpool (.call 0) _ rfl (.call hout hne)
  refine ⟨hwait, ?_, hout, hcalls⟩
  rintro t ((⟨p, hp⟩ | ht) | ⟨i, hi⟩)
  · obtain rfl : p = 0 := Subsingleton.elim p 0
    rw [hcalls] at hp
    cases hp
  · rw [hempty] at ht
    cases ht
  · exact stuck_not_running hstuck i t hi

/-- The loop finds a connection for every event that it acts on. -/
theorem Step.not_fault {s s' : Server W} {a : Label W} (h : Step mListenFd s a s')
    (hs : Inv mListenFd s) (hloop : s.loop ≠ .fault) : s'.loop ≠ .fault := by
  cases h with
  | @null ev rest hhandling hev haccept hnothing hfound =>
    have hmem : ev ∈ s.epollEvent := by
      rw [hev]
      exact List.mem_cons_self
    obtain ⟨conn, hconn, -⟩ := hs.found hmem (react_ne_accept haccept)
    cases hfound.symm.trans hconn
  | @handler s' i t pc hrun hstep =>
    change s'.loop ≠ _
    rw [hstep.frame.1]
    exact hloop
  | pool hstep hstop hreturned => exact hloop
  | deliver hwaiting hroom harmed => exact hloop
  | deliverListen hwaiting hroom hlisten => exact hloop
  | ignore hhandling hev hreact => exact hloop
  | _ => exact LoopAt.noConfusion

/-- When the server cannot move by itself, the loop waits for events. -/
theorem stuck_loop {s : Server W} (hs : Inv mListenFd s) (hloop : s.loop ≠ .fault)
    (hout : s.mThreadpool.producers 0 = .outside) (hcalls : s.mThreadpool.calls 0 = [])
    (hstuck : (busy W mListenFd).Stuck s) : s.loop = .waiting ∧ s.epollEvent = [] := by
  cases hl : s.loop with
  | waiting =>
    refine ⟨rfl, ?_⟩
    by_contra hne
    exact hstuck .loop _ ⟨fun _ => hne, .wakeup hl⟩
  | handling =>
    have hgo : s.loop = .waiting → s.epollEvent ≠ [] := by
      rw [hl]
      exact nofun
    exfalso
    cases hev : s.epollEvent with
    | nil => exact hstuck .loop _ ⟨hgo, .handled hl hev⟩
    | cons ev rest =>
      have hmem : ev ∈ s.epollEvent := by
        rw [hev]
        exact List.mem_cons_self
      cases hreact : react mListenFd ev with
      | accept => exact hstuck (.event ev) _ ⟨trivial, .accept hl hev hreact (.inl rfl)⟩
      | closeConn =>
        obtain ⟨conn, hfound, -⟩ := hs.found hmem (react_ne_accept (by rw [hreact]; exact nofun))
        exact hstuck (.event ev) _ ⟨trivial, .close hl hev hreact hfound⟩
      | addTask pc =>
        obtain ⟨conn, hfound, -⟩ := hs.found hmem (react_ne_accept (by rw [hreact]; exact nofun))
        exact hstuck (.event ev) _ ⟨trivial, .dispatch hl hev hreact hfound⟩
      | nothing => exact hstuck (.event ev) _ ⟨trivial, .ignore hl hev hreact⟩
  | fault => exact absurd hl hloop
  | inserting conn =>
    exact absurd ⟨fun h => (by rw [hl] at h; cases h), .insert hl⟩ (hstuck .loop _)
  | connected conn =>
    exact absurd ⟨fun h => (by rw [hl] at h; cases h), .cCallBack hl⟩ (hstuck .loop _)
  | adding conn => exact absurd ⟨fun h => (by rw [hl] at h; cases h), .add hl⟩ (hstuck .loop _)
  | added conn => exact absurd ⟨fun h => (by rw [hl] at h; cases h), .added hl⟩ (hstuck .loop _)
  | dispatching =>
    exact absurd ⟨fun h => (by rw [hl] at h; cases h), .dispatched hl hout hcalls⟩ (hstuck .loop _)
  | closeDel fd =>
    exact absurd ⟨fun h => (by rw [hl] at h; cases h), .closeDel hl⟩ (hstuck .loop _)
  | closeErase fd =>
    exact absurd ⟨fun h => (by rw [hl] at h; cases h), .closeErase hl⟩ (hstuck .loop _)

/-- What the runs that forget nothing keep, the pool included. -/
theorem reachable_backed {s : Server W} (h : (attentive W mListenFd).Reachable s) :
    Inv mListenFd s ∧ Backed s ∧ s.loop ≠ .fault := by
  refine h.invariant (I := fun s => Inv mListenFd s ∧ Backed s ∧ s.loop ≠ .fault) ?_ ?_
  · rintro s rfl
    exact ⟨new_inv W mListenFd, new_backed W, LoopAt.noConfusion⟩
  · rintro s a t ⟨hinv, hbacked, hloop⟩ ⟨hstep, -⟩
    exact ⟨Step.inv hstep hinv, Step.backed hstep hbacked, Step.not_fault hstep hinv hloop⟩

/-- The rank bounds the moves that are left without new events. -/
theorem busy_run_le {s t : Server W} (h : (attentive W mListenFd).Reachable s) {as : List (Label W)}
    (hrun : (busy W mListenFd).Run s as t) : as.length ≤ s.rank := by
  have hlen := hrun.length_le rank (J := Backed) ?_ (reachable_backed h).2.1
  · omega
  · rintro s a t hs ⟨ha, hstep⟩
    exact ⟨Step.backed hstep hs, Step.rank_lt hstep ha hs⟩

/-- Where the server cannot move, it is at rest. -/
theorem stuck_atRest {s : Server W} (hW : 0 < W) (h : (attentive W mListenFd).Reachable s)
    (hstuck : (busy W mListenFd).Stuck s) : AtRest s := by
  obtain ⟨hinv, hbacked, hfault⟩ := reachable_backed h
  obtain ⟨hwait, htasks, hout, hcalls⟩ := stuck_pool hW hbacked hstuck
  obtain ⟨hloop, hevents⟩ := stuck_loop hinv hfault hout hcalls hstuck
  exact ⟨hloop, hevents, htasks, hwait, fun fd conn hmap hpos =>
    reachable_idle h hmap hpos hloop hevents fun t ht => absurd ht (htasks t)⟩

/-- A pool without tasks whose workers wait makes no move by itself. -/
theorem AtRest.pool_stuck {s : Server W} (hrest : AtRest s) (hs : Backed s)
    {a : ThreadPool.Label Task W 1} {pool : ThreadPool Task W 1} (ha : a.quiet = true)
    (hstep : ThreadPool.Step (2 * W) s.mThreadpool a pool) : False := by
  have hcalls : s.mThreadpool.calls = fun _ => [] := by
    funext p
    rw [List.eq_nil_iff_forall_not_mem]
    exact fun t ht => hrest.tasks t (.inl (.inl ⟨p, ht⟩))
  cases hstep with
  | @test i h => cases (hrest.workers i).symm.trans h
  | @takeWait i h hfree htake =>
    rcases h with h | h
    · cases (hrest.workers i).symm.trans h
    · cases (hrest.workers i).symm.trans h
  | @take i t rest post who producers h hfree htake hpost =>
    rcases h with h | h
    · cases (hrest.workers i).symm.trans h
    · cases (hrest.workers i).symm.trans h
  | @finish i t h => cases (hrest.workers i).symm.trans h
  | @call p h hne =>
    rw [hcalls] at hne
    exact hne rfl
  | addWait h hfree hne hadd =>
    rw [hcalls] at hne
    cases hne
  | push h hfree hne hadd hpost =>
    rw [hcalls] at hne
    cases hne
  | stopLock h => cases hs.quiet.notStopped.symm.trans h
  | join h hexited => cases hs.quiet.notStopped.symm.trans h
  | stopReturn h => cases hs.quiet.notStopped.symm.trans h
  | stopCall h => cases ha
  | spuriousWorker h => cases ha
  | spuriousProducer h => cases ha

/-- At rest, the server makes no move by itself. -/
theorem AtRest.stuck {s : Server W} (hrest : AtRest s) (hs : Backed s) : (busy W mListenFd).Stuck s := by
  rintro a s' ⟨ha, hstep⟩
  cases hstep with
  | deliver hloop hroom harmed => exact ha
  | deliverListen hloop hroom hlisten => exact ha
  | wakeup hloop => exact ha hloop hrest.events
  | pool hpool hstop hreturned => exact hrest.pool_stuck hs ha hpool
  | @handler s' i t pc hrun hmove => exact hrest.tasks t (.inr ⟨i, hrun⟩)
  | _ hloop => cases hrest.loop.symm.trans hloop

/-- Left alone by the kernel, the server makes a bounded number of moves. It
cannot move exactly where it waits for events with no task left and every
connection with a proper descriptor armed, provided that no move so far has
forgotten a connection. -/
theorem comes_to_rest {s : Server W} (hW : 0 < W) (h : (attentive W mListenFd).Reachable s) :
    (∀ as t, (busy W mListenFd).Run s as t → as.length ≤ s.rank) ∧
      ((busy W mListenFd).Stuck s ↔ AtRest s) :=
  ⟨fun _ _ => busy_run_le h, stuck_atRest hW h, fun hrest => hrest.stuck (reachable_backed h).2.1⟩

/-- A server whose worker is about to read from its first connection. -/
def handling : Server 1 :=
  { (new 1).accepted 5 with
    mEpoll := Function.update ((new 1).accepted 5).mEpoll 5 .disarmed
    mThreadpool := ThreadPool.running 0 ⟨⟨0, 5⟩, .handleRead⟩ }

/-- The event of that connection has been delivered and its task taken. -/
theorem reachable_handling : (attentive 1 3).Reachable handling := by
  let ev : EpollEvent := ⟨5, ⟨true, false, false, false, false⟩⟩
  let t : Task := ⟨⟨0, 5⟩, .handleRead⟩
  have hroom : ([] : List EpollEvent).length < MAX_EVENT_NUM := by decide
  have hreact : react 3 ev = .addTask .handleRead := rfl
  have hdeliver := System.Leads.single (M := attentive 1 3)
    ⟨@Step.deliver 1 3 ((new 1).accepted 5) ev .EPOLLIN rfl hroom rfl, fun _ => nofun⟩
  have hwakeup := hdeliver.tail ⟨.wakeup rfl, fun _ => nofun⟩
  have hdispatch := hwakeup.tail ⟨@Step.dispatch 1 3 _ ev [] ⟨0, 5⟩ _ rfl rfl hreact rfl,
    keeps_event (by rw [hreact]; exact Reaction.noConfusion) _⟩
  exact attentive_accepts.leads (hdispatch.trans (attentive_of_eventless
    (leads_running Nat.one_pos 0 rfl rfl (ThreadPool.request_started t))))

/-- From there it makes so many moves at most before it rests. -/
theorem comes_to_rest_handling : handling.connMap 5 = some ⟨0, 5⟩ ∧
    handling.mThreadpool.workers 0 = .running ⟨⟨0, 5⟩, .handleRead⟩ ∧
    (∀ as t, (busy 1 3).Run handling as t → as.length ≤ handling.rank) ∧
      ((busy 1 3).Stuck handling ↔ AtRest handling) :=
  ⟨rfl, rfl, comes_to_rest Nat.one_pos reachable_handling⟩

end Server

end KyrosWebServer.Net
