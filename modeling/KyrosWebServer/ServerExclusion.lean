import KyrosWebServer.ServerMoves

/-!
# One handler per connection

What lets a thread act on a descriptor is counted: an armed registration, an
event not yet handled, a close of the loop under way, and a handler that has
not returned. No move but the registration of a new connection adds to the
count of a descriptor, and then the count was zero. So of the tasks of one
connection at most one is queued or has accesses ahead of it.
-/

namespace KyrosWebServer.Net

open TransitionSystem Base

variable {W : ℕ}

/-- An armed registration will deliver one event. -/
def Registration.token : Registration → ℕ
  | armed _ => 1
  | _ => 0

/-- A handler holds its descriptor until it has returned. -/
def HandlerAt.token : HandlerAt → ℕ
  | returned => 0
  | _ => 1

/-- What a task holds of a descriptor. -/
def Task.token (fd : ℤ) (t : Task) : ℕ := if t.conn.mConnfd = fd then t.pc.token else 0

/-- The loop holds the descriptor that it closes. -/
def LoopAt.token (fd : ℤ) : LoopAt → ℕ
  | closeDel connfd => if connfd = fd then 1 else 0
  | closeErase connfd => if connfd = fd then 1 else 0
  | _ => 0

/-- Whether an event is one of the connection behind `fd`. -/
def EpollEvent.concerns (mListenFd fd : ℤ) (ev : EpollEvent) : Bool :=
  decide (ev.fd = fd ∧ fd ≠ mListenFd)

theorem Registration.token_le (r : Registration) : r.token ≤ 1 := by
  cases r <;> simp [token]

theorem HandlerAt.token_le (pc : HandlerAt) : pc.token ≤ 1 := by
  cases pc <;> simp [token]

namespace Server

/-- Rights to act on a descriptor, wherever they are. -/
def tokens (mListenFd : ℤ) (s : Server W) (fd : ℤ) : ℕ :=
  (s.mEpoll fd).token + s.epollEvent.countP (EpollEvent.concerns mListenFd fd) +
    s.loop.token fd + s.mThreadpool.load (Task.token fd)

/-- What holds in every state of every run. -/
structure Inv (mListenFd : ℤ) (s : Server W) : Prop where
  /-- The map files connections under their descriptors. -/
  filed : ∀ fd conn, s.connMap fd = some conn → conn.mConnfd = fd
  /-- Only descriptors of the map are registered. -/
  registered : ∀ fd, s.mEpoll fd ≠ .absent → 0 ≤ fd ∧ s.connMap fd ≠ none
  /-- Events that wait to be handled are of registered descriptors. -/
  harvested : ∀ ev ∈ s.epollEvent, ev.fd ≠ mListenFd → s.mEpoll ev.fd ≠ .absent
  /-- Nobody else may act on a descriptor that somebody may act on. -/
  exclusive : ∀ fd, s.tokens mListenFd fd ≤ 1
  /-- Only proper descriptors are acted on. -/
  proper : ∀ fd, s.tokens mListenFd fd ≠ 0 → 0 ≤ fd
  /-- A registration is gone before the connection leaves the map. -/
  erasing : ∀ fd, s.Erasing fd → s.mEpoll fd = .absent
  /-- Nobody can act on a connection that is not registered yet. -/
  fresh : ∀ conn, s.loop.unregistered = some conn →
    s.tokens mListenFd conn.mConnfd = 0 ∧ s.mEpoll conn.mConnfd = .absent
  /-- A new connection stays in the map until it is registered. -/
  inserted : ∀ conn, s.loop.inserted = some conn → s.connMap conn.mConnfd = some conn
  /-- Tasks wait at the beginning of a handler. -/
  pending : ∀ t, s.mThreadpool.Pending t → t.pc = .handleRead ∨ t.pc = .handleWrite

/-- A handler that has returned does not move. -/
theorem HandlerStep.token {conn : ConnPtr} {pc pc' : HandlerAt} {s s' : Server W}
    (h : HandlerStep conn pc s pc' s') : pc.token = 1 := by
  cases h <;> rfl

/-- A handler hands its descriptor on to the registration, or gives it up. -/
theorem HandlerStep.token_le {conn : ConnPtr} {pc pc' : HandlerAt} {s s' : Server W}
    (h : HandlerStep conn pc s pc' s') {fd : ℤ} (hfd : conn.mConnfd = fd) :
    (s'.mEpoll fd).token + Task.token fd ⟨conn, pc'⟩ ≤
      (s.mEpoll fd).token + Task.token fd ⟨conn, pc⟩ := by
  have hpc := h.token
  have hpc' := HandlerAt.token_le pc'
  unfold Task.token
  dsimp only
  rw [if_pos hfd, if_pos hfd, hpc]
  cases h with
  | enableConnRead =>
    have hreg := Registration.token_le ((s.epollMod conn.mConnfd .EPOLLIN).mEpoll fd)
    change _ + 0 ≤ _
    omega
  | enableConnWrite =>
    have hreg := Registration.token_le ((s.epollMod conn.mConnfd .EPOLLOUT).mEpoll fd)
    change _ + 0 ≤ _
    omega
  | closeDel =>
    subst hfd
    unfold epollDel
    dsimp only
    rw [Function.update_self]
    change 0 + _ ≤ _
    omega
  | _ =>
    exact Nat.add_le_add_left hpc' _

/-- The load of the pool when a handler gets to another place. -/
theorem load_setTask (w : Task → ℕ) (s : Server W) {i : Fin W} {t : Task} (t' : Task)
    (hrun : s.mThreadpool.workers i = .running t) :
    (s.setTask i t').mThreadpool.load w + w t = s.mThreadpool.load w + w t' := by
  have h := ThreadPool.load_setWorker w s.mThreadpool i (.running t')
  rw [hrun] at h
  exact h

/-- The load of the pool falls, when it moves at all, at the return of a handler. -/
theorem pool_load_le (w : Task → ℕ) {qSize : ℕ} {p p' : ThreadPool Task W 1}
    {a : ThreadPool.Label Task W 1} (h : ThreadPool.Step qSize p a p') : p'.load w ≤ p.load w := by
  have hload := h.load w
  omega

/-- A task that has not returned holds its descriptor. -/
theorem holds_task {s : Server W} {t : Task} {fd : ℤ} (hhas : s.mThreadpool.Has t)
    (hpc : t.pc.token = 1) (hfd : t.conn.mConnfd = fd) :
    1 ≤ s.mThreadpool.load (Task.token fd) := by
  have hle := hhas.weight_le (Task.token fd)
  have htoken : t.token fd = 1 := by
    unfold Task.token
    rw [if_pos hfd, hpc]
  omega

/-- Whoever closes a descriptor holds it. -/
theorem Closing.token {s : Server W} {fd : ℤ} (h : s.Closing fd) :
    1 ≤ s.loop.token fd + s.mThreadpool.load (Task.token fd) := by
  rcases h with h | ⟨t, b, hhas, hpc, hfd⟩
  · have htoken : s.loop.token fd = 1 := by
      rw [h]
      exact if_pos rfl
    omega
  · have hload := holds_task hhas (by rw [hpc]; rfl) hfd
    omega

/-- So does whoever is between the halves of `CloseConn`. -/
theorem Erasing.token {s : Server W} {fd : ℤ} (h : s.Erasing fd) (mListenFd : ℤ) :
    1 ≤ s.tokens mListenFd fd := by
  unfold tokens
  rcases h with h | ⟨t, b, hhas, hpc, hfd⟩
  · have htoken : s.loop.token fd = 1 := by
      rw [h]
      exact if_pos rfl
    omega
  · have hload := holds_task hhas (by rw [hpc]; rfl) hfd
    omega

/-- The events of a connection, one of them taken out. -/
theorem countP_event (mListenFd fd : ℤ) {ev : EpollEvent} {events rest : List EpollEvent}
    (h : events = ev :: rest) :
    events.countP (EpollEvent.concerns mListenFd fd) =
      rest.countP (EpollEvent.concerns mListenFd fd) +
        if EpollEvent.concerns mListenFd fd ev then 1 else 0 := by
  rw [h, List.countP_cons]

/-- An event that the loop handles for a connection is one of the connection found. -/
theorem Inv.concerns {mListenFd : ℤ} {s : Server W} {ev : EpollEvent} {conn : ConnPtr}
    (hs : Inv mListenFd s) (hreact : react mListenFd ev ≠ .accept)
    (hfound : s.connMap ev.fd = some conn) (fd : ℤ) :
    EpollEvent.concerns mListenFd fd ev = decide (conn.mConnfd = fd) := by
  have hfd := react_ne_accept hreact
  have hfiled := hs.filed ev.fd conn hfound
  unfold EpollEvent.concerns
  rw [hfiled, decide_eq_decide]
  constructor
  · intro h
    exact h.1
  · intro h
    exact ⟨h, h ▸ hfd⟩

/-- Events of other descriptors do not count. -/
theorem not_concerns {mListenFd : ℤ} {ev : EpollEvent} {fd : ℤ} (h : ev.fd ≠ fd) :
    EpollEvent.concerns mListenFd fd ev = false :=
  decide_eq_false fun hc => h hc.1

/-- Events of the descriptor do. -/
theorem concerns_self {mListenFd : ℤ} {ev : EpollEvent} (h : ev.fd ≠ mListenFd) :
    EpollEvent.concerns mListenFd ev.fd ev = true :=
  decide_eq_true ⟨rfl, h⟩

/-- A handler touches the registration of its own descriptor only. -/
theorem HandlerStep.mEpoll_of_ne {conn : ConnPtr} {pc pc' : HandlerAt} {s s' : Server W}
    (h : HandlerStep conn pc s pc' s') {fd : ℤ} (hne : conn.mConnfd ≠ fd) :
    s'.mEpoll fd = s.mEpoll fd := by
  cases h with
  | enableConnRead => exact epollMod_of_ne s _ (Ne.symm hne)
  | enableConnWrite => exact epollMod_of_ne s _ (Ne.symm hne)
  | closeDel => exact Function.update_of_ne (Ne.symm hne) ..
  | _ => rfl

/-- The loop finds the connection of every event. -/
theorem Inv.found {mListenFd : ℤ} {s : Server W} (hs : Inv mListenFd s) {ev : EpollEvent}
    (hev : ev ∈ s.epollEvent) (hlisten : ev.fd ≠ mListenFd) :
    ∃ conn, s.connMap ev.fd = some conn ∧ conn.mConnfd = ev.fd := by
  obtain ⟨-, hmap⟩ := hs.registered ev.fd (hs.harvested ev hev hlisten)
  obtain ⟨conn, hconn⟩ := Option.ne_none_iff_exists'.mp hmap
  exact ⟨conn, hconn, hs.filed ev.fd conn hconn⟩

/-- Moves that may take a token away from a descriptor. -/
inductive Gives (mListenFd : ℤ) (s' : Server W) (fd : ℤ) : Label W → Prop
  /-- Events of the listening socket are nobody's. -/
  | listener {a : Label W} (hfd : fd = mListenFd) : Gives mListenFd s' fd a
  /-- The loop deletes the registration. -/
  | closeDel (hloop : s'.loop = .closeErase fd) : Gives mListenFd s' fd .loop
  /-- The connection leaves the map. -/
  | closeErase (hnone : s'.connMap fd = none) : Gives mListenFd s' fd .loop
  /-- An event is dropped. -/
  | ignore {ev : EpollEvent} (hfd : ev.fd = fd) (hreact : react mListenFd ev = .nothing) :
      Gives mListenFd s' fd (.event ev)
  /-- A handler of the descriptor moves. -/
  | handler {i : Fin W} {conn : ConnPtr} {pc : HandlerAt} (hfd : conn.mConnfd = fd) :
      Gives mListenFd s' fd (.handler i conn pc)

/-- How a move changes the tokens of a descriptor: not at all, by one when a new
connection is registered, or downwards by giving one up. -/
theorem Step.balance {mListenFd : ℤ} {s s' : Server W} {a : Label W} (h : Step mListenFd s a s')
    (hs : Inv mListenFd s) (fd : ℤ) :
    s'.tokens mListenFd fd = s.tokens mListenFd fd ∨
      s.Adds s' fd ∧ s'.tokens mListenFd fd = s.tokens mListenFd fd + 1 ∨
      Gives mListenFd s' fd a ∧ s'.tokens mListenFd fd ≤ s.tokens mListenFd fd := by
  cases h with
  | @deliver ev armed hloop hroom harmed =>
    unfold tokens
    dsimp only
    rw [List.countP_append, List.countP_singleton]
    by_cases hfd : ev.fd = fd
    · subst hfd
      rw [Function.update_self, harmed]
      dsimp only [Registration.token]
      by_cases hlisten : ev.fd = mListenFd
      · refine .inr (.inr ⟨.listener hlisten, ?_⟩)
        have hone : (if EpollEvent.concerns mListenFd ev.fd ev then 1 else 0) ≤ 1 := by
          split <;> omega
        omega
      · left
        rw [concerns_self hlisten, if_pos rfl]
        omega
    · left
      rw [Function.update_of_ne (Ne.symm hfd), not_concerns hfd]
      rfl
  | @deliverListen ev hloop hroom hlisten =>
    left
    have hother : EpollEvent.concerns mListenFd fd ev = false := by
      refine decide_eq_false fun h => h.2 ?_
      rw [← h.1, hlisten]
    unfold tokens
    dsimp only
    rw [List.countP_append, List.countP_singleton, hother]
    rfl
  | @accept ev rest connfd hloop hev hreact hfd =>
    left
    have hother : EpollEvent.concerns mListenFd fd ev = false := by
      refine decide_eq_false fun h => h.2 ?_
      rw [← h.1, react_accept hreact]
    unfold tokens
    rw [countP_event mListenFd fd hev, hother, hloop]
    rfl
  | @add conn hloop =>
    obtain ⟨hevents, hpool, -⟩ := epollAdd_frame s conn.mConnfd
    have htoken : (LoopAt.added conn).token fd = s.loop.token fd := by rw [hloop]; rfl
    rcases epollAdd_cases s conn.mConnfd fd with hsame | ⟨rfl, hpos, harmed⟩
    · left
      unfold tokens
      dsimp only
      rw [hevents, hpool, hsame, htoken]
    · obtain ⟨-, habsent⟩ := hs.fresh conn (by rw [hloop]; rfl)
      refine .inr (.inl ⟨⟨conn, hloop, rfl, rfl, hpos⟩, ?_⟩)
      unfold tokens
      dsimp only
      rw [hevents, hpool, harmed, htoken, habsent]
      dsimp only [Registration.token]
      omega
  | @close ev rest conn hloop hev hreact hfound =>
    left
    have hcount := countP_event mListenFd fd hev
    rw [hs.concerns (by rw [hreact]; exact nofun) hfound] at hcount
    simp only [decide_eq_true_eq] at hcount
    unfold tokens
    rw [hcount, hloop]
    dsimp only [LoopAt.token]
    omega
  | @closeDel connfd hloop =>
    unfold tokens epollDel
    rw [hloop]
    dsimp only [LoopAt.token]
    by_cases hfd : fd = connfd
    · subst hfd
      refine .inr (.inr ⟨.closeDel rfl, ?_⟩)
      rw [Function.update_self]
      dsimp only [Registration.token]
      omega
    · left
      rw [Function.update_of_ne hfd]
  | @closeErase connfd hloop =>
    unfold tokens mapErase
    rw [hloop]
    dsimp only [LoopAt.token]
    by_cases hfd : connfd = fd
    · subst hfd
      exact .inr (.inr ⟨.closeErase (Function.update_self ..), by omega⟩)
    · left
      rw [if_neg hfd]
  | @dispatch ev rest conn pc hloop hev hreact hfound =>
    left
    have hcount := countP_event mListenFd fd hev
    rw [hs.concerns (by rw [hreact]; exact nofun) hfound] at hcount
    simp only [decide_eq_true_eq] at hcount
    have htask : Task.token fd ⟨conn, pc⟩ = if conn.mConnfd = fd then 1 else 0 := by
      unfold Task.token
      rcases react_addTask hreact with hpc | hpc <;> rw [hpc] <;> rfl
    unfold tokens
    rw [hcount, hloop, ThreadPool.load_request, htask]
    dsimp only [LoopAt.token]
    omega
  | @ignore ev rest hloop hev hreact =>
    have hcount := countP_event mListenFd fd hev
    unfold tokens
    dsimp only
    by_cases hfd : ev.fd = fd
    · exact .inr (.inr ⟨.ignore hfd hreact, by omega⟩)
    · left
      rw [hcount, not_concerns hfd]
      rfl
  | @null ev rest hloop hev haccept hnothing hfound =>
    have hmem : ev ∈ s.epollEvent := by
      rw [hev]
      exact List.mem_cons_self
    obtain ⟨conn, hconn, -⟩ := hs.found hmem (react_ne_accept haccept)
    rw [hfound] at hconn
    cases hconn
  | @pool a pool hstep hstop hreturned =>
    left
    have hload := hstep.load (Task.token fd)
    have hended : ThreadPool.ended (Task.token fd) s.mThreadpool a = 0 := by
      cases a with
      | finish i =>
        cases hw : s.mThreadpool.workers i with
        | running t =>
          have hpc := hreturned i t rfl hw
          simp [ThreadPool.ended, ThreadPool.weight, hw, Task.token, hpc, HandlerAt.token]
        | _ => simp [ThreadPool.ended, ThreadPool.weight, hw]
      | _ => rfl
    unfold tokens
    dsimp only
    omega
  | @handler s' i t pc hrun hstep =>
    obtain ⟨hloop, hevents, hpool⟩ := hstep.frame
    have hload := load_setTask (Task.token fd) s' ⟨t.conn, pc⟩ (by rw [hpool]; exact hrun)
    rw [hpool] at hload
    unfold tokens
    change _ + s'.epollEvent.countP _ + s'.loop.token fd + _ = _ ∨ _
    have hmEpoll : (s'.setTask i ⟨t.conn, pc⟩).mEpoll = s'.mEpoll := rfl
    rw [hloop, hevents, hmEpoll]
    by_cases hfd : t.conn.mConnfd = fd
    · have htoken : (s'.mEpoll fd).token + Task.token fd ⟨t.conn, pc⟩ ≤
          (s.mEpoll fd).token + Task.token fd t := hstep.token_le hfd
      refine .inr (.inr ⟨.handler hfd, ?_⟩)
      change _ + s'.epollEvent.countP _ + s'.loop.token fd + _ ≤ _
      rw [hloop, hevents]
      omega
    · left
      have hold : Task.token fd t = 0 := if_neg hfd
      have hnew : Task.token fd ⟨t.conn, pc⟩ = 0 := if_neg hfd
      rw [hstep.mEpoll_of_ne hfd]
      omega
  | _ hloop =>
    left
    unfold tokens
    rw [hloop]
    rfl

/-- No move adds to the tokens of a descriptor, except that a new connection is registered. -/
theorem Step.tokens_le {mListenFd : ℤ} {s s' : Server W} {a : Label W}
    (h : Step mListenFd s a s') (hs : Inv mListenFd s) (fd : ℤ) :
    s'.tokens mListenFd fd ≤ s.tokens mListenFd fd ∨
      s.Adds s' fd ∧ s'.tokens mListenFd fd ≤ s.tokens mListenFd fd + 1 := by
  rcases h.balance hs fd with hsame | ⟨hadds, hmore⟩ | ⟨-, hless⟩
  · exact .inl (Nat.le_of_eq hsame)
  · exact .inr ⟨hadds, Nat.le_of_eq hmore⟩
  · exact .inl hless

/-- A descriptor that is not open is out of everybody's reach. -/
theorem Inv.unused {mListenFd : ℤ} {s : Server W} (hs : Inv mListenFd s) {fd : ℤ}
    (hloop : s.loop = .handling) (h : s.Unused mListenFd fd) :
    s.tokens mListenFd fd = 0 ∧ s.mEpoll fd = .absent := by
  obtain ⟨-, hlisten, hclosed⟩ := h
  have habsent : s.mEpoll fd = .absent := by
    by_contra hreg
    obtain ⟨-, hmap⟩ := hs.registered fd hreg
    obtain ⟨conn, hconn⟩ := Option.ne_none_iff_exists'.mp hmap
    exact hclosed conn (.inl ⟨fd, hconn⟩) (hs.filed fd conn hconn)
  have hevents : s.epollEvent.countP (EpollEvent.concerns mListenFd fd) = 0 := by
    rw [List.countP_eq_zero]
    intro ev hev hconcerns
    obtain ⟨hfd, -⟩ := of_decide_eq_true hconcerns
    have hreg := hs.harvested ev hev (by rw [hfd]; exact hlisten)
    rw [hfd] at hreg
    exact hreg habsent
  have hload : s.mThreadpool.load (Task.token fd) = 0 := by
    apply ThreadPool.load_eq_zero
    intro t ht
    unfold Task.token
    rw [if_neg (hclosed t.conn (.inr (.inr ⟨t, ht, rfl⟩)))]
  refine ⟨?_, habsent⟩
  unfold tokens
  rw [habsent, hevents, hload, hloop]
  rfl

/-- Nobody else acts on a descriptor whose registration is being deleted. -/
theorem Inv.not_closing {mListenFd : ℤ} {s : Server W} (hs : Inv mListenFd s) {ev : EpollEvent}
    (hlisten : ev.fd ≠ mListenFd)
    (hev : ev ∈ s.epollEvent ∨ ∃ armed, s.mEpoll ev.fd = .armed armed) : ¬ s.Closing ev.fd := by
  intro hclosing
  have htoken := hclosing.token
  have hone := hs.exclusive ev.fd
  unfold tokens at hone
  rcases hev with hev | ⟨armed, harmed⟩
  · have hcount : 0 < s.epollEvent.countP (EpollEvent.concerns mListenFd ev.fd) := by
      rw [List.countP_pos_iff]
      exact ⟨ev, hev, decide_eq_true ⟨rfl, hlisten⟩⟩
    omega
  · have hreg : (s.mEpoll ev.fd).token = 1 := by
      rw [harmed]
      rfl
    omega

/-- A connection stays in the map until it has been closed. -/
theorem Step.map_kept {mListenFd : ℤ} {s s' : Server W} {a : Label W} (h : Step mListenFd s a s')
    {fd : ℤ} (hmap : s.connMap fd ≠ none) (herasing : ¬ s.Erasing fd) : s'.connMap fd ≠ none := by
  rcases h.connMap fd with hsame | ⟨conn, -, -, hsome⟩ | ⟨her, -⟩
  · rwa [hsame]
  · rw [hsome]
    exact nofun
  · exact absurd her herasing

/-- Nobody can act on the descriptor that is about to be registered. -/
theorem Inv.adds {mListenFd : ℤ} {s s' : Server W} (hs : Inv mListenFd s) {fd : ℤ}
    (h : s.Adds s' fd) : s.tokens mListenFd fd = 0 ∧ s.connMap fd ≠ none ∧ ¬ s.Erasing fd := by
  obtain ⟨conn, hloop, -, rfl, -⟩ := h
  obtain ⟨hzero, -⟩ := hs.fresh conn (by rw [hloop]; rfl)
  refine ⟨hzero, ?_, ?_⟩
  · rw [hs.inserted conn (by rw [hloop]; rfl)]
    exact nofun
  · intro herasing
    have htoken := herasing.token mListenFd
    omega

/-- Descriptors that nobody can act on stay so while a connection is made. -/
theorem Step.fresh {mListenFd : ℤ} {s s' : Server W} {a : Label W} (h : Step mListenFd s a s')
    (hs : Inv mListenFd s) {conn : ConnPtr} (hconn : s'.loop.unregistered = some conn)
    (hzero : s.tokens mListenFd conn.mConnfd = 0) (habsent : s.mEpoll conn.mConnfd = .absent) :
    s'.tokens mListenFd conn.mConnfd = 0 ∧ s'.mEpoll conn.mConnfd = .absent := by
  have hadds : ∀ fd, ¬ s.Adds s' fd := by
    rintro fd ⟨new, -, hloop, -⟩
    rw [hloop] at hconn
    cases hconn
  constructor
  · rcases h.tokens_le hs conn.mConnfd with hle | ⟨hadd, -⟩
    · omega
    · exact absurd hadd (hadds _)
  · rcases h.absent habsent with hsame | hadd
    · exact hsame
    · exact absurd hadd (hadds _)

/-- Every move keeps the invariant. -/
theorem Step.inv {mListenFd : ℤ} {s s' : Server W} {a : Label W} (h : Step mListenFd s a s')
    (hs : Inv mListenFd s) : Inv mListenFd s' := by
  constructor
  case filed =>
    intro fd conn hconn
    rcases h.connMap fd with hsame | ⟨new, -, hfd, hnew⟩ | ⟨-, hnone⟩
    · rw [hsame] at hconn
      exact hs.filed fd conn hconn
    · rw [hnew] at hconn
      cases hconn
      exact hfd
    · rw [hnone] at hconn
      cases hconn
  case registered =>
    intro fd hreg
    by_cases hbefore : s.mEpoll fd = .absent
    · rcases h.absent hbefore with hsame | hadd
      · exact absurd hsame hreg
      · obtain ⟨-, hmap, herasing⟩ := hs.adds hadd
        obtain ⟨-, -, -, -, hpos⟩ := hadd
        exact ⟨hpos, h.map_kept hmap herasing⟩
    · obtain ⟨hpos, hmap⟩ := hs.registered fd hbefore
      exact ⟨hpos, h.map_kept hmap fun herasing => hbefore (hs.erasing fd herasing)⟩
  case harvested =>
    intro ev hev hlisten hgone
    have hsource : ev ∈ s.epollEvent ∨ ∃ armed, s.mEpoll ev.fd = .armed armed := by
      rcases h.events hev with hold | hfd | harmed
      · exact .inl hold
      · exact absurd hfd hlisten
      · exact .inr harmed
    rcases h.deleted hgone with hbefore | hclosing
    · rcases hsource with hold | ⟨armed, harmed⟩
      · exact hs.harvested ev hold hlisten hbefore
      · rw [harmed] at hbefore
        cases hbefore
    · exact hs.not_closing hlisten hsource hclosing
  case exclusive =>
    intro fd
    have hone := hs.exclusive fd
    rcases h.tokens_le hs fd with hle | ⟨hadd, hle⟩
    · omega
    · have hzero := (hs.adds hadd).1
      omega
  case proper =>
    intro fd hfd
    rcases h.tokens_le hs fd with hle | ⟨⟨conn, -, -, -, hpos⟩, -⟩
    · exact hs.proper fd (by omega)
    · exact hpos
  case erasing =>
    intro fd hfd
    rcases h.erasing hfd with hbefore | hgone
    · rcases h.absent (hs.erasing fd hbefore) with hsame | hadd
      · exact hsame
      · exact absurd hbefore (hs.adds hadd).2.2
    · exact hgone
  case fresh =>
    intro conn hconn
    rcases h.unregistered hconn with hbefore | ⟨hloop, -, hfd | hunused⟩
    · obtain ⟨hzero, habsent⟩ := hs.fresh conn hbefore
      exact h.fresh hs hconn hzero habsent
    · refine h.fresh hs hconn ?_ ?_
      · by_contra hne
        have hpos := hs.proper _ hne
        omega
      · by_contra hne
        have hpos := (hs.registered _ hne).1
        omega
    · obtain ⟨hzero, habsent⟩ := hs.unused hloop hunused
      exact h.fresh hs hconn hzero habsent
  case inserted =>
    intro conn hconn
    rcases h.inserted hconn with hbefore | hnew
    · have hmap := hs.inserted conn hbefore
      rcases h.connMap conn.mConnfd with hsame | ⟨new, hloop, -⟩ | ⟨herasing, -⟩
      · rwa [hsame]
      · rw [hloop] at hbefore
        cases hbefore
      · have htoken := herasing.token mListenFd
        have hzero := (hs.fresh conn (LoopAt.unregistered_of_inserted hbefore)).1
        omega
    · exact hnew
  case pending =>
    intro t ht
    rcases h.pending ht with hbefore | hentry
    · exact hs.pending t hbefore
    · exact hentry

/-- A new server has no tasks. -/
theorem new_has (W : ℕ) (t : Task) : ¬ (new W).mThreadpool.Has t := by
  rintro ((⟨p, hp⟩ | ht) | ⟨i, hi⟩)
  · cases hp
  · cases ht
  · cases hi

/-- The new server. -/
theorem new_inv (W : ℕ) (mListenFd : ℤ) : Inv mListenFd (new W) := by
  have hzero : ∀ fd, (new W).tokens mListenFd fd = 0 := by
    intro fd
    have hload := ThreadPool.load_eq_zero (Task.token fd) fun t ht => absurd ht (new_has W t)
    unfold tokens
    rw [hload]
    rfl
  constructor
  case filed =>
    intro fd conn h
    cases h
  case registered =>
    intro fd h
    exact absurd rfl h
  case harvested =>
    intro ev h
    cases h
  case exclusive =>
    intro fd
    rw [hzero]
    exact Nat.zero_le 1
  case proper =>
    intro fd h
    exact absurd (hzero fd) h
  case erasing =>
    intro fd h
    rfl
  case fresh =>
    intro conn h
    cases h
  case inserted =>
    intro conn h
    cases h
  case pending =>
    intro t h
    exact absurd (.inl h) (new_has W t)

/-- The invariant holds in every reachable state. -/
theorem reachable_inv {mListenFd : ℤ} {s : Server W} (h : (system W mListenFd).Reachable s) :
    Inv mListenFd s := by
  refine h.invariant ?_ ?_
  · rintro s rfl
    exact new_inv W mListenFd
  · intro s a t hs hstep
    exact Step.inv hstep hs

/-- Whether a worker is in a handler of the connection that has accesses ahead. -/
def handles (s : Server W) (conn : ConnPtr) (i : Fin W) : Bool :=
  match s.mThreadpool.workers i with
  | .running t => t.conn = conn && t.pc.accessAhead
  | _ => false

/-- The tasks of a connection that are queued, or running with accesses ahead. -/
def handlersOf (s : Server W) (conn : ConnPtr) : ℕ :=
  (s.mThreadpool.mTasks.filter fun t => t.conn = conn).length +
    (Finset.univ.filter fun i => s.handles conn i = true).card

/-- The tasks of a connection hold its descriptor. -/
theorem Inv.handlersOf_le {mListenFd : ℤ} {s : Server W} (hs : Inv mListenFd s) (conn : ConnPtr) :
    s.handlersOf conn ≤ s.tokens mListenFd conn.mConnfd := by
  have hload : s.handlersOf conn ≤ s.mThreadpool.load (Task.token conn.mConnfd) := by
    apply ThreadPool.count_le_load
    · intro t ht hconn
      have hfd : t.conn.mConnfd = conn.mConnfd := by rw [of_decide_eq_true hconn]
      unfold Task.token
      rw [if_pos hfd]
      rcases hs.pending t (.inr ht) with hpc | hpc <;> rw [hpc] <;> exact Nat.le_refl 1
    · intro i hi
      unfold handles at hi
      split at hi
      · next t hrun =>
        rw [Bool.and_eq_true] at hi
        obtain ⟨hconn, hpc⟩ := hi
        have hfd : t.conn.mConnfd = conn.mConnfd := by rw [of_decide_eq_true hconn]
        rw [hrun]
        change 1 ≤ Task.token conn.mConnfd t
        unfold Task.token
        rw [if_pos hfd]
        cases hat : t.pc with
        | returned =>
          rw [hat] at hpc
          cases hpc
        | _ => exact Nat.le_refl 1
      · cases hi
  unfold tokens
  omega

/-- In every reachable state at most one task of a connection is queued, or
running and not past its last access to the connection. -/
theorem reachable_one_handler {mListenFd : ℤ} {s : Server W}
    (h : (system W mListenFd).Reachable s) (conn : ConnPtr) : s.handlersOf conn ≤ 1 := by
  have hs := reachable_inv h
  calc
    s.handlersOf conn ≤ s.tokens mListenFd conn.mConnfd := hs.handlersOf_le conn
    _ ≤ 1 := hs.exclusive conn.mConnfd

/-- One connection is accepted and its first event handed to the pool. -/
theorem reachable_one_handler_sample :
    ∃ s : Server 1, s.handlersOf ⟨0, 5⟩ = 1 ∧ s.handlersOf ⟨0, 5⟩ ≤ 1 := by
  let readable : Events := ⟨true, false, false, false, false⟩
  have hunused : Unused 3 { new 1 with loop := .handling, epollEvent := [⟨3, readable⟩] } 5 := by
    refine ⟨by decide, by decide, ?_⟩
    rintro conn (⟨fd, h⟩ | h | ⟨t, ht, -⟩)
    · cases h
    · cases h
    · exact absurd ht (new_has 1 t)
  have h₀ : (system 1 3).Leads (new 1) (new 1) := .refl _
  have h₁ := h₀.tail (@Step.deliverListen 1 3 _ ⟨3, readable⟩ rfl (by decide) rfl)
  have h₂ := h₁.tail (.wakeup rfl)
  have h₃ := h₂.tail (.accept rfl rfl rfl (.inr hunused))
  have h₄ := h₃.tail (.insert rfl)
  have h₅ := h₄.tail (.cCallBack rfl)
  have h₆ := h₅.tail (.add rfl)
  have h₇ := h₆.tail (.added rfl)
  have h₈ := h₇.tail (.handled rfl rfl)
  have h₉ := h₈.tail (@Step.deliver 1 3 _ ⟨5, readable⟩ .EPOLLIN rfl (by decide) rfl)
  have h₁₀ := h₉.tail (.wakeup rfl)
  have h₁₁ := h₁₀.tail (.dispatch rfl rfl rfl rfl)
  have h₁₂ := h₁₁.tail (.pool (.call (p := 0) rfl (by decide)) nofun nofun)
  have h₁₃ := h₁₂.tail (.pool (.push (p := 0) (.inl rfl) (fun _ => nofun) rfl rfl
    (.lost fun _ => nofun)) nofun nofun)
  exact ⟨_, rfl, reachable_one_handler ⟨_, rfl, h₁₃⟩ _⟩

end Server

end KyrosWebServer.Net
