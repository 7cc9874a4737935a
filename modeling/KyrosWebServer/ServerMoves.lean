import KyrosWebServer.Server

/-!
# What a move of the server can do

The descriptors under one move: a registration is made only for a new
connection and deleted only in `CloseConn`, the map changes only there and
where a new connection enters it, and tasks and events come from the places
that the source names. Invariants of the server are derived from these facts.
-/

namespace KyrosWebServer.Net

open TransitionSystem Base

variable {W : ℕ}

/-- A new connection that is not registered yet. -/
def LoopAt.unregistered : LoopAt → Option ConnPtr
  | inserting conn | connected conn | adding conn => some conn
  | _ => none

/-- A new connection that is in the map and not registered yet. -/
def LoopAt.inserted : LoopAt → Option ConnPtr
  | connected conn | adding conn => some conn
  | _ => none

/-- Every such connection is unregistered. -/
theorem LoopAt.unregistered_of_inserted {l : LoopAt} {conn : ConnPtr}
    (h : l.inserted = some conn) : l.unregistered = some conn := by
  cases l with
  | connected c => exact h
  | adding c => exact h
  | _ => cases h

namespace Server

/-- Somebody is between the two halves of `CloseConn` for a descriptor. -/
def Erasing (s : Server W) (fd : ℤ) : Prop :=
  s.loop = .closeErase fd ∨
    ∃ t b, s.mThreadpool.Has t ∧ t.pc = .closeErase b ∧ t.conn.mConnfd = fd

/-- Somebody is about to delete the registration of a descriptor. -/
def Closing (s : Server W) (fd : ℤ) : Prop :=
  s.loop = .closeDel fd ∨
    ∃ t b, s.mThreadpool.Has t ∧ t.pc = .closeDel b ∧ t.conn.mConnfd = fd

/-- The loop gets from `s` to `s'` by registering a new connection under `fd`. -/
def Adds (s s' : Server W) (fd : ℤ) : Prop :=
  ∃ conn, s.loop = .adding conn ∧ s'.loop = .added conn ∧ conn.mConnfd = fd ∧ 0 ≤ fd

/-- A handler changes nothing but registrations, the map and the flag. -/
theorem HandlerStep.frame {conn : ConnPtr} {pc pc' : HandlerAt} {s s' : Server W}
    (h : HandlerStep conn pc s pc' s') :
    s'.loop = s.loop ∧ s'.epollEvent = s.epollEvent ∧ s'.mThreadpool = s.mThreadpool := by
  cases h with
  | enableConnRead =>
    unfold epollMod
    split <;> exact ⟨rfl, rfl, rfl⟩
  | enableConnWrite =>
    unfold epollMod
    split <;> exact ⟨rfl, rfl, rfl⟩
  | _ => exact ⟨rfl, rfl, rfl⟩

/-- `EPOLL_CTL_MOD` registers nothing. -/
theorem epollMod_absent (s : Server W) (fd fd' : ℤ) (ev : Interest) :
    (s.epollMod fd ev).mEpoll fd' = .absent ↔ s.mEpoll fd' = .absent := by
  unfold epollMod
  split
  · rfl
  · next h =>
    by_cases hfd : fd' = fd
    · subst hfd
      dsimp only
      rw [Function.update_self]
      exact ⟨nofun, fun h' => absurd h' h⟩
    · dsimp only
      rw [Function.update_of_ne hfd]

/-- `EPOLL_CTL_MOD` arms no other descriptor. -/
theorem epollMod_of_ne (s : Server W) {fd fd' : ℤ} (ev : Interest) (h : fd' ≠ fd) :
    (s.epollMod fd ev).mEpoll fd' = s.mEpoll fd' := by
  unfold epollMod
  split
  · rfl
  · dsimp only
    rw [Function.update_of_ne h]

/-- `EPOLL_CTL_MOD` leaves the map as it is. -/
@[simp] theorem epollMod_connMap (s : Server W) (fd : ℤ) (ev : Interest) :
    (s.epollMod fd ev).connMap = s.connMap := by
  unfold epollMod
  split <;> rfl

/-- Registrations under a handler: none is made, and only `CloseConn` deletes one. -/
theorem HandlerStep.registration {conn : ConnPtr} {pc pc' : HandlerAt} {s s' : Server W}
    (h : HandlerStep conn pc s pc' s') (fd : ℤ) :
    (s'.mEpoll fd = .absent ↔ s.mEpoll fd = .absent) ∨
      ∃ b, pc = .closeDel b ∧ conn.mConnfd = fd ∧ s'.mEpoll fd = .absent := by
  cases h with
  | enableConnRead => exact .inl (epollMod_absent s conn.mConnfd fd .EPOLLIN)
  | enableConnWrite => exact .inl (epollMod_absent s conn.mConnfd fd .EPOLLOUT)
  | @closeDel s b =>
    unfold epollDel
    dsimp only
    by_cases hfd : fd = conn.mConnfd
    · subst hfd
      exact .inr ⟨b, rfl, rfl, Function.update_self ..⟩
    · left
      rw [Function.update_of_ne hfd]
  | _ => exact .inl Iff.rfl

/-- The map under a handler: only `CloseConn` changes it. -/
theorem HandlerStep.connMap {conn : ConnPtr} {pc pc' : HandlerAt} {s s' : Server W}
    (h : HandlerStep conn pc s pc' s') (fd : ℤ) :
    s'.connMap fd = s.connMap fd ∨
      ∃ b, pc = .closeErase b ∧ conn.mConnfd = fd ∧ s'.connMap fd = none := by
  cases h with
  | enableConnRead => exact .inl (by rw [epollMod_connMap])
  | enableConnWrite => exact .inl (by rw [epollMod_connMap])
  | @closeErase s b =>
    unfold mapErase
    dsimp only
    by_cases hfd : fd = conn.mConnfd
    · subst hfd
      exact .inr ⟨b, rfl, rfl, Function.update_self ..⟩
    · left
      rw [Function.update_of_ne hfd]
  | _ => exact .inl rfl

/-- A handler gets between the halves of `CloseConn` by deleting its registration. -/
theorem HandlerStep.erasing {conn : ConnPtr} {pc : HandlerAt} {b : Bool} {s s' : Server W}
    (h : HandlerStep conn pc s (.closeErase b) s') : s'.mEpoll conn.mConnfd = .absent := by
  generalize hpc : HandlerAt.closeErase b = pc' at h
  cases h with
  | recv ret =>
    unfold afterRecv at hpc
    split at hpc <;> cases hpc
  | processRead ret => cases ret <;> cases hpc
  | send ret =>
    unfold afterSend at hpc
    repeat' split at hpc
    all_goals cases hpc
  | writeCb => split at hpc <;> cases hpc
  | closeDel => exact Function.update_self ..
  | closeErase =>
    unfold afterClose at hpc
    split at hpc <;> cases hpc
  | _ => cases hpc

/-- A handler that has made its last access makes no further one. -/
theorem HandlerStep.accessAhead {conn : ConnPtr} {pc pc' : HandlerAt} {s s' : Server W}
    (h : HandlerStep conn pc s pc' s') (hpc : pc.accessAhead = false) :
    pc'.accessAhead = false := by
  cases h with
  | @writeCb s => cases s.mAlive conn <;> rfl
  | @closeErase s b => cases b <;> rfl
  | enableConnRead => rfl
  | enableConnWrite => rfl
  | closeDel => rfl
  | _ => cases hpc

/-- A handler that moves is the only task of the pool that changes. -/
theorem has_of_setTask {s : Server W} {i : Fin W} {t u : Task}
    (h : (s.setTask i t).mThreadpool.Has u) : s.mThreadpool.Has u ∨ u = t := by
  by_cases hut : u = t
  · exact .inr hut
  · left
    refine ThreadPool.has_of_setWorker ?_ h
    intro heq
    cases heq
    exact hut rfl

/-- The other tasks stay where they are. -/
theorem has_setTask {s : Server W} {i : Fin W} {t u : Task} (v : Task)
    (hrun : s.mThreadpool.workers i = .running u) (h : s.mThreadpool.Has t) (hne : t ≠ u) :
    (s.setTask i v).mThreadpool.Has t := by
  rcases h with h | ⟨j, hj⟩
  · exact .inl h
  · right
    have hji : j ≠ i := by
      rintro rfl
      rw [hrun] at hj
      cases hj
      exact hne rfl
    exact ⟨j, (ThreadPool.setWorker_of_ne _ hji).trans hj⟩

/-- The loop goes to `accept` for the listening socket only. -/
theorem react_accept {mListenFd : ℤ} {ev : EpollEvent} (h : react mListenFd ev = .accept) :
    ev.fd = mListenFd := by
  unfold react at h
  split at h
  · assumption
  · repeat' split at h
    all_goals cases h

/-- An event for which a connection is closed or a task is added is of its descriptor. -/
theorem react_ne_accept {mListenFd : ℤ} {ev : EpollEvent} (h : react mListenFd ev ≠ .accept) :
    ev.fd ≠ mListenFd := by
  intro hfd
  unfold react at h
  rw [if_pos hfd] at h
  exact h rfl

/-- The branch of `handleErr` is never reached. -/
theorem react_addTask {mListenFd : ℤ} {ev : EpollEvent} {pc : HandlerAt}
    (h : react mListenFd ev = .addTask pc) : pc = .handleRead ∨ pc = .handleWrite := by
  unfold react at h
  split at h
  · cases h
  split at h
  · cases h
  · next herr =>
    split at h
    · cases h
      exact .inl rfl
    split at h
    · cases h
      exact .inr rfl
    · simp only [Bool.or_eq_true, not_or] at herr
      rw [if_neg herr.2] at h
      cases h

/-- `EPOLL_CTL_ADD` arms a proper descriptor that was not registered. -/
theorem epollAdd_cases (s : Server W) (connfd fd : ℤ) :
    (s.epollAdd connfd).mEpoll fd = s.mEpoll fd ∨
      connfd = fd ∧ 0 ≤ fd ∧ (s.epollAdd connfd).mEpoll fd = .armed .EPOLLIN := by
  unfold epollAdd
  split
  · next h =>
    dsimp only
    by_cases hfd : fd = connfd
    · subst hfd
      exact .inr ⟨rfl, h.1, Function.update_self ..⟩
    · left
      rw [Function.update_of_ne hfd]
  · exact .inl rfl

/-- `EPOLL_CTL_ADD` changes registrations only. -/
theorem epollAdd_frame (s : Server W) (connfd : ℤ) :
    (s.epollAdd connfd).epollEvent = s.epollEvent ∧
    (s.epollAdd connfd).mThreadpool = s.mThreadpool ∧ (s.epollAdd connfd).connMap = s.connMap := by
  unfold epollAdd
  split <;> exact ⟨rfl, rfl, rfl⟩

/-- A descriptor gets registered only for a new connection. -/
theorem Step.absent {mListenFd : ℤ} {s s' : Server W} {a : Label W} (h : Step mListenFd s a s')
    {fd : ℤ} (hfd : s.mEpoll fd = .absent) : s'.mEpoll fd = .absent ∨ s.Adds s' fd := by
  cases h with
  | @deliver ev armed hloop hroom harmed =>
    left
    have hne : fd ≠ ev.fd := by
      rintro rfl
      rw [harmed] at hfd
      cases hfd
    dsimp only
    rwa [Function.update_of_ne hne]
  | @add conn hloop =>
    rcases epollAdd_cases s conn.mConnfd fd with hsame | ⟨hadd, hpos, -⟩
    · left
      dsimp only
      rwa [hsame]
    · exact .inr ⟨conn, hloop, rfl, hadd, hpos⟩
  | @closeDel connfd hloop =>
    left
    unfold epollDel
    dsimp only
    by_cases hne : fd = connfd
    · subst hne
      rw [Function.update_self]
    · rwa [Function.update_of_ne hne]
  | handler hrun hstep =>
    left
    rcases hstep.registration fd with hreg | ⟨-, -, -, hreg⟩
    · exact hreg.mpr hfd
    · exact hreg
  | _ => exact .inl hfd

/-- A registration is deleted only in `CloseConn`. -/
theorem Step.deleted {mListenFd : ℤ} {s s' : Server W} {a : Label W} (h : Step mListenFd s a s')
    {fd : ℤ} (hfd : s'.mEpoll fd = .absent) : s.mEpoll fd = .absent ∨ s.Closing fd := by
  cases h with
  | @deliver ev armed hloop hroom harmed =>
    left
    dsimp only at hfd
    by_cases hne : fd = ev.fd
    · subst hne
      rw [Function.update_self] at hfd
      cases hfd
    · rwa [Function.update_of_ne hne] at hfd
  | @add conn hloop =>
    left
    dsimp only at hfd
    rcases epollAdd_cases s conn.mConnfd fd with hsame | ⟨-, -, harmed⟩
    · rwa [hsame] at hfd
    · rw [harmed] at hfd
      cases hfd
  | @closeDel connfd hloop =>
    unfold epollDel at hfd
    dsimp only at hfd
    by_cases hne : fd = connfd
    · subst hne
      exact .inr (.inl hloop)
    · rw [Function.update_of_ne hne] at hfd
      exact .inl hfd
  | @handler s' i t pc hrun hstep =>
    rcases hstep.registration fd with hreg | ⟨b, hpc, hconn, -⟩
    · exact .inl (hreg.mp hfd)
    · exact .inr (.inr ⟨t, b, .inr ⟨i, hrun⟩, hpc, hconn⟩)
  | _ => exact .inl hfd

/-- The map changes where a new connection enters it and in `CloseConn`. -/
theorem Step.connMap {mListenFd : ℤ} {s s' : Server W} {a : Label W} (h : Step mListenFd s a s')
    (fd : ℤ) :
    s'.connMap fd = s.connMap fd ∨
      (∃ conn, s.loop = .inserting conn ∧ conn.mConnfd = fd ∧ s'.connMap fd = some conn) ∨
      s.Erasing fd ∧ s'.connMap fd = none := by
  cases h with
  | @insert conn hloop =>
    dsimp only
    by_cases hfd : fd = conn.mConnfd
    · subst hfd
      exact .inr (.inl ⟨conn, hloop, rfl, Function.update_self ..⟩)
    · left
      rw [Function.update_of_ne hfd]
  | @add conn hloop =>
    obtain ⟨-, -, hmap⟩ := epollAdd_frame s conn.mConnfd
    left
    dsimp only
    rw [hmap]
  | @closeErase connfd hloop =>
    unfold mapErase
    dsimp only
    by_cases hfd : fd = connfd
    · subst hfd
      exact .inr (.inr ⟨.inl hloop, Function.update_self ..⟩)
    · left
      rw [Function.update_of_ne hfd]
  | @handler s' i t pc hrun hstep =>
    rcases hstep.connMap fd with hsame | ⟨b, hpc, hconn, hnone⟩
    · exact .inl hsame
    · exact .inr (.inr ⟨.inr ⟨t, b, .inr ⟨i, hrun⟩, hpc, hconn⟩, hnone⟩)
  | _ => exact .inl rfl

/-- Where a task of the pool comes from. -/
theorem Step.has {mListenFd : ℤ} {s s' : Server W} {a : Label W} (h : Step mListenFd s a s')
    {t : Task} (ht : s'.mThreadpool.Has t) :
    s.mThreadpool.Has t ∨
      ((t.pc = .handleRead ∨ t.pc = .handleWrite) ∧ ∃ ev ∈ s.epollEvent, ev.fd ≠ mListenFd ∧
        s.connMap ev.fd = some t.conn) ∨
      ∃ pc s₁, s.mThreadpool.Has ⟨t.conn, pc⟩ ∧ HandlerStep t.conn pc s t.pc s₁ ∧
        s'.mEpoll = s₁.mEpoll := by
  cases h with
  | @add conn hloop =>
    obtain ⟨-, hpool, -⟩ := epollAdd_frame s conn.mConnfd
    left
    dsimp only at ht
    rwa [hpool] at ht
  | @dispatch ev rest conn pc hloop hev hreact hfound =>
    rcases ThreadPool.has_of_request ht with ht | rfl
    · exact .inl ht
    · have hmem : ev ∈ s.epollEvent := by rw [hev]; exact List.mem_cons_self
      have hfd : ev.fd ≠ mListenFd := react_ne_accept (by rw [hreact]; exact nofun)
      exact .inr (.inl ⟨react_addTask hreact, ev, hmem, hfd, hfound⟩)
  | pool hstep hstop hreturned => exact .inl (hstep.has ht)
  | @handler s' i u pc hrun hstep =>
    rcases has_of_setTask ht with ht | rfl
    · obtain ⟨-, -, hpool⟩ := hstep.frame
      rw [hpool] at ht
      exact .inl ht
    · exact .inr (.inr ⟨u.pc, s', .inr ⟨i, hrun⟩, hstep, rfl⟩)
  | _ => exact .inl ht

/-- Who is between the halves of `CloseConn` was there before or has just
deleted the registration. -/
theorem Step.erasing {mListenFd : ℤ} {s s' : Server W} {a : Label W} (h : Step mListenFd s a s')
    {fd : ℤ} (hfd : s'.Erasing fd) : s.Erasing fd ∨ s'.mEpoll fd = .absent := by
  rcases hfd with hloop' | ⟨t, b, hhas, hpc, hconn⟩
  · cases h with
    | @closeDel connfd hloop =>
      cases hloop'
      exact .inr (Function.update_self ..)
    | @handler s' i t pc hrun hstep =>
      obtain ⟨hloop, -, -⟩ := hstep.frame
      have hsame : s'.loop = .closeErase fd := hloop'
      rw [hloop] at hsame
      exact .inl (.inl hsame)
    | pool hstep hstop hreturned => exact .inl (.inl hloop')
    | deliver hloop hroom harmed => exact .inl (.inl hloop')
    | deliverListen hloop hroom hlisten => exact .inl (.inl hloop')
    | ignore hloop hev hreact => exact .inl (.inl hloop')
    | _ => cases hloop'
  · rcases h.has hhas with hold | ⟨hentry, -⟩ | ⟨pc, s₁, -, hstep, hreg⟩
    · exact .inl (.inr ⟨t, b, hold, hpc, hconn⟩)
    · rw [hpc] at hentry
      rcases hentry with h | h <;> cases h
    · right
      rw [hpc] at hstep
      rw [hreg, ← hconn]
      exact hstep.erasing

/-- An event that is left when one is taken out was there before. -/
theorem mem_of_event {ev ev' : EpollEvent} {events rest : List EpollEvent}
    (h : events = ev :: rest) (hev : ev' ∈ rest) : ev' ∈ events := by
  rw [h]
  exact List.mem_cons_of_mem _ hev

/-- Where an unhandled event comes from. -/
theorem Step.events {mListenFd : ℤ} {s s' : Server W} {a : Label W} (h : Step mListenFd s a s')
    {ev : EpollEvent} (hev : ev ∈ s'.epollEvent) :
    ev ∈ s.epollEvent ∨ ev.fd = mListenFd ∨ ∃ armed, s.mEpoll ev.fd = .armed armed := by
  cases h with
  | @deliver ev' armed hloop hroom harmed =>
    rcases List.mem_append.mp hev with hev | hev
    · exact .inl hev
    · rw [List.mem_singleton] at hev
      subst hev
      exact .inr (.inr ⟨armed, harmed⟩)
  | deliverListen hloop hroom hlisten =>
    rcases List.mem_append.mp hev with hev | hev
    · exact .inl hev
    · rw [List.mem_singleton] at hev
      rw [hev]
      exact .inr (.inl hlisten)
  | @add conn hloop =>
    obtain ⟨hevents, -, -⟩ := epollAdd_frame s conn.mConnfd
    left
    dsimp only at hev
    rwa [hevents] at hev
  | accept hloop hevents hreact hfd => exact .inl (mem_of_event hevents hev)
  | close hloop hevents hreact hfound => exact .inl (mem_of_event hevents hev)
  | dispatch hloop hevents hreact hfound => exact .inl (mem_of_event hevents hev)
  | ignore hloop hevents hreact => exact .inl (mem_of_event hevents hev)
  | null hloop hevents haccept hnothing hfound => exact .inl (mem_of_event hevents hev)
  | @handler s' i t pc hrun hstep =>
    obtain ⟨-, hevents, -⟩ := hstep.frame
    left
    rw [← hevents]
    exact hev
  | _ => exact .inl hev

/-- For the listening socket a connection with the next identity is made. -/
theorem Step.accepts {mListenFd : ℤ} {s s' : Server W} {ev : EpollEvent}
    (h : Step mListenFd s (.event ev) s') (hreact : react mListenFd ev = .accept) :
    ∃ connfd, s'.loop = .inserting ⟨s.created, connfd⟩ ∧
      s'.mAlive = Function.update s.mAlive ⟨s.created, connfd⟩ true := by
  cases h with
  | accept hloop hev _ hfd => exact ⟨_, rfl, rfl⟩
  | close _ _ hother _ => cases hreact.symm.trans hother
  | dispatch _ _ hother _ => cases hreact.symm.trans hother
  | ignore _ _ hother => cases hreact.symm.trans hother
  | null _ _ hother _ _ => exact absurd hreact hother

/-- An unregistered connection of the loop was there before or is new. -/
theorem Step.unregistered {mListenFd : ℤ} {s s' : Server W} {a : Label W}
    (h : Step mListenFd s a s') {conn : ConnPtr} (hconn : s'.loop.unregistered = some conn) :
    s.loop.unregistered = some conn ∨
      s.loop = .handling ∧ s'.loop = .inserting conn ∧
        (conn.mConnfd = -1 ∨ s.Unused mListenFd conn.mConnfd) := by
  cases h with
  | accept hloop hev hreact hfd =>
    cases hconn
    exact .inr ⟨hloop, rfl, hfd⟩
  | @handler s' i t pc hrun hstep =>
    obtain ⟨hloop, -, -⟩ := hstep.frame
    left
    rw [← hloop]
    exact hconn
  | insert hloop =>
    left
    rw [hloop]
    exact hconn
  | cCallBack hloop =>
    left
    rw [hloop]
    exact hconn
  | pool hstep hstop hreturned => exact .inl hconn
  | deliver hloop hroom harmed => exact .inl hconn
  | deliverListen hloop hroom hlisten => exact .inl hconn
  | ignore hloop hev hreact => exact .inl hconn
  | _ => cases hconn

/-- A connection that the loop has in the map was there before or has just been inserted. -/
theorem Step.inserted {mListenFd : ℤ} {s s' : Server W} {a : Label W}
    (h : Step mListenFd s a s') {conn : ConnPtr} (hconn : s'.loop.inserted = some conn) :
    s.loop.inserted = some conn ∨ s'.connMap conn.mConnfd = some conn := by
  cases h with
  | insert hloop =>
    cases hconn
    exact .inr (Function.update_self ..)
  | @handler s' i t pc hrun hstep =>
    obtain ⟨hloop, -, -⟩ := hstep.frame
    left
    rw [← hloop]
    exact hconn
  | cCallBack hloop =>
    left
    rw [hloop]
    exact hconn
  | pool hstep hstop hreturned => exact .inl hconn
  | deliver hloop hroom harmed => exact .inl hconn
  | deliverListen hloop hroom hlisten => exact .inl hconn
  | ignore hloop hev hreact => exact .inl hconn
  | _ => cases hconn

/-- Tasks that wait were waiting before or are new. -/
theorem Step.pending {mListenFd : ℤ} {s s' : Server W} {a : Label W}
    (h : Step mListenFd s a s') {t : Task} (ht : s'.mThreadpool.Pending t) :
    s.mThreadpool.Pending t ∨ t.pc = .handleRead ∨ t.pc = .handleWrite := by
  cases h with
  | @add conn hloop =>
    obtain ⟨-, hpool, -⟩ := epollAdd_frame s conn.mConnfd
    left
    dsimp only at ht
    rwa [hpool] at ht
  | dispatch hloop hev hreact hfound =>
    rcases ThreadPool.pending_of_request ht with ht | rfl
    · exact .inl ht
    · exact .inr (react_addTask hreact)
  | pool hstep hstop hreturned => exact .inl (hstep.pending ht)
  | handler hrun hstep =>
    obtain ⟨-, -, hpool⟩ := hstep.frame
    left
    rw [← hpool]
    exact ht
  | _ => exact .inl ht

end Server

end KyrosWebServer.Net
