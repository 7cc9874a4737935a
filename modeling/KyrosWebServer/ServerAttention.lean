import KyrosWebServer.ServerClose

/-!
# No connection is forgotten

Descriptors and their owners. Two connections that anybody holds never share a
descriptor. A connection in the map is watched for as long as it is there: its
registration is armed, or its event is on the way to a handler, or a handler or
the loop is at work on it. Only an event without flags and a `send` that
returns less than `-1` lose a connection. The entry that a failed `accept`
leaves in the map is not watched and stays there.
-/

namespace KyrosWebServer.Net

open TransitionSystem Base

variable {W : ℕ} {mListenFd : ℤ}

namespace Server

/-- A connection that the loop holds was there before or is new. -/
theorem Step.loop_conn {s s' : Server W} {a : Label W} (h : Step mListenFd s a s') {conn : ConnPtr}
    (hconn : s'.loop.conn = some conn) :
    s.loop.conn = some conn ∨ s.loop = .handling ∧ s'.loop = .inserting conn ∧
      (conn.mConnfd = -1 ∨ s.Unused mListenFd conn.mConnfd) := by
  cases h with
  | accept hloop hev hreact hfd =>
    cases hconn
    exact .inr ⟨hloop, rfl, hfd⟩
  | @handler s' i t pc hrun hstep =>
    obtain ⟨hloop, -, -⟩ := hstep.frame
    left
    rw [← hloop]
    exact hconn
  | insert hloop =>
    left
    rw [hloop]
    exact hconn
  | cCallBack hloop =>
    left
    rw [hloop]
    exact hconn
  | add hloop =>
    left
    rw [hloop]
    exact hconn
  | pool hstep hstop hreturned => exact .inl hconn
  | deliver hloop hroom harmed => exact .inl hconn
  | deliverListen hloop hroom hlisten => exact .inl hconn
  | ignore hloop hev hreact => exact .inl hconn
  | _ => cases hconn

/-- Somebody held a connection before, or `accept` has just made it. -/
theorem Step.referenced {s s' : Server W} {a : Label W} (h : Step mListenFd s a s') {conn : ConnPtr}
    (hconn : s'.Referenced conn) :
    s.Referenced conn ∨ s'.loop = .inserting conn ∧
      (conn.mConnfd = -1 ∨ s.Unused mListenFd conn.mConnfd) := by
  rcases hconn with ⟨fd, hmap⟩ | hloop | ⟨t, ht, rfl⟩
  · rcases h.connMap fd with hsame | ⟨new, hloop, -, hnew⟩ | ⟨-, hnone⟩
    · exact .inl (.inl ⟨fd, hsame ▸ hmap⟩)
    · rw [hnew] at hmap
      cases hmap
      exact .inl (.inr (.inl (by rw [hloop]; rfl)))
    · rw [hnone] at hmap
      cases hmap
  · rcases h.loop_conn hloop with hbefore | ⟨-, hnew, hfd⟩
    · exact .inl (.inr (.inl hbefore))
    · exact .inr ⟨hnew, hfd⟩
  · rcases h.has ht with hbefore | ⟨-, ev, -, -, hfound⟩ | ⟨pc, s₁, hbefore, -, -⟩
    · exact .inl (.inr (.inr ⟨t, hbefore, rfl⟩))
    · exact .inl (.inl ⟨ev.fd, hfound⟩)
    · exact .inl (.inr (.inr ⟨_, hbefore, rfl⟩))

/-- Who owns a descriptor. -/
structure Owners (mListenFd : ℤ) (s : Server W) : Prop where
  /-- Two connections in use have two descriptors. -/
  unique : ∀ conn conn', s.Referenced conn → s.Referenced conn' →
    conn.mConnfd = conn'.mConnfd → 0 ≤ conn.mConnfd → conn = conn'
  /-- No connection has the listening socket. -/
  proper : ∀ conn, s.Referenced conn →
    conn.mConnfd = -1 ∨ 0 ≤ conn.mConnfd ∧ conn.mConnfd ≠ mListenFd
  /-- Handlers work on proper descriptors. -/
  tasks : ∀ t, s.mThreadpool.Has t → 0 ≤ t.conn.mConnfd

/-- Every move keeps the owners apart. -/
theorem Step.owners {s s' : Server W} {a : Label W} (h : Step mListenFd s a s')
    (hinv : Inv mListenFd s) (hs : Owners mListenFd s) : Owners mListenFd s' := by
  constructor
  case unique =>
    intro conn conn' hconn hconn' hfd hpos
    rcases h.referenced hconn with hold | ⟨hloop, hnew⟩
    · rcases h.referenced hconn' with hold' | ⟨-, hnew'⟩
      · exact hs.unique conn conn' hold hold' hfd hpos
      · rcases hnew' with hbad | ⟨-, -, hunused⟩
        · omega
        · exact absurd hfd (hunused conn hold)
    · rcases h.referenced hconn' with hold' | ⟨hloop', -⟩
      · rcases hnew with hbad | ⟨-, -, hunused⟩
        · omega
        · exact absurd hfd.symm (hunused conn' hold')
      · rw [hloop] at hloop'
        cases hloop'
        rfl
  case proper =>
    intro conn hconn
    rcases h.referenced hconn with hold | ⟨-, hbad | ⟨hpos, hlisten, -⟩⟩
    · exact hs.proper conn hold
    · exact .inl hbad
    · exact .inr ⟨hpos, hlisten⟩
  case tasks =>
    intro t ht
    rcases h.has ht with hbefore | ⟨-, ev, hev, hlisten, hfound⟩ | ⟨pc, s₁, hbefore, -, -⟩
    · exact hs.tasks t hbefore
    · obtain ⟨hpos, -⟩ := hinv.registered ev.fd (hinv.harvested ev hev hlisten)
      rwa [hinv.filed ev.fd t.conn hfound]
    · exact hs.tasks ⟨t.conn, pc⟩ hbefore

/-- Nobody holds a connection of a new server. -/
theorem new_owners (W : ℕ) (mListenFd : ℤ) : Owners mListenFd (new W) := by
  have hnone : ∀ conn, ¬ (new W).Referenced conn := by
    rintro conn (⟨fd, h⟩ | h | ⟨t, ht, -⟩)
    · cases h
    · cases h
    · exact new_has W t ht
  exact ⟨fun conn _ h => absurd h (hnone conn), fun conn h => absurd h (hnone conn),
    fun t h => absurd h (new_has W t)⟩

theorem reachable_owners {s : Server W} (h : (system W mListenFd).Reachable s) :
    Inv mListenFd s ∧ Owners mListenFd s := by
  refine h.invariant (I := fun s => Inv mListenFd s ∧ Owners mListenFd s) ?_ ?_
  · rintro s rfl
    exact ⟨new_inv W mListenFd, new_owners W mListenFd⟩
  · rintro s a t ⟨hinv, howners⟩ hstep
    exact ⟨Step.inv hstep hinv, Step.owners hstep hinv howners⟩

/-- In every reachable state, connections that anybody holds have different
descriptors, none of them that of the listening socket. -/
theorem reachable_descriptors {s : Server W} (h : (system W mListenFd).Reachable s)
    {conn conn' : ConnPtr} (hconn : s.Referenced conn) (hconn' : s.Referenced conn')
    (hpos : 0 ≤ conn.mConnfd) :
    conn.mConnfd ≠ mListenFd ∧ (conn.mConnfd = conn'.mConnfd → conn = conn') := by
  obtain ⟨-, howners⟩ := reachable_owners h
  refine ⟨?_, fun hfd => howners.unique conn conn' hconn hconn' hfd hpos⟩
  rcases howners.proper conn hconn with hbad | ⟨-, hlisten⟩
  · omega
  · exact hlisten

/-- The loop holds a new connection until it has entered it into the map. -/
theorem Step.inserting_kept {s s' : Server W} {a : Label W} (h : Step mListenFd s a s') {conn : ConnPtr}
    (hloop : s.loop = .inserting conn) :
    s'.loop = .inserting conn ∨ s'.connMap conn.mConnfd = some conn := by
  cases h with
  | insert hinserting =>
    cases hloop.symm.trans hinserting
    exact .inr (Function.update_self ..)
  | @handler s' i t pc hrun hstep =>
    left
    change s'.loop = _
    rw [hstep.frame.1]
    exact hloop
  | pool hstep hstop hreturned => exact .inl hloop
  | deliver hother _ _ => cases hloop.symm.trans hother
  | deliverListen hother _ _ => cases hloop.symm.trans hother
  | ignore hother _ _ => cases hloop.symm.trans hother
  | _ hother => cases hloop.symm.trans hother

/-- An `accept` that fails leaves an entry under `-1`: from there on the loop is
about to enter it or the map has one, in every run. Nothing is registered for it
and no handler is bound to it. -/
theorem failedAccept_kept {s t u : Server W} (h : (system W mListenFd).Reachable s) {ev : EpollEvent}
    (haccept : Step mListenFd s (.event ev) t) (hfailed : t.loop = .inserting ⟨s.created, -1⟩)
    (hrun : (system W mListenFd).Leads t u) :
    (u.loop = .inserting ⟨s.created, -1⟩ ∨ u.connMap (-1) ≠ none) ∧ u.mEpoll (-1) = .absent ∧
      ∀ task, u.mThreadpool.Has task → task.conn.mConnfd ≠ -1 := by
  have hreach := h.leads (System.Leads.single (M := system W mListenFd) haccept)
  have hkept : Inv mListenFd u ∧ (u.loop = .inserting ⟨s.created, -1⟩ ∨ u.connMap (-1) ≠ none) := by
    refine hrun.invariant (I := fun u => Inv mListenFd u ∧
      (u.loop = .inserting ⟨s.created, -1⟩ ∨ u.connMap (-1) ≠ none)) ?_ ⟨reachable_inv hreach, .inl hfailed⟩
    rintro v a w ⟨hinv, hbefore⟩ hstep
    refine ⟨Step.inv hstep hinv, ?_⟩
    rcases hbefore with hloop | hmap
    · rcases Step.inserting_kept hstep hloop with hsame | hentered
      · exact .inl hsame
      · right
        rw [hentered]
        exact Option.some_ne_none _
    · refine .inr (Step.map_kept hstep hmap fun herasing => ?_)
      have htoken := herasing.token mListenFd
      have hpos := hinv.proper (-1) (by omega)
      omega
  obtain ⟨hinv, howners⟩ := reachable_owners (hreach.leads hrun)
  refine ⟨hkept.2, ?_, fun task htask => ?_⟩
  · by_contra hreg
    obtain ⟨hpos, -⟩ := hinv.registered (-1) hreg
    omega
  · have hpos := howners.tasks task htask
    omega

/-- Moves after which nobody looks at a descriptor any more: an event without
any of the flags is dropped, or `send` has returned a number below `-1`. -/
inductive Forgets (mListenFd : ℤ) (s : Server W) (fd : ℤ) : Label W → Prop
  | event {ev : EpollEvent} : ev.fd = fd → react mListenFd ev = .nothing →
      Forgets mListenFd s fd (.event ev)
  | send {i : Fin W} {t : Task} : s.mThreadpool.workers i = .running t → t.conn.mConnfd = fd →
      t.pc = .handleWrite → Forgets mListenFd s fd (.handler i t.conn .returned)

/-- A handler that has not returned is still there, or it has made a move. -/
theorem Step.task_kept {s s' : Server W} {a : Label W} (h : Step mListenFd s a s') {t : Task}
    (ht : s.mThreadpool.Has t) (hpc : t.pc ≠ .returned) :
    s'.mThreadpool.Has t ∨ ∃ pc s₁, HandlerStep t.conn t.pc s pc s₁ ∧
      s'.mThreadpool.Has ⟨t.conn, pc⟩ ∧ s'.mEpoll = s₁.mEpoll ∧ s'.connMap = s₁.connMap := by
  cases h with
  | pool hstep hstop hreturned =>
    exact .inl (hstep.has_kept ht fun i ha hrun => hpc (hreturned i t ha hrun))
  | @handler s' i u pc hrun hstep =>
    obtain ⟨-, -, hpool⟩ := hstep.frame
    by_cases htu : t = u
    · subst htu
      exact .inr ⟨pc, s', hstep, .inr ⟨i, Function.update_self ..⟩, rfl, rfl⟩
    · rw [← hpool] at ht hrun
      exact .inl (has_setTask _ hrun ht htu)
  | dispatch hloop hev hreact hfound => exact .inl (ht.request 0 _)
  | @add conn hloop =>
    left
    dsimp only
    rwa [(epollAdd_frame s conn.mConnfd).2.1]
  | _ => exact .inl ht

/-- Who deletes a registration is between the halves of `CloseConn` then. -/
theorem Step.deleted_erasing {s s' : Server W} {a : Label W} (h : Step mListenFd s a s') {fd : ℤ}
    (hbefore : s.mEpoll fd ≠ .absent) (hgone : s'.mEpoll fd = .absent) : s'.Erasing fd := by
  cases h with
  | @deliver ev armed hloop hroom harmed =>
    dsimp only at hgone
    by_cases hfd : fd = ev.fd
    · rw [hfd, Function.update_self] at hgone
      cases hgone
    · rw [Function.update_of_ne hfd] at hgone
      exact absurd hgone hbefore
  | @add conn hloop =>
    rcases epollAdd_cases s conn.mConnfd fd with hsame | ⟨-, -, harmed⟩
    · exact absurd (hsame.symm.trans hgone) hbefore
    · cases harmed.symm.trans hgone
  | @closeDel connfd hloop =>
    unfold epollDel at hgone
    dsimp only at hgone
    by_cases hfd : fd = connfd
    · exact .inl (by rw [hfd])
    · rw [Function.update_of_ne hfd] at hgone
      exact absurd hgone hbefore
  | @handler s' i t pc hrun hstep =>
    rcases hstep.registration fd with hsame | ⟨b, hpc, hconn, -⟩
    · exact absurd (hsame.mp hgone) hbefore
    · generalize ht : t.pc = pc₀ at hstep hpc
      subst hpc
      cases hstep
      exact .inr ⟨_, b, .inr ⟨i, Function.update_self ..⟩, rfl, hconn⟩
  | _ => exact absurd hgone hbefore

/-- Who is between the halves of `CloseConn` takes the connection out of the map next. -/
theorem Step.erasing_erased {s s' : Server W} {a : Label W} (h : Step mListenFd s a s') {fd : ℤ}
    (hfd : s.Erasing fd) : s'.Erasing fd ∨ s'.connMap fd = none := by
  rcases hfd with hloop | ⟨t, b, ht, hpc, hconn⟩
  · cases h with
    | @closeErase connfd hloop' =>
      rw [hloop] at hloop'
      cases hloop'
      exact .inr (Function.update_self ..)
    | @handler s' i t pc hrun hstep => exact .inl (.inl (hstep.frame.1.trans hloop))
    | pool hstep hstop hreturned => exact .inl (.inl hloop)
    | _ hloop' =>
      rw [hloop] at hloop'
      cases hloop'
  · rcases h.task_kept ht (by rw [hpc]; exact HandlerAt.noConfusion) with
      hkept | ⟨pc, s₁, hmove, -, -, hmap⟩
    · exact .inl (.inr ⟨t, b, hkept, hpc, hconn⟩)
    · right
      rw [hmap, ← hconn]
      rw [hpc] at hmove
      cases hmove
      exact Function.update_self ..

/-- What holds of a descriptor whose connection is in the map. -/
structure Watched (mListenFd : ℤ) (s : Server W) (fd : ℤ) : Prop where
  /-- Somebody may act on it. -/
  tokens : 1 ≤ s.tokens mListenFd fd
  /-- Its registration is there until it is closed. -/
  registered : s.mEpoll fd ≠ .absent ∨ s.Erasing fd

/-- A handler at work on a watched descriptor finds it registered, unless it is
the one that closes it. -/
theorem Watched.handler {s : Server W} {fd : ℤ} (h : Watched mListenFd s fd) (hs : Inv mListenFd s)
    {t : Task} (ht : s.mThreadpool.Has t) (hfd : t.conn.mConnfd = fd) (hpc : t.pc.token = 1)
    (hother : ∀ b, t.pc ≠ .closeErase b) : s.mEpoll fd ≠ .absent := by
  rcases h.registered with hreg | hloop | ⟨u, b, hu, hupc, hufd⟩
  · exact hreg
  · -- the loop and the handler would both hold the descriptor
    have hone := hs.exclusive fd
    have hload := holds_task ht hpc hfd
    have htoken : s.loop.token fd = 1 := by
      rw [hloop]
      exact if_pos rfl
    unfold Server.tokens at hone
    omega
  · have hzero := hs.others_returned ht hpc hu ?_ (hufd.trans hfd.symm)
    · rw [hupc] at hzero
      cases hzero
    · rintro rfl
      exact hother b hupc

/-- The handler that moves keeps hold of its descriptor or hands it on. -/
theorem HandlerStep.watched {s s' : Server W} {fd : ℤ} {t : Task} {pc : HandlerAt} {i : Fin W}
    (hmove : HandlerStep t.conn t.pc s pc s') (hrun : s.mThreadpool.workers i = .running t)
    (hs : Inv mListenFd s) (h : Watched mListenFd s fd) (hfd : t.conn.mConnfd = fd)
    (hkeeps : ¬ Forgets mListenFd s fd (.handler i t.conn pc)) :
    pc.token = 1 ∨ (∃ ev, s'.mEpoll fd = .armed ev) ∨ s'.connMap fd = none := by
  have ht : s.mThreadpool.Has t := .inr ⟨i, hrun⟩
  have hreg := h.handler hs ht hfd hmove.token
  have harmed : ∀ ev, s.mEpoll fd ≠ .absent → (s.epollMod fd ev).mEpoll fd = .armed ev := by
    intro ev hreg
    unfold epollMod
    rw [if_neg hreg]
    exact Function.update_self ..
  generalize hpc : t.pc = pc₀ at hmove hreg
  subst hfd
  cases hmove with
  | recv ret =>
    unfold afterRecv
    split <;> exact .inl rfl
  | processRead ret => cases ret <;> exact .inl rfl
  | send ret =>
    left
    unfold afterSend at hkeeps ⊢
    split
    · rfl
    · split
      · rfl
      · split
        · rfl
        · next h₁ h₂ h₃ =>
          rw [if_neg h₁, if_neg h₂, if_neg h₃] at hkeeps
          exact absurd (.send hrun rfl hpc) hkeeps
  | writeCb => split <;> exact .inl rfl
  | enableConnRead => exact .inr (.inl ⟨_, harmed .EPOLLIN (hreg nofun)⟩)
  | enableConnWrite => exact .inr (.inl ⟨_, harmed .EPOLLOUT (hreg nofun)⟩)
  | closeErase => exact .inr (.inr (Function.update_self ..))
  | _ => exact .inl rfl

/-- A handler that moves leaves its descriptor in somebody's hands. -/
theorem tokens_handler_pos {s s' : Server W} {i : Fin W} {t : Task} {pc : HandlerAt}
    (hrun : s.mThreadpool.workers i = .running t) (hstep : HandlerStep t.conn t.pc s pc s')
    (hs : Inv mListenFd s) {fd : ℤ} (hw : Watched mListenFd s fd) (hfd : t.conn.mConnfd = fd)
    (hkeeps : ¬ Forgets mListenFd s fd (.handler i t.conn pc)) (hmap : s'.connMap fd ≠ none) :
    1 ≤ (s'.setTask i ⟨t.conn, pc⟩).tokens mListenFd fd := by
  unfold tokens
  rcases hstep.watched hrun hs hw hfd hkeeps with hpc | ⟨ev, harmed⟩ | hnone
  · have hhas : (s'.setTask i ⟨t.conn, pc⟩).mThreadpool.Has ⟨t.conn, pc⟩ :=
      .inr ⟨i, Function.update_self ..⟩
    have hholds := holds_task hhas hpc hfd
    omega
  · have hreg : ((s'.setTask i ⟨t.conn, pc⟩).mEpoll fd).token = 1 := by
      change (s'.mEpoll fd).token = 1
      rw [harmed]
      rfl
    omega
  · exact absurd hnone hmap

/-- While a connection stays in the map and no move forgets it, somebody may act
on its descriptor. -/
theorem Step.tokens_pos {s s' : Server W} {a : Label W} (h : Step mListenFd s a s')
    (hs : Inv mListenFd s) {fd : ℤ} (hlisten : fd ≠ mListenFd) (hw : Watched mListenFd s fd)
    (hkeeps : ¬ Forgets mListenFd s fd a) (hmap : s'.connMap fd ≠ none) :
    1 ≤ s'.tokens mListenFd fd := by
  have hpos := hw.tokens
  rcases h.balance hs fd with hsame | ⟨-, hmore⟩ | ⟨hgives, -⟩
  · omega
  · omega
  cases hgives with
  | listener hfd => exact absurd hfd hlisten
  | closeErase hnone => exact absurd hnone hmap
  | ignore hfd hreact => exact absurd (.event hfd hreact) hkeeps
  | closeDel hloop =>
    have htoken : s'.loop.token fd = 1 := by
      rw [hloop]
      exact if_pos rfl
    unfold tokens
    omega
  | handler hfd =>
    cases h with
    | handler hrun hstep => exact tokens_handler_pos hrun hstep hs hw hfd hkeeps hmap

/-- Every move keeps a connection of the map watched, unless it forgets it. -/
theorem Step.watched {s s' : Server W} {a : Label W} (h : Step mListenFd s a s')
    (hs : Inv mListenFd s) {fd : ℤ} (hlisten : fd ≠ mListenFd) (hw : Watched mListenFd s fd)
    (hkeeps : ¬ Forgets mListenFd s fd a) (hmap : s'.connMap fd ≠ none) :
    Watched mListenFd s' fd := by
  refine ⟨h.tokens_pos hs hlisten hw hkeeps hmap, ?_⟩
  by_cases hgone : s'.mEpoll fd = .absent
  · right
    by_cases hbefore : s.mEpoll fd = .absent
    · have herasing := hw.registered.resolve_left fun hreg => hreg hbefore
      exact (h.erasing_erased herasing).resolve_right hmap
    · exact h.deleted_erasing hbefore hgone
  · exact .inl hgone

/-- A connection enters the map with the loop about to register it. -/
theorem Step.entered {s s' : Server W} {a : Label W} (h : Step mListenFd s a s') {fd : ℤ}
    {conn : ConnPtr} (hmap : s'.connMap fd = some conn) :
    s.connMap fd = some conn ∨ s'.loop.inserted = some conn := by
  rcases h.connMap fd with hsame | ⟨new, hloop, hfd, hnew⟩ | ⟨-, hnone⟩
  · exact .inl (hsame ▸ hmap)
  · rw [hnew] at hmap
    cases hmap
    cases h with
    | @insert conn hloop' =>
      rw [hloop] at hloop'
      cases hloop'
      exact .inr rfl
    | @handler s' i t pc hrun hstep =>
      rcases hstep.connMap fd with hsame | ⟨-, -, -, hnone⟩
      · exact .inl (hsame ▸ hnew)
      · cases hnone.symm.trans hnew
    | pool hstep hstop hreturned => exact .inl hnew
    | _ hloop' =>
      rw [hloop] at hloop'
      cases hloop'
  · cases hnone.symm.trans hmap

/-- A connection that the loop has entered is registered before the loop goes on. -/
theorem Step.registers {s s' : Server W} {a : Label W} (h : Step mListenFd s a s')
    (hs : Inv mListenFd s) {conn : ConnPtr} (hconn : s.loop.inserted = some conn)
    (hpos : 0 ≤ conn.mConnfd) :
    s'.loop.inserted = some conn ∨ ∃ ev, s'.mEpoll conn.mConnfd = .armed ev := by
  cases h with
  | @cCallBack conn' hloop =>
    rw [hloop] at hconn
    exact .inl hconn
  | @add conn' hloop =>
    rw [hloop] at hconn
    cases hconn
    obtain ⟨-, habsent⟩ := hs.fresh conn (by rw [hloop]; rfl)
    right
    refine ⟨.EPOLLIN, ?_⟩
    dsimp only
    unfold epollAdd
    rw [if_pos ⟨hpos, habsent⟩]
    exact Function.update_self ..
  | @handler s' i t pc hrun hstep =>
    left
    change s'.loop.inserted = _
    rw [hstep.frame.1]
    exact hconn
  | pool hstep hstop hreturned => exact .inl hconn
  | _ hloop =>
    rw [hloop] at hconn
    cases hconn

/-- The server as long as no move forgets a connection. -/
def attentive (W : ℕ) (mListenFd : ℤ) : System (Server W) (Label W) where
  start s := s = new W
  step s a s' := Step mListenFd s a s' ∧ ∀ fd, ¬ Forgets mListenFd s fd a

/-- Every connection of the map with a proper descriptor is about to be
registered or is watched. -/
def Attended (mListenFd : ℤ) (s : Server W) : Prop :=
  ∀ fd conn, s.connMap fd = some conn → 0 ≤ fd →
    s.loop.inserted = some conn ∨ Watched mListenFd s fd

/-- Every move that forgets nothing keeps all connections attended. -/
theorem Step.attended {s s' : Server W} {a : Label W} (h : Step mListenFd s a s')
    (hinv : Inv mListenFd s) (howners : Owners mListenFd s)
    (hkeeps : ∀ fd, ¬ Forgets mListenFd s fd a) (hs : Attended mListenFd s) :
    Attended mListenFd s' := by
  intro fd conn hmap hpos
  rcases h.entered hmap with hbefore | hnew
  · have hfd : conn.mConnfd = fd := hinv.filed fd conn hbefore
    rcases hs fd conn hbefore hpos with hloop | hw
    · rcases h.registers hinv hloop (by rw [hfd]; exact hpos) with hstill | ⟨ev, harmed⟩
      · exact .inl hstill
      · right
        rw [hfd] at harmed
        constructor
        · unfold tokens
          rw [harmed]
          dsimp only [Registration.token]
          omega
        · left
          rw [harmed]
          exact Registration.noConfusion
    · right
      refine h.watched hinv ?_ hw (hkeeps fd) (by rw [hmap]; exact nofun)
      rcases howners.proper conn (.inl ⟨fd, hbefore⟩) with hbad | ⟨-, hlisten⟩
      · omega
      · rwa [← hfd]
  · exact .inl hnew

/-- Everything that has been shown of the states of an attentive server. -/
theorem reachable_watched {s : Server W} (h : (attentive W mListenFd).Reachable s) :
    Inv mListenFd s ∧ Owners mListenFd s ∧ Attended mListenFd s := by
  refine h.invariant
    (I := fun s => Inv mListenFd s ∧ Owners mListenFd s ∧ Attended mListenFd s) ?_ ?_
  · rintro s rfl
    exact ⟨new_inv W mListenFd, new_owners W mListenFd, fun fd conn hmap => by cases hmap⟩
  · rintro s a t ⟨hinv, howners, hattended⟩ ⟨hstep, hkeeps⟩
    exact ⟨Step.inv hstep hinv, Step.owners hstep hinv howners,
      Step.attended hstep hinv howners hkeeps hattended⟩

/-- Where the one who may act on a descriptor is. -/
theorem exists_of_tokens {s : Server W} {fd : ℤ} (h : s.tokens mListenFd fd ≠ 0) :
    (∃ ev, s.mEpoll fd = .armed ev) ∨ (∃ ev ∈ s.epollEvent, ev.fd = fd) ∨
      s.loop = .closeDel fd ∨ s.loop = .closeErase fd ∨
      ∃ t, s.mThreadpool.Has t ∧ t.conn.mConnfd = fd ∧ t.pc ≠ .returned := by
  by_contra hnone
  simp only [not_or, not_exists, not_and] at hnone
  obtain ⟨harmed, hevents, hdel, herase, htasks⟩ := hnone
  have hreg : (s.mEpoll fd).token = 0 := by
    cases hm : s.mEpoll fd with
    | armed ev => exact absurd hm (harmed ev)
    | _ => rfl
  have hcount : s.epollEvent.countP (EpollEvent.concerns mListenFd fd) = 0 := by
    rw [List.countP_eq_zero]
    intro ev hev hconcerns
    exact hevents ev hev (of_decide_eq_true hconcerns).1
  have hloop : s.loop.token fd = 0 := by
    cases hl : s.loop with
    | closeDel connfd =>
      refine if_neg ?_
      rintro rfl
      exact hdel hl
    | closeErase connfd =>
      refine if_neg ?_
      rintro rfl
      exact herase hl
    | _ => rfl
  have hload : s.mThreadpool.load (Task.token fd) = 0 := by
    refine ThreadPool.load_eq_zero _ fun t ht => ?_
    unfold Task.token
    split
    · next hfd =>
      have hpc := not_not.mp (htasks t ht hfd)
      rw [hpc]
      rfl
    · rfl
  apply h
  unfold tokens
  omega

/-- A connection that is attended is about to be registered or in one pair of hands. -/
theorem Attended.hands {s : Server W} (h : Attended mListenFd s) (hinv : Inv mListenFd s)
    (howners : Owners mListenFd s) {fd : ℤ} {conn : ConnPtr} (hmap : s.connMap fd = some conn)
    (hpos : 0 ≤ fd) :
    s.loop.inserted = some conn ∨ s.tokens mListenFd fd = 1 ∧
      ((∃ ev, s.mEpoll fd = .armed ev) ∨ (∃ ev ∈ s.epollEvent, ev.fd = fd) ∨
        s.loop = .closeDel fd ∨ s.loop = .closeErase fd ∨
        ∃ t, s.mThreadpool.Has t ∧ t.conn = conn ∧ t.pc ≠ .returned) := by
  rcases h fd conn hmap hpos with hloop | hw
  · exact .inl hloop
  · have hone : s.tokens mListenFd fd = 1 := Nat.le_antisymm (hinv.exclusive fd) hw.tokens
    refine .inr ⟨hone, ?_⟩
    rcases exists_of_tokens (by rw [hone]; exact Nat.one_ne_zero) with
      harmed | hevent | hdel | herase | ⟨t, ht, hfd, hpc⟩
    · exact .inl harmed
    · exact .inr (.inl hevent)
    · exact .inr (.inr (.inl hdel))
    · exact .inr (.inr (.inr (.inl herase)))
    · have hconn : conn.mConnfd = fd := hinv.filed fd conn hmap
      have hsame : t.conn = conn := howners.unique t.conn conn (.inr (.inr ⟨t, ht, rfl⟩))
        (.inl ⟨fd, hmap⟩) (hfd.trans hconn.symm) (by rw [hfd]; exact hpos)
      exact .inr (.inr (.inr (.inr ⟨t, ht, hsame, hpc⟩)))

/-- In every run that forgets nothing, each connection of the map with a proper
descriptor is about to be registered, or it is in exactly one pair of hands:
its registration is armed, its event waits in the array, the loop closes it, or
a handler of it is queued or at work. -/
theorem reachable_attended {s : Server W} (h : (attentive W mListenFd).Reachable s) {fd : ℤ}
    {conn : ConnPtr} (hmap : s.connMap fd = some conn) (hpos : 0 ≤ fd) :
    s.loop.inserted = some conn ∨ s.tokens mListenFd fd = 1 ∧
      ((∃ ev, s.mEpoll fd = .armed ev) ∨ (∃ ev ∈ s.epollEvent, ev.fd = fd) ∨
        s.loop = .closeDel fd ∨ s.loop = .closeErase fd ∨
        ∃ t, s.mThreadpool.Has t ∧ t.conn = conn ∧ t.pc ≠ .returned) := by
  obtain ⟨hinv, howners, hattended⟩ := reachable_watched h
  exact hattended.hands hinv howners hmap hpos

/-- So a server at rest has armed every connection that it has. -/
theorem reachable_idle {s : Server W} (h : (attentive W mListenFd).Reachable s) {fd : ℤ}
    {conn : ConnPtr} (hmap : s.connMap fd = some conn) (hpos : 0 ≤ fd) (hloop : s.loop = .waiting)
    (hevents : s.epollEvent = []) (htasks : ∀ t, s.mThreadpool.Has t → t.pc = .returned) :
    ∃ ev, s.mEpoll fd = .armed ev := by
  obtain ⟨hinv, howners, hattended⟩ := reachable_watched h
  rcases hattended.hands hinv howners hmap hpos with hinserted | ⟨-, harmed | ⟨ev, hev, -⟩ | hdel |
    herase | ⟨t, ht, -, hpc⟩⟩
  · rw [hloop] at hinserted
    cases hinserted
  · exact harmed
  · rw [hevents] at hev
    cases hev
  · cases hloop.symm.trans hdel
  · cases hloop.symm.trans herase
  · exact absurd (htasks t ht) hpc

/-- Moves in which no event, report or handler has a part. -/
def Label.Eventless : Label W → Prop
  | .loop | .pool _ => True
  | _ => False

/-- Such moves forget nothing. -/
theorem attentive_of_eventless {s t : Server W}
    (h : ((system W mListenFd).restrict Label.Eventless).Leads s t) :
    (attentive W mListenFd).Leads s t := by
  induction h with
  | refl => exact .refl _
  | tail _ hm ih =>
    obtain ⟨a, ha, hstep⟩ := hm
    refine ih.tail ⟨hstep, fun fd hforgets => ?_⟩
    cases hforgets with
    | event => exact ha
    | send => exact ha

/-- Nor does the loop when it does something about an event. -/
theorem keeps_event {ev : EpollEvent} (h : react mListenFd ev ≠ .nothing) (s : Server W) (fd : ℤ) :
    ¬ Forgets mListenFd s fd (.event ev) := by
  intro hforgets
  cases hforgets with
  | event _ hnothing => exact h hnothing

/-- The pool moves; nobody stops it, and no task returns. -/
theorem leads_pool {s : Server W} {a : ThreadPool.Label Task W 1} {pool : ThreadPool Task W 1}
    (h : ThreadPool.Step (2 * W) s.mThreadpool a pool) (hstop : a ≠ .stopCall)
    (hfinish : ∀ i, a ≠ .finish i) :
    ((system W mListenFd).restrict Label.Eventless).Leads s { s with mThreadpool := pool } :=
  .single (a := Label.pool a) ⟨trivial, .pool h hstop fun i _ hi => absurd hi (hfinish i)⟩

/-- The task that the loop adds gets to a worker, and the loop to `epoll_wait`. -/
theorem leads_running (hW : 0 < W) {s : Server W} {t : Task} (i : Fin W)
    (hloop : s.loop = .dispatching) (hevents : s.epollEvent = [])
    (hpool : s.mThreadpool = ThreadPool.staged [] (fun _ => .loopTest) .outside [t]) :
    ((system W mListenFd).restrict Label.Eventless).Leads s
      { s with loop := .waiting, mThreadpool := ThreadPool.running i t } := by
  obtain ⟨pool, loop, array, connMap, mEpoll, mAlive, created⟩ := s
  dsimp only at hloop hevents hpool
  subst hloop hevents hpool
  have hq : 0 < 2 * W := Nat.mul_pos Nat.two_pos hW
  have hidle : ∀ j : Fin W, (fun _ => WorkerAt.loopTest : Fin W → WorkerAt Task) j ≠ .waiting := by
    simp
  have hcall : ((system W mListenFd).restrict Label.Eventless).Leads
      ⟨_, .dispatching, [], connMap, mEpoll, mAlive, created⟩ _ :=
    leads_pool (ThreadPool.staged_call (2 * W) (fun _ => .loopTest) t) (by simp) (by simp)
  have hpush := hcall.trans (leads_pool (ThreadPool.staged_push hq hidle t) (by simp) (by simp))
  have hdispatched := hpush.tail (a := Label.loop) ⟨trivial, .dispatched rfl rfl rfl⟩
  have hhandled := hdispatched.tail (a := Label.loop) ⟨trivial, .handled rfl rfl⟩
  have htest := hhandled.trans (leads_pool (.test (i := i) rfl) (by simp) (by simp))
  have htake := htest.trans (leads_pool (ThreadPool.staged_take (2 * W) (i := i)
    (Function.update_self ..) t) (by simp) (by simp))
  dsimp only at htake
  rw [Function.update_idem] at htake
  exact htake

/-- An accepted connection gets into the map and is armed. -/
theorem leads_armed {s : Server W} {conn : ConnPtr} (hloop : s.loop = .inserting conn)
    (hevents : s.epollEvent = []) (hpos : 0 ≤ conn.mConnfd)
    (habsent : s.mEpoll conn.mConnfd = .absent) :
    ((system W mListenFd).restrict Label.Eventless).Leads s
      { s with loop := .waiting
               connMap := Function.update s.connMap conn.mConnfd (some conn)
               mEpoll := Function.update s.mEpoll conn.mConnfd (.armed .EPOLLIN) } := by
  obtain ⟨pool, loop, array, connMap, mEpoll, mAlive, created⟩ := s
  dsimp only at hloop hevents habsent
  subst hloop hevents
  have hinserted := System.Leads.single (M := (system W mListenFd).restrict Label.Eventless)
    (s := ⟨pool, .inserting conn, [], connMap, mEpoll, mAlive, created⟩) (a := Label.loop)
    ⟨trivial, .insert rfl⟩
  have hadding := hinserted.tail (a := Label.loop) ⟨trivial, .cCallBack rfl⟩
  have hadded := hadding.tail (a := Label.loop) ⟨trivial, .add rfl⟩
  unfold epollAdd at hadded
  rw [if_pos ⟨hpos, habsent⟩] at hadded
  exact (hadded.tail (a := Label.loop) ⟨trivial, .added rfl⟩).tail (a := Label.loop)
    ⟨trivial, .handled rfl rfl⟩

/-- A server with one more connection, armed for reading. -/
def accepted (s : Server W) (connfd : ℤ) : Server W :=
  { s with connMap := Function.update s.connMap connfd (some ⟨s.created, connfd⟩)
           mEpoll := Function.update s.mEpoll connfd (.armed .EPOLLIN)
           mAlive := Function.update s.mAlive ⟨s.created, connfd⟩ true
           created := s.created + 1 }

/-- A connection is accepted, and the loop waits for events again. -/
theorem leads_accepted {s : Server W} {connfd : ℤ} (hloop : s.loop = .waiting) (hevents : s.epollEvent = [])
    (hunused : s.Unused mListenFd connfd) (habsent : s.mEpoll connfd = .absent) :
    (attentive W mListenFd).Leads s (s.accepted connfd) := by
  obtain ⟨pool, loop, array, connMap, mEpoll, mAlive, created⟩ := s
  dsimp only at hloop hevents habsent
  subst hloop hevents
  let ev : EpollEvent := ⟨mListenFd, ⟨true, false, false, false, false⟩⟩
  have hroom : ([] : List EpollEvent).length < MAX_EVENT_NUM := by decide
  have hreact : react mListenFd ev = .accept := if_pos rfl
  have h₁ := System.Leads.single (M := attentive W mListenFd)
    ⟨@Step.deliverListen W mListenFd ⟨pool, .waiting, [], connMap, mEpoll, mAlive, created⟩ ev rfl hroom rfl,
      fun _ => nofun⟩
  have h₂ := h₁.tail ⟨.wakeup rfl, fun _ => nofun⟩
  have h₃ := h₂.tail ⟨.accept rfl rfl hreact (.inr hunused),
    keeps_event (by rw [hreact]; exact Reaction.noConfusion) _⟩
  exact h₃.trans (attentive_of_eventless
    (@leads_armed W mListenFd _ ⟨created, connfd⟩ rfl rfl hunused.1 habsent))

/-- Nothing is open on a new server but the listening socket. -/
theorem new_unused {connfd : ℤ} (hpos : 0 ≤ connfd) (hne : connfd ≠ mListenFd) :
    (new W).Unused mListenFd connfd := by
  refine ⟨hpos, hne, ?_⟩
  rintro conn (⟨fd, h⟩ | h | ⟨t, ht, -⟩)
  · cases h
  · cases h
  · exact absurd ht (new_has W t)

/-- A server with a first connection. -/
theorem attentive_accepts : (attentive 1 3).Reachable ((new 1).accepted 5) :=
  ⟨_, rfl, leads_accepted rfl rfl (new_unused (by decide) (by decide)) rfl⟩

/-- It is attended. -/
theorem reachable_attended_accepted : ∃ s : Server 1, s.connMap 5 = some ⟨0, 5⟩ ∧
    (s.loop.inserted = some ⟨0, 5⟩ ∨ s.tokens 3 5 = 1 ∧
      ((∃ ev, s.mEpoll 5 = .armed ev) ∨ (∃ ev ∈ s.epollEvent, ev.fd = 5) ∨
        s.loop = .closeDel 5 ∨ s.loop = .closeErase 5 ∨
        ∃ t, s.mThreadpool.Has t ∧ t.conn = ⟨0, 5⟩ ∧ t.pc ≠ .returned)) :=
  ⟨_, rfl, reachable_attended attentive_accepts rfl (by decide)⟩

/-- A second connection has another descriptor. -/
theorem reachable_descriptors_accepted : ∃ s : Server 1, s.Referenced ⟨0, 5⟩ ∧ s.Referenced ⟨1, 6⟩ ∧
    ((5 : ℤ) ≠ 3 ∧ ((5 : ℤ) = 6 → (⟨0, 5⟩ : ConnPtr) = ⟨1, 6⟩)) := by
  have hunused : ((new 1).accepted 5).Unused 3 6 := by
    refine ⟨by decide, by decide, ?_⟩
    rintro conn (⟨fd, h⟩ | h | ⟨t, ht, -⟩)
    · by_cases hfd : fd = 5
      · subst hfd
        cases h
        decide
      · change Function.update _ _ _ fd = _ at h
        rw [Function.update_of_ne hfd] at h
        cases h
    · cases h
    · exact absurd ht (new_has 1 t)
  have h := attentive_accepts.leads (leads_accepted rfl rfl hunused rfl)
  have hreach : (system 1 3).Reachable (((new 1).accepted 5).accepted 6) :=
    System.Reachable.mono (M := attentive 1 3) (N := system 1 3) (fun _ hs => hs)
      (fun _ _ _ hstep => hstep.1) h
  have hfirst : (((new 1).accepted 5).accepted 6).Referenced ⟨0, 5⟩ := .inl ⟨5, rfl⟩
  have hsecond : (((new 1).accepted 5).accepted 6).Referenced ⟨1, 6⟩ := .inl ⟨6, rfl⟩
  exact ⟨_, hfirst, hsecond, reachable_descriptors hreach hfirst hsecond (by decide)⟩

/-- `accept` fails, and the loop goes on to wait for events. -/
theorem failedAccept_kept_once : ∃ s t u : Server 1, t.loop = .inserting ⟨s.created, -1⟩ ∧
    u.loop = .waiting ∧ (u.loop = .inserting ⟨s.created, -1⟩ ∨ u.connMap (-1) ≠ none) ∧
      u.mEpoll (-1) = .absent ∧ ∀ task, u.mThreadpool.Has task → task.conn.mConnfd ≠ -1 := by
  let ev : EpollEvent := ⟨3, ⟨true, false, false, false, false⟩⟩
  let s : Server 1 := { new 1 with loop := .handling, epollEvent := [ev] }
  let t : Server 1 := { new 1 with loop := .inserting ⟨0, -1⟩, created := 1,
                                   mAlive := Function.update (new 1).mAlive ⟨0, -1⟩ true }
  have hroom : ([] : List EpollEvent).length < MAX_EVENT_NUM := by decide
  have hdeliver := System.Leads.single (M := system 1 3)
    (@Step.deliverListen 1 3 (new 1) ev rfl hroom rfl)
  have hreach : (system 1 3).Reachable s := ⟨_, rfl, hdeliver.tail (.wakeup rfl)⟩
  have haccept : Step 3 s (.event ev) t := .accept rfl rfl rfl (.inl rfl)
  obtain ⟨u, hrun, hwaiting⟩ : ∃ u, (system 1 3).Leads t u ∧ u.loop = .waiting := by
    have hinsert := (System.Leads.refl (M := system 1 3) t).tail (.insert rfl)
    have hadded := ((hinsert.tail (.cCallBack rfl)).tail (.add rfl)).tail (.added rfl)
    exact ⟨_, hadded.tail (.handled rfl rfl), rfl⟩
  exact ⟨s, t, u, rfl, hwaiting, failedAccept_kept hreach haccept rfl hrun⟩

end Server

end KyrosWebServer.Net
