import KyrosWebServer.ServerAttention

/-!
# Who holds a connection

A connection that can still be used is in one place at a time: with the loop
that has just made it, armed in epoll, in the array of events, or with a
handler. One lemma says how a move passes a connection from one holder to the
next, so that what is known of its contents can be carried along a run.
-/

namespace KyrosWebServer.Net

open TransitionSystem Base

variable {W : ℕ} {mListenFd : ℤ}

/-- The places where a connection that can still be used may be. -/
inductive Holder
  /-- The loop has made it and has not registered it. -/
  | loop
  /-- Its registration may deliver an event. -/
  | epoll (armed : Interest)
  /-- Its event waits in the array. -/
  | array (ev : EpollEvent)
  /-- A handler is queued, or at work and before its end. -/
  | handler (pc : HandlerAt)

namespace Server

/-- A holder of a connection. -/
def HeldBy (mListenFd : ℤ) (s : Server W) (conn : ConnPtr) : Holder → Prop
  | .loop => s.loop.unregistered = some conn
  | .epoll armed => s.mEpoll conn.mConnfd = .armed armed ∧ s.connMap conn.mConnfd = some conn
  | .array ev => ev ∈ s.epollEvent ∧ ev.fd ≠ mListenFd ∧ s.connMap ev.fd = some conn
  | .handler pc => s.mThreadpool.Has ⟨conn, pc⟩ ∧ pc ≠ .returned

/-- How a move passes a connection on to a holder. -/
inductive Passes (mListenFd : ℤ) (s s' : Server W) (conn : ConnPtr) : Label W → Holder → Prop
  | accept {ev : EpollEvent} (hreact : react mListenFd ev = .accept)
      (hloop : s'.loop = .inserting conn) (hid : conn.id = s.created) :
      Passes mListenFd s s' conn (.event ev) .loop
  | register (hheld : s.HeldBy mListenFd conn .loop) :
      Passes mListenFd s s' conn .loop (.epoll .EPOLLIN)
  | deliver {ev : EpollEvent} {armed : Interest} (hheld : s.HeldBy mListenFd conn (.epoll armed))
      (hfd : ev.fd = conn.mConnfd) : Passes mListenFd s s' conn (.deliver ev) (.array ev)
  | dispatch {ev : EpollEvent} {pc : HandlerAt} (hheld : s.HeldBy mListenFd conn (.array ev))
      (hreact : react mListenFd ev = .addTask pc) :
      Passes mListenFd s s' conn (.event ev) (.handler pc)
  | handler {i : Fin W} {pc pc' : HandlerAt}
      (hrun : s.mThreadpool.workers i = .running ⟨conn, pc⟩) (hpc : pc' ≠ .returned) :
      Passes mListenFd s s' conn (.handler i conn pc') (.handler pc')
  | armRead {i : Fin W} (hrun : s.mThreadpool.workers i = .running ⟨conn, .enableConnRead⟩)
      (hreg : s.mEpoll conn.mConnfd ≠ .absent) :
      Passes mListenFd s s' conn (.handler i conn .returned) (.epoll .EPOLLIN)
  | armWrite {i : Fin W} (hrun : s.mThreadpool.workers i = .running ⟨conn, .enableConnWrite⟩)
      (hreg : s.mEpoll conn.mConnfd ≠ .absent) :
      Passes mListenFd s s' conn (.handler i conn .returned) (.epoll .EPOLLOUT)

/-- A connection of the map that waits in the array uses up the right to act on it. -/
theorem Inv.array_token {s : Server W} (hs : Inv mListenFd s) {conn : ConnPtr} {ev : EpollEvent}
    (hev : ev ∈ s.epollEvent) (hlisten : ev.fd ≠ mListenFd) (hmap : s.connMap ev.fd = some conn) :
    0 < s.epollEvent.countP (EpollEvent.concerns mListenFd conn.mConnfd) := by
  have hfd := hs.filed ev.fd conn hmap
  exact List.countP_pos_iff.mpr ⟨ev, hev, decide_eq_true ⟨hfd.symm, hfd ▸ hlisten⟩⟩

/-- A connection with a handler before its end has no other holder. -/
theorem Inv.held_alone {s : Server W} (hs : Inv mListenFd s) {t : Task} (ht : s.mThreadpool.Has t)
    (hpc : t.pc.token = 1) {x : Holder} (hx : s.HeldBy mListenFd t.conn x) : x = .handler t.pc := by
  have hload := holds_task ht hpc rfl
  have hone := hs.exclusive t.conn.mConnfd
  unfold tokens at hone
  cases x with
  | loop =>
    have hzero := (hs.fresh t.conn hx).1
    unfold tokens at hzero
    omega
  | epoll armed =>
    have hreg : (s.mEpoll t.conn.mConnfd).token = 1 := by
      rw [hx.1]
      rfl
    omega
  | array ev =>
    have hcount := hs.array_token hx.1 hx.2.1 hx.2.2
    omega
  | handler pc =>
    obtain ⟨hhas, hne⟩ := hx
    by_cases hsame : (⟨t.conn, pc⟩ : Task) = t
    · rw [← hsame]
    · exact absurd (HandlerAt.returned_of_token (hs.others_returned ht hpc hhas hsame rfl)) hne

/-- When a handler has moved, every other handler of its connection has returned. -/
theorem Inv.moved_alone {s s' : Server W} (hs : Inv mListenFd s) {i : Fin W} {t : Task}
    {pc : HandlerAt} (hrun : s.mThreadpool.workers i = .running t)
    (hstep : HandlerStep t.conn t.pc s pc s') {u : Task}
    (hu : (s'.setTask i ⟨t.conn, pc⟩).mThreadpool.Has u) (hconn : u.conn = t.conn)
    (hpc : u.pc ≠ .returned) : u.pc = pc := by
  by_contra hne
  have hpool := hstep.frame.2.2
  have hself : (s'.setTask i ⟨t.conn, pc⟩).mThreadpool.Has ⟨t.conn, pc⟩ :=
    .inr ⟨i, Function.update_self ..⟩
  have hother : u ≠ ⟨t.conn, pc⟩ := fun h => hne (congrArg Task.pc h)
  have hboth := hself.weight_add_le hu hother (Task.token t.conn.mConnfd)
  have hload := load_setTask (Task.token t.conn.mConnfd) s' ⟨t.conn, pc⟩ (by rw [hpool]; exact hrun)
  have hone := hs.exclusive t.conn.mConnfd
  have htoken : t.token t.conn.mConnfd = 1 := by
    unfold Task.token
    rw [if_pos rfl, hstep.token]
  have hutoken : u.token t.conn.mConnfd = u.pc.token := by
    unfold Task.token
    rw [if_pos (by rw [hconn])]
  have hzero : u.pc.token = 0 := by
    rw [hpool] at hload
    unfold tokens at hone
    omega
  exact hpc (HandlerAt.returned_of_token hzero)

/-- A closed connection is not armed. -/
theorem Closed.not_armed {s : Server W} {conn : ConnPtr} (h : Closed s conn) (hs : Inv mListenFd s)
    (howners : Owners mListenFd s) (armed : Interest) : ¬ s.HeldBy mListenFd conn (.epoll armed) := by
  rintro ⟨harmed, hmap⟩
  have hreg : s.mEpoll conn.mConnfd ≠ .absent := by
    rw [harmed]
    exact Registration.noConfusion
  have hlisten : conn.mConnfd ≠ mListenFd := by
    rcases howners.proper conn (.inl ⟨_, hmap⟩) with hbad | ⟨-, hne⟩
    · have hpos := (hs.registered _ hreg).1
      omega
    · exact hne
  let ev : EpollEvent := ⟨conn.mConnfd, ⟨true, false, false, false, false⟩⟩
  rcases h.leaving hmap with hclosing | habsent
  · exact hs.not_closing (show ev.fd ≠ mListenFd from hlisten) (.inr ⟨armed, harmed⟩) hclosing
  · exact hreg habsent

/-- A handler passes its connection on. -/
theorem HandlerStep.passes {s s' : Server W} (hs : Inv mListenFd s) {i : Fin W} {t : Task}
    {pc : HandlerAt} (hrun : s.mThreadpool.workers i = .running t)
    (hstep : HandlerStep t.conn t.pc s pc s') {x : Holder}
    (hx : (s'.setTask i ⟨t.conn, pc⟩).HeldBy mListenFd t.conn x) :
    Passes mListenFd s (s'.setTask i ⟨t.conn, pc⟩) t.conn (.handler i t.conn pc) x := by
  have ht : s.mThreadpool.Has t := .inr ⟨i, hrun⟩
  obtain ⟨hloop, hevents, hpool⟩ := hstep.frame
  have halone : ∀ y, s.HeldBy mListenFd t.conn y → y = .handler t.pc :=
    fun y => hs.held_alone ht hstep.token
  have hmapped : ∀ fd, s'.connMap fd = some t.conn → s.connMap fd = some t.conn := by
    intro fd hmap
    rcases hstep.connMap fd with hsame | ⟨-, -, -, hnone⟩
    · rwa [← hsame]
    · rw [hnone] at hmap
      cases hmap
  cases x with
  | loop =>
    have hold : s.HeldBy mListenFd t.conn .loop := by
      change s.loop.unregistered = _
      rw [← hloop]
      exact hx
    cases halone .loop hold
  | array ev =>
    obtain ⟨hev, hlisten, hmap⟩ := hx
    have hold : ev ∈ s.epollEvent := by
      rw [← hevents]
      exact hev
    cases halone (.array ev) ⟨hold, hlisten, hmapped ev.fd hmap⟩
  | handler pc' =>
    obtain ⟨hhas, hne⟩ := hx
    obtain rfl : pc' = pc := hs.moved_alone hrun hstep hhas rfl hne
    exact .handler hrun hne
  | epoll armed =>
    obtain ⟨harmed, hmap⟩ := hx
    change s'.mEpoll t.conn.mConnfd = _ at harmed
    have hnew : s.mEpoll t.conn.mConnfd ≠ .armed armed := by
      intro hold
      cases halone (.epoll armed) ⟨hold, hmapped _ hmap⟩
    obtain ⟨conn, pc₀⟩ := t
    dsimp only at hstep harmed hnew hrun ⊢
    cases hstep with
    | enableConnRead =>
      unfold epollMod at harmed
      split at harmed
      · exact absurd harmed hnew
      · next hreg =>
        dsimp only at harmed
        rw [Function.update_self] at harmed
        cases harmed
        exact .armRead hrun hreg
    | enableConnWrite =>
      unfold epollMod at harmed
      split at harmed
      · exact absurd harmed hnew
      · next hreg =>
        dsimp only at harmed
        rw [Function.update_self] at harmed
        cases harmed
        exact .armWrite hrun hreg
    | closeDel =>
      unfold epollDel at harmed
      dsimp only at harmed
      rw [Function.update_self] at harmed
      cases harmed
    | _ => exact absurd harmed hnew

/-- A handler leaves the holders of other connections as they are. -/
theorem HandlerStep.held_other {s s' : Server W} (hs : Owners mListenFd s) {i : Fin W} {t : Task}
    {pc : HandlerAt} (hrun : s.mThreadpool.workers i = .running t)
    (hstep : HandlerStep t.conn t.pc s pc s') {conn : ConnPtr} (hne : conn ≠ t.conn) {x : Holder}
    (hx : (s'.setTask i ⟨t.conn, pc⟩).HeldBy mListenFd conn x) : s.HeldBy mListenFd conn x := by
  have ht : s.mThreadpool.Has t := .inr ⟨i, hrun⟩
  obtain ⟨hloop, hevents, hpool⟩ := hstep.frame
  have hmapped : ∀ fd, s'.connMap fd = some conn → s.connMap fd = some conn := by
    intro fd hmap
    rcases hstep.connMap fd with hsame | ⟨-, -, -, hnone⟩
    · rwa [← hsame]
    · rw [hnone] at hmap
      cases hmap
  cases x with
  | loop =>
    change s.loop.unregistered = _
    rw [← hloop]
    exact hx
  | array ev =>
    obtain ⟨hev, hlisten, hmap⟩ := hx
    refine ⟨?_, hlisten, hmapped ev.fd hmap⟩
    rw [← hevents]
    exact hev
  | handler pc' =>
    obtain ⟨hhas, hpc⟩ := hx
    refine ⟨?_, hpc⟩
    rcases has_of_setTask hhas with hold | hnew
    · rwa [← hpool]
    · exact absurd (congrArg Task.conn hnew) hne
  | epoll armed =>
    obtain ⟨harmed, hmap⟩ := hx
    have hmap' := hmapped _ hmap
    have hfd : t.conn.mConnfd ≠ conn.mConnfd := by
      intro hsame
      exact hne (hs.unique t.conn conn (.inr (.inr ⟨t, ht, rfl⟩)) (.inl ⟨_, hmap'⟩) hsame
        (hs.tasks t ht)).symm
    refine ⟨?_, hmap'⟩
    rw [← hstep.mEpoll_of_ne hfd]
    exact harmed

/-- An armed registration of a connection was there before, or the loop or a
handler has made it. -/
theorem Step.held_epoll {s s' : Server W} {a : Label W} (h : Step mListenFd s a s')
    (hinv : Inv mListenFd s) {conn : ConnPtr} {armed : Interest}
    (ha : ∀ i c pc, a ≠ .handler i c pc) (hx : s'.HeldBy mListenFd conn (.epoll armed)) :
    s.HeldBy mListenFd conn (.epoll armed) ∨ Passes mListenFd s s' conn a (.epoll armed) := by
  obtain ⟨harmed, hmap⟩ := hx
  have hmap' : s.connMap conn.mConnfd = some conn := by
    rcases h.entered hmap with hold | hnew
    · exact hold
    · have habsent := ((h.inv hinv).fresh conn (LoopAt.unregistered_of_inserted hnew)).2
      rw [habsent] at harmed
      cases harmed
  cases h with
  | @deliver ev armed' hloop hroom hbefore =>
    left
    refine ⟨?_, hmap'⟩
    dsimp only at harmed
    by_cases hfd : conn.mConnfd = ev.fd
    · rw [hfd, Function.update_self] at harmed
      cases harmed
    · rwa [Function.update_of_ne hfd] at harmed
  | @add conn' hloop =>
    rcases epollAdd_cases s conn'.mConnfd conn.mConnfd with hsame | ⟨hfd, -, hnew⟩
    · left
      refine ⟨?_, hmap'⟩
      rw [← hsame]
      exact harmed
    · right
      have hself := hinv.inserted conn' (by rw [hloop]; rfl)
      rw [hfd, hmap'] at hself
      cases hself
      cases hnew.symm.trans harmed
      exact .register (by change s.loop.unregistered = _; rw [hloop]; rfl)
  | @closeDel connfd hloop =>
    left
    refine ⟨?_, hmap'⟩
    unfold epollDel at harmed
    dsimp only at harmed
    by_cases hfd : conn.mConnfd = connfd
    · rw [hfd, Function.update_self] at harmed
      cases harmed
    · rwa [Function.update_of_ne hfd] at harmed
  | @handler s' i t pc hrun hstep => exact absurd rfl (ha i t.conn pc)
  | _ => exact .inl ⟨harmed, hmap'⟩

/-- An event of a connection was there before or has been delivered. -/
theorem Step.held_array {s s' : Server W} {a : Label W} (h : Step mListenFd s a s')
    (hinv : Inv mListenFd s) {conn : ConnPtr} {ev : EpollEvent}
    (ha : ∀ i c pc, a ≠ .handler i c pc) (hx : s'.HeldBy mListenFd conn (.array ev)) :
    s.HeldBy mListenFd conn (.array ev) ∨ Passes mListenFd s s' conn a (.array ev) := by
  obtain ⟨hev, hlisten, hmap⟩ := hx
  have hmap' : s.connMap ev.fd = some conn := by
    rcases h.entered hmap with hold | hnew
    · exact hold
    · have hzero := ((h.inv hinv).fresh conn (LoopAt.unregistered_of_inserted hnew)).1
      have hcount := (h.inv hinv).array_token hev hlisten hmap
      unfold tokens at hzero
      omega
  have hfd := hinv.filed ev.fd conn hmap'
  cases h with
  | @deliver ev' armed hloop hroom hbefore =>
    rcases List.mem_append.mp hev with hold | hnew
    · exact .inl ⟨hold, hlisten, hmap'⟩
    · obtain rfl := List.mem_singleton.mp hnew
      exact .inr (.deliver ⟨by rw [hfd]; exact hbefore, by rw [hfd]; exact hmap'⟩ hfd.symm)
  | @deliverListen ev' hloop hroom hlisten' =>
    rcases List.mem_append.mp hev with hold | hnew
    · exact .inl ⟨hold, hlisten, hmap'⟩
    · obtain rfl := List.mem_singleton.mp hnew
      exact absurd hlisten' hlisten
  | @add conn' hloop =>
    left
    refine ⟨?_, hlisten, hmap'⟩
    rw [← (epollAdd_frame s conn'.mConnfd).1]
    exact hev
  | accept hloop hevents hreact hnew => exact .inl ⟨mem_of_event hevents hev, hlisten, hmap'⟩
  | close hloop hevents hreact hfound => exact .inl ⟨mem_of_event hevents hev, hlisten, hmap'⟩
  | dispatch hloop hevents hreact hfound => exact .inl ⟨mem_of_event hevents hev, hlisten, hmap'⟩
  | ignore hloop hevents hreact => exact .inl ⟨mem_of_event hevents hev, hlisten, hmap'⟩
  | null hloop hevents haccept hnothing hfound =>
    exact .inl ⟨mem_of_event hevents hev, hlisten, hmap'⟩
  | @handler s' i t pc hrun hstep => exact absurd rfl (ha i t.conn pc)
  | _ => exact .inl ⟨hev, hlisten, hmap'⟩

/-- A handler of a connection was there before or has been dispatched. -/
theorem Step.held_handler {s s' : Server W} {a : Label W} (h : Step mListenFd s a s')
    {conn : ConnPtr} {pc : HandlerAt} (ha : ∀ i c pc, a ≠ .handler i c pc)
    (hx : s'.HeldBy mListenFd conn (.handler pc)) :
    s.HeldBy mListenFd conn (.handler pc) ∨ Passes mListenFd s s' conn a (.handler pc) := by
  obtain ⟨hhas, hpc⟩ := hx
  cases h with
  | @dispatch ev rest conn' pc' hloop hev hreact hfound =>
    rcases ThreadPool.has_of_request hhas with hold | hnew
    · exact .inl ⟨hold, hpc⟩
    · cases hnew
      right
      have hfd : ev.fd ≠ mListenFd := react_ne_accept (by rw [hreact]; exact nofun)
      exact .dispatch ⟨by rw [hev]; exact List.mem_cons_self, hfd, hfound⟩ hreact
  | @add conn' hloop =>
    left
    refine ⟨?_, hpc⟩
    rw [← (epollAdd_frame s conn'.mConnfd).2.1]
    exact hhas
  | pool hstep hstop hreturned => exact .inl ⟨hstep.has hhas, hpc⟩
  | @handler s' i t pc hrun hstep => exact absurd rfl (ha i t.conn pc)
  | _ => exact .inl ⟨hhas, hpc⟩

/-- A connection that the loop holds was there before or has been accepted. -/
theorem Step.held_loop {s s' : Server W} {a : Label W} (h : Step mListenFd s a s') {conn : ConnPtr}
    (hx : s'.HeldBy mListenFd conn .loop) :
    s.HeldBy mListenFd conn .loop ∨ Passes mListenFd s s' conn a .loop := by
  rcases h.unregistered hx with hold | ⟨hloop, hnew, -⟩
  · exact .inl hold
  · right
    have hid := (h.accepted hloop hnew).1
    cases h with
    | accept hloop' hev hreact hfd => exact .accept hreact hnew hid
    | @handler s' i t pc hrun hstep =>
      have hsame : s'.loop = .inserting conn := hnew
      rw [hstep.frame.1, hloop] at hsame
      cases hsame
    | pool hstep hstop hreturned => cases hloop.symm.trans hnew
    | deliver hloop' hroom harmed => cases hloop.symm.trans hloop'
    | deliverListen hloop' hroom hlisten => cases hloop.symm.trans hloop'
    | ignore hloop' hev hreact => cases hloop.symm.trans hnew
    | insert hloop' => cases hloop.symm.trans hloop'
    | _ => cases hnew

/-- Whoever holds a connection after a move held it before, or has got it from
its holder. A move of its handler is such a passage. -/
theorem Step.held {s s' : Server W} {a : Label W} (h : Step mListenFd s a s')
    (hinv : Inv mListenFd s) (howners : Owners mListenFd s) {conn : ConnPtr} {x : Holder}
    (hx : s'.HeldBy mListenFd conn x) :
    s.HeldBy mListenFd conn x ∧ (∀ i pc, a ≠ .handler i conn pc) ∨
      Passes mListenFd s s' conn a x := by
  by_cases ha : ∃ i c pc, a = .handler i c pc
  · obtain ⟨i, c, pc, rfl⟩ := ha
    cases h with
    | @handler s' _ t _ hrun hstep =>
      by_cases hconn : conn = t.conn
      · subst hconn
        exact .inr (hstep.passes hinv hrun hx)
      · refine .inl ⟨hstep.held_other howners hrun hconn hx, fun j pc' hlabel => ?_⟩
        cases hlabel
        exact hconn rfl
  · have hnot : ∀ i c pc, a ≠ .handler i c pc := fun i c pc hlabel => ha ⟨i, c, pc, hlabel⟩
    have hcase : s.HeldBy mListenFd conn x ∨ Passes mListenFd s s' conn a x := by
      cases x with
      | loop => exact h.held_loop hx
      | epoll armed => exact h.held_epoll hinv hnot hx
      | array ev => exact h.held_array hinv hnot hx
      | handler pc => exact h.held_handler hnot hx
    exact hcase.imp_left fun hold => ⟨hold, fun i pc => hnot i conn pc⟩

end Server

end KyrosWebServer.Net
