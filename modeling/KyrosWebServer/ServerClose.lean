import KyrosWebServer.ServerExclusion

/-!
# Closed connections

What the loop finds in the map, what it hands to the pool, what the workers
take up and which connections are closed are observed along a run. A closed
connection is out of reach: no event leads to it, its remaining handler only
ends, and an `epoll_mod` still ahead of that handler fails.
-/

namespace KyrosWebServer.Net

open TransitionSystem Base

variable {W : ℕ}

/-- What is observed of a run. -/
inductive Observation
  /-- `EventLoop` looks up the connection of an event. -/
  | lookup (ev : EpollEvent) (found : Option ConnPtr)
  /-- `EventLoop` hands a handler of the connection to the pool. -/
  | dispatch (conn : ConnPtr)
  /-- A worker takes a handler of the connection up. -/
  | start (conn : ConnPtr)
  /-- `CloseConn` is called on the connection. -/
  | closeConn (conn : ConnPtr)
  deriving DecidableEq

/-- A handler of the connection is dispatched or started, or the connection closed. -/
def Observation.uses (conn : ConnPtr) : Observation → Prop
  | lookup _ _ => False
  | dispatch c | start c | closeConn c => c = conn

/-- Whether `CloseConn` has been called before a handler gets here, or may not
have been but all that is left is an `epoll_mod` for reading. -/
def HandlerAt.ending : HandlerAt → Bool
  | closeDel _ | closeErase _ | enableConnRead | returned => true
  | _ => false

/-- A handler that is ending goes on to end. -/
theorem Server.HandlerStep.ending {conn : ConnPtr} {pc pc' : HandlerAt} {s s' : Server W}
    (h : HandlerStep conn pc s pc' s') (hpc : pc.ending = true) : pc'.ending = true := by
  cases h with
  | enableConnRead => rfl
  | closeDel => rfl
  | @closeErase s b => cases b <;> rfl
  | _ => cases hpc

namespace Server

/-- What a move shows. -/
def observe (mListenFd : ℤ) (s : Server W) : Label W → List Observation
  | .event ev =>
    match react mListenFd ev, s.connMap ev.fd with
    | .closeConn, some conn => [.lookup ev (some conn), .closeConn conn]
    | .addTask _, some conn => [.lookup ev (some conn), .dispatch conn]
    | .closeConn, none | .addTask _, none => [.lookup ev none]
    | _, _ => []
  | .pool (.take _ (some t) _) => [.start t.conn]
  | .handler _ conn (.closeDel _) => [.closeConn conn]
  | _ => []

/-- Every connection that somebody can name has been made before. -/
structure Made (s : Server W) : Prop where
  /-- Connections of the map. -/
  mapped : ∀ fd conn, s.connMap fd = some conn → conn.id < s.created
  /-- Connections of the handlers. -/
  bound : ∀ t, s.mThreadpool.Has t → t.conn.id < s.created
  /-- The new connection of the loop. -/
  new : ∀ conn, s.loop.unregistered = some conn → conn.id < s.created

/-- `CloseConn` has been called on the connection. -/
structure Closed (s : Server W) (conn : ConnPtr) : Prop where
  /-- It has been made. -/
  old : conn.id < s.created
  /-- It is not the one that the loop is about to register. -/
  known : s.loop.unregistered ≠ some conn
  /-- Its handlers only end. -/
  ending : ∀ t, s.mThreadpool.Has t → t.conn = conn → t.pc.ending = true
  /-- While it is still in the map, its registration is being deleted or gone. -/
  leaving : s.connMap conn.mConnfd = some conn →
    s.Closing conn.mConnfd ∨ s.mEpoll conn.mConnfd = .absent
  /-- An `epoll_mod` that is still to come finds no registration. -/
  unarmed : ∀ t, s.mThreadpool.Has t → t.conn = conn → t.pc = .enableConnRead →
    s.mEpoll conn.mConnfd = .absent

/-- A new connection gets the next identity. -/
theorem Step.accepted {mListenFd : ℤ} {s s' : Server W} {a : Label W} (h : Step mListenFd s a s')
    {conn : ConnPtr} (hloop : s.loop = .handling) (hconn : s'.loop = .inserting conn) :
    conn.id = s.created ∧ s'.created = s.created + 1 := by
  cases h with
  | accept hloop' hev hreact hfd =>
    cases hconn
    exact ⟨rfl, rfl⟩
  | @handler s' i t pc hrun hstep =>
    have hsame : s'.loop = .inserting conn := hconn
    rw [hstep.frame.1, hloop] at hsame
    cases hsame
  | insert hloop' =>
    rw [hloop] at hloop'
    cases hloop'
  | deliver hloop' hroom harmed =>
    rw [hloop] at hloop'
    cases hloop'
  | deliverListen hloop' hroom hlisten =>
    rw [hloop] at hloop'
    cases hloop'
  | pool hstep hstop hreturned =>
    have hsame : s.loop = .inserting conn := hconn
    rw [hloop] at hsame
    cases hsame
  | ignore hloop' hev hreact =>
    have hsame : s.loop = .inserting conn := hconn
    rw [hloop] at hsame
    cases hsame
  | _ => cases hconn

/-- Handlers make no connections. -/
theorem HandlerStep.created {conn : ConnPtr} {pc pc' : HandlerAt} {s s' : Server W}
    (h : HandlerStep conn pc s pc' s') : s'.created = s.created := by
  cases h with
  | enableConnRead =>
    unfold epollMod
    split <;> rfl
  | enableConnWrite =>
    unfold epollMod
    split <;> rfl
  | _ => rfl

/-- The first half of `CloseConn` deletes the registration. -/
theorem HandlerStep.deletes {conn : ConnPtr} {pc pc' : HandlerAt} {b : Bool} {s s' : Server W}
    (h : HandlerStep conn pc s pc' s') (hpc : pc = .closeDel b) :
    s'.mEpoll conn.mConnfd = .absent := by
  cases h with
  | closeDel => exact Function.update_self ..
  | _ => cases hpc

/-- A handler that is ending gets to its last `epoll_mod` from `CloseConn` only. -/
theorem HandlerStep.unarmed {conn : ConnPtr} {pc : HandlerAt} {s s' : Server W}
    (h : HandlerStep conn pc s .enableConnRead s') (hpc : pc.ending = true)
    (herasing : ∀ b, pc = .closeErase b → s.mEpoll conn.mConnfd = .absent) :
    s'.mEpoll conn.mConnfd = .absent := by
  generalize hnext : HandlerAt.enableConnRead = pc' at h
  cases h with
  | closeErase => exact herasing _ rfl
  | enableConnRead => cases hnext
  | closeDel => cases hnext
  | _ => cases hpc

/-- Identities are used once. -/
theorem Step.created_le {mListenFd : ℤ} {s s' : Server W} {a : Label W}
    (h : Step mListenFd s a s') : s.created ≤ s'.created := by
  cases h with
  | accept hloop hev hreact hfd => exact Nat.le_succ _
  | @add conn hloop =>
    unfold epollAdd
    split <;> exact Nat.le_refl _
  | @handler s' i t pc hrun hstep =>
    exact Nat.le_of_eq hstep.created.symm
  | _ => exact Nat.le_refl _

/-- Every move keeps the identities in use below the next one. -/
theorem Step.made {mListenFd : ℤ} {s s' : Server W} {a : Label W} (h : Step mListenFd s a s')
    (hs : Made s) : Made s' := by
  have hle := h.created_le
  constructor
  case mapped =>
    intro fd conn hconn
    rcases h.connMap fd with hsame | ⟨new, hloop, -, hnew⟩ | ⟨-, hnone⟩
    · rw [hsame] at hconn
      exact Nat.lt_of_lt_of_le (hs.mapped fd conn hconn) hle
    · rw [hnew] at hconn
      cases hconn
      exact Nat.lt_of_lt_of_le (hs.new conn (by rw [hloop]; rfl)) hle
    · rw [hnone] at hconn
      cases hconn
  case bound =>
    intro t ht
    rcases h.has ht with hold | ⟨-, ev, -, -, hfound⟩ | ⟨pc, s₁, hold, -, -⟩
    · exact Nat.lt_of_lt_of_le (hs.bound t hold) hle
    · exact Nat.lt_of_lt_of_le (hs.mapped ev.fd t.conn hfound) hle
    · exact Nat.lt_of_lt_of_le (hs.bound ⟨t.conn, pc⟩ hold) hle
  case new =>
    intro conn hconn
    rcases h.unregistered hconn with hbefore | ⟨hloop, hnew, -⟩
    · exact Nat.lt_of_lt_of_le (hs.new conn hbefore) hle
    · obtain ⟨hid, hnext⟩ := h.accepted hloop hnew
      omega

/-- Who is about to delete a registration deletes it next. -/
theorem Step.closing {mListenFd : ℤ} {s s' : Server W} {a : Label W} (h : Step mListenFd s a s')
    {fd : ℤ} (hfd : s.Closing fd) : s'.Closing fd ∨ s'.mEpoll fd = .absent := by
  rcases hfd with hloop | ⟨t, b, hhas, hpc, hconn⟩
  · cases h with
    | @closeDel connfd hloop' =>
      rw [hloop] at hloop'
      cases hloop'
      exact .inr (Function.update_self ..)
    | @handler s' i t pc hrun hstep =>
      left
      left
      change s'.loop = _
      rw [hstep.frame.1, hloop]
    | pool hstep hstop hreturned => exact .inl (.inl hloop)
    | _ hloop' =>
      rw [hloop] at hloop'
      cases hloop'
  · cases h with
    | pool hstep hstop hreturned =>
      refine .inl (.inr ⟨t, b, hstep.has_kept hhas fun i ha hrun => ?_, hpc, hconn⟩)
      have hret := hreturned i t ha hrun
      rw [hpc] at hret
      cases hret
    | @handler s' i u pc hrun hstep =>
      by_cases htu : t = u
      · subst htu
        rw [← hconn]
        exact .inr (hstep.deletes hpc)
      · left
        right
        rw [← hstep.frame.2.2] at hhas hrun
        exact ⟨t, b, has_setTask _ hrun hhas htu, hpc, hconn⟩
    | dispatch hloop hev hreact hfound =>
      exact .inl (.inr ⟨t, b, hhas.request 0 _, hpc, hconn⟩)
    | @add conn hloop =>
      left
      right
      refine ⟨t, b, ?_, hpc, hconn⟩
      dsimp only
      rwa [(epollAdd_frame s conn.mConnfd).2.1]
    | _ => exact .inl (.inr ⟨t, b, hhas, hpc, hconn⟩)

/-- No event leads to a closed connection. -/
theorem Closed.no_event {mListenFd : ℤ} {s : Server W} {conn : ConnPtr} (h : Closed s conn)
    (hs : Inv mListenFd s) {ev : EpollEvent} (hev : ev ∈ s.epollEvent) (hfd : ev.fd ≠ mListenFd) :
    s.connMap ev.fd ≠ some conn := by
  intro hfound
  have hconn := hs.filed ev.fd conn hfound
  have hmap : s.connMap conn.mConnfd = some conn := by rw [hconn]; exact hfound
  rcases h.leaving hmap with hclosing | habsent
  · rw [hconn] at hclosing
    exact hs.not_closing hfd (.inl hev) hclosing
  · rw [hconn] at habsent
    exact hs.harvested ev hev hfd habsent

/-- What has been closed stays closed. -/
theorem Closed.step {mListenFd : ℤ} {s s' : Server W} {a : Label W} {conn : ConnPtr}
    (h : Closed s conn) (hs : Inv mListenFd s) (hstep : Step mListenFd s a s') :
    Closed s' conn := by
  constructor
  case old => exact Nat.lt_of_lt_of_le h.old hstep.created_le
  case known =>
    intro hconn
    rcases hstep.unregistered hconn with hbefore | ⟨hloop, hnew, -⟩
    · exact h.known hbefore
    · have hid := (hstep.accepted hloop hnew).1
      have hold := h.old
      omega
  case ending =>
    intro t ht hconn
    rcases hstep.has ht with hold | ⟨-, ev, hev, hfd, hfound⟩ | ⟨pc, s₁, hold, hmove, -⟩
    · exact h.ending t hold hconn
    · rw [hconn] at hfound
      exact absurd hfound (h.no_event hs hev hfd)
    · exact hmove.ending (h.ending ⟨t.conn, pc⟩ hold hconn)
  case leaving =>
    intro hmap
    rcases hstep.connMap conn.mConnfd with hsame | ⟨new, hloop, -, hnew⟩ | ⟨-, hnone⟩
    · rw [hsame] at hmap
      rcases h.leaving hmap with hclosing | habsent
      · exact hstep.closing hclosing
      · rcases hstep.absent habsent with hkept | ⟨new, hloop, -, hfd, -⟩
        · exact .inr hkept
        · -- the loop would be about to register the connection itself
          have hinserted := hs.inserted new (by rw [hloop]; rfl)
          rw [hfd, hmap] at hinserted
          cases hinserted
          exact absurd (by rw [hloop]; rfl) h.known
    · rw [hnew] at hmap
      cases hmap
      exact absurd (by rw [hloop]; rfl) h.known
    · rw [hnone] at hmap
      cases hmap
  case unarmed =>
    intro t ht hconn hpc
    rcases hstep.has ht with hold | ⟨hentry, -⟩ | ⟨pc, s₁, hold, hmove, hreg⟩
    · have hfd : t.conn.mConnfd = conn.mConnfd := by rw [hconn]
      have htoken := holds_task hold (by rw [hpc]; rfl) hfd
      rcases hstep.absent (h.unarmed t hold hconn hpc) with hkept | hadd
      · exact hkept
      · have hzero := (hs.adds hadd).1
        unfold tokens at hzero
        omega
    · rw [hpc] at hentry
      rcases hentry with h | h <;> cases h
    · have hend := h.ending ⟨t.conn, pc⟩ hold hconn
      rw [hreg, ← hconn]
      rw [hpc] at hmove
      exact hmove.unarmed hend fun b hb => hs.erasing _ (.inr ⟨_, b, hold, hb, rfl⟩)

/-- Whoever has called `CloseConn` on a connection leaves its other handlers
at their end. -/
theorem Inv.others_returned {mListenFd : ℤ} {s : Server W} (hs : Inv mListenFd s) {t u : Task}
    (ht : s.mThreadpool.Has t) (hpc : t.pc.token = 1) (hu : s.mThreadpool.Has u) (hne : u ≠ t)
    (hfd : u.conn.mConnfd = t.conn.mConnfd) : u.pc.token = 0 := by
  have hload := ht.weight_add_le hu hne (Task.token t.conn.mConnfd)
  have hone := hs.exclusive t.conn.mConnfd
  unfold tokens at hone
  have htoken : t.token t.conn.mConnfd = 1 := by
    unfold Task.token
    rw [if_pos rfl, hpc]
  have hutoken : u.token t.conn.mConnfd = u.pc.token := by
    unfold Task.token
    rw [if_pos hfd]
  omega

/-- A handler that holds nothing any more has returned. -/
theorem HandlerAt.returned_of_token {pc : HandlerAt} (h : pc.token = 0) : pc = .returned := by
  cases pc with
  | returned => rfl
  | _ => cases h

/-- A handler calls `CloseConn` on a connection that is not closed yet. -/
theorem HandlerStep.calls_close {conn : ConnPtr} {pc : HandlerAt} {b : Bool} {s s' : Server W}
    (h : HandlerStep conn pc s (.closeDel b) s') : pc.ending = false ∧ s' = s := by
  generalize hpc : HandlerAt.closeDel b = pc' at h
  cases h with
  | recv ret => exact ⟨rfl, rfl⟩
  | processRead ret => cases ret <;> cases hpc
  | send ret => exact ⟨rfl, rfl⟩
  | writeCb => exact ⟨rfl, rfl⟩
  | closeErase =>
    unfold afterClose at hpc
    split at hpc <;> cases hpc
  | _ => cases hpc

/-- The loop closes the connection of an event. -/
theorem Inv.closed_by_loop {mListenFd : ℤ} {s' : Server W} {conn : ConnPtr}
    (hs' : Inv mListenFd s') (hold : conn.id < s'.created)
    (hloop : s'.loop = .closeDel conn.mConnfd) : Closed s' conn := by
  have hreturned : ∀ t, s'.mThreadpool.Has t → t.conn = conn → t.pc = .returned := by
    intro t ht hconn
    have hone := hs'.exclusive conn.mConnfd
    have hle := ht.weight_le (Task.token conn.mConnfd)
    have hheld : s'.loop.token conn.mConnfd = 1 := by
      rw [hloop]
      exact if_pos rfl
    have htoken : t.token conn.mConnfd = t.pc.token := by
      unfold Task.token
      rw [hconn, if_pos rfl]
    unfold tokens at hone
    exact HandlerAt.returned_of_token (by omega)
  constructor
  case old => exact hold
  case known => rw [hloop]; exact nofun
  case ending =>
    intro t ht hconn
    rw [hreturned t ht hconn]
    rfl
  case leaving => exact fun _ => .inl (.inl hloop)
  case unarmed =>
    intro t ht hconn hpc
    rw [hreturned t ht hconn] at hpc
    cases hpc

/-- A worker closes the connection of its handler. -/
theorem Inv.closed_by_worker {mListenFd : ℤ} {s' : Server W} {conn : ConnPtr} {b : Bool}
    (hs' : Inv mListenFd s') (hmade : Made s') (hhas : s'.mThreadpool.Has ⟨conn, .closeDel b⟩) :
    Closed s' conn := by
  have hothers : ∀ t, s'.mThreadpool.Has t → t.conn = conn →
      t = ⟨conn, .closeDel b⟩ ∨ t.pc = .returned := by
    intro t ht hconn
    by_cases hne : t = ⟨conn, .closeDel b⟩
    · exact .inl hne
    · right
      apply HandlerAt.returned_of_token
      exact hs'.others_returned hhas rfl ht hne (by rw [hconn])
  constructor
  case old => exact hmade.bound _ hhas
  case known =>
    intro hnew
    have hzero := (hs'.fresh conn hnew).1
    have hheld := holds_task hhas rfl (show conn.mConnfd = conn.mConnfd from rfl)
    unfold tokens at hzero
    omega
  case ending =>
    intro t ht hconn
    rcases hothers t ht hconn with rfl | hpc
    · rfl
    · rw [hpc]
      rfl
  case leaving => exact fun _ => .inl (.inr ⟨_, b, hhas, rfl, rfl⟩)
  case unarmed =>
    intro t ht hconn hpc
    rcases hothers t ht hconn with rfl | hret
    · cases hpc
    · rw [hret] at hpc
      cases hpc

/-- The five things that a move can show. -/
inductive Shown (mListenFd : ℤ) (s s' : Server W) : List Observation → Prop
  | nothing : Shown mListenFd s s' []
  | close {ev : EpollEvent} {conn : ConnPtr} (hev : ev ∈ s.epollEvent) (hfd : ev.fd ≠ mListenFd)
      (hfound : s.connMap ev.fd = some conn) (hloop : s'.loop = .closeDel conn.mConnfd)
      (hcreated : s'.created = s.created) :
      Shown mListenFd s s' [.lookup ev (some conn), .closeConn conn]
  | dispatch {ev : EpollEvent} {conn : ConnPtr} (hev : ev ∈ s.epollEvent) (hfd : ev.fd ≠ mListenFd)
      (hfound : s.connMap ev.fd = some conn) :
      Shown mListenFd s s' [.lookup ev (some conn), .dispatch conn]
  | start {t : Task} (ht : s.mThreadpool.Pending t) : Shown mListenFd s s' [.start t.conn]
  | worker {t : Task} {b : Bool} (ht : s.mThreadpool.Has t) (hpc : t.pc.ending = false)
      (ht' : s'.mThreadpool.Has ⟨t.conn, .closeDel b⟩) :
      Shown mListenFd s s' [.closeConn t.conn]

/-- A move shows no more, and the loop finds the connection of every event. -/
theorem Step.shown {mListenFd : ℤ} {s s' : Server W} {a : Label W} (h : Step mListenFd s a s')
    (hs : Inv mListenFd s) : Shown mListenFd s s' (observe mListenFd s a) := by
  cases h with
  | @accept ev rest connfd hloop hev hreact hfd =>
    simp only [observe, hreact]
    exact .nothing
  | @close ev rest conn hloop hev hreact hfound =>
    have hmem : ev ∈ s.epollEvent := by rw [hev]; exact List.mem_cons_self
    have hfd : ev.fd ≠ mListenFd := react_ne_accept (by rw [hreact]; exact nofun)
    simp only [observe, hreact, hfound]
    exact .close hmem hfd hfound rfl rfl
  | @dispatch ev rest conn pc hloop hev hreact hfound =>
    have hmem : ev ∈ s.epollEvent := by rw [hev]; exact List.mem_cons_self
    have hfd : ev.fd ≠ mListenFd := react_ne_accept (by rw [hreact]; exact nofun)
    simp only [observe, hreact, hfound]
    exact .dispatch hmem hfd hfound
  | ignore hloop hev hreact =>
    simp only [observe, hreact]
    exact .nothing
  | @null ev rest hloop hev haccept hnothing hfound =>
    have hmem : ev ∈ s.epollEvent := by rw [hev]; exact List.mem_cons_self
    obtain ⟨conn, hconn, -⟩ := hs.found hmem (react_ne_accept haccept)
    rw [hfound] at hconn
    cases hconn
  | @pool a pool hstep hstop hreturned =>
    cases hstep with
    | @take i t rest post who producers hi hfree htake hpost =>
      obtain ⟨-, hqueue, -, -⟩ := ThreadPool.take_eq_some htake
      cases t with
      | none => exact .nothing
      | some t =>
        refine .start (.inr ?_)
        rw [hqueue]
        exact List.mem_cons_self
    | _ => exact .nothing
  | @handler s' i t pc hrun hstep =>
    cases pc with
    | closeDel b =>
      obtain ⟨hpc, rfl⟩ := hstep.calls_close
      exact .worker (.inr ⟨i, hrun⟩) hpc (.inr ⟨i, ThreadPool.setWorker_self ..⟩)
    | _ => exact .nothing
  | _ => exact .nothing

/-- Only connections that are not closed are used. -/
theorem Shown.open {mListenFd : ℤ} {s s' : Server W} {os : List Observation}
    (h : Shown mListenFd s s' os) (hs : Inv mListenFd s) {o : Observation} {conn : ConnPtr}
    (ho : o ∈ os) (huses : o.uses conn) : ¬ Closed s conn := by
  intro hclosed
  cases h with
  | nothing => cases ho
  | close hev hfd hfound =>
    simp only [List.mem_cons, List.not_mem_nil, or_false] at ho
    rcases ho with rfl | rfl
    · exact huses
    · cases huses
      exact hclosed.no_event hs hev hfd hfound
  | dispatch hev hfd hfound =>
    simp only [List.mem_cons, List.not_mem_nil, or_false] at ho
    rcases ho with rfl | rfl
    · exact huses
    · cases huses
      exact hclosed.no_event hs hev hfd hfound
  | @start t ht =>
    rw [List.mem_singleton] at ho
    subst ho
    have hend := hclosed.ending t (.inl ht) huses
    rcases hs.pending t ht with hpc | hpc <;> rw [hpc] at hend <;> cases hend
  | @worker t b ht hpc =>
    rw [List.mem_singleton] at ho
    subst ho
    have hend := hclosed.ending t ht huses
    rw [hpc] at hend
    cases hend

/-- A call of `CloseConn` closes its connection. -/
theorem Shown.closed {mListenFd : ℤ} {s s' : Server W} {os : List Observation} {conn : ConnPtr}
    (h : Shown mListenFd s s' os) (hs' : Inv mListenFd s') (hmade : Made s) (hmade' : Made s')
    (ho : .closeConn conn ∈ os) : Closed s' conn := by
  cases h with
  | nothing => cases ho
  | @close ev c hev hfd hfound hloop hcreated =>
    simp only [List.mem_cons, List.not_mem_nil, or_false, reduceCtorEq, false_or] at ho
    cases ho
    exact hs'.closed_by_loop (by rw [hcreated]; exact hmade.mapped _ _ hfound) hloop
  | dispatch =>
    simp at ho
  | start => simp at ho
  | worker ht hpc ht' =>
    rw [List.mem_singleton] at ho
    cases ho
    exact hs'.closed_by_worker hmade' ht'

/-- What a run has shown, and the connections it has closed. -/
structure Sound (mListenFd : ℤ) (os : List Observation) (s : Server W) : Prop where
  inv : Inv mListenFd s
  made : Made s
  /-- Lookups have found the connection of their event. -/
  found : ∀ ev found, .lookup ev found ∈ os → ∃ conn, found = some conn ∧ conn.mConnfd = ev.fd
  /-- Connections that have been closed are out of reach. -/
  closed : ∀ conn, .closeConn conn ∈ os → Closed s conn
  /-- Nothing has used a connection after it was closed. -/
  order : os.Pairwise fun o o' => ∀ conn, o = .closeConn conn → ¬ o'.uses conn

/-- Every move adds sound observations. -/
theorem Step.sound {mListenFd : ℤ} {s s' : Server W} {a : Label W} {os : List Observation}
    (h : Step mListenFd s a s') (hs : Sound mListenFd os s) :
    Sound mListenFd (os ++ observe mListenFd s a) s' := by
  have hinv := h.inv hs.inv
  have hmade := h.made hs.made
  have hshown := h.shown hs.inv
  generalize observe mListenFd s a = shown at hshown
  constructor
  case inv => exact hinv
  case made => exact hmade
  case found =>
    intro ev found ho
    rcases List.mem_append.mp ho with ho | ho
    · exact hs.found ev found ho
    · cases hshown with
      | nothing => cases ho
      | @close ev' conn hev hfd hfound =>
        simp only [List.mem_cons, List.not_mem_nil, or_false, reduceCtorEq] at ho
        cases ho
        exact ⟨conn, rfl, hs.inv.filed _ conn hfound⟩
      | @dispatch ev' conn hev hfd hfound =>
        simp only [List.mem_cons, List.not_mem_nil, or_false, reduceCtorEq] at ho
        cases ho
        exact ⟨conn, rfl, hs.inv.filed _ conn hfound⟩
      | start => simp at ho
      | worker => simp at ho
  case closed =>
    intro conn ho
    rcases List.mem_append.mp ho with ho | ho
    · exact (hs.closed conn ho).step hs.inv h
    · exact hshown.closed hinv hs.made hmade ho
  case order =>
    rw [List.pairwise_append]
    refine ⟨hs.order, ?_, ?_⟩
    · cases hshown <;> simp
    · rintro o ho o' ho' conn rfl huses
      exact hshown.open hs.inv ho' huses (hs.closed conn ho)

/-- In every run each lookup that the loop makes for an event finds a connection
with the descriptor of the event, and once `CloseConn` has been called on a
connection no handler is dispatched or started for it and it is not called again. -/
theorem observed_live_connections {mListenFd : ℤ} {os : List Observation} {s : Server W}
    (h : (system W mListenFd).Observed (observe mListenFd) (new W) os s) :
    (∀ ev found, .lookup ev found ∈ os → ∃ conn, found = some conn ∧ conn.mConnfd = ev.fd) ∧
    os.Pairwise fun o o' => ∀ conn, o = .closeConn conn → ¬ o'.uses conn := by
  have hsound : Sound mListenFd os s := by
    refine h.invariant (fun os s a t hs hstep => Step.sound hstep hs) ?_
    constructor
    case inv => exact new_inv W mListenFd
    case made => exact ⟨nofun, fun t ht => absurd ht (new_has W t), nofun⟩
    case found => exact nofun
    case closed => exact nofun
    case order => exact .nil
  exact ⟨hsound.found, hsound.order⟩

/-- A connection is accepted, and closed when its peer has gone. -/
theorem observed_live_connections_sample :
    ∃ os : List Observation, .closeConn ⟨0, 5⟩ ∈ os ∧
      (∀ ev found, .lookup ev found ∈ os → ∃ conn, found = some conn ∧ conn.mConnfd = ev.fd) ∧
      os.Pairwise fun o o' => ∀ conn, o = .closeConn conn → ¬ o'.uses conn := by
  let readable : Events := ⟨true, false, false, false, false⟩
  let gone : Events := ⟨true, false, true, false, false⟩
  have hunused : Unused 3 { new 1 with loop := .handling, epollEvent := [⟨3, readable⟩] } 5 := by
    refine ⟨by decide, by decide, ?_⟩
    rintro conn (⟨fd, h⟩ | h | ⟨t, ht, -⟩)
    · cases h
    · cases h
    · exact absurd ht (new_has 1 t)
  have h₀ : (system 1 3).Observed (observe 3) (new 1) [] (new 1) := .nil
  have h₁ := h₀.snoc (@Step.deliverListen 1 3 _ ⟨3, readable⟩ rfl (by decide) rfl)
  have h₂ := h₁.snoc (.wakeup rfl)
  have h₃ := h₂.snoc (.accept rfl rfl rfl (.inr hunused))
  have h₄ := h₃.snoc (.insert rfl)
  have h₅ := h₄.snoc (.cCallBack rfl)
  have h₆ := h₅.snoc (.add rfl)
  have h₇ := h₆.snoc (.added rfl)
  have h₈ := h₇.snoc (.handled rfl rfl)
  have h₉ := h₈.snoc (@Step.deliver 1 3 _ ⟨5, gone⟩ .EPOLLIN rfl (by decide) rfl)
  have h₁₀ := h₉.snoc (.wakeup rfl)
  have h₁₁ := h₁₀.snoc (.close rfl rfl rfl rfl)
  refine ⟨_, ?_, observed_live_connections h₁₁⟩
  exact List.mem_append_right _ (List.mem_cons_of_mem _ List.mem_cons_self)

end Server

end KyrosWebServer.Net
