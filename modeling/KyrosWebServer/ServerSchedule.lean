import KyrosWebServer.HttpTraffic

/-!
# A handler that nobody disturbs

For each call of a handler there is a schedule of the loop and one worker that
carries it out on a connection of the server: an event is delivered, the task is
queued, a worker takes it. While no other thread moves, the handler does in its
moves what it does in one call.
-/

namespace KyrosWebServer.Http

open CMemory Base FixedBuffer Net TransitionSystem HttpConnection

variable {W : ℕ} {HttpCallback : HttpServeFunc} {disk : MappedFiles → Prop} {mListenFd : ℤ}

/-- A connection armed for reading may be readable. -/
theorem asked_readable : Asked .EPOLLIN ⟨true, false, false, false, false⟩ := by
  constructor <;> decide

/-- A connection armed for writing may be writable. -/
theorem asked_writable : Asked .EPOLLOUT ⟨false, true, false, false, false⟩ := by
  constructor <;> decide

/-- Any armed connection may be hung up. -/
theorem asked_hangup (armed : Interest) : Asked armed ⟨false, false, false, true, false⟩ := by
  constructor <;> simp

/-- The loop hands a readable connection to `handleRead`. -/
theorem react_readable {fd : ℤ} (h : fd ≠ mListenFd) :
    react mListenFd ⟨fd, ⟨true, false, false, false, false⟩⟩ = .addTask .handleRead := by
  rw [react, if_neg h]
  rfl

/-- A writable one to `handleWrite`. -/
theorem react_writable {fd : ℤ} (h : fd ≠ mListenFd) :
    react mListenFd ⟨fd, ⟨false, true, false, false, false⟩⟩ = .addTask .handleWrite := by
  rw [react, if_neg h]
  rfl

/-- It closes one that is hung up. -/
theorem react_hangup {fd : ℤ} (h : fd ≠ mListenFd) :
    react mListenFd ⟨fd, ⟨false, false, false, true, false⟩⟩ = .closeConn := by
  rw [react, if_neg h]
  rfl

namespace HttpServer

/-- No thread but perhaps one worker is busy. The connection holds `d` and is
registered as `reg`. -/
structure Quiet (pool : ThreadPool Task W 1) (conn : ConnPtr) (d : Traffic) (reg : Registration)
    (s : HttpServer W) : Prop where
  /-- The loop is in `epoll_wait`. -/
  loop : s.mServer.loop = .waiting
  /-- There are no events. -/
  events : s.mServer.epollEvent = []
  /-- What the pool does. -/
  mThreadpool : s.mServer.mThreadpool = pool
  /-- The contents of the connection. -/
  traffic : s.traffic conn = d
  /-- The threads see its flag. -/
  mAlive : s.mServer.mAlive conn = d.conn.mAlive
  /-- Its registration. -/
  mEpoll : s.mServer.mEpoll conn.mConnfd = reg
  /-- A registered connection is in the map. -/
  mapped : reg ≠ .absent → s.mServer.connMap conn.mConnfd = some conn

/-- Moves in which no event, report or handler has a part leave the contents alone. -/
theorem leads_eventless {s : HttpServer W} {server : Server W}
    (h : ((Server.system W mListenFd).restrict Server.Label.Eventless).Leads s.mServer server) :
    (system W HttpCallback disk mListenFd).Leads s { s with mServer := server } := by
  induction h with
  | refl => exact .refl _
  | tail _ hm ih =>
    obtain ⟨a, ha, hstep⟩ := hm
    cases a with
    | loop => exact ih.tail (.loop hstep)
    | pool a => exact ih.tail (.pool hstep)
    | _ => exact ha.elim

/-- `epoll_wait` returns with one event of an armed connection. -/
theorem Quiet.leads_handling {pool : ThreadPool Task W 1} {conn : ConnPtr} {d : Traffic}
    {armed : Interest} {s : HttpServer W} (hs : Quiet pool conn d (.armed armed) s) {events : Events}
    (hasked : Asked armed events) :
    (system W HttpCallback disk mListenFd).Leads s { s with mServer := { s.mServer with
      loop := .handling, epollEvent := [⟨conn.mConnfd, events⟩],
      mEpoll := Function.update s.mServer.mEpoll conn.mConnfd .disarmed } } := by
  obtain ⟨⟨pool, loop, array, connMap, mEpoll, mAlive, created⟩, traffic⟩ := s
  obtain ⟨hloop, hevents, hpool, htraffic, halive, hreg, hmapped⟩ := hs
  dsimp only at hloop hevents hreg
  subst hloop hevents
  have hroom : ([] : List EpollEvent).length < MAX_EVENT_NUM := by decide
  have hdeliver : Step HttpCallback disk mListenFd
      ⟨⟨pool, .waiting, [], connMap, mEpoll, mAlive, created⟩, traffic⟩
      (.deliver ⟨conn.mConnfd, events⟩) _ :=
    .deliver (.deliver rfl hroom hreg) fun a ha => by
      obtain rfl := Registration.armed.inj (hreg.symm.trans ha)
      exact hasked
  exact (System.Leads.single (M := system W HttpCallback disk mListenFd) hdeliver).tail
    (.loop (.wakeup rfl))

/-- An event of an idle server gets to a worker. -/
theorem Quiet.dispatch (hW : 0 < W) {conn : ConnPtr} {d : Traffic} {armed : Interest} {s : HttpServer W}
    (hs : Quiet (ThreadPool.started fun _ => []) conn d (.armed armed) s) (i : Fin W) {events : Events}
    {pc : HandlerAt} (hasked : Asked armed events)
    (hreact : react mListenFd ⟨conn.mConnfd, events⟩ = .addTask pc) :
    ∃ s', (system W HttpCallback disk mListenFd).Leads s s' ∧
      Quiet (ThreadPool.running i ⟨conn, pc⟩) conn d .disarmed s' := by
  have hfound := hs.mapped Registration.noConfusion
  have hnot : react mListenFd ⟨conn.mConnfd, events⟩ ≠ .accept := by
    rw [hreact]
    exact Reaction.noConfusion
  have hhandling : (system W HttpCallback disk mListenFd).Leads s _ := hs.leads_handling hasked
  have hevent := hhandling.tail (.event (.dispatch rfl rfl hreact hfound) hnot)
  dsimp only at hevent
  rw [hs.mThreadpool, ThreadPool.request_started] at hevent
  refine ⟨_, hevent.trans (leads_eventless (Server.leads_running hW i rfl rfl rfl)), rfl, rfl, rfl,
    hs.traffic, hs.mAlive, ?_, ?_⟩
  · exact Function.update_self ..
  · exact fun _ => hfound

/-- The loop closes the connection of an event. -/
theorem Quiet.hangup {pool : ThreadPool Task W 1} {conn : ConnPtr} {d : Traffic} {armed : Interest}
    {s : HttpServer W} (hs : Quiet pool conn d (.armed armed) s) (hlisten : conn.mConnfd ≠ mListenFd) :
    ∃ s', (system W HttpCallback disk mListenFd).Leads s s' ∧ Quiet pool conn d .absent s' := by
  have hfound := hs.mapped Registration.noConfusion
  have hreact := react_hangup hlisten
  have hnot : react mListenFd ⟨conn.mConnfd, ⟨false, false, false, true, false⟩⟩ ≠ .accept := by
    rw [hreact]
    exact Reaction.noConfusion
  have hhandling : (system W HttpCallback disk mListenFd).Leads s _ :=
    hs.leads_handling (asked_hangup armed)
  have hevent := hhandling.tail (.event (.close rfl rfl hreact hfound) hnot)
  have hdel := hevent.tail (.loop (.closeDel rfl))
  have herase := hdel.tail (.loop (.closeErase rfl))
  have hhandled := herase.tail (.loop (.handled rfl rfl))
  refine ⟨_, hhandled, rfl, rfl, hs.mThreadpool, hs.traffic, hs.mAlive, ?_, ?_⟩
  · exact Function.update_self ..
  · exact fun hne => absurd rfl hne

end HttpServer

/-- What a move of a handler leaves of the registration. -/
def rearm : HandlerAt → Registration → Registration
  | .enableConnRead, reg => if reg = .absent then .absent else .armed .EPOLLIN
  | .enableConnWrite, reg => if reg = .absent then .absent else .armed .EPOLLOUT
  | .closeDel _, _ => .absent
  | _, reg => reg

/-- Nothing arms a descriptor that is not registered. -/
theorem rearm_absent (pc : HandlerAt) : rearm pc .absent = .absent := by
  cases pc <;> rfl

/-- A handler does to its registration what it would do alone. -/
theorem handler_rearm {s s' : Server W} {conn : ConnPtr} {pc pc' : HandlerAt}
    (h : Server.HandlerStep conn pc s pc' s') :
    s'.mEpoll conn.mConnfd = rearm pc (s.mEpoll conn.mConnfd) := by
  cases h with
  | enableConnRead | enableConnWrite =>
    unfold rearm Server.epollMod
    dsimp only
    split
    · assumption
    · exact Function.update_self ..
  | closeDel => exact Function.update_self ..
  | _ => rfl

/-- Whether a handler works on its connection only, not on epoll or the map. -/
def localTo : HandlerAt → Bool
  | .enableConnRead | .enableConnWrite | .closeDel _ | .closeErase _ => false
  | _ => true

/-- A handler with the contents of its connection and its registration. -/
structure Handling where
  /-- Where it stands. -/
  pc : HandlerAt
  /-- The contents. -/
  traffic : Traffic
  /-- The registration. -/
  mEpoll : Registration

/-- A move of a handler that nobody disturbs. -/
structure Alone (HttpCallback : HttpServeFunc) (disk : MappedFiles → Prop) (x y : Handling) : Prop where
  /-- It works on its connection. -/
  work : Work HttpCallback disk x.pc x.traffic y.pc y.traffic
  /-- It changes the registration. -/
  mEpoll : y.mEpoll = rearm x.pc x.mEpoll
  /-- It takes only what is not registered out of the map. -/
  unregistered : ∀ b, x.pc = .closeErase b → x.mEpoll = .absent

/-- A handler that nobody disturbs, from one place to another. -/
def HandledAlone (HttpCallback : HttpServeFunc) (disk : MappedFiles → Prop) :
    Handling → Handling → Prop :=
  Relation.ReflTransGen (Alone HttpCallback disk)

namespace HttpServer

/-- The worker that runs a handler moves. -/
theorem Quiet.move {i : Fin W} {conn : ConnPtr} {x y : Handling} {s : HttpServer W}
    (hs : Quiet (ThreadPool.running i ⟨conn, x.pc⟩) conn x.traffic x.mEpoll s)
    (h : Alone HttpCallback disk x y) :
    ∃ s', (system W HttpCallback disk mListenFd).Leads s s' ∧
      Quiet (ThreadPool.running i ⟨conn, y.pc⟩) conn y.traffic y.mEpoll s' := by
  obtain ⟨server, hstep, halive⟩ := h.work.step hs.mAlive
  obtain ⟨hloop, hevents, hpool⟩ := hstep.frame
  have hrun : s.mServer.mThreadpool.workers i = .running ⟨conn, x.pc⟩ := by
    rw [hs.mThreadpool]
    exact ThreadPool.running_self i _
  have hwork : Work HttpCallback disk x.pc (s.traffic conn) y.pc y.traffic := by
    rw [hs.traffic]
    exact h.work
  refine ⟨_, .single (.handler hrun hstep hwork halive), hloop.trans hs.loop, hevents.trans hs.events,
    ?_, Function.update_self .., halive, ?_, fun hne => ?_⟩
  · change server.mThreadpool.setWorker i _ = _
    rw [hpool, hs.mThreadpool, ThreadPool.running_setWorker]
  · change server.mEpoll conn.mConnfd = _
    rw [h.mEpoll, ← hs.mEpoll]
    exact handler_rearm hstep
  · have hreg : x.mEpoll ≠ .absent := by
      intro habsent
      rw [h.mEpoll, habsent, rearm_absent] at hne
      exact hne rfl
    rcases hstep.connMap conn.mConnfd with hsame | ⟨b, hpc, -, -⟩
    · exact hsame.trans (hs.mapped hreg)
    · exact absurd (h.unregistered b hpc) hreg

/-- The worker moves on for as long as nobody disturbs it. -/
theorem Quiet.moves {i : Fin W} {conn : ConnPtr} {x y : Handling} {s : HttpServer W}
    (hs : Quiet (ThreadPool.running i ⟨conn, x.pc⟩) conn x.traffic x.mEpoll s)
    (h : HandledAlone HttpCallback disk x y) :
    ∃ s', (system W HttpCallback disk mListenFd).Leads s s' ∧
      Quiet (ThreadPool.running i ⟨conn, y.pc⟩) conn y.traffic y.mEpoll s' := by
  induction h with
  | refl => exact ⟨s, .refl s, hs⟩
  | tail _ hmove ih =>
    obtain ⟨s₁, hleads, hs₁⟩ := ih
    obtain ⟨s₂, hnext, hs₂⟩ := hs₁.move hmove
    exact ⟨s₂, hleads.trans hnext, hs₂⟩

/-- Its handler returns. -/
theorem Quiet.finish {i : Fin W} {conn : ConnPtr} {d : Traffic} {reg : Registration} {s : HttpServer W}
    (hs : Quiet (ThreadPool.running i ⟨conn, .returned⟩) conn d reg s) :
    ∃ s', (system W HttpCallback disk mListenFd).Leads s s' ∧
      Quiet (ThreadPool.started fun _ => []) conn d reg s' := by
  have hfinish : ThreadPool.Step (2 * W) s.mServer.mThreadpool (.finish i)
      (ThreadPool.started fun _ => []) := by
    rw [hs.mThreadpool]
    exact ThreadPool.running_finish (2 * W) i _
  have hreturned : ∀ j t, (.finish i : ThreadPool.Label Task W 1) = .finish j →
      s.mServer.mThreadpool.workers j = .running t → t.pc = .returned := by
    intro j t hj hrun
    cases hj
    rw [hs.mThreadpool, ThreadPool.running_self] at hrun
    cases hrun
    rfl
  exact ⟨_, .single (.pool (.pool hfinish nofun hreturned)), hs.loop, hs.events, rfl, hs.traffic,
    hs.mAlive, hs.mEpoll, hs.mapped⟩

end HttpServer

section Handlers

variable {d : Traffic} {reg : Registration}

/-- A move that has nothing to do with epoll and the map. -/
theorem Alone.of_work {pc pc' : HandlerAt} {d' : Traffic} (h : Work HttpCallback disk pc d pc' d')
    (hpc : localTo pc = true) : Alone HttpCallback disk ⟨pc, d, reg⟩ ⟨pc', d', reg⟩ := by
  refine ⟨h, ?_, fun b herase => ?_⟩
  · cases pc with
    | enableConnRead | enableConnWrite | closeDel | closeErase => cases hpc
    | _ => rfl
  · dsimp only at herase
    rw [herase] at hpc
    cases hpc

/-- `CloseConn` takes the connection out of epoll and out of the map. -/
theorem closes_alone (b : Bool) (reg : Registration) :
    HandledAlone HttpCallback disk ⟨.closeDel b, d, reg⟩ ⟨afterClose b, d, .absent⟩ := by
  have hdel : Alone HttpCallback disk ⟨.closeDel b, d, reg⟩ ⟨.closeErase b, d, .absent⟩ :=
    ⟨.closeDel, rfl, nofun⟩
  have herase : Alone HttpCallback disk ⟨.closeErase b, d, .absent⟩ ⟨afterClose b, d, .absent⟩ :=
    ⟨.closeErase, rfl, fun _ _ => rfl⟩
  exact (Relation.ReflTransGen.single hdel).tail herase

/-- `enableConnRead` and `enableConnWrite` end a handler. -/
theorem enableConnRead_alone (reg : Registration) : HandledAlone HttpCallback disk
    ⟨.enableConnRead, d, reg⟩ ⟨.returned, d, if reg = .absent then .absent else .armed .EPOLLIN⟩ :=
  .single ⟨.enableConnRead, rfl, nofun⟩

theorem enableConnWrite_alone (reg : Registration) : HandledAlone HttpCallback disk
    ⟨.enableConnWrite, d, reg⟩ ⟨.returned, d, if reg = .absent then .absent else .armed .EPOLLOUT⟩ :=
  .single ⟨.enableConnWrite, rfl, nofun⟩

/-- `readCb` in one call is `readCb` in moves. -/
theorem readCb_alone {table : MappedFiles} (hdisk : disk table) {t : HttpConnection}
    (h : ReadCb HttpCallback table.files ⟨d.conn, d.mContext, .disarmed⟩ t) :
    ∃ d', HandledAlone HttpCallback disk ⟨.readCb, d, .disarmed⟩ ⟨.returned, d', t.mEpoll⟩ ∧
      d'.conn = t.conn ∧ d'.mContext = t.mContext ∧ d'.received = d.received ∧ d'.sent = d.sent := by
  cases h with
  | @waiting code req b hread hbad hget =>
    have hparse : Alone HttpCallback disk ⟨.readCb, d, .disarmed⟩
        ⟨afterProcessRead code, d.parsed req b, .disarmed⟩ := .of_work (.processRead hread) rfl
    refine ⟨d.parsed req b, .head hparse ?_, ?_, ?_, rfl, rfl⟩
    · cases code with
      | BAD_REQUEST => exact absurd rfl hbad
      | GET_REQUEST => exact absurd rfl hget
      | NO_REQUEST => exact enableConnRead_alone .disarmed
      | _ => exact enableConnWrite_alone .disarmed
    · rw [epollMod_conn]
      rfl
    · rw [epollMod_mContext]
      rfl
  | @rejected req b wb hread happend =>
    have hparse : Alone HttpCallback disk ⟨.readCb, d, .disarmed⟩
        ⟨.badRequest, d.parsed req b, .disarmed⟩ :=
      .of_work (.processRead hread) rfl
    have hreject : Alone HttpCallback disk ⟨.badRequest, d.parsed req b, .disarmed⟩
        ⟨.enableConnWrite, _, .disarmed⟩ := .of_work (.badRequest rfl happend) rfl
    refine ⟨_, .head hparse (.head hreject (enableConnWrite_alone .disarmed)), ?_, ?_, rfl, rfl⟩
    · rw [enableConnWrite, epollMod_conn]
      rfl
    · rw [enableConnWrite, epollMod_mContext]
      rfl
  | @answered req b wb resp iv hread hresp happend hiv =>
    have hparse : Alone HttpCallback disk ⟨.readCb, d, .disarmed⟩
        ⟨.getRequest, d.parsed req b, .disarmed⟩ :=
      .of_work (.processRead hread) rfl
    have hsame : iv = (if resp.hasFile then setFile (d.parsed req b).conn resp.mFile
        else (d.parsed req b).conn).m_iv1 := by
      rw [hiv]
      split <;> rfl
    have hanswer : Alone HttpCallback disk ⟨.getRequest, d.parsed req b, .disarmed⟩
        ⟨.enableConnWrite, _, .disarmed⟩ :=
      .of_work (.getRequest hdisk hresp happend hsame) rfl
    refine ⟨_, .head hparse (.head hanswer (enableConnWrite_alone .disarmed)), ?_, ?_, rfl, rfl⟩
    · rw [enableConnWrite, epollMod_conn]
      rfl
    · rw [enableConnWrite, epollMod_mContext]
      rfl

/-- `handleRead` in one call is `handleRead` in moves. -/
theorem handleRead_alone {table : MappedFiles} (hdisk : disk table) {rs rest : List RecvResult}
    {ret : Option ℤ} {b : FixedBuffer} {got : List UInt8} {t : HttpConnection}
    (hrecv : d.conn.mReadBuffer.readFd rs = .ok ((ret, rest), b))
    (hgot : b.unread = d.conn.mReadBuffer.unread ++ got)
    (hcall : HttpConnection.handleRead HttpCallback table.files rs ⟨d.conn, d.mContext, .disarmed⟩ =
      .ok (some t)) :
    ∃ d', HandledAlone HttpCallback disk ⟨.handleRead, d, .disarmed⟩ ⟨.returned, d', t.mEpoll⟩ ∧
      d'.conn = t.conn ∧ d'.mContext = t.mContext ∧ d'.received = d.received ++ got ∧
        d'.sent = d.sent := by
  rw [HttpConnection.handleRead, hrecv, ok_bind] at hcall
  cases ret with
  | none => cases hcall
  | some ret =>
    have hfirst : Alone HttpCallback disk ⟨.handleRead, d, .disarmed⟩
        ⟨afterRecv ret, d.receive b got, .disarmed⟩ := .of_work (.recv hrecv hgot) rfl
    dsimp only at hcall
    unfold afterRecv at hfirst
    by_cases hret : ret ≤ 0
    · rw [if_pos hret] at hcall hfirst
      cases hcall
      exact ⟨_, .head hfirst (closes_alone false .disarmed), rfl, rfl, rfl, rfl⟩
    · rw [if_neg hret] at hcall hfirst
      have hlog : Alone HttpCallback disk ⟨.logRead, d.receive b got, .disarmed⟩
          ⟨.readCb, d.receive b got, .disarmed⟩ := .of_work .log rfl
      cases hread : readCb HttpCallback table.files
          ⟨{ d.conn with mReadBuffer := b }, d.mContext, .disarmed⟩ with
      | error e =>
        rw [hread] at hcall
        cases hcall
      | ok t' =>
        rw [hread] at hcall
        cases hcall
        obtain ⟨d', hrun, hframe⟩ := readCb_alone (d := d.receive b got) hdisk (readCb_eq_ok.mp hread)
        exact ⟨d', .head hfirst (.head hlog hrun), hframe⟩

/-- `handleWrite` in one call is `handleWrite` in moves. -/
theorem handleWrite_alone {rs rest : List WritevResult} {ret : Option ℤ} {out : List UInt8}
    {conn : Connection} {t : HttpConnection} (hrs : Outcomes d.conn rs)
    (hsend : d.conn.send rs = .ok ((ret, out, rest), conn))
    (hcall : HttpConnection.handleWrite rs ⟨d.conn, d.mContext, .disarmed⟩ = .ok (some t)) :
    HandledAlone HttpCallback disk ⟨.handleWrite, d, .disarmed⟩
      ⟨.returned, { d with conn := conn, sent := d.sent ++ out }, t.mEpoll⟩ ∧
      conn = t.conn ∧ d.mContext = t.mContext := by
  cases ret with
  | none =>
    rw [HttpConnection.handleWrite, hsend] at hcall
    cases hcall
  | some ret =>
    obtain ⟨t', ht', hconn, hcontext, hcase⟩ :=
      handleWrite_afterSend (s := ⟨d.conn, d.mContext, .disarmed⟩) rfl hsend
    rw [hcall] at ht'
    cases ht'
    refine ⟨?_, hconn.symm, hcontext.symm⟩
    have hfirst : Alone HttpCallback disk ⟨.handleWrite, d, .disarmed⟩
        ⟨afterSend ret, { d with conn := conn, sent := d.sent ++ out }, .disarmed⟩ :=
      .of_work (.send hrs hsend) rfl
    rcases hcase with ⟨hpc, hreg⟩ | ⟨hpc, hreg⟩ | ⟨hpc, hreg⟩ | ⟨hpc, hreg⟩
    · rw [hpc] at hfirst
      rw [hreg]
      exact .head hfirst (closes_alone false .disarmed)
    · rw [hpc] at hfirst
      rw [hreg]
      exact .head hfirst (enableConnWrite_alone .disarmed)
    · rw [hpc] at hfirst
      have hnext : Alone HttpCallback disk
          ⟨.writeCb, { d with conn := conn, sent := d.sent ++ out }, .disarmed⟩ ⟨_, _, .disarmed⟩ :=
        .of_work .writeCb rfl
      refine .head hfirst (.head hnext ?_)
      rw [hreg]
      dsimp only
      cases conn.mAlive with
      | true => exact enableConnRead_alone .disarmed
      | false => exact (closes_alone true .disarmed).trans (enableConnRead_alone .absent)
    · rw [hpc] at hfirst
      rw [hreg]
      exact .single hfirst

end Handlers

namespace HttpServer

/-- A worker takes an event of an idle server through the whole handler. -/
theorem Quiet.handle (hW : 0 < W) {conn : ConnPtr} {d d' : Traffic} {armed : Interest}
    {reg : Registration} {s : HttpServer W} (hs : Quiet (ThreadPool.started fun _ => []) conn d (.armed armed) s)
    {events : Events} {pc : HandlerAt} (hasked : Asked armed events)
    (hreact : react mListenFd ⟨conn.mConnfd, events⟩ = .addTask pc)
    (hrun : HandledAlone HttpCallback disk ⟨pc, d, .disarmed⟩ ⟨.returned, d', reg⟩) :
    ∃ s', (system W HttpCallback disk mListenFd).Leads s s' ∧
      Quiet (ThreadPool.started fun _ => []) conn d' reg s' := by
  obtain ⟨s₁, hdispatch, hs₁⟩ := hs.dispatch hW ⟨0, hW⟩ hasked hreact
  obtain ⟨s₂, hmoves, hs₂⟩ := Quiet.moves (x := ⟨pc, d, .disarmed⟩) hs₁ hrun
  obtain ⟨s₃, hfinish, hs₃⟩ := hs₂.finish
  exact ⟨s₃, (hdispatch.trans hmoves).trans hfinish, hs₃⟩

/-- `handleRead` is carried out on what an armed connection receives. -/
theorem Quiet.reads (hW : 0 < W) {conn : ConnPtr} (hlisten : conn.mConnfd ≠ mListenFd) {d : Traffic}
    {s : HttpServer W} (hs : Quiet (ThreadPool.started fun _ => []) conn d (.armed .EPOLLIN) s)
    {table : MappedFiles} (hdisk : disk table) {rs rest : List RecvResult} {ret : Option ℤ}
    {b : FixedBuffer} {got : List UInt8} {t : HttpConnection}
    (hrecv : d.conn.mReadBuffer.readFd rs = .ok ((ret, rest), b))
    (hgot : b.unread = d.conn.mReadBuffer.unread ++ got)
    (hcall : HttpConnection.handleRead HttpCallback table.files rs ⟨d.conn, d.mContext, .disarmed⟩ =
      .ok (some t)) :
    ∃ s', (system W HttpCallback disk mListenFd).Leads s s' ∧
      Quiet (ThreadPool.started fun _ => []) conn ⟨t.conn, t.mContext, d.received ++ got, d.sent⟩
        t.mEpoll s' := by
  obtain ⟨d', hrun, hconn, hcontext, hreceived, hsent⟩ := handleRead_alone hdisk hrecv hgot hcall
  rw [← hconn, ← hcontext, ← hreceived, ← hsent]
  exact hs.handle hW asked_readable (react_readable hlisten) hrun

/-- `handleWrite` is carried out on what an armed connection has to send. -/
theorem Quiet.writes (hW : 0 < W) {conn : ConnPtr} (hlisten : conn.mConnfd ≠ mListenFd) {d : Traffic}
    {s : HttpServer W} (hs : Quiet (ThreadPool.started fun _ => []) conn d (.armed .EPOLLOUT) s)
    {rs rest : List WritevResult} {ret : Option ℤ} {out : List UInt8} {conn' : Connection}
    {t : HttpConnection} (hrs : Outcomes d.conn rs)
    (hsend : d.conn.send rs = .ok ((ret, out, rest), conn'))
    (hcall : HttpConnection.handleWrite rs ⟨d.conn, d.mContext, .disarmed⟩ = .ok (some t)) :
    ∃ s', (system W HttpCallback disk mListenFd).Leads s s' ∧
      Quiet (ThreadPool.started fun _ => []) conn ⟨t.conn, t.mContext, d.received, d.sent ++ out⟩
        t.mEpoll s' := by
  obtain ⟨hrun, hconn, hcontext⟩ := handleWrite_alone hrs hsend hcall
  rw [← hconn, ← hcontext]
  exact hs.handle hW asked_writable (react_writable hlisten) hrun

/-- A buffer behind its constructor. -/
def Created (b : FixedBuffer) : Prop :=
  ∃ (raw : List UInt8) (hraw : raw.length = kBufferSize), b = .create raw hraw

/-- It is empty. -/
theorem Created.empty {b : FixedBuffer} (h : Created b) : b.Valid ∧ b.unread = [] := by
  obtain ⟨raw, hraw, rfl⟩ := h
  exact ⟨(create_holds raw hraw).valid, (create_holds raw hraw).unread_eq⟩

/-- The first connection is accepted and armed, and the loop waits again. -/
theorem leads_accepted {connfd : ℤ} (hconnfd : 0 ≤ connfd) (hne : connfd ≠ mListenFd)
    {raw raw' : List UInt8} (hraw : raw.length = kBufferSize) (hraw' : raw'.length = kBufferSize) :
    (system W HttpCallback disk mListenFd).Leads (new W) ⟨(Server.new W).accepted connfd,
      Function.update (new W).traffic ⟨0, connfd⟩
        (.accept (.create raw hraw) (.create raw' hraw'))⟩ := by
  let ev : EpollEvent := ⟨mListenFd, ⟨true, false, false, false, false⟩⟩
  have hroom : ([] : List EpollEvent).length < MAX_EVENT_NUM := by decide
  have hreact : react mListenFd ev = .accept := if_pos rfl
  have hdeliver : Step HttpCallback disk mListenFd (new W) (.deliver ev) _ :=
    .deliver (.deliverListen rfl hroom rfl) nofun
  have hwakeup := (System.Leads.single (M := system W HttpCallback disk mListenFd) hdeliver).tail
    (.loop (.wakeup rfl))
  have haccept := hwakeup.tail (.accept raw raw' hraw hraw'
    (.accept rfl rfl hreact (.inr (Server.new_unused hconnfd hne))) hreact rfl)
  exact haccept.trans (leads_eventless
    (@Server.leads_armed W mListenFd _ ⟨0, connfd⟩ rfl rfl hconnfd rfl))

/-- A connection is accepted, armed and left alone. -/
theorem accepts_quiet (W : ℕ) (HttpCallback : HttpServeFunc) (disk : MappedFiles → Prop) (mListenFd : ℤ)
    {rb wb : FixedBuffer} (hrb : Created rb) (hwb : Created wb) :
    ∃ (s : HttpServer W) (conn : ConnPtr), (system W HttpCallback disk mListenFd).Reachable s ∧
      conn.mConnfd ≠ mListenFd ∧
      Quiet (ThreadPool.started fun _ => []) conn (.accept rb wb) (.armed .EPOLLIN) s := by
  obtain ⟨raw, hraw, rfl⟩ := hrb
  obtain ⟨raw', hraw', rfl⟩ := hwb
  have hpos : 0 ≤ (mListenFd.natAbs : ℤ) + 1 := by omega
  have hne : (mListenFd.natAbs : ℤ) + 1 ≠ mListenFd := by omega
  refine ⟨_, ⟨0, _⟩, ⟨_, rfl, leads_accepted hpos hne hraw hraw'⟩, hne, rfl, rfl, rfl, ?_, ?_, ?_, ?_⟩
  · exact Function.update_self ..
  · exact Function.update_self ..
  · exact Function.update_self ..
  · exact fun _ => Function.update_self ..

/-- The first event of a new connection, and the first time it writes. -/
theorem reads_and_writes (mListenFd : ℤ) {table : MappedFiles} (hdisk : disk table)
    {rs rest : List RecvResult} {ret ret' : Option ℤ} {b : FixedBuffer} {ws rest' : List WritevResult}
    {out : List UInt8} {conn' : Connection} {t u : HttpConnection}
    (hrecv : FixedBuffer.blank.readFd rs = .ok ((ret, rest), b))
    (hread : HttpConnection.handleRead HttpCallback table.files rs
      { HttpConnection.accept FixedBuffer.blank FixedBuffer.blank with mEpoll := .disarmed } = .ok (some t))
    (harmed : t.mEpoll = .armed .EPOLLOUT) (hws : Outcomes t.conn ws)
    (hsend : t.conn.send ws = .ok ((ret', out, rest'), conn'))
    (hwrite : HttpConnection.handleWrite ws { t with mEpoll := .disarmed } = .ok (some u)) :
    ∃ (s : HttpServer 1) (conn : ConnPtr), (system 1 HttpCallback disk mListenFd).Reachable s ∧
      conn.mConnfd ≠ mListenFd ∧ Quiet (ThreadPool.started fun _ => []) conn
        ⟨u.conn, u.mContext, b.unread, out⟩ u.mEpoll s := by
  have hcreated : Created FixedBuffer.blank := ⟨_, length_zeros, rfl⟩
  have hgot : b.unread = FixedBuffer.blank.unread ++ b.unread := by
    rw [hcreated.empty.2, List.nil_append]
  obtain ⟨s₀, conn, hreach, hne, hs₀⟩ := accepts_quiet 1 HttpCallback disk mListenFd hcreated hcreated
  obtain ⟨s₁, hreads, hs₁⟩ := hs₀.reads Nat.one_pos hne hdisk hrecv hgot hread
  rw [harmed] at hs₁
  obtain ⟨s₂, hwrites, hs₂⟩ := hs₁.writes Nat.one_pos hne hws hsend hwrite
  exact ⟨s₂, conn, (hreach.leads hreads).leads hwrites, hne, hs₂⟩

/-- The example server takes a request and sends its greeting. Then all threads
are idle, and the connection is armed for the next request. -/
theorem answers_keepAliveGet (hdisk : disk noFiles) : ∃ (s : HttpServer 1) (conn : ConnPtr) (d : Traffic),
    (system 1 ServerHttp disk 3).Reachable s ∧ conn.mConnfd ≠ 3 ∧
      Quiet (ThreadPool.started fun _ => []) conn d (.armed .EPOLLIN) s ∧
        d.received = keepAliveGet ∧ d.sent.length = 62 := by
  let rs : List RecvResult := [.bytes keepAliveGet, .again]
  let ws : List WritevResult := [.count 62, .again]
  let s₀ := HttpConnection.accept FixedBuffer.blank FixedBuffer.blank
  have hrun : (do
      let received ← FixedBuffer.blank.readFd rs
      let t ← HttpConnection.handleRead ServerHttp noFiles.files rs { s₀ with mEpoll := .disarmed }
      let bytes ← (t.getD s₀).conn.offered
      let written ← (t.getD s₀).conn.send ws
      let u ← HttpConnection.handleWrite ws { t.getD s₀ with mEpoll := .disarmed }
      return (received.2.unread, bytes.length, written.1.2.1.length, t.map fun t => t.mEpoll,
        u.map fun u => u.mEpoll)) =
        Except.ok (ε := Fault) (keepAliveGet, 62, 62, some (.armed .EPOLLOUT), some (.armed .EPOLLIN)) := by
    decide +kernel
  obtain ⟨⟨⟨ret, rest⟩, b⟩, hrecv, hrun⟩ := bind_eq_ok hrun
  obtain ⟨t, hread, hrun⟩ := bind_eq_ok hrun
  obtain ⟨bytes, hoffered, hrun⟩ := bind_eq_ok hrun
  obtain ⟨⟨⟨ret', out, rest'⟩, conn'⟩, hsend, hrun⟩ := bind_eq_ok hrun
  obtain ⟨u, hwrite, hrun⟩ := bind_eq_ok hrun
  simp only [pure, Except.pure, Except.ok.injEq, Prod.mk.injEq, Option.map_eq_some_iff] at hrun
  obtain ⟨hgot, hbytes, hout, ⟨t, rfl, harmed⟩, u, rfl, hidle⟩ := hrun
  have hscript : Outcomes t.conn ws :=
    ⟨⟨bytes, hoffered, by decide, by omega, by decide⟩, fun _ _ _ _ => ⟨trivial, fun _ _ _ _ => trivial⟩⟩
  obtain ⟨s, conn, hreach, hne, hs⟩ := reads_and_writes 3 hdisk hrecv hread harmed hscript hsend hwrite
  rw [hidle] at hs
  exact ⟨s, conn, _, hreach, hne, hs, hgot, hout⟩

/-- So a server can be armed for reading with traffic behind it. -/
theorem armed_keepAliveGet (hdisk : disk noFiles) : ∃ (s : HttpServer 1) (conn : ConnPtr),
    (system 1 ServerHttp disk 3).Reachable s ∧ s.mServer.HeldBy 3 conn (.epoll .EPOLLIN) ∧
      (s.traffic conn).received = keepAliveGet ∧ (s.traffic conn).sent.length = 62 := by
  obtain ⟨s, conn, d, hreach, -, hs, hreceived, hsent⟩ := answers_keepAliveGet hdisk
  refine ⟨s, conn, hreach, ⟨hs.mEpoll, hs.mapped Registration.noConfusion⟩, ?_, ?_⟩
  · rw [hs.traffic, hreceived]
  · rw [hs.traffic, hsent]

end HttpServer

end KyrosWebServer.Http
