import KyrosWebServer.HttpConversation
import KyrosWebServer.ServerHolders

/-!
# The HTTP server and what its connections hold

The transition system of the server together with the contents of its
connections: buffers, request and response, the attached file, and all bytes
that the sockets have carried. A move of a handler does to its connection what
the source does at that place; the files may be others at every call of the
user's callback. The kernel reports of a connection only events that were asked
for, hangups and errors.
-/

namespace KyrosWebServer.Http

open CMemory Base Net TransitionSystem

/-- What a connection holds, and what has gone over its socket. -/
structure Traffic where
  /-- The connection. -/
  conn : Connection
  /-- Its context. -/
  mContext : HttpContext
  /-- All bytes that `recv` has returned. -/
  received : List UInt8
  /-- All bytes that `writev` has taken. -/
  sent : List UInt8

namespace Traffic

/-- Behind the constructor. The context is set by `connectedCb`, and nobody
looks at it before. -/
def accept (rb wb : FixedBuffer) : Traffic :=
  ⟨Connection.create rb wb, ⟨HttpRequest.fresh, HttpResponse.create⟩, [], []⟩

/-- What `recv` has put into the receive buffer. -/
def receive (d : Traffic) (b : FixedBuffer) (got : List UInt8) : Traffic :=
  { d with conn := { d.conn with mReadBuffer := b }, received := d.received ++ got }

/-- What `processRead` leaves of the request and the receive buffer. -/
def parsed (d : Traffic) (req : HttpRequest) (b : FixedBuffer) : Traffic :=
  { d with conn := { d.conn with mReadBuffer := b }, mContext := ⟨req, d.mContext.Response⟩ }

end Traffic

/-- What a move of a handler does to its connection. `disk` says which files
there may be. Where the source does something undefined, there is no move. -/
inductive Work (HttpCallback : HttpServeFunc) (disk : MappedFiles → Prop) :
    HandlerAt → Traffic → HandlerAt → Traffic → Prop
  | recv {d : Traffic} {rs rest : List RecvResult} {ret : ℤ} {b : FixedBuffer} {got : List UInt8}
      (hrecv : d.conn.mReadBuffer.readFd rs = .ok ((some ret, rest), b))
      (hgot : b.unread = d.conn.mReadBuffer.unread ++ got) :
      Work HttpCallback disk .handleRead d (afterRecv ret) (d.receive b got)
  | log {d : Traffic} : Work HttpCallback disk .logRead d .readCb d
  | processRead {d : Traffic} {code : HTTP_CODE} {req : HttpRequest} {b : FixedBuffer}
      (hread : processRead d.mContext.Request d.conn.mReadBuffer = .ok (code, req, b)) :
      Work HttpCallback disk .readCb d (afterProcessRead code) (d.parsed req b)
  | badRequest {d : Traffic} {resp : HttpResponse} {wb : FixedBuffer}
      (hresp : resp = d.mContext.Response.setStatusCode CLIENT_ERROR_BAD_REQUEST)
      (happend : resp.appendToBuffer d.conn.mWriteBuffer = .ok wb) :
      Work HttpCallback disk .badRequest d .enableConnWrite
        { d with conn := { d.conn with mAlive := false, mWriteBuffer := wb }
                 mContext := ⟨d.mContext.Request, resp⟩ }
  | getRequest {d : Traffic} {table : MappedFiles} {resp : HttpResponse} {wb : FixedBuffer} {iv : Iovec}
      (hdisk : disk table) (hresp : resp = HttpCallback table.files d.mContext.Request
        (d.mContext.Response.setStatusCode SUCCESS_OK))
      (happend : resp.appendToBuffer d.conn.mWriteBuffer = .ok wb)
      (hiv : iv = (if resp.hasFile then setFile d.conn resp.mFile else d.conn).m_iv1) :
      Work HttpCallback disk .getRequest d .enableConnWrite
        { d with conn := { d.conn with mAlive := resp.isAlive && d.mContext.Request.isAlive
                                       mWriteBuffer := wb, m_iv1 := iv }
                 mContext := ⟨d.mContext.Request.Init, resp⟩ }
  | send {d : Traffic} {rs rest : List WritevResult} {ret : ℤ} {out : List UInt8} {conn : Connection}
      (hrs : Outcomes d.conn rs) (hsend : d.conn.send rs = .ok ((some ret, out, rest), conn)) :
      Work HttpCallback disk .handleWrite d (afterSend ret)
        { d with conn := conn, sent := d.sent ++ out }
  | writeCb {d : Traffic} :
      Work HttpCallback disk .writeCb d (if d.conn.mAlive then .enableConnRead else .closeDel true) d
  | enableConnRead {d : Traffic} : Work HttpCallback disk .enableConnRead d .returned d
  | enableConnWrite {d : Traffic} : Work HttpCallback disk .enableConnWrite d .returned d
  | closeDel {d : Traffic} {b : Bool} : Work HttpCallback disk (.closeDel b) d (.closeErase b) d
  | closeErase {d : Traffic} {b : Bool} : Work HttpCallback disk (.closeErase b) d (afterClose b) d

/-- Arming a descriptor leaves the flags alone. -/
theorem epollMod_mAlive {W : ℕ} (s : Server W) (fd : ℤ) (ev : Interest) :
    (s.epollMod fd ev).mAlive = s.mAlive := by
  unfold Server.epollMod
  split <;> rfl

/-- The threads let a handler do what its connection calls for. -/
theorem Work.step {HttpCallback : HttpServeFunc} {disk : MappedFiles → Prop} {W : ℕ} {conn : ConnPtr}
    {s : Server W} {pc pc' : HandlerAt} {d d' : Traffic} (h : Work HttpCallback disk pc d pc' d')
    (halive : s.mAlive conn = d.conn.mAlive) :
    ∃ server, Server.HandlerStep conn pc s pc' server ∧ server.mAlive conn = d'.conn.mAlive := by
  cases h with
  | recv hrecv hgot => exact ⟨s, .recv _, halive⟩
  | log => exact ⟨s, .log, halive⟩
  | processRead hread => exact ⟨s, .processRead _, halive⟩
  | badRequest hresp happend => exact ⟨_, .badRequest, Function.update_self ..⟩
  | getRequest hdisk hresp happend hiv => exact ⟨_, .getRequest _, Function.update_self ..⟩
  | send hrs hsend => exact ⟨s, .send _, halive.trans (Connection.send_frame hsend).2.1.symm⟩
  | writeCb =>
    refine ⟨s, ?_, halive⟩
    rw [← halive]
    exact .writeCb
  | enableConnRead => exact ⟨_, .enableConnRead, by rw [epollMod_mAlive]; exact halive⟩
  | enableConnWrite => exact ⟨_, .enableConnWrite, by rw [epollMod_mAlive]; exact halive⟩
  | closeDel => exact ⟨_, .closeDel, halive⟩
  | closeErase => exact ⟨_, .closeErase, halive⟩

/-- What `epoll_wait` may report of a connection that is armed: some of the
events asked for, a hangup or an error. -/
structure Asked (armed : Interest) (events : Events) : Prop where
  /-- Input only if it was asked for. -/
  input : events.EPOLLIN = true → armed = .EPOLLIN
  /-- Room for output only if it was asked for. -/
  output : events.EPOLLOUT = true → armed = .EPOLLOUT
  /-- Some event, at any rate. -/
  some_event : (events.EPOLLIN || events.EPOLLOUT || events.EPOLLRDHUP || events.EPOLLHUP ||
    events.EPOLLERR) = true

/-- The server with the contents of its connections. -/
structure HttpServer (W : ℕ) where
  /-- Threads, events, registrations and the map of connections. -/
  mServer : Server W
  /-- What each connection holds. -/
  traffic : ConnPtr → Traffic

namespace HttpServer

variable {W : ℕ} {HttpCallback : HttpServeFunc} {disk : MappedFiles → Prop} {mListenFd : ℤ}

/-- Nothing has been accepted. -/
def new (W : ℕ) : HttpServer W :=
  ⟨Server.new W, fun _ => .accept FixedBuffer.blank FixedBuffer.blank⟩

/-- One move of the kernel, the loop or a worker. -/
inductive Step (HttpCallback : HttpServeFunc) (disk : MappedFiles → Prop) (mListenFd : ℤ) :
    HttpServer W → Server.Label W → HttpServer W → Prop
  | deliver {s : HttpServer W} {ev : EpollEvent} {server : Server W}
      (hstep : Server.Step mListenFd s.mServer (.deliver ev) server)
      (hasked : ∀ armed, s.mServer.mEpoll ev.fd = .armed armed → Asked armed ev.events) :
      Step HttpCallback disk mListenFd s (.deliver ev) { s with mServer := server }
  /-- `new Connection`, with whatever the storage of its buffers holds. -/
  | accept {s : HttpServer W} {ev : EpollEvent} {server : Server W} {conn : ConnPtr}
      (raw raw' : List UInt8) (hraw : raw.length = kBufferSize) (hraw' : raw'.length = kBufferSize)
      (hstep : Server.Step mListenFd s.mServer (.event ev) server)
      (hreact : react mListenFd ev = .accept) (hloop : server.loop = .inserting conn) :
      Step HttpCallback disk mListenFd s (.event ev)
        ⟨server, Function.update s.traffic conn (.accept (.create raw hraw) (.create raw' hraw'))⟩
  | event {s : HttpServer W} {ev : EpollEvent} {server : Server W}
      (hstep : Server.Step mListenFd s.mServer (.event ev) server)
      (hreact : react mListenFd ev ≠ .accept) :
      Step HttpCallback disk mListenFd s (.event ev) { s with mServer := server }
  | loop {s : HttpServer W} {server : Server W}
      (hstep : Server.Step mListenFd s.mServer .loop server) :
      Step HttpCallback disk mListenFd s .loop { s with mServer := server }
  | pool {s : HttpServer W} {a : ThreadPool.Label Task W 1} {server : Server W}
      (hstep : Server.Step mListenFd s.mServer (.pool a) server) :
      Step HttpCallback disk mListenFd s (.pool a) { s with mServer := server }
  /-- A handler moves and works on its connection; both see the same flag. -/
  | handler {s : HttpServer W} {server : Server W} {i : Fin W} {t : Task} {pc : HandlerAt}
      {d : Traffic} (hrun : s.mServer.mThreadpool.workers i = .running t)
      (hstep : Server.HandlerStep t.conn t.pc s.mServer pc server)
      (hwork : Work HttpCallback disk t.pc (s.traffic t.conn) pc d)
      (halive : server.mAlive t.conn = d.conn.mAlive) :
      Step HttpCallback disk mListenFd s (.handler i t.conn pc)
        ⟨server.setTask i ⟨t.conn, pc⟩, Function.update s.traffic t.conn d⟩

/-- All runs of the HTTP server. -/
def system (W : ℕ) (HttpCallback : HttpServeFunc) (disk : MappedFiles → Prop) (mListenFd : ℤ) :
    System (HttpServer W) (Server.Label W) where
  start s := s = new W
  step := Step HttpCallback disk mListenFd

/-- Every move is one of the server without contents. -/
theorem Step.server {s s' : HttpServer W} {a : Server.Label W}
    (h : Step HttpCallback disk mListenFd s a s') : Server.Step mListenFd s.mServer a s'.mServer := by
  cases h with
  | deliver hstep _ => exact hstep
  | accept _ _ _ _ hstep _ _ => exact hstep
  | event hstep _ => exact hstep
  | loop hstep => exact hstep
  | pool hstep => exact hstep
  | handler hrun hstep _ _ => exact .handler hrun hstep

/-- A handler works on its connection. -/
theorem Step.work {s s' : HttpServer W} {i : Fin W} {conn : ConnPtr} {pc : HandlerAt}
    (h : Step HttpCallback disk mListenFd s (.handler i conn pc) s') {t : Task}
    (hrun : s.mServer.mThreadpool.workers i = .running t) :
    conn = t.conn ∧ Work HttpCallback disk t.pc (s.traffic t.conn) pc (s'.traffic t.conn) := by
  cases h with
  | @handler server _ u _ d hrun' hstep hwork halive =>
    obtain rfl : u = t := by
      rw [hrun] at hrun'
      exact (WorkerAt.running.inj hrun').symm
    refine ⟨rfl, ?_⟩
    dsimp only
    rw [Function.update_self]
    exact hwork

/-- The flag that the threads see is the one in the connection. -/
def FlagsAgree (s : HttpServer W) : Prop :=
  ∀ conn, s.mServer.mAlive conn = (s.traffic conn).conn.mAlive

/-- A handler writes no flag but that of its connection. -/
theorem handler_mAlive {s s' : Server W} {conn : ConnPtr} {pc pc' : HandlerAt}
    (h : Server.HandlerStep conn pc s pc' s') {other : ConnPtr} (hne : other ≠ conn) :
    s'.mAlive other = s.mAlive other := by
  cases h with
  | badRequest => exact Function.update_of_ne hne ..
  | getRequest alive => exact Function.update_of_ne hne ..
  | enableConnRead => rw [epollMod_mAlive]
  | enableConnWrite => rw [epollMod_mAlive]
  | _ => rfl

/-- Outside the constructor the loop writes no flag. -/
theorem loop_mAlive {s s' : Server W} {a : Server.Label W} (h : Server.Step mListenFd s a s')
    (haccept : ∀ ev, a = .event ev → react mListenFd ev ≠ .accept) (hhandler : ∀ i c pc, a ≠ .handler i c pc) :
    s'.mAlive = s.mAlive := by
  cases h with
  | accept hloop hev hreact hfd => exact absurd hreact (haccept _ rfl)
  | handler hrun hstep => exact absurd rfl (hhandler _ _ _)
  | @add conn hloop => rw [Server.epollAdd]; split <;> rfl
  | _ => rfl

/-- Every move keeps the flags the same. -/
theorem Step.flagsAgree {s s' : HttpServer W} {a : Server.Label W}
    (h : Step HttpCallback disk mListenFd s a s') (hs : s.FlagsAgree) : s'.FlagsAgree := by
  intro conn
  cases h with
  | deliver hstep _ =>
    rw [loop_mAlive hstep nofun nofun]
    exact hs conn
  | @accept ev server new raw raw' hraw hraw' hstep hreact hloop =>
    obtain ⟨connfd, hinserting, halive⟩ := hstep.accepts hreact
    obtain rfl := LoopAt.inserting.inj (hloop.symm.trans hinserting)
    dsimp only
    rw [halive]
    by_cases hconn : conn = ⟨s.mServer.created, connfd⟩
    · rw [hconn, Function.update_self, Function.update_self]
      rfl
    · rw [Function.update_of_ne hconn, Function.update_of_ne hconn]
      exact hs conn
  | event hstep hreact =>
    rw [loop_mAlive hstep (fun _ hlabel => by cases hlabel; exact hreact) nofun]
    exact hs conn
  | loop hstep =>
    rw [loop_mAlive hstep nofun nofun]
    exact hs conn
  | pool hstep =>
    rw [loop_mAlive hstep nofun nofun]
    exact hs conn
  | @handler server i t pc d hrun hstep hwork halive =>
    change server.mAlive conn = _
    dsimp only
    by_cases hconn : conn = t.conn
    · rw [hconn, Function.update_self]
      exact halive
    · rw [Function.update_of_ne hconn, handler_mAlive hstep hconn]
      exact hs conn

/-- The flags agree in every run. -/
theorem reachable_flagsAgree {s : HttpServer W}
    (h : (system W HttpCallback disk mListenFd).Reachable s) : s.FlagsAgree := by
  refine h.invariant ?_ ?_
  · rintro s rfl conn
    rfl
  · intro s a t hs hstep
    exact Step.flagsAgree hstep hs

/-- So whatever a connection calls for, its handler does it: threads and contents
never wait for each other. -/
theorem exists_handler {s : HttpServer W} (h : (system W HttpCallback disk mListenFd).Reachable s)
    {i : Fin W} {t : Task} (hrun : s.mServer.mThreadpool.workers i = .running t) {pc : HandlerAt}
    {d : Traffic} (hwork : Work HttpCallback disk t.pc (s.traffic t.conn) pc d) :
    ∃ s', Step HttpCallback disk mListenFd s (.handler i t.conn pc) s' ∧ s'.traffic t.conn = d := by
  obtain ⟨server, hstep, halive⟩ := hwork.step (reachable_flagsAgree h t.conn)
  exact ⟨_, .handler hrun hstep hwork halive, Function.update_self ..⟩

end HttpServer

end KyrosWebServer.Http
