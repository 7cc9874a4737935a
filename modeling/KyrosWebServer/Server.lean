import KyrosWebServer.HttpRequest
import KyrosWebServer.ThreadPoolTasks

/-!
# The server

`Server` and `HttpServer` from net/Server and net/HttpServer as a transition
system: the thread in `EventLoop`, the workers of the pool inside their
handlers, the registrations that the kernel keeps, and the map of connections.
One move touches one of the things the threads share; `mapLock` is left out,
since each access to `connMap` is one move. What `recv`, `processRead`, the
user's callback and `send` return is open; their work on the buffers of a
connection is in the models of the connection and of the parser.
-/

namespace KyrosWebServer.Net

open TransitionSystem Base Http

/-- Events that one `epoll_wait` can return. -/
def MAX_EVENT_NUM : ℕ := 10000

/-- A `shared_ptr` to a connection: the identity of the object and its
descriptor, which the object keeps for life. -/
structure ConnPtr where
  /-- Tells the object from every other one. -/
  id : ℕ
  /-- The descriptor, `-1` when `accept` failed. -/
  mConnfd : ℤ
  deriving DecidableEq

/-- The bits of an event mask that the loop tests. -/
structure Events where
  EPOLLIN : Bool
  EPOLLOUT : Bool
  EPOLLRDHUP : Bool
  EPOLLHUP : Bool
  EPOLLERR : Bool
  deriving DecidableEq

/-- An entry of the array that `epoll_wait` fills. -/
structure EpollEvent where
  /-- `data.fd`. -/
  fd : ℤ
  /-- `events`. -/
  events : Events
  deriving DecidableEq

/-- The interest given to `epoll_mod`. -/
inductive Interest
  | EPOLLIN | EPOLLOUT
  deriving DecidableEq

/-- What the kernel keeps for a descriptor registered with `EPOLLONESHOT`. -/
inductive Registration
  /-- Never added, or deleted. -/
  | absent
  /-- Its event has been delivered. -/
  | disarmed
  /-- It may deliver one event. -/
  | armed (ev : Interest)
  deriving DecidableEq

/-- Where a handler stands, with the callbacks of `HttpServer` in it. -/
inductive HandlerAt
  /-- `handleRead`, before `recv`. -/
  | handleRead
  /-- Before the log line that reads `mReadBuffer`. -/
  | logRead
  /-- `readCb`, before `processRead`. -/
  | readCb
  /-- The branch of a bad request, before it fills `mWriteBuffer`. -/
  | badRequest
  /-- The branch of a good request, from the user's callback to `Init`. -/
  | getRequest
  /-- `handleWrite`, before `send`. -/
  | handleWrite
  /-- `WriteCb`, before it reads `mAlive`. -/
  | writeCb
  /-- Before `epoll_mod`. -/
  | enableConnRead
  | enableConnWrite
  /-- `CloseConn`, before the registration is deleted. -/
  | closeDel (inWriteCb : Bool)
  /-- `CloseConn`, before the connection leaves the map. -/
  | closeErase (inWriteCb : Bool)
  /-- Behind the last statement. -/
  | returned
  deriving DecidableEq

/-- Whether the handler has still to access the buffers, the context or the
scatter list of its connection. -/
def HandlerAt.accessAhead : HandlerAt → Bool
  | handleRead | logRead | readCb | badRequest | getRequest | handleWrite => true
  | _ => false

/-- A bound handler and how far it has come. -/
structure Task where
  /-- The connection it is bound to. -/
  conn : ConnPtr
  /-- Where it stands. -/
  pc : HandlerAt
  deriving DecidableEq

/-- Where the thread in `EventLoop` stands. -/
inductive LoopAt
  /-- In `epoll_wait`. -/
  | waiting
  /-- At the head of the loop over the events. -/
  | handling
  /-- With a new connection, before it enters the map. -/
  | inserting (conn : ConnPtr)
  /-- Before `cCallBack`. -/
  | connected (conn : ConnPtr)
  /-- Before `epoll_add`. -/
  | adding (conn : ConnPtr)
  /-- In `setnonblocking`. -/
  | added (conn : ConnPtr)
  /-- In `AddTask`. -/
  | dispatching
  /-- `CloseConn`, before the registration is deleted. -/
  | closeDel (connfd : ℤ)
  /-- `CloseConn`, before the connection leaves the map. -/
  | closeErase (connfd : ℤ)
  /-- `connMap` gave a null pointer, which is dereferenced. -/
  | fault
  deriving DecidableEq

/-- The connection that the loop holds in `conn`. -/
def LoopAt.conn : LoopAt → Option ConnPtr
  | inserting conn | connected conn | adding conn | added conn => some conn
  | _ => none

/-- What the loop does with an event. -/
inductive Reaction
  | accept
  | closeConn
  | addTask (pc : HandlerAt)
  | nothing
  deriving DecidableEq

/-- The tests of `EventLoop`. `handleErr` has an empty body. -/
def react (mListenFd : ℤ) (ev : EpollEvent) : Reaction :=
  if ev.fd = mListenFd then .accept
  else if ev.events.EPOLLRDHUP || ev.events.EPOLLHUP || ev.events.EPOLLERR then .closeConn
  else if ev.events.EPOLLIN then .addTask .handleRead
  else if ev.events.EPOLLOUT then .addTask .handleWrite
  else if ev.events.EPOLLERR then .addTask .returned
  else .nothing

/-- The server and its threads; the loop is the only producer of its pool. -/
structure Server (W : ℕ) where
  /-- The pool. -/
  mThreadpool : ThreadPool Task W 1
  /-- Where `EventLoop` stands. -/
  loop : LoopAt
  /-- Events returned by `epoll_wait` and not yet handled. -/
  epollEvent : List EpollEvent
  /-- The connections by descriptor. -/
  connMap : ℤ → Option ConnPtr
  /-- The registrations behind `mEpollFd`, without that of `mListenFd`. -/
  mEpoll : ℤ → Registration
  /-- The liveness flag of each connection. -/
  mAlive : ConnPtr → Bool
  /-- Connections made so far. -/
  created : ℕ

variable {W : ℕ}

/-- `handleRead` with what `recv` returned. -/
def afterRecv (ret : ℤ) : HandlerAt :=
  if ret ≤ 0 then .closeDel false else .logRead

/-- `readCb` with what `processRead` returned. -/
def afterProcessRead : HTTP_CODE → HandlerAt
  | .NO_REQUEST => .enableConnRead
  | .BAD_REQUEST => .badRequest
  | .GET_REQUEST => .getRequest
  | _ => .enableConnWrite

/-- `handleWrite` with what `send` returned. -/
def afterSend (ret : ℤ) : HandlerAt :=
  if ret = -1 then .closeDel false
  else if ret > 0 then .enableConnWrite
  else if ret = 0 then .writeCb
  else .returned

/-- Where `CloseConn` returns to. -/
def afterClose (inWriteCb : Bool) : HandlerAt :=
  if inWriteCb then .enableConnRead else .returned

namespace Server

/-- `EPOLL_CTL_ADD`: fails for a bad descriptor and for a registered one. -/
def epollAdd (s : Server W) (fd : ℤ) : Server W :=
  if 0 ≤ fd ∧ s.mEpoll fd = .absent then
    { s with mEpoll := Function.update s.mEpoll fd (.armed .EPOLLIN) }
  else s

/-- `EPOLL_CTL_MOD`: fails for a descriptor that is not registered. -/
def epollMod (s : Server W) (fd : ℤ) (ev : Interest) : Server W :=
  if s.mEpoll fd = .absent then s
  else { s with mEpoll := Function.update s.mEpoll fd (.armed ev) }

/-- `EPOLL_CTL_DEL`. -/
def epollDel (s : Server W) (fd : ℤ) : Server W :=
  { s with mEpoll := Function.update s.mEpoll fd .absent }

/-- `connMap.erase(connfd)`. -/
def mapErase (s : Server W) (connfd : ℤ) : Server W :=
  { s with connMap := Function.update s.connMap connfd none }

/-- `conn->mAlive = b`. -/
def setAlive (s : Server W) (conn : ConnPtr) (b : Bool) : Server W :=
  { s with mAlive := Function.update s.mAlive conn b }

/-- A worker's handler gets to another place. -/
def setTask (s : Server W) (i : Fin W) (t : Task) : Server W :=
  { s with mThreadpool := s.mThreadpool.setWorker i (.running t) }

/-- Somebody holds a `shared_ptr` to the connection, so its descriptor is open. -/
def Referenced (s : Server W) (conn : ConnPtr) : Prop :=
  (∃ fd, s.connMap fd = some conn) ∨ s.loop.conn = some conn ∨
    ∃ t, s.mThreadpool.Has t ∧ t.conn = conn

/-- A descriptor that `accept` can return: one that is not open. -/
def Unused (mListenFd : ℤ) (s : Server W) (fd : ℤ) : Prop :=
  0 ≤ fd ∧ fd ≠ mListenFd ∧ ∀ conn, s.Referenced conn → conn.mConnfd ≠ fd

/-- The server behind its constructor: the workers are started and nothing
but the listening socket is registered. -/
def new (W : ℕ) : Server W where
  mThreadpool := ThreadPool.started fun _ => []
  loop := .waiting
  epollEvent := []
  connMap _ := none
  mEpoll _ := .absent
  mAlive _ := true
  created := 0

/-- One move of a handler for `conn`. -/
inductive HandlerStep (conn : ConnPtr) : HandlerAt → Server W → HandlerAt → Server W → Prop
  | recv {s : Server W} (ret : ℤ) : HandlerStep conn .handleRead s (afterRecv ret) s
  | log {s : Server W} : HandlerStep conn .logRead s .readCb s
  | processRead {s : Server W} (ret : HTTP_CODE) :
      HandlerStep conn .readCb s (afterProcessRead ret) s
  | badRequest {s : Server W} :
      HandlerStep conn .badRequest s .enableConnWrite (s.setAlive conn false)
  /-- `resp.isAlive & req->isAlive` becomes the flag. -/
  | getRequest {s : Server W} (alive : Bool) :
      HandlerStep conn .getRequest s .enableConnWrite (s.setAlive conn alive)
  | send {s : Server W} (ret : ℤ) : HandlerStep conn .handleWrite s (afterSend ret) s
  | writeCb {s : Server W} :
      HandlerStep conn .writeCb s (if s.mAlive conn then .enableConnRead else .closeDel true) s
  | enableConnRead {s : Server W} :
      HandlerStep conn .enableConnRead s .returned (s.epollMod conn.mConnfd .EPOLLIN)
  | enableConnWrite {s : Server W} :
      HandlerStep conn .enableConnWrite s .returned (s.epollMod conn.mConnfd .EPOLLOUT)
  | closeDel {s : Server W} {b : Bool} :
      HandlerStep conn (.closeDel b) s (.closeErase b) (s.epollDel conn.mConnfd)
  | closeErase {s : Server W} {b : Bool} :
      HandlerStep conn (.closeErase b) s (afterClose b) (s.mapErase conn.mConnfd)

/-- Moves of the server. -/
inductive Label (W : ℕ)
  /-- The kernel puts an event into the array. -/
  | deliver (ev : EpollEvent)
  /-- The loop takes an event out of the array. -/
  | event (ev : EpollEvent)
  /-- Any other move of the loop. -/
  | loop
  | pool (a : ThreadPool.Label Task W 1)
  /-- The handler in a worker gets to `pc`. -/
  | handler (i : Fin W) (conn : ConnPtr) (pc : HandlerAt)

/-- One move of the kernel, the loop or a worker. -/
inductive Step (mListenFd : ℤ) : Server W → Label W → Server W → Prop
  /-- `epoll_wait` delivers the one event of an armed descriptor. -/
  | deliver {s : Server W} {ev : EpollEvent} {armed : Interest} (hloop : s.loop = .waiting)
      (hroom : s.epollEvent.length < MAX_EVENT_NUM) (harmed : s.mEpoll ev.fd = .armed armed) :
      Step mListenFd s (.deliver ev)
        { s with mEpoll := Function.update s.mEpoll ev.fd .disarmed,
                 epollEvent := s.epollEvent ++ [ev] }
  /-- The listening socket is registered without `EPOLLONESHOT`. -/
  | deliverListen {s : Server W} {ev : EpollEvent} (hloop : s.loop = .waiting)
      (hroom : s.epollEvent.length < MAX_EVENT_NUM) (hlisten : ev.fd = mListenFd) :
      Step mListenFd s (.deliver ev) { s with epollEvent := s.epollEvent ++ [ev] }
  /-- `epoll_wait` returns. -/
  | wakeup {s : Server W} (hloop : s.loop = .waiting) :
      Step mListenFd s .loop { s with loop := .handling }
  /-- The loop over the events ends. -/
  | handled {s : Server W} (hloop : s.loop = .handling) (hev : s.epollEvent = []) :
      Step mListenFd s .loop { s with loop := .waiting }
  /-- `accept`, with the constructor of the connection. -/
  | accept {s : Server W} {ev : EpollEvent} {rest : List EpollEvent} {connfd : ℤ}
      (hloop : s.loop = .handling) (hev : s.epollEvent = ev :: rest)
      (hreact : react mListenFd ev = .accept) (hfd : connfd = -1 ∨ s.Unused mListenFd connfd) :
      Step mListenFd s (.event ev)
        { s with loop := .inserting ⟨s.created, connfd⟩, epollEvent := rest,
                 mAlive := Function.update s.mAlive ⟨s.created, connfd⟩ true,
                 created := s.created + 1 }
  /-- `connMap[connfd] = conn`. -/
  | insert {s : Server W} {conn : ConnPtr} (hloop : s.loop = .inserting conn) :
      Step mListenFd s .loop
        { s with loop := .connected conn,
                 connMap := Function.update s.connMap conn.mConnfd (some conn) }
  /-- `connectedCb` sets the context. -/
  | cCallBack {s : Server W} {conn : ConnPtr} (hloop : s.loop = .connected conn) :
      Step mListenFd s .loop { s with loop := .adding conn }
  | add {s : Server W} {conn : ConnPtr} (hloop : s.loop = .adding conn) :
      Step mListenFd s .loop { s.epollAdd conn.mConnfd with loop := .added conn }
  | added {s : Server W} {conn : ConnPtr} (hloop : s.loop = .added conn) :
      Step mListenFd s .loop { s with loop := .handling }
  /-- `CloseConn` up to its lock. -/
  | close {s : Server W} {ev : EpollEvent} {rest : List EpollEvent} {conn : ConnPtr}
      (hloop : s.loop = .handling) (hev : s.epollEvent = ev :: rest)
      (hreact : react mListenFd ev = .closeConn) (hfound : s.connMap ev.fd = some conn) :
      Step mListenFd s (.event ev)
        { s with loop := .closeDel conn.mConnfd, epollEvent := rest }
  | closeDel {s : Server W} {connfd : ℤ} (hloop : s.loop = .closeDel connfd) :
      Step mListenFd s .loop { s.epollDel connfd with loop := .closeErase connfd }
  | closeErase {s : Server W} {connfd : ℤ} (hloop : s.loop = .closeErase connfd) :
      Step mListenFd s .loop { s.mapErase connfd with loop := .handling }
  /-- The handler is bound to the connection of the event. -/
  | dispatch {s : Server W} {ev : EpollEvent} {rest : List EpollEvent} {conn : ConnPtr}
      {pc : HandlerAt} (hloop : s.loop = .handling) (hev : s.epollEvent = ev :: rest)
      (hreact : react mListenFd ev = .addTask pc) (hfound : s.connMap ev.fd = some conn) :
      Step mListenFd s (.event ev)
        { s with loop := .dispatching, epollEvent := rest,
                 mThreadpool := s.mThreadpool.request 0 ⟨conn, pc⟩ }
  /-- `AddTask` has returned. -/
  | dispatched {s : Server W} (hloop : s.loop = .dispatching)
      (hproducer : s.mThreadpool.producers 0 = .outside) (hcalls : s.mThreadpool.calls 0 = []) :
      Step mListenFd s .loop { s with loop := .handling }
  | ignore {s : Server W} {ev : EpollEvent} {rest : List EpollEvent} (hloop : s.loop = .handling)
      (hev : s.epollEvent = ev :: rest) (hreact : react mListenFd ev = .nothing) :
      Step mListenFd s (.event ev) { s with epollEvent := rest }
  /-- The event of a descriptor without connection. -/
  | null {s : Server W} {ev : EpollEvent} {rest : List EpollEvent} (hloop : s.loop = .handling)
      (hev : s.epollEvent = ev :: rest) (haccept : react mListenFd ev ≠ .accept)
      (hnothing : react mListenFd ev ≠ .nothing) (hfound : s.connMap ev.fd = none) :
      Step mListenFd s (.event ev) { s with loop := .fault, epollEvent := rest }
  /-- The pool moves; a worker leaves its task when the handler has returned. -/
  | pool {s : Server W} {a : ThreadPool.Label Task W 1} {pool : ThreadPool Task W 1}
      (hstep : ThreadPool.Step (2 * W) s.mThreadpool a pool) (hstop : a ≠ .stopCall)
      (hreturned : ∀ i t, a = .finish i → s.mThreadpool.workers i = .running t → t.pc = .returned) :
      Step mListenFd s (.pool a) { s with mThreadpool := pool }
  /-- A handler moves. -/
  | handler {s s' : Server W} {i : Fin W} {t : Task} {pc : HandlerAt}
      (hrun : s.mThreadpool.workers i = .running t) (hstep : HandlerStep t.conn t.pc s pc s') :
      Step mListenFd s (.handler i t.conn pc) (s'.setTask i ⟨t.conn, pc⟩)

/-- All runs of a server with `W` workers. -/
def system (W : ℕ) (mListenFd : ℤ) : System (Server W) (Label W) where
  start s := s = new W
  step := Step mListenFd

end Server

end KyrosWebServer.Net
