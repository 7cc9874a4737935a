import KyrosWebServer.ResponsePieces
import KyrosWebServer.ServerConversation

/-!
# What the clients of the server see

Replies of less than 2 GiB are what `send` can count. A server whose callback
keeps to that answers every client in order, whatever its threads do in between:
one answer at most and one rejection at most, the first of them as the client's
bytes call for, and all of it sent when the connection listens again. Such a
server forgets no connection.
-/

namespace KyrosWebServer.Http

open CMemory Base FixedBuffer Net TransitionSystem HttpConnection

variable {HttpCallback : HttpServeFunc} {disk : MappedFiles → Prop}

/-- With its head and its body, which fit the send buffer, the file of the
response stays below 2 GiB. -/
def HttpResponse.Sendable (resp : HttpResponse) : Prop :=
  kBufferSize + resp.fileBytes.length < 2147483648

/-- A callback that attaches mapped files, none of them too large. -/
structure Serves (HttpCallback : HttpServeFunc) (disk : MappedFiles → Prop) : Prop where
  /-- Only mapped files. -/
  mapped : AttachesMapped HttpCallback
  /-- Only files that `send` can count. -/
  sendable : ∀ table, disk table → ∀ req resp, resp.Sendable →
    (HttpCallback table.files req resp).Sendable

/-- All exchanges of such a callback fit. -/
theorem Serves.admits (h : Serves HttpCallback disk) :
    Admits HttpCallback disk HttpResponse.Sendable Exchange.Fits where
  create := by
    unfold HttpResponse.Sendable
    decide +kernel
  status _ _ hsmall := hsmall
  callback := h.sendable
  exchange m hm := by
    have hhead : ∀ resp : HttpResponse, (admitted kBufferSize resp.pieces).length ≤ kBufferSize :=
      fun resp => length_admitted_le (Nat.le_refl _) resp.pieces
    have hk := kBufferSize_eq
    cases m with
    | write sent => trivial
    | hangup => trivial
    | read got r =>
      change (replyBytes r).length < 2147483648
      match r with
      | none => exact Nat.zero_lt_of_lt (Nat.lt_succ_self _)
      | some (.rejection resp) =>
        have hle := hhead resp
        rw [show replyBytes (some (.rejection resp)) = _ from List.append_nil _]
        exact Nat.lt_of_le_of_lt hle (by omega)
      | some (.answer resp) =>
        have hle := hhead resp
        have hfile : resp.Sendable := hm resp List.mem_cons_self
        unfold HttpResponse.Sendable at hfile
        rw [show replyBytes (some (.answer resp)) = _ from List.append_nil _, Reply.bytes,
          List.length_append]
        omega

/-- Files below 2 GiB, with the room of the head. -/
def SmallFiles (table : MappedFiles) : Prop :=
  ∀ path st, table.files path = some st → kBufferSize + st.st_size < 2147483648

/-- A response with a small file, or with the one it had. -/
theorem Open_sendable {resp : HttpResponse} (hresp : resp.Sendable) {table : MappedFiles}
    (htable : SmallFiles table) (path : List UInt8) :
    HttpResponse.Sendable { resp with mFile := (resp.mFile.Open table.files path).2 } := by
  unfold FileSystem.Open
  cases hstat : table.files (CString.content path) with
  | none => exact hresp
  | some st =>
    dsimp only
    split
    · exact hresp
    · split
      · exact hresp
      · have hsize := htable _ st hstat
        have htake := List.length_take_le st.st_size st.mapped
        change kBufferSize + (st.mapped.take st.st_size).length < 2147483648
        omega

/-- The example server keeps to replies that `send` can count when its page is small. -/
theorem serverHttp_serves : Serves ServerHttp SmallFiles where
  mapped := serverHttp_attachesMapped
  sendable table htable req resp hresp := by
    have hopen := Open_sendable hresp htable (ascii "/home/xy/ClionDeploy/root/log.html".toList)
    rw [← HttpResponse.openFile_mFile] at hopen
    unfold ServerHttp
    split
    · exact hopen
    · exact hresp

namespace HttpServer

variable {W : ℕ} {mListenFd : ℤ}

/-- What the client of a connection has got: the front of the replies `rs`. -/
structure Answered (HttpCallback : HttpServeFunc) (mListenFd : ℤ) (s : HttpServer W) (conn : ConnPtr)
    (rs : List Reply) : Prop where
  /-- One answer at most, then one rejection at most. -/
  shape : AnswerThenRejection rs
  /-- The bytes on the wire. -/
  front : (s.traffic conn).sent <+: rs.flatMap Reply.bytes
  /-- Nothing is left to be sent when the connection listens. -/
  whole : s.mServer.HeldBy mListenFd conn (.epoll .EPOLLIN) →
    (s.traffic conn).sent = rs.flatMap Reply.bytes
  /-- The first reply is what the head of all bytes received calls for. -/
  first : (∀ req w, runHead HttpRequest.fresh (s.traffic conn).received ≠ .ok (.past req w)) →
    ∀ r rest, rs = r :: rest → ∃ head,
      runHead HttpRequest.fresh (s.traffic conn).received = .ok head ∧ Calls HttpCallback head r
  /-- An armed connection without a reply has not received the end of the head. -/
  unfinished : (∀ req w, runHead HttpRequest.fresh (s.traffic conn).received ≠ .ok (.past req w)) →
    rs = [] → ∀ armed, s.mServer.HeldBy mListenFd conn (.epoll armed) →
      ∃ req w, runHead HttpRequest.fresh (s.traffic conn).received = .ok (.wait req w)

/-- The conversation of a connection answers its client. -/
theorem Follows.answered (hmapped : AttachesMapped HttpCallback) {s : HttpServer W} {conn : ConnPtr}
    {ms : List Exchange} {t : HttpConnection}
    (hfollows : Follows HttpCallback Exchange.Fits mListenFd s conn ms t) :
    Answered HttpCallback mListenFd s conn (replies ms) := by
  obtain ⟨rb, wb, hrb, hwb, hrun⟩ := hfollows.run
  have hstart : (conversation HttpCallback).start (.accept rb wb) := ⟨rb, wb, hwb.1, hwb.2, rfl⟩
  have hreplied := conversation_replied hstart hrun.of_restrict
  obtain ⟨p, hp, hall⟩ := conversation_stands hmapped hstart hrun
  obtain ⟨hfront, hopen, hidle⟩ := hp.output hall
  have harmed : ∀ armed, s.mServer.HeldBy mListenFd conn (.epoll armed) →
      t.mEpoll = .armed armed ∧ heard ms = (s.traffic conn).received := by
    intro armed hheld
    obtain ⟨hexplains, hreg⟩ := hfollows.held (.epoll armed) hheld
    exact ⟨hreg, hexplains.received.symm⟩
  refine ⟨hreplied.shape, ?_, fun hheld => ?_, fun hbody r rest hreplies => ?_,
    fun hbody hnone armed hheld => ?_⟩
  · rw [hfollows.sent]
    exact hfront
  · obtain ⟨hreg, -⟩ := harmed _ hheld
    have hnot : t.mEpoll ≠ .absent := by
      rw [hreg]
      exact Registration.noConfusion
    have hwire := hopen hnot
    rw [hidle hreg, List.append_nil] at hwire
    rw [hfollows.sent]
    exact hwire
  · have hheard := conversation_heard hrb.1 hrb.2 hrun.of_restrict
      (runHead_front hfollows.received hbody)
    rw [hreplies] at hheard
    exact hheard.calls hfollows.received
  · obtain ⟨hreg, hsame⟩ := harmed armed hheld
    have hheard := conversation_heard hrb.1 hrb.2 hrun.of_restrict
      (runHead_front hfollows.received hbody)
    rw [hnone, hsame] at hheard
    exact (hheard.waits (by rw [hreg]; exact Registration.noConfusion)).2

/-- Where there are no files, none is too large. -/
theorem smallFiles_none : SmallFiles noFiles := fun _ _ hst => by cases hst

/-- The loop does something about every event that was asked for. -/
theorem react_of_asked {ev : EpollEvent} {armed : Interest} (h : Asked armed ev.events) :
    react mListenFd ev ≠ .nothing := by
  intro hreact
  have hsome := h.some_event
  simp only [Bool.or_eq_true] at hsome
  unfold react at hreact
  split at hreact
  · cases hreact
  split at hreact
  · cases hreact
  · next herr =>
    simp only [Bool.or_eq_true, not_or] at herr
    split at hreact
    · cases hreact
    · next hin =>
      split at hreact
      · cases hreact
      · next hout => tauto

/-- The loop takes its event out of the array. -/
theorem event_mem {s s' : Server W} {ev : EpollEvent} (h : Server.Step mListenFd s (.event ev) s') :
    ev ∈ s.epollEvent := by
  have hhead : ∃ rest, s.epollEvent = ev :: rest := by
    cases h with
    | accept hloop hev hreact hfd => exact ⟨_, hev⟩
    | close hloop hev hreact hfound => exact ⟨_, hev⟩
    | dispatch hloop hev hreact hfound => exact ⟨_, hev⟩
    | ignore hloop hev hreact => exact ⟨_, hev⟩
    | null hloop hev haccept hnothing hfound => exact ⟨_, hev⟩
  obtain ⟨rest, hev⟩ := hhead
  rw [hev]
  exact List.mem_cons_self

/-- When a handler is about to send, what is left is pending. -/
theorem Follows.pending (hmapped : AttachesMapped HttpCallback) {s : HttpServer W} {conn : ConnPtr}
    {ms : List Exchange} {t : HttpConnection}
    (h : Follows HttpCallback Exchange.Fits mListenFd s conn ms t)
    (hheld : s.mServer.HeldBy mListenFd conn (.handler .handleWrite)) :
    ∃ pending, pending.length < 2147483648 ∧ Pending (s.traffic conn).conn pending := by
  obtain ⟨rb, wb, hrb, hwb, hrun⟩ := h.run
  obtain ⟨p, hp, -⟩ := conversation_stands hmapped ⟨rb, wb, hwb.1, hwb.2, rfl⟩ hrun
  cases h.held _ hheld with
  | handleWrite hexplains harmed =>
    cases hp with
    | reading hother _ _ => cases harmed.symm.trans hother
    | closed hother => cases harmed.symm.trans hother
    | writing _ hpending hlt _ =>
      rw [hexplains.conn]
      exact ⟨_, hlt, hpending⟩

/-- `send` never returns a number below `-1` when all replies are sendable. -/
theorem Follows.send_finishes (hmapped : AttachesMapped HttpCallback) {s : HttpServer W}
    {conn : ConnPtr} {ms : List Exchange} {t : HttpConnection} {pc : HandlerAt} {d : Traffic}
    (h : Follows HttpCallback Exchange.Fits mListenFd s conn ms t)
    (hheld : s.mServer.HeldBy mListenFd conn (.handler .handleWrite))
    (hwork : Work HttpCallback disk .handleWrite (s.traffic conn) pc d) : pc ≠ .returned := by
  obtain ⟨pending, hlt, hpending⟩ := h.pending hmapped hheld
  cases hwork with
  | @send _ rs rest ret out conn' hrs hsend =>
    obtain ⟨left, -, ⟨rfl, -⟩ | ⟨hmore, -⟩ | rfl⟩ := hpending.send_outcomes hlt hrs hsend
    · exact HandlerAt.noConfusion
    · rw [afterSend_enableConnWrite hmore]
      exact HandlerAt.noConfusion
    · exact HandlerAt.noConfusion

/-- No move of the server forgets a connection. -/
theorem Step.keeps (hserves : Serves HttpCallback disk) {s s' : HttpServer W} {a : Server.Label W}
    (h : Step HttpCallback disk mListenFd s a s')
    (hs : Conversing HttpCallback HttpResponse.Sendable Exchange.Fits mListenFd s) (fd : ℤ) :
    ¬ Server.Forgets mListenFd s.mServer fd a := by
  intro hforgets
  cases hforgets with
  | @event ev hfd hreact =>
    have hmem := event_mem h.server
    have hlisten : ev.fd ≠ mListenFd := Server.react_ne_accept (by rw [hreact]; exact nofun)
    obtain ⟨conn, hmap, -⟩ := hs.inv.found hmem hlisten
    obtain ⟨ms, t, hfollows⟩ := hs.follows conn
    obtain ⟨-, armed, -, hasked⟩ := hfollows.held (.array ev) ⟨hmem, hlisten, hmap⟩
    exact react_of_asked hasked hreact
  | @send i t hrun hfd hpc =>
    obtain ⟨-, hwork⟩ := Step.work h hrun
    obtain ⟨ms, v, hfollows⟩ := hs.follows t.conn
    rw [hpc] at hwork
    have hheld : s.mServer.HeldBy mListenFd t.conn (.handler .handleWrite) := by
      refine ⟨.inr ⟨i, ?_⟩, HandlerAt.noConfusion⟩
      rw [← hpc]
      exact hrun
    exact hfollows.send_finishes hserves.mapped hheld hwork rfl

/-- So its runs are runs of the server that forgets nothing. -/
theorem reachable_attentive (hserves : Serves HttpCallback disk) {s : HttpServer W}
    (h : (system W HttpCallback disk mListenFd).Reachable s) :
    (Server.attentive W mListenFd).Reachable s.mServer := by
  have hall : Conversing HttpCallback HttpResponse.Sendable Exchange.Fits mListenFd s ∧
      (Server.attentive W mListenFd).Reachable s.mServer := by
    refine h.invariant (I := fun s =>
      Conversing HttpCallback HttpResponse.Sendable Exchange.Fits mListenFd s ∧
        (Server.attentive W mListenFd).Reachable s.mServer) ?_ ?_
    · rintro s rfl
      exact ⟨new_conversing hserves.admits W mListenFd, ⟨_, rfl, System.Leads.refl _⟩⟩
    · rintro s a t ⟨hs, hreach⟩ hstep
      exact ⟨Step.conversing hserves.admits hstep hs,
        hreach.leads (System.Leads.single ⟨Step.server hstep, Step.keeps hserves hstep hs⟩)⟩
  exact hall.2

/-- Whatever the threads do, the server is one that forgets no connection, and
each connection of its map with a proper descriptor is in somebody's hands. -/
theorem forgets_nothing (hserves : Serves HttpCallback disk) {s : HttpServer W}
    (h : (system W HttpCallback disk mListenFd).Reachable s) :
    (Server.attentive W mListenFd).Reachable s.mServer ∧ Server.Attended mListenFd s.mServer := by
  have hreach := reachable_attentive hserves h
  exact ⟨hreach, (Server.reachable_watched hreach).2.2⟩

/-- Nor is the connection of a client that has got its answer. -/
theorem forgets_nothing_keepAliveGet : ∃ (s : HttpServer 1) (conn : ConnPtr),
    (s.traffic conn).received = keepAliveGet ∧ (s.traffic conn).sent.length = 62 ∧
    s.mServer.HeldBy 3 conn (.epoll .EPOLLIN) ∧
    (Server.attentive 1 3).Reachable s.mServer ∧ Server.Attended 3 s.mServer := by
  obtain ⟨s, conn, h, hheld, hreceived, hsent⟩ := armed_keepAliveGet smallFiles_none
  exact ⟨s, conn, hreceived, hsent, hheld, forgets_nothing serverHttp_serves h⟩

end HttpServer

end KyrosWebServer.Http
