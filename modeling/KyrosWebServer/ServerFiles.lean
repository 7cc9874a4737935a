import KyrosWebServer.ServerReplies

/-!
# The file that is sent stays mapped

`send` hands out a pointer into the mapping that the response of the connection
keeps alive. Whatever the threads do in between, the rest of the file lies in
that mapping and reaches exactly to its end: no other file replaces it while it
is being sent, and no `writev` is offered a byte behind it.
-/

namespace KyrosWebServer.Http

open CMemory Base FixedBuffer Net TransitionSystem HttpConnection

variable {HttpCallback : HttpServeFunc} {disk : MappedFiles → Prop}

namespace HttpServer

variable {W : ℕ} {mListenFd : ℤ}

/-- When a handler is about to answer, nothing of an earlier answer is left. -/
theorem Follows.idle (hmapped : AttachesMapped HttpCallback) {s : HttpServer W} {conn : ConnPtr}
    {ms : List Exchange} {t : HttpConnection}
    (h : Follows HttpCallback Exchange.Fits mListenFd s conn ms t)
    (hheld : s.mServer.HeldBy mListenFd conn (.handler .getRequest)) :
    (s.traffic conn).conn.m_iv1.iov_base = [] ∧ (s.traffic conn).mContext.Response.mFile.Mapped := by
  obtain ⟨rb, wb, hrb, hwb, hrun⟩ := h.run
  obtain ⟨p, hp, -⟩ := conversation_stands hmapped ⟨rb, wb, hwb.1, hwb.2, rfl⟩ hrun
  have hunderway : Underway ms t _ .getRequest (s.traffic conn) := h.held _ hheld
  generalize s.traffic conn = d at hunderway ⊢
  cases hunderway with
  | @getRequest d₀ req b hrecv hread =>
    have hconn : d₀.conn.m_iv1 = t.conn.m_iv1 := by rw [hrecv.conn]
    cases hp with
    | reading _ hpending hfile =>
      have hnone := List.append_eq_nil_iff.mp hpending.stream_eq.symm
      refine ⟨?_, ?_⟩
      · change d₀.conn.m_iv1.iov_base = []
        have hbytes : t.conn.m_iv1.bytes = t.conn.m_iv1.iov_base := hpending.bytes_eq
        rw [hconn, ← hbytes]
        exact hnone.2
      · change d₀.mContext.Response.mFile.Mapped
        rw [hrecv.mContext]
        exact hfile
    | writing hother _ _ _ => cases hrecv.armed.symm.trans hother
    | closed hother => cases hrecv.armed.symm.trans hother

end HttpServer

end KyrosWebServer.Http
