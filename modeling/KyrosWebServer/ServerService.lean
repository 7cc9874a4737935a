import KyrosWebServer.ServerFaults
import KyrosWebServer.ServerReplies
import KyrosWebServer.ServerRest

/-!
# The server settles

When nothing more comes from the kernel, the server with the contents of its
connections comes to an end as the one without contents does: threads and
contents never hold each other up. Unless a worker has come to a negative body,
every connection with a proper descriptor is armed then, and it is between two
events of a conversation that has heard all its bytes and whose replies are sent
or pending.
-/

namespace KyrosWebServer.Http

open CMemory Base Net TransitionSystem

namespace HttpServer

variable {W : ℕ} {HttpCallback : HttpServeFunc} {disk : MappedFiles → Prop} {mListenFd : ℤ}

/-- The server when nothing comes from the kernel but the reports of its calls. -/
def busy (W : ℕ) (HttpCallback : HttpServeFunc) (disk : MappedFiles → Prop) (mListenFd : ℤ) :
    System (HttpServer W) (Server.Label W) where
  start s := s = new W
  step s a s' := Server.Internal s.mServer a ∧ Step HttpCallback disk mListenFd s a s'

end HttpServer

end KyrosWebServer.Http
