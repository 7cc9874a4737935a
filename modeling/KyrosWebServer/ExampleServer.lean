import KyrosWebServer.HttpConversation
import KyrosWebServer.ResponseFile
import KyrosWebServer.ResponsePieces

/-!
# The example server

`ServerHttp` from example/httpserver_test.cpp, which offers one page. On a
connection it says one of three things: that it was not spoken to properly, the
empty greeting and that at most, or the page, under a status that `openFile`
leaves behind and with the announcement that the connection is closed. A client
that it listens to has heard nothing or the whole greeting.
-/

namespace KyrosWebServer.Http

open CMemory CString Base Net TransitionSystem HttpConnection

/-- What a connection can say, whatever its callback is: the replies, and the
response that is in its context then. -/
inductive Says (HttpCallback : HttpServeFunc) : List Reply → HttpResponse → Prop
  | silent : Says HttpCallback [] HttpResponse.create
  | rejected : Says HttpCallback
      [.rejection (HttpResponse.create.setStatusCode CLIENT_ERROR_BAD_REQUEST)]
      (HttpResponse.create.setStatusCode CLIENT_ERROR_BAD_REQUEST)
  | answered {resp : HttpResponse} (table : MappedFiles) (req : HttpRequest)
      (hresp : resp = HttpCallback table.files req (HttpResponse.create.setStatusCode SUCCESS_OK)) :
      Says HttpCallback [.answer resp] resp
  | dismissed {resp : HttpResponse} (table : MappedFiles) (req : HttpRequest)
      (hresp : resp = HttpCallback table.files req (HttpResponse.create.setStatusCode SUCCESS_OK)) :
      Says HttpCallback
        [.answer resp, .rejection (resp.setStatusCode CLIENT_ERROR_BAD_REQUEST)]
        (resp.setStatusCode CLIENT_ERROR_BAD_REQUEST)

/-- The status line of a bad request. -/
def badRequest : List UInt8 :=
  ascii "HTTP/1.1 400 Your request has bad syntax or is inherently impossible to staisfy.\r\n".toList

variable {HttpCallback : HttpServeFunc}

/-- An answer comes first. -/
theorem Says.answer {rs : List Reply} {resp answer : HttpResponse} (h : Says HttpCallback rs resp)
    (hshape : AnswerThenRejection (rs ++ [.answer answer])) (table : MappedFiles) (req : HttpRequest)
    (hanswer : answer = HttpCallback table.files req (resp.setStatusCode SUCCESS_OK)) :
    Says HttpCallback (rs ++ [.answer answer]) answer := by
  cases h with
  | silent => exact .answered table req hanswer
  | rejected | dismissed _ _ _ | answered _ _ _ => exact hshape.elim

end KyrosWebServer.Http
