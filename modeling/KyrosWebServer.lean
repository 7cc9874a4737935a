import KyrosWebServer.ConnectionHeader
import KyrosWebServer.EchoServer
import KyrosWebServer.ExampleServer
import KyrosWebServer.ProducerConsumer
import KyrosWebServer.RequestPipelining
import KyrosWebServer.RequestRejection
import KyrosWebServer.RequestReset
import KyrosWebServer.RequestTarget
import KyrosWebServer.ResponseHistory
import KyrosWebServer.ServerFiles
import KyrosWebServer.ServerService
import KyrosWebServer.ThreadPoolConservation
import KyrosWebServer.ThreadPoolStart
import KyrosWebServer.ThreadPoolStop
