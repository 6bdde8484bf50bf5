import CppProgramming.Lib.ByteString
import CppProgramming.Lib.Interleaving
import CppProgramming.SimpleHttp.HttpRequest
import CppProgramming.SimpleHttp.HttpChunking
import CppProgramming.SimpleHttp.HttpGrammar
import CppProgramming.SimpleHttp.RequestHandler
import CppProgramming.SimpleHttp.Connection
import CppProgramming.SimpleHttp.Steps
import CppProgramming.SimpleHttp.Queues
import CppProgramming.SimpleHttp.Readiness
import CppProgramming.SimpleHttp.WriteReadiness
import CppProgramming.SimpleHttp.Conservation
import CppProgramming.SimpleHttp.Closing
import CppProgramming.SimpleHttp.Server
import CppProgramming.SimpleHttp.SocketTable
import CppProgramming.SimpleHttp.Terminal
import CppProgramming.HelloWorld.Acceptors
import CppProgramming.HelloWorld.CallLoad
import CppProgramming.HelloWorld.CallProtocol
import CppProgramming.HelloWorld.ChatStreaming
import CppProgramming.HelloWorld.Dispatch
import CppProgramming.HelloWorld.ServerStop
import CppProgramming.HelloWorld.TalkProtocol
import CppProgramming.Semaphore.StressTest
import CppProgramming.Semaphore.TestCompletes
import CppProgramming.Semaphore.Wakeup
import CppProgramming.SimpleHttp.ReadCall
import CppProgramming.EdgeTriggered.Release
import CppProgramming.Iocp.Clients
import CppProgramming.SmartPointer.MySharedPtr
import CppProgramming.MockMalloc.MyMalloc
import CppProgramming.SimpleHttp.WorkerPool
import CppProgramming.SimpleHttp.Shutdown
import CppProgramming.SimpleHttp.EndOfFile
import CppProgramming.Lib.Execution
import CppProgramming.Lib.Holdings
import CppProgramming.Lib.Simulation
import CppProgramming.SimpleHttp.EventNotifier
import CppProgramming.HelloWorld.HandlerProtocol
import CppProgramming.HelloWorld.KeyAllocation
import CppProgramming.HelloWorld.QueueChoice
import CppProgramming.HelloWorld.UnaryServices
import CppProgramming.Lib.CString
import CppProgramming.SimpleHttp.RequestHead
import CppProgramming.SocketTcp.Drain
import CppProgramming.Lib.CyclicOrder
import CppProgramming.SimpleHttp.RequestBody
import CppProgramming.SimpleHttp.RequestLine
import CppProgramming.SimpleHttp.ContentLength
import CppProgramming.SimpleHttp.Answers
import CppProgramming.SimpleHttp.CacheKeys
import CppProgramming.SocketTcp.Process
import CppProgramming.SocketTcp.TypedData
import CppProgramming.SocketTcp.AfterShutdown
import CppProgramming.Lib.Bernstein
import CppProgramming.Curve.BezierCurve
import CppProgramming.Curve.CurvePy
import CppProgramming.Geodetic.Conversions
import CppProgramming.Lib.Assignments
import CppProgramming.HelloWorld.AbstractConfig
import CppProgramming.HelloWorld.ConfigLines
import CppProgramming.MockMalloc.Bootstrap
import CppProgramming.SocketTcp.Peers
import CppProgramming.EdgeTriggered.Service
import CppProgramming.Udp.Echo
import CppProgramming.HelloWorld.TalkEcho
import CppProgramming.HelloWorld.TalkView
import CppProgramming.Iocp.Stop
import CppProgramming.Curve.Shape
import CppProgramming.SimpleHttp.Config
import CppProgramming.SimpleHttp.Logger
