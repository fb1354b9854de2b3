import AsyncEchoServer.Lib.While
import AsyncEchoServer.Lib.System
import AsyncEchoServer.Lib.Framing
import AsyncEchoServer.Lib.Channel
import AsyncEchoServer.Lib.Mutex
import AsyncEchoServer.Lib.LockOrder
import AsyncEchoServer.Lib.Potential
import AsyncEchoServer.Lib.Shared
import AsyncEchoServer.Cpp.Integers
import AsyncEchoServer.Cpp.Json
import AsyncEchoServer.Session.Reference
import AsyncEchoServer.Session.Coupling
import AsyncEchoServer.Session.Pass
import AsyncEchoServer.Session.Footprint
import AsyncEchoServer.Session.Exits
import AsyncEchoServer.Session.Callback
import AsyncEchoServer.Session.Connection
import AsyncEchoServer.Session.Hostile
import AsyncEchoServer.Session.HostileRuns
import AsyncEchoServer.Session.Accounting
import AsyncEchoServer.Session.Encoder
import AsyncEchoServer.Session.SendQueue
import AsyncEchoServer.Session.Send
import AsyncEchoServer.Server.Echo
import AsyncEchoServer.Client.SyncClient
import AsyncEchoServer.Logic.LogicSystem
import AsyncEchoServer.Logic.Invariant
import AsyncEchoServer.Logic.Dispatch
import AsyncEchoServer.Logic.Shutdown
import AsyncEchoServer.Logic.Decoupling
import AsyncEchoServer.Logic.HelloWorld
import AsyncEchoServer.Logic.Process
import AsyncEchoServer.Logic.Reply
import AsyncEchoServer.Logic.Handover
import AsyncEchoServer.Logic.Threads
import AsyncEchoServer.Logic.Work
import AsyncEchoServer.Logic.Progress
import AsyncEchoServer.ServerV3.Machine
import AsyncEchoServer.ServerV3.Receive
import AsyncEchoServer.ServerV3.Order
import AsyncEchoServer.ServerV3.CServer
import AsyncEchoServer.ServerV3.Teardown
import AsyncEchoServer.ServerV3.Quiet
import AsyncEchoServer.ServerV3.Serve
import AsyncEchoServer.ServerV3.Main
import AsyncEchoServer.ServerV3Mt.Registry
import AsyncEchoServer.ServerV3Mt.ReadLoop
import AsyncEchoServer.ServerV3Mt.Machine
import AsyncEchoServer.ServerV3Mt.Locking
import AsyncEchoServer.ServerV3Mt.Step
import AsyncEchoServer.ServerV3Mt.Receive
import AsyncEchoServer.ServerV3Mt.Order
import AsyncEchoServer.ServerV3Mt.Wire
import AsyncEchoServer.ServerV3Mt.Work
import AsyncEchoServer.ServerV3Mt.Refine
import AsyncEchoServer.ServerV3Mt.Quiet
import AsyncEchoServer.ServerV3Mt.Lifetime
import AsyncEchoServer.ServerV3Mt.Stop
import AsyncEchoServer.Client.JsonClient
import AsyncEchoServer.ServerV3Mt.Healthy
import AsyncEchoServer.Client.Benchmark
import AsyncEchoServer.Client.Completion
