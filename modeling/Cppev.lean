import Cppev.Lib.Memory
import Cppev.Lib.Transition
import Cppev.Lib.Wp
import Cppev.Lib.Framing
import Cppev.Lib.Monitor
import Cppev.Buffer.Basic
import Cppev.Buffer.Queue
import Cppev.Nio.Basic
import Cppev.Nio.Outbox
import Cppev.Nio.Inbox
import Cppev.ThreadPool.Basic
import Cppev.ThreadPool.WakeUp
import Cppev.ThreadPool.ExactlyOnce
import Cppev.Utils
import Cppev.Lib.Loop
import Cppev.Utils.Divisors
import Cppev.Scheduler.Basic
import Cppev.Scheduler.TimeLine
import Cppev.EventLoop
import Cppev.Reactor.Basic
import Cppev.Reactor.Conn
import Cppev.Reactor.Refine
import Cppev.Reactor.Run
import Cppev.Reactor.Callback
import Cppev.Reactor.Phase
import Cppev.Reactor.Handler
import Cppev.Reactor.LifeCycle
import Cppev.Reactor.Output
import Cppev.Reactor.HalfClose
import Cppev.Reactor.Interest
import Cppev.Reactor.Closing
import Cppev.Reactor.Reading
import Cppev.Lock.OneTimeFence
import Cppev.Lock.Barrier
import Cppev.Lock.Guard
import Cppev.Logger.Basic
import Cppev.Logger.Messages
import Cppev.Logger.Widths
import Cppev.Logger.Shutdown
import Cppev.Lib.Tally
import Cppev.Lib.Ownership
import Cppev.Client.Basic
import Cppev.Client.HandOff
import Cppev.Client.Accounts
import Cppev.EventLoop.Backend
import Cppev.EventLoop.Dispatch
import Cppev.EventLoop.Agreement
import Cppev.EventLoop.Shadow
import Cppev.Nio.Move
import Cppev.Nio.Ownership
import Cppev.Ipc.Creator
import Cppev.Ipc.SharedMemory
import Cppev.Ipc.Semaphore
import Cppev.Lib.Words
import Cppev.Utils.Strings
import Cppev.Utils.Strip
import Cppev.Utils.Split
import Cppev.Utils.Join
import Cppev.Buffer.Growth
import Cppev.Buffer.Session
import Cppev.Buffer.Capacity
import Cppev.Nio.WriteAll
import Cppev.Nio.ReadAll
import Cppev.Nio.Udp
import Cppev.Reactor.Accept
import Cppev.Lib.Drain
import Cppev.EventLoop.LoopOnce
import Cppev.Scheduler.Table
import Cppev.EventLoop.Wakeup
import Cppev.EventLoop.Failure
import Cppev.EventLoop.Stop
import Cppev.Client.Shares
import Cppev.Logger.ShortWrite
import Cppev.ThreadPool.Construct
import Cppev.Subprocess
import Cppev.Reactor.Loads
import Cppev.Reactor.Balance
import Cppev.Lib.CString
import Cppev.Buffer.Terminated
import Cppev.Subprocess.ExecCmd
import Cppev.Subprocess.Poll
import Cppev.Ipc.Acquire
import Cppev.Lib.Holding
import Cppev.Ipc.Handles
import Cppev.Ipc.Leftovers
import Cppev.Subprocess.Descriptors
import Cppev.Subprocess.Communicate
import Cppev.Nio.Address
import Cppev.Nio.Stale
import Cppev.Nio.Shutdown
import Cppev.Nio.ReadBuffers
import Cppev.Lib.Fairness
import Cppev.Reactor.Threads
import Cppev.Reactor.Shutdown
import Cppev.Lib.Cycle
import Cppev.Reactor.Echo
import Cppev.Reactor.TcpStress
import Cppev.Lib.Serial
import Cppev.Lock.Sections
import Cppev.Scheduler.Thread
import Cppev.Scheduler.Life
import Cppev.Scheduler.Join
import Cppev.ThreadPool.Liveness
import Cppev.Reactor.FileServer
import Cppev.Reactor.FileCache
import Cppev.Lib.Settling
import Cppev.Lock.Opening
import Cppev.Logger.Ending
