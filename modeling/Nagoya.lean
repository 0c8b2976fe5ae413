import Nagoya.Lib.Lts
import Nagoya.Lib.Pool
import Nagoya.Lib.Chain
import Nagoya.Lib.Heap
import Nagoya.Lib.Buffer
import Nagoya.Lib.Progress
import Nagoya.Lib.Fair
import Nagoya.Lib.Edge
import Nagoya.Lib.Record
import Nagoya.Machine
import Nagoya.BlockOn
import Nagoya.Sync.WaitQueue
import Nagoya.Sync.Tokens
import Nagoya.Sync.Notify
import Nagoya.Sync.Listener
import Nagoya.Sync.Semaphore
import Nagoya.Sync.RwLock
import Nagoya.Sync.Barrier
import Nagoya.Reactor.Driver
import Nagoya.Reactor.Descriptors
import Nagoya.Reactor.Slots
import Nagoya.Reactor.TaskSet
import Nagoya.Reactor.BlockOn
import Nagoya.Reactor.Thread
import Nagoya.Reactor.SocketAddr
import Nagoya.Net.TcpRead
import Nagoya.Net.TcpWrite
import Nagoya.Net.Transfer
import Nagoya.Net.Idle
import Nagoya.Net.Udp
import Nagoya.Time.TimerHeap
import Nagoya.Time.Timers
import Nagoya.Time.Sleeps
import Nagoya.Credits
import Nagoya.Owner
import Nagoya.Dispatch
import Nagoya.Par
import Nagoya.Par.Pair
import Nagoya.Readiness
import Nagoya.Process
import Nagoya.Process.Output
import Nagoya.Io
import Nagoya.Net.WriteAll
import Nagoya.Net.Stream
import Nagoya.Net.Connect
import Nagoya.Proofs.Sync.WaitQueue
import Nagoya.Proofs.Sync.Tokens
import Nagoya.Proofs.Sync.Notify
import Nagoya.Proofs.Sync.NotifySlots
import Nagoya.Proofs.Sync.Broadcast
import Nagoya.Proofs.Sync.Listener
import Nagoya.Proofs.Sync.Semaphore
import Nagoya.Proofs.Sync.RwLock
import Nagoya.Proofs.Sync.Barrier
import Nagoya.Proofs.BlockOn
import Nagoya.Proofs.Reactor.Thread
import Nagoya.Proofs.Reactor.Driver
import Nagoya.Proofs.Reactor.Descriptors
import Nagoya.Proofs.Reactor.Slots
import Nagoya.Proofs.Reactor.TaskSet
import Nagoya.Proofs.Reactor.BlockOn
import Nagoya.Proofs.Reactor.SocketAddr
import Nagoya.Proofs.Net.TcpRead
import Nagoya.Proofs.Net.TcpWrite
import Nagoya.Proofs.Net.Transfer
import Nagoya.Proofs.Net.Idle
import Nagoya.Proofs.Net.Udp
import Nagoya.Proofs.Time.TimerHeap
import Nagoya.Proofs.Time.Timers
import Nagoya.Proofs.Time.Sleeps
import Nagoya.Proofs.Credits
import Nagoya.Proofs.Owner
import Nagoya.Proofs.Par.Pieces
import Nagoya.Proofs.Par
import Nagoya.Proofs.Par.Pair
import Nagoya.Proofs.Par.Awaited
import Nagoya.Proofs.Readiness
import Nagoya.Proofs.Process
import Nagoya.Proofs.Reactor.TaskSetPush
import Nagoya.Proofs.Reactor.TaskSetDriven
import Nagoya.Proofs.Reactor.ReportedPath
import Nagoya.Proofs.Reactor.PollOnce
import Nagoya.Proofs.Time.TimerQueue
import Nagoya.Proofs.Signal
import Nagoya.Proofs.Signal.Handler
import Nagoya.Proofs.Task
import Nagoya.Proofs.Io
import Nagoya.Proofs.Net.WriteAll
import Nagoya.Proofs.Net.Stream
import Nagoya.Proofs.Net.Stream.Reading
import Nagoya.Proofs.Net.Stream.Writing
import Nagoya.Proofs.Net.Stream.Delivery
import Nagoya.Proofs.Net.Connect
import Nagoya.Proofs.Net.Connect.Ledger
import Nagoya.Proofs.Net.Connect.Returns
import Nagoya.Proofs.Process.Output
import Nagoya.Proofs.Dispatch
