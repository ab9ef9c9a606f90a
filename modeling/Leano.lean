import Leano.SyncQueue.Wakeup
import Leano.ConditionQueue.Order
import Leano.ConditionQueue.Wakeup
import Leano.ThreadPool.Defs
import Leano.SyncQueue.Threads
import Leano.SyncQueue.Offers
import Leano.ThreadPool.Workers
import Leano.ThreadPool.Tasks
import Leano.ThreadPool.Shutdown
import Leano.Epoll.Connection
import Leano.Epoll.Copies
import Leano.Epoll.Parser
import Leano.Epoll.Leftover
import Leano.Epoll.TwoConnections
import Leano.Epoll.Buffer
import Leano.Epoll.PeerClose
import Leano.Epoll.Segments
import Leano.Epoll.Cuts
import Leano.Epoll.EventLoop
import Leano.ConditionQueue.Waiters
import Leano.SyncQueue.Slots
import Leano.ConnPool.Books
import Leano.Lib.Custody
import Leano.ConnPool.Lending
import Leano.ConnPool.Refusals
import Leano.ConnPool.Sections
import Leano.ConnPool.Reduction
import Leano.ConnPool.Exclusion
import Leano.ConnPool.Capacity
import Leano.Lib.Lock
import Leano.PthreadPool.Core
import Leano.PthreadPool.Counter
import Leano.PthreadPool.Stages
import Leano.PthreadPool.Continuations
import Leano.PthreadPool.Idle
import Leano.Lib.Watch
import Leano.ThreadPool.Resume
import Leano.ThreadPool.Signals
import Leano.ThreadPool.Pause
import Leano.SyncQueue.Stopped
import Leano.ThreadPool.Joining
import Leano.ConditionQueue.InUse
import Leano.Lib.Heap
import Leano.PthreadPool.Joins
import Leano.PthreadPool.Lifetime
import Leano.HttpRequests.Curl
import Leano.HttpRequests.Defs
import Leano.Lib.Last
import Leano.HttpRequests.Transfers
import Leano.HttpRequests.Headers
import Leano.HttpRequests.Response
import Leano.DBOperation.Defs
import Leano.DBOperation.Metadata
import Leano.DBOperation.Ownership
import Leano.DBOperation.Updates
import Leano.Epoll.Response
import Leano.HttpServer.Routes
import Leano.Epoll.Broken
import Leano.Epoll.Parse
import Leano.Epoll.HeaderLines
import Leano.Epoll.Overflow
import Leano.Epoll.RequestLine
import Leano.Epoll.HeadEnd
import Leano.Epoll.Request
import Leano.Epoll.ParsedValues
import Leano.ConditionQueue.Timeouts
import Leano.ConditionQueue.Clock
import Leano.Config.Init
import Leano.HttpRequests.Download
import Leano.HttpRequests.Ports
import Leano.Common.Myexec
import Leano.Common.Output
import Leano.Common.LineBuffer
import Leano.PthreadPool.Discard
import Leano.Lib.Atomic
import Leano.SyncQueue.Atomic
import Leano.ConditionQueue.Atomic
import Leano.Epoll.FieldBytes
import Leano.Epoll.Server
import Leano.Epoll.Answers
import Leano.Epoll.Descriptors
import Leano.SyncQueue.Settling
import Leano.ThreadPool.AtRest
import Leano.PthreadPool.WindDown
import Leano.ThreadPool.Stopped
import Leano.HttpRequests.Asked
import Leano.HttpRequests.Lists
import Leano.Common.Kept
import Leano.PthreadPool.AtRest
import Leano.Config.Store
import Leano.PthreadPool.Returns
import Leano.ThreadPool.Returns
import Leano.SyncQueue.AtRest
import Leano.ConditionQueue.AtRest
import Leano.DBOperation.Rows
import Leano.ThreadPool.Overrun
