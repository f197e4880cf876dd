import Windgent.Transition
import Windgent.Stream
import Windgent.SocketStream
import Windgent.ByteArray.Retry
import Windgent.ByteArray.Strings
import Windgent.ByteArray.NullNode
import Windgent.IOManager.Ledger
import Windgent.IOManager.Dispatch
import Windgent.IOManager.Tickle
import Windgent.IOManager.Timeout
import Windgent.FdTables
import Windgent.TimerManager.Armed
import Windgent.TimerManager.Wakeup
import Windgent.TimerManager.Expiry
import Windgent.TimerManager.Cancel
import Windgent.Scheduler.Shutdown
import Windgent.Scheduler.Quiescence
import Windgent.Hook.Timeout
import Windgent.Hook.Nonblock
import Windgent.Hook.Sleep
import Windgent.Http.Chunks
import Windgent.Http.ChunkedBody
import Windgent.Http.PoolLimits
import Windgent.Http.Server
import Windgent.Http.RequestRoundTrip
import Windgent.Http.Exchange
import Windgent.Http.Framing
import Windgent.UriParser.Create
import Windgent.ConfigVar
import Windgent.Log
import Windgent.Address.Subnet
import Windgent.Address.Order
import Windgent.Address.Text
import Windgent.Address.Host
import Windgent.Http.Method
import Windgent.Http.Routing
import Windgent.ConfigMgr
import Windgent.LogFormatter
import Windgent.LogDefine
import Windgent.Appenders
import Windgent.TcpServer
import Windgent.Fiber
import Windgent.ByteArray.Varint
import Windgent.ByteArray.Zigzag
import Windgent.Http.Traffic
import Windgent.Http.DoRequest
import Windgent.UriParser.Dump
import Windgent.Locks
import Windgent.ConfigLookup
import Windgent.LexicalCast
import Windgent.Hook.Descriptors
import Windgent.AcceptLoop
import Windgent.Threads
import Windgent.Sockets
import Windgent.SocketTransfer
import Windgent.LoggerYaml
