import Dmm.Epoll.Fairness
import Dmm.Epoll.Wakeup
import Dmm.FdClose
import Dmm.Ip.AddressTree
import Dmm.Ip.Registry
import Dmm.Mbox.Close
import Dmm.Mem.PoolIterator
import Dmm.Mem.SegmentSizes
import Dmm.Mgr.Conserve
import Dmm.Mgr.Deadlock
import Dmm.Mgr.Sockets
import Dmm.Netconn.Abort
import Dmm.Netconn.Delete
import Dmm.Netconn.Mirror
import Dmm.Netconn.Rcvevent
import Dmm.Netconn.Recycle
import Dmm.Netconn.SetUp
import Dmm.Netconn.Shutdown
import Dmm.Netif.Input
import Dmm.Netif.Output
import Dmm.PbufCopy
import Dmm.Ps.Exit
import Dmm.Ps.MemBounds
import Dmm.Ptimer
import Dmm.ResMgr
import Dmm.Ring.NshmemFork
import Dmm.Ring.NshmemOrder
import Dmm.Ring.Reset
import Dmm.Ring.ShmemConcurrent
import Dmm.Ring.ShmemConserve
import Dmm.Ring.ShmemSpsc
import Dmm.Route
import Dmm.Rwlock
import Dmm.Sbr.IndexRing
import Dmm.Select.Entries
import Dmm.Select.TrySelect
import Dmm.Tcp.Receive
import Dmm.Tcp.Send
import Dmm.Tcp.Timeout
import Dmm.Tcp.WriteExact
import Dmm.Udp.Receive
import Dmm.Udp.Send
