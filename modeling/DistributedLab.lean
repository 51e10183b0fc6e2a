import DistributedLab.Transition
import DistributedLab.Voting
import DistributedLab.TextStream
import DistributedLab.BigEndian
import DistributedLab.OrderedMap
import DistributedLab.SparseArray
import DistributedLab.Relay
import DistributedLab.NameTree
import DistributedLab.Condition
import DistributedLab.PaxosProtocol
import DistributedLab.PaxosAcceptor
import DistributedLab.PaxosCluster
import DistributedLab.PaxosCalls
import DistributedLab.PaxosPrepare
import DistributedLab.PaxosValidity
import DistributedLab.PaxosHistory
import DistributedLab.PaxosAgreement
import DistributedLab.PaxosTransfer
import DistributedLab.PaxosLog
import DistributedLab.PaxosReplay
import DistributedLab.PaxosPromise
import DistributedLab.PaxosChronicle
import DistributedLab.PaxosCrash
import DistributedLab.Config
import DistributedLab.RsmNode
import DistributedLab.ConfigCluster
import DistributedLab.ConfigHistory
import DistributedLab.ConfigViews
import DistributedLab.ConfigAgreement
import DistributedLab.PaxosShipping
import DistributedLab.RsmPrimary
import DistributedLab.RsmRestart
import DistributedLab.RsmUpcalls
import DistributedLab.RsmInvoke
import DistributedLab.RsmCluster
import DistributedLab.RsmSync
import DistributedLab.RsmBarrier
import DistributedLab.RsmClient
import DistributedLab.Marshall
import DistributedLab.MarshallBuffer
import DistributedLab.WireFormat
import DistributedLab.Fifo
import DistributedLab.ThrPool
import DistributedLab.PollMgr
import DistributedLab.Connection
import DistributedLab.ConnSend
import DistributedLab.ConnSendOrder
import DistributedLab.ConnSendWakeups
import DistributedLab.RpcWindow
import DistributedLab.RpcSystem
import DistributedLab.RpcAtMostOnce
import DistributedLab.RpcTrimming
import DistributedLab.RpcContiguous
import DistributedLab.RpcCalls
import DistributedLab.RpcConnections
import DistributedLab.ConnCallbacks
import DistributedLab.RpcDeadline
import DistributedLab.Handles
import DistributedLab.LockServer
import DistributedLab.LockTransfer
import DistributedLab.LockClient
import DistributedLab.LockSystem
import DistributedLab.LockInvariant
import DistributedLab.LockExclusion
import DistributedLab.LockCache
import DistributedLab.LockCacheQueue
import DistributedLab.LockCacheExclusion
import DistributedLab.ExtentCache
import DistributedLab.ExtentCoherence
import DistributedLab.ExtentTransparency
import DistributedLab.WireBounds
import DistributedLab.RsmStubs
import DistributedLab.LockRepetition
import DistributedLab.Yfs
import DistributedLab.YfsFile
import DistributedLab.YfsDirectory
import DistributedLab.Fuse
import DistributedLab.FuseTree
