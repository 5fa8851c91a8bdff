import Afabric.Queue.Link
import Afabric.Sched.Heap
import Afabric.Sched.Splay
import Afabric.Sched.CalendarRefines
import Afabric.Sched.Dispatch
import Afabric.Apps.Workload
import Afabric.Tcp.Delivery
import Afabric.Tcp.Sacker
import Afabric.Tcp.ScoreBoard1Spec
import Afabric.Tcp.CeTracker
import Afabric.Tcp.FastRetransmit
import Afabric.Routing.DvNetwork
import Afabric.Queue.SrrRounds
import Afabric.Classifier.MultiPath
import Afabric.Queue.DrrFairness
import Afabric.Linkstate.AckMatching
import Afabric.Routing.AodvNetwork
import Afabric.Routing.AodvErrors
import Afabric.Routing.AodvAgent
import Afabric.Queue.LinkDelay
import Afabric.Linkstate.LsGenuine
import Afabric.Queue.Victims
import Afabric.Tcp.WorkConserving
import Afabric.Tcp.FirstBlock
import Afabric.Tcp.RqEmpty
import Afabric.Queue.FqRuns
import Afabric.Mac.Mac8023Runs
import Afabric.Mcast.LossDetection
import Afabric.Tcp.Rtt
import Afabric.Tcp.LazyPriority
import Afabric.Tcp.EcnAlpha
import Afabric.Queue.Red
import Afabric.Apps.OracleBound
import Afabric.Tcp.MsgFlags
import Afabric.Routing.Address
import Afabric.Tools.RngJump
import Afabric.Tcp.SnoopRuns
import Afabric.Tcp.ScoreBoardRHRuns
import Afabric.Queue.SfqRounds
import Afabric.Linkstate.LsAborts
import Afabric.Routing.RouteEntries
import Afabric.Classifier.HashClassifier
import Afabric.Mcast.RcvGaps
import Afabric.Tcp.AckRecons
import Afabric.Tcp.SegRecordsRuns
import Afabric.Apps.CdfLookup
import Afabric.Queue.SmartCounts
import Afabric.Queue.SemanticCounts
import Afabric.Routing.NixVec
import Afabric.Queue.CbqServes
import Afabric.Queue.BitErrors
import Afabric.Common.PacketPool
import Afabric.Mcast.SrmBits
import Afabric.Diffserv.Metering
import Afabric.Diffserv.DsFair
