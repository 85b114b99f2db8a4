import EaHalfHour.LabelledRun
import EaHalfHour.AtomicObject
import EaHalfHour.RecencyMap
import EaHalfHour.KvMessage
import EaHalfHour.KvCache
import EaHalfHour.SendLoop
import EaHalfHour.ProxyNode
import EaHalfHour.RoutingTable
import EaHalfHour.RestfulService
import EaHalfHour.ForwardGraph
import EaHalfHour.DeliveredRouting
import EaHalfHour.PeerLists
import EaHalfHour.ForwardedStatus
import EaHalfHour.FrontEnds
import EaHalfHour.ClusterNetwork
import EaHalfHour.ShardPlacement
import EaHalfHour.ResponseOrigin
import EaHalfHour.Retransmission
import EaHalfHour.ClusterRefinement
import EaHalfHour.LockedCache
import EaHalfHour.UnlockedCache
import EaHalfHour.CacheHistory
import EaHalfHour.CacheCapacity
import EaHalfHour.SlottedMap
import EaHalfHour.RedisStore
import EaHalfHour.RedisCli
import EaHalfHour.DecimalText
import EaHalfHour.PartitionTag
import EaHalfHour.LexicalPath
import EaHalfHour.WebService
import EaHalfHour.JsonText
import EaHalfHour.VueCache
import EaHalfHour.UrlText
import EaHalfHour.CacheUi
import EaHalfHour.RepeatedExecution
import EaHalfHour.CacheGrowth
import EaHalfHour.CacheAsMap
import EaHalfHour.ClusterAsMap
import EaHalfHour.ExecutionLog
import EaHalfHour.CallProgress
import EaHalfHour.RetryBound
import EaHalfHour.RollingUpgrade
import EaHalfHour.KvClient
import EaHalfHour.LockProgress
import EaHalfHour.FrontEndSession
import EaHalfHour.RedisPress
import EaHalfHour.StatementCluster
import EaHalfHour.Loans
import EaHalfHour.SessionServer
import EaHalfHour.SessionChecks
import EaHalfHour.SessionRuns
import EaHalfHour.StatementMap
import EaHalfHour.CallTree
import EaHalfHour.Cascade
import EaHalfHour.CascadeTree
import EaHalfHour.CascadeRuns
import EaHalfHour.CascadeAnswers
