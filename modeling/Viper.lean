import Viper.Lib.PyData
import Viper.Lib.Precedence
import Viper.Lib.GraphSat
import Viper.Lib.Versions
import Viper.Lib.Chains
import Viper.Lib.Kahn
import Viper.Lib.Dependencies
import Viper.Lib.Numbering
import Viper.Lib.SimpleCycles
import Viper.Lib.SnapshotStore
import Viper.History
import Viper.Graphs
import Viper.AdyaSI
import Viper.AdyaSIChain
import Viper.Append
import Viper.Checkers
import Viper.Algos
import Viper.BCOrder
import Viper.Instantiation
import Viper.Indices
import Viper.Summaries
import Viper.Scripts
import Viper.AdyaSISpec
import Viper.SnapshotIsolation
import Viper.ChainEncoding
import Viper.ChainOrder
import Viper.ChainMerging
import Viper.AdyaSIChainSpec
import Viper.ChainAgreement
import Viper.OwnUpserts
import Viper.Reasons
import Viper.InitialReads
import Viper.Polygraph
import Viper.Z3Checkers
import Viper.EdgeWeight
import Viper.AppendLog
import Viper.AppendSessions
import Viper.AppendSpec
import Viper.AppendEncoding
import Viper.AppendIsolation
import Viper.AppendVerdict
import Viper.Replay
import Viper.Accesses
import Viper.MissingBounds
import Viper.Phantoms
import Viper.InitialScans
import Viper.AppendTraversal
import Viper.AppendFaults
import Viper.AppendAnomalies
import Viper.EdgeWeightOptimized
import Viper.DebugMode
import Viper.TopoSort
import Viper.EdgeIndex
import Viper.ChainHeuristic
import Viper.Retry
import Viper.SerializationGraph
import Viper.Anomalies
import Viper.WwOrder
import Viper.CycleSearch
import Viper.CycleReports
import Viper.PairHeuristic
import Viper.PairRetry
import Viper.WriteOrder
import Viper.Parse
import Viper.LogIds
import Viper.LogFormats
import Viper.GraphFile
import Viper.NodeIds
import Viper.Assertions
import Viper.RegisterDecision
import Viper.Renumbering
import Viper.SessionOrder
import Viper.AppendDecision
import Viper.JsonLogs
import Viper.Main
import Viper.RegisterStore
import Viper.StoreEvents
import Viper.StoreRuns
import Viper.AppendStore
import Viper.AppendRuns
import Viper.AppendInterleavings
import Viper.Lib.Interleaving
import Viper.FinalHistory
import Viper.FinalState
