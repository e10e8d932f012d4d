import Synaptica.Lib.LexOrder
import Synaptica.Lib.BigEndian
import Synaptica.Lib.OrderedMap
import Synaptica.Lib.Versioned
import Synaptica.Storage.Mvcc
import Synaptica.Storage.MvccReads
import Synaptica.Lib.Run
import Synaptica.Tx.Manager
import Synaptica.Tx.Steps
import Synaptica.Lib.Isolation
import Synaptica.Storage.MvccFrame
import Synaptica.Tx.FirstCommitter
import Synaptica.Tx.Interleaving
import Synaptica.Tx.Recovery
import Synaptica.Tx.RepeatableRead
import Synaptica.Tx.SnapshotIsolation
import Synaptica.Tx.Snapshots
import Synaptica.Cluster.ApplyOnce
import Synaptica.Cluster.DecisionLog
import Synaptica.Cluster.TwoPhaseAgreement
import Synaptica.Storage.GraphIsolation
import Synaptica.Exec.Concurrency
import Synaptica.Server.Dispatch
import Synaptica.Exec.Rows
import Synaptica.Exec.Columns
import Synaptica.Exec.Reading
import Synaptica.Exec.Paths
import Synaptica.Exec.PropertyAccess
import Synaptica.Exec.PatternJoin
import Synaptica.Exec.Continuation
import Synaptica.Storage.UniqueRace
import Synaptica.Storage.MvccGc
import Synaptica.Storage.MvccScan
import Synaptica.Storage.ValueKeys
import Synaptica.Storage.IndexContents
import Synaptica.Storage.IndexEffects
import Synaptica.Storage.NodeRemoval
import Synaptica.Exec.Upkeep
import Synaptica.Tx.Publishing
import Synaptica.Exec.IndexUpkeep
import Synaptica.Exec.IndexRewrite
import Synaptica.Gql.InsertShape
import Synaptica.Gql.Lexer
import Synaptica.Gql.StringLiterals
import Synaptica.Gql.Spans
import Synaptica.Exec.Calls
import Synaptica.Exec.Contents
import Synaptica.Lib.Success
import Synaptica.Storage.GraphState
import Synaptica.Exec.Successes
import Synaptica.Exec.WriteEffects
import Synaptica.Exec.Statistics
import Synaptica.Exec.Deletions
import Synaptica.Exec.Insertions
import Synaptica.Exec.SetItems
import Synaptica.Lib.Binary64
import Synaptica.Core.FloatOrder
import Synaptica.Exec.SortOrder
import Synaptica.Exec.Arithmetic
import Synaptica.Lib.Champion
import Synaptica.Exec.RowOrder
import Synaptica.Lib.Collect
import Synaptica.Exec.Grouping
import Synaptica.Lib.DistinctBy
import Synaptica.Exec.Distinct
import Synaptica.Exec.AggregateExpr
import Synaptica.Exec.OrderBy
import Synaptica.Cluster.InDoubt
import Synaptica.Cluster.LogRefinement
import Synaptica.Exec.HashJoin
import Synaptica.Exec.ExpandStep
import Synaptica.Exec.LabelLists
import Synaptica.Exec.Equality
import Synaptica.Lib.Selection
import Synaptica.Gql.Optimizer
import Synaptica.Exec.FilterPushdown
import Synaptica.Lib.Failures
import Synaptica.Gql.Semantic
import Synaptica.Exec.Lookup
import Synaptica.Exec.Scoping
import Synaptica.Lib.Intervals
import Synaptica.Cluster.Partition
import Synaptica.Lib.Chunks
import Synaptica.Server.ChunkRows
import Synaptica.Lib.LossyUtf8
import Synaptica.Server.Export
import Synaptica.Lib.Terminated
import Synaptica.Lib.TextPosition
import Synaptica.Storage.FullText
import Synaptica.Lib.Segments
import Synaptica.Exec.IsoDuration
import Synaptica.Gql.Parser
import Synaptica.Gql.Printing
import Synaptica.Gql.ParserSteps
import Synaptica.Gql.Precedence
import Synaptica.Gql.RoundTrip
import Synaptica.Lib.Ending
import Synaptica.Gql.ParserRules
import Synaptica.Gql.ExpressionEnds
import Synaptica.Gql.StatementParser
import Synaptica.Gql.StatementEnds
import Synaptica.Gql.ErrorPositions
import Synaptica.Gql.StatementPrinting
import Synaptica.Gql.Layout
import Synaptica.Gql.Accepting
import Synaptica.Gql.PatternRoundTrip
import Synaptica.Gql.ProgramRoundTrip
import Synaptica.Tx.Collecting
import Synaptica.Server.Import
