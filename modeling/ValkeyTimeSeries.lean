import ValkeyTimeSeries.Common.ExponentialSearch
import ValkeyTimeSeries.Common.InternerProtocol
import ValkeyTimeSeries.Stream.BitField
import ValkeyTimeSeries.Series.AnyOrder
import ValkeyTimeSeries.Series.Grouping
import ValkeyTimeSeries.Series.Reports
import ValkeyTimeSeries.Series.Trims
import ValkeyTimeSeries.Compaction.Archive
import ValkeyTimeSeries.Compaction.OneByOne
import ValkeyTimeSeries.Compaction.Policy
import ValkeyTimeSeries.Compaction.RuleGraph
import ValkeyTimeSeries.Fanout.ClusterMap
import ValkeyTimeSeries.Fanout.Completion
import ValkeyTimeSeries.Index.KeyBuffer
import ValkeyTimeSeries.Index.LabelStats
import ValkeyTimeSeries.Index.MigrationSafety
import ValkeyTimeSeries.Index.Payload
import ValkeyTimeSeries.Index.Reindexing
import ValkeyTimeSeries.Index.Selectors
import ValkeyTimeSeries.Aggregators.Exactness
import ValkeyTimeSeries.MRange.Fanout
