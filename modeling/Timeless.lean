import Timeless.Blocks.Bounded
import Timeless.Blocks.Count
import Timeless.Blocks.Limits
import Timeless.Blocks.MetadataText
import Timeless.Blocks.Retention
import Timeless.Blocks.RoundTrip
import Timeless.Blocks.Stream
import Timeless.Codec.Typed
import Timeless.Engine.Drain
import Timeless.Engine.Grouping
import Timeless.Engine.Savepoints
import Timeless.Ledger
import Timeless.LogsQL.Layout
import Timeless.LogsQL.Logfmt
import Timeless.LogsQL.RepeatingRange
import Timeless.LogsQL.Request
import Timeless.LogsQL.Syslog
import Timeless.LogsQL.TimeFilter
import Timeless.LogsQL.TimeOffset
import Timeless.Metrics.Batch
import Timeless.Metrics.Removal
import Timeless.Query.Calendar
import Timeless.Shared.WriterGate
import Timeless.Spans.Bounded
import Timeless.Spans.Discovery
import Timeless.Spans.RoundTrip
