import Ozymandias.ChunkResume
import Ozymandias.WalCorruption
import Ozymandias.FailedAppend
import Ozymandias.CompactMerge
import Ozymandias.AppendRuns
import Ozymandias.BlockDirs
import Ozymandias.LogFinds
import Ozymandias.LogValues
import Ozymandias.MetricRoundTrip
import Ozymandias.FillGaps
import Ozymandias.SketchCodec
import Ozymandias.MonitorHistory
import Ozymandias.MetricGrid
import Ozymandias.NotifyRuns
import Ozymandias.TagNames
import Ozymandias.HistogramDeltas
import Ozymandias.LabelSeries
import Ozymandias.HeadSampling
import Ozymandias.RetryQueue
import Ozymandias.SpanStack
import Ozymandias.Routes
