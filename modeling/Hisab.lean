import Hisab.Core.IntrusivePtrRuns
import Hisab.Coverage.EveryHit
import Hisab.Coverage.HtmlReport
import Hisab.Coverage.MergedCoverage
import Hisab.Graph.DiscoveryEdges
import Hisab.Graph.DiscoveryTermination
import Hisab.Graph.GraphExecutor
import Hisab.Graph.ResolveExceptions
import Hisab.Logging.StringUtil
import Hisab.Memory.BestFit
import Hisab.Memory.CacheTrim
import Hisab.Memory.FailedAllocations
import Hisab.Memory.MetalAgreement
import Hisab.Memory.PeakStats
import Hisab.Memory.RecordStream
import Hisab.Memory.RequestSizes
import Hisab.Memory.Teardown
import Hisab.Parallel.ControlFutures
import Hisab.Parallel.FunctorInitialize
import Hisab.Parallel.JobLedger
import Hisab.Parallel.LocalScope
import Hisab.Parallel.ParallelChunks
import Hisab.Parallel.ParallelScope
import Hisab.Parallel.PoolShutdown
import Hisab.Parallel.ResultOrder
import Hisab.Parallel.WorkerExits
import Hisab.Profiler.AnnotationRoundTrip
import Hisab.Profiler.CrossThreadEvents
import Hisab.Profiler.Flows
import Hisab.Profiler.GpuTimes
import Hisab.Profiler.LiveScopes
import Hisab.Profiler.MemoryTrackerRuns
import Hisab.Profiler.NodeSummaries
import Hisab.Profiler.QueueRefinement
import Hisab.Profiler.RecordFunctionCalls
import Hisab.Profiler.SampledCallbacks
import Hisab.Profiler.SessionRuns
import Hisab.Profiler.SessionSteps
import Hisab.Profiler.StatWrites
import Hisab.Profiler.SurvivingNames
import Hisab.Profiler.TraceFilter
import Hisab.Profiler.TreeRebuilt
import Hisab.Profiler.XPlaneUtils
import Hisab.Unwind.FrameRows
import Hisab.Unwind.RangeTable
import Hisab.Vectorization.Packed
import Hisab.Vectorization.Reductions
import Hisab.Vectorization.SelfAssignment
import Hisab.Vectorization.ViewPrograms
