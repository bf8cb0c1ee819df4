import MallocBench.Allocator.Calls
import MallocBench.Allocator.Contract
import MallocBench.Allocator.Extension
import MallocBench.Allocator.FreeAll
import MallocBench.Allocator.Search
import MallocBench.Harness.Coalescing
import MallocBench.Harness.ParticipantStatus
import MallocBench.Scripts.BenchmarkRun
import MallocBench.Scripts.DriverReport
import MallocBench.Scripts.HarnessDiffs
import MallocBench.Scripts.Participants
import MallocBench.Scripts.PerfIndex
import MallocBench.Scripts.Regenerate
import MallocBench.Scripts.RepoSync
import MallocBench.Scripts.ResultFiles
import MallocBench.Scripts.SummaryCsv
import MallocBench.Scripts.TraceCount
import MallocBench.Timing.Fcyc
import MallocBench.Traces.GenRandom
