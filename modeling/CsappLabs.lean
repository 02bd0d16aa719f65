import CsappLabs.Lib.System
import CsappLabs.Lib.Threads
import CsappLabs.Lib.CInt
import CsappLabs.Lib.CircularBuffer
import CsappLabs.Proxy.Buffer
import CsappLabs.Proxy.Ring
import CsappLabs.Proxy.Cache
import CsappLabs.Proxy.Worker
import CsappLabs.Proxy.Hit
import CsappLabs.Proxy.Serial
import CsappLabs.Proxy.Replies
import CsappLabs.Proxy.Url
import CsappLabs.Proxy.Message
import CsappLabs.Proxy.Headers
import CsappLabs.Proxy.Limits
import CsappLabs.Proxy.Newest
import CsappLabs.Lib.Recency
import CsappLabs.Lib.Fifo
import CsappLabs.Proxy.Eviction
import CsappLabs.Shell.Jobs
import CsappLabs.Shell.Eval
import CsappLabs.Shell.Children
import CsappLabs.Shell.Coherence
import CsappLabs.Shell.Signals
import CsappLabs.Shell.Reports
import CsappLabs.Shell.Named
import CsappLabs.CacheLab.Csim
import CsappLabs.CacheLab.Counters
import CsappLabs.CacheLab.Lru
import CsappLabs.CacheLab.Lines
import CsappLabs.Lib.Keyed
import CsappLabs.CacheLab.Sets
import CsappLabs.CacheLab.Hits
import CsappLabs.CacheLab.Contents
import CsappLabs.Lib.Scanf
import CsappLabs.CacheLab.Trace
import CsappLabs.Lib.Loops
import CsappLabs.CacheLab.Trans
import CsappLabs.Lib.Memory
import CsappLabs.MallocLab.Mm
import CsappLabs.Lib.Links
import CsappLabs.Lib.Visits
import CsappLabs.Lib.Tiling
import CsappLabs.MallocLab.Blocks
import CsappLabs.MallocLab.FreeList
import CsappLabs.MallocLab.Coalesce
import CsappLabs.MallocLab.Expand
import CsappLabs.MallocLab.Init
import CsappLabs.MallocLab.Fit
import CsappLabs.MallocLab.Calls
import CsappLabs.MallocLab.Client
import CsappLabs.MallocLab.Runs
import CsappLabs.MallocLab.Exact
import CsappLabs.MallocLab.Footers
import CsappLabs.MallocLab.Isolation
import CsappLabs.MallocLab.Resize
import CsappLabs.MallocLab.Realloc
import CsappLabs.MallocLab.Payloads
import CsappLabs.MallocLab.Sizes
import CsappLabs.MallocLab.Merging
import CsappLabs.MallocLab.Exhaustion
import CsappLabs.MallocLab.Moves
import CsappLabs.MallocLab.FirstFit
import CsappLabs.MallocLab.Passes
import CsappLabs.Lib.Ieee
import CsappLabs.DataLab.Bits
import CsappLabs.DataLab.Float
import CsappLabs.MallocLab.Rounds
import CsappLabs.Lib.CString
import CsappLabs.Shell.Parseline
import CsappLabs.Shell.CommandLine
import CsappLabs.MallocLab.Ranges
import CsappLabs.MallocLab.Driver
import CsappLabs.MallocLab.Breaks
import CsappLabs.MallocLab.Replays
import CsappLabs.MallocLab.Session
import CsappLabs.MallocLab.TraceFile
import CsappLabs.Proxy.Rio
import CsappLabs.Proxy.Relay
import CsappLabs.Proxy.Tiny
import CsappLabs.Proxy.Hop
import CsappLabs.Lib.Reuse
import CsappLabs.CacheLab.Reuse
import CsappLabs.DataLab.Puzzles
import CsappLabs.Lib.Progress
import CsappLabs.Shell.Sweep
import CsappLabs.Shell.Progress
import CsappLabs.Lib.DirectMapped
import CsappLabs.CacheLab.Misses
import CsappLabs.Proxy.Service
import CsappLabs.Shell.Typed
