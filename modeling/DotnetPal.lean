import DotnetPal.Foundations.OrderedMap
import DotnetPal.Foundations.Hierarchy
import DotnetPal.Foundations.DirectoryTree
import DotnetPal.Foundations.Programs
import DotnetPal.Foundations.GrowableArray
import DotnetPal.Foundations.Extents
import DotnetPal.Port
import DotnetPal.Memfs.Content
import DotnetPal.Memfs.Queue
import DotnetPal.Memfs.QueueSound
import DotnetPal.Memfs.State
import DotnetPal.Memfs.Nodes
import DotnetPal.Memfs.Files
import DotnetPal.Memfs.Watches
import DotnetPal.Memfs.Mappings
import DotnetPal.Memfs.Calls
import DotnetPal.Memfs.Core
import DotnetPal.Memfs.CoreTree
import DotnetPal.Memfs.CoreSound
import DotnetPal.Memfs.CoreSteps
import DotnetPal.Memfs.CoreFiles
import DotnetPal.Memfs.Lookup
import DotnetPal.Memfs.WalkSound
import DotnetPal.Memfs.Effects
import DotnetPal.Memfs.Commits
import DotnetPal.Memfs.Locks
import DotnetPal.Memfs.Deeds
import DotnetPal.Memfs.Outcomes
import DotnetPal.Memfs.Watchers
import DotnetPal.Memfs.Refinement
import DotnetPal.Memfs.Hearing
import DotnetPal.Memfs.Listing
import DotnetPal.Memfs.Told
import DotnetPal.Memfs.Attending
import DotnetPal.Memfs.Runs
import DotnetPal.Memfs.Guarantees
import DotnetPal.Memfs.Enumeration
import DotnetPal.Memfs.LockTables
import DotnetPal.Memfs.LockRuns
import DotnetPal.Memfs.WatchGuarantees
import DotnetPal.Memfs.Contents
import DotnetPal.Storage.Ledger
import DotnetPal.Foundations.Machines
import DotnetPal.Native.Descriptors
import DotnetPal.Foundations.Flags
import DotnetPal.Native.EventPort
import DotnetPal.Native.EventRounds
import DotnetPal.Foundations.LinkedQueue
import DotnetPal.Native.Monitor
import DotnetPal.Foundations.Ring
import DotnetPal.Native.PipeStart
import DotnetPal.Native.Pipes
import DotnetPal.Native.Transfers
import DotnetPal.Native.Polling
import DotnetPal.Native.Children
import DotnetPal.Linux.ChildProcess
import DotnetPal.Foundations.Alignments
import DotnetPal.Linux.Reservation
import DotnetPal.Memfs.MappingCounts
import DotnetPal.Native.FileMappings
import DotnetPal.Native.MappingTable
import DotnetPal.Boundary.Handlers
import DotnetPal.Boundary.Notifications
import DotnetPal.Native.Console
import DotnetPal.StdCommon.ThreadLocal
import DotnetPal.Desktop.ChildProcess
import DotnetPal.Boundary.FrontEnds
import DotnetPal.Memfs.QueueRuns
import DotnetPal.Foundations.KeyedList
import DotnetPal.Desktop.Watches
import DotnetPal.Desktop.WatchReports
import DotnetPal.Desktop.WatchEnds
import DotnetPal.Desktop.Departures
import DotnetPal.Desktop.Disappearances
import DotnetPal.Desktop.Renames
import DotnetPal.Desktop.Replays
import DotnetPal.Desktop.DirectoryScans
import DotnetPal.Desktop.RenameReports
import DotnetPal.Storage.Arena
import DotnetPal.Storage.ArenaRuns
import DotnetPal.Storage.GcAdapter
import DotnetPal.Storage.GcRegions
import DotnetPal.Foundations.Spans
import DotnetPal.Wasm.Grow
import DotnetPal.Wasm.FreeList
import DotnetPal.Wasm.GrowRuns
import DotnetPal.Wasm.Growth
import DotnetPal.Memfs.Renames
import DotnetPal.Memfs.Resolver
import DotnetPal.Foundations.Descents
import DotnetPal.Memfs.CanonicalPaths
import DotnetPal.Freestanding.ScanInteger
import DotnetPal.Native.Affinity
import DotnetPal.Linux.CgroupPaths
import DotnetPal.Memfs.TimedReads
import DotnetPal.Linux.Lines
