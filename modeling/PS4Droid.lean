import PS4Droid.Common.BitSearch
import PS4Droid.Common.LruSweep
import PS4Droid.Common.SlotVector
import PS4Droid.Fiber.Exclusion
import PS4Droid.Fiber.StackMargin
import PS4Droid.FileFormat.PsfDictionary
import PS4Droid.FileSystem.DirectoryReads
import PS4Droid.GuestCpu.HleCalls
import PS4Droid.GuestCpu.Validations
import PS4Droid.Input.LinkSpec
import PS4Droid.Input.SnapshotScan
import PS4Droid.Kernel.EqueueDelivery
import PS4Droid.Kernel.TimerInterval
import PS4Droid.Libc.ArenaBytes
import PS4Droid.Libc.ArenaCoalescing
import PS4Droid.Libc.ArenaFirstFit
import PS4Droid.Libc.MspaceInvariant
import PS4Droid.Memory.Available
import PS4Droid.Memory.BackingWrites
import PS4Droid.Memory.Clamping
import PS4Droid.Memory.Decommitting
import PS4Droid.Memory.DirectMappings
import PS4Droid.Memory.DirectQuery
import PS4Droid.Memory.FlexibleMemory
import PS4Droid.Memory.HostReservation
import PS4Droid.Memory.Meaning
import PS4Droid.Memory.Placement
import PS4Droid.Memory.PoolMemory
import PS4Droid.Memory.Protection
import PS4Droid.Memory.Release
import PS4Droid.Memory.Rounding
import PS4Droid.Memory.Unmapping
import PS4Droid.Network.HeaderLookup
import PS4Droid.Network.UriEscape
import PS4Droid.Network.UriWriting
import PS4Droid.Np.ActivationBudget
import PS4Droid.Np.Addressing
import PS4Droid.Np.EventOrder
import PS4Droid.Np.Handshakes
import PS4Droid.Np.Registry
import PS4Droid.Np.ReportedStatus
import PS4Droid.Np.Timers
import PS4Droid.Pkg.DirentWalk
import PS4Droid.Pkg.ExtractSpec
import PS4Droid.Pkg.PfscAgreement
import PS4Droid.Pkg.Sha256Messages
import PS4Droid.Rtc.CalendarShifts
import PS4Droid.Rtc.DosTime
import PS4Droid.Rtc.RoundTrip
import PS4Droid.Runtime.DiagnosticRedactor
import PS4Droid.Runtime.InstallSpec
import PS4Droid.Runtime.RuntimeFrames
import PS4Droid.Runtime.Session
import PS4Droid.Shader.AncillaryUses
import PS4Droid.Shader.LdsBarriers
import PS4Droid.Shader.PostOrder
import PS4Droid.Shader.Uses
import PS4Droid.Threads.CondvarInvariant
import PS4Droid.Threads.EventFlagInvariant
import PS4Droid.Threads.SleepQueueRuns
import PS4Droid.Threads.SpecificDataInvariant
import PS4Droid.Threads.TimedRuns
import PS4Droid.VideoCore.CacheStorage
import PS4Droid.VideoCore.DirtyRanges
import PS4Droid.VideoCore.ImageLayout
import PS4Droid.VideoCore.PipelineWarmUp
import PS4Droid.VideoCore.Requests
import PS4Droid.VideoCore.ShaderMetaRoundTrip
import PS4Droid.VideoCore.StreamRegions
import PS4Droid.VideoCore.WatchRequests
