import HyLink.Theory.Machine
import HyLink.Theory.Rounds
import HyLink.Theory.Settling
import HyLink.Ir.Slices
import HyLink.Compiler.Agreement
import HyLink.Compiler.Active
import HyLink.Executor.Readers
import HyLink.Executor.Progress
import HyLink.Fastpath.Reduction
import HyLink.Fastpath.SeriesCompletion
import HyLink.Fastpath.SeriesRefinement
import HyLink.Memory.Barrier
import HyLink.Memory.Attachment
import HyLink.Memory.CommWords
import HyLink.Memory.IpcRecord
import HyLink.Memory.ProgressSlots
import HyLink.Executor.Containment
import HyLink.Executor.Quiescence
import HyLink.Api.IndexBounds
import HyLink.Memory.ReaderDone
import HyLink.Memory.Doorbell
import HyLink.Executor.Epochs
import HyLink.Executor.Waits
import HyLink.Executor.HostWork
import HyLink.Orchestrator.ScopeAgreement
import HyLink.Orchestrator.FastOnly
import HyLink.Orchestrator.StagingTurns
import HyLink.Orchestrator.SplitResult
import HyLink.Orchestrator.StatRows
import HyLink.Ascend.CommSlots
import HyLink.Ascend.StagingRegions
import HyLink.Ascend.EpochReset
import HyLink.Orchestrator.StoreAttach
import HyLink.Ascend.H2HCompletion
import HyLink.Api.Submit
import HyLink.Api.PlanLifetime
import HyLink.Api.Choice
import HyLink.Api.Announce
import HyLink.Api.EntryPoints
import HyLink.Api.BufferAgreement
import HyLink.Api.Group
import HyLink.Orchestrator.LocalWaits
import HyLink.Orchestrator.LaunchAgreement
import HyLink.Orchestrator.DomainLifetime
import HyLink.Orchestrator.CommIdentity
import HyLink.Api.IrSelection
import HyLink.Api.IrLoader
import HyLink.Api.CommSegment
import HyLink.Api.CommSplit
import HyLink.Orchestrator.RatioBounds
import HyLink.Orchestrator.SizeBucket
import HyLink.Orchestrator.TokenRing
import HyLink.Orchestrator.Convergence
import HyLink.Ascend.H2HShards
import HyLink.Ascend.HostChunks
import HyLink.Orchestrator.KeyIndependence
import HyLink.Orchestrator.SenseBarrier
import HyLink.Orchestrator.PendingFifo
import HyLink.Orchestrator.TimerQueryPool
import HyLink.Hal.HostRt
import HyLink.Api.Finalization
import HyLink.Executor.H2HPoolRuns
import HyLink.Ascend.H2HRangeEnds
import HyLink.Executor.Serial
import HyLink.Executor.Completion
import HyLink.Api.ShippedPrograms
