import GemFi.Transitions
import GemFi.LinkedLists
import GemFi.AssocTotals
import GemFi.ThreadInfo
import GemFi.FaultQueue
import GemFi.QueueRepresentation
import GemFi.QueueHistory
import GemFi.Corruption
import GemFi.FaultScan
import GemFi.FaultRuns
import GemFi.FaultOrder
import GemFi.Activation
import GemFi.ActivationCount
import GemFi.StageGates
import GemFi.ContextAgreement
import GemFi.Hooks
import GemFi.FetchSchedule
import GemFi.Calls
import GemFi.GlobalTotals
import GemFi.Cycles
import GemFi.PauseFreeze
import GemFi.FaultSpecs
import GemFi.OpcodeFaults
import GemFi.DecodeCache
import GemFi.DecodeLeak
import GemFi.CpuSwitch
import GemFi.ElapsedTicks
import GemFi.MemoryTemplates
import GemFi.LoadReplays
import GemFi.StageFrames
import GemFi.StageNumbering
import GemFi.TokenStream
import GemFi.FaultFile
import GemFi.FaultRecords
import GemFi.FaultRoundTrip
import GemFi.CampaignWorkers
import GemFi.FaultGenerators
import GemFi.ExperimentTiming
import GemFi.RestartingMeets
import GemFi.TrainingTable
import GemFi.BinnedStacks
import GemFi.Outcomes
import GemFi.EventQueue
import GemFi.EventBins
import GemFi.EventOrder
import GemFi.SimulatedTime
import GemFi.AsyncQueues
import GemFi.UndoLogs
import GemFi.RegisterRename
import GemFi.RegisterConservation
import GemFi.RenameRollback
import GemFi.RenameStage
import GemFi.RenameOrder
import GemFi.Rings
import GemFi.ByteRanges
import GemFi.SortedMaps
import GemFi.Intervals
import GemFi.Survivors
import GemFi.NodeLists
import GemFi.LsqUnit
import GemFi.LsqInvariant
import GemFi.LsqWriteBack
import GemFi.LsqExecution
import GemFi.LsqRuns
import GemFi.LsqViolations
import GemFi.LsqForwarding
import GemFi.AddrRangeMap
import GemFi.AddressDecoding
import GemFi.FunctionalPacket
import GemFi.FunctionalReads
import GemFi.LoadLocks
import GemFi.Reservations
import GemFi.MshrQueue
import GemFi.MshrLists
import GemFi.MshrBookkeeping
import GemFi.AlphaTlb
import GemFi.TlbMirror
import GemFi.ScanSoundness
import GemFi.FiringRounds
import GemFi.OncePerEvent
import GemFi.OperandBytes
import GemFi.ByteLoops
import GemFi.OperandFlips
import GemFi.DecodingFields
import GemFi.DecodingSlots
import GemFi.Rescheduling
import GemFi.Significance
import GemFi.FetchThread
import GemFi.Reloading
import GemFi.TickFaults
import GemFi.Comparators
import GemFi.ExperimentOrder
import GemFi.FirstOfEach
import GemFi.KeptSections
import GemFi.Rankings
import GemFi.PrecisionRecall
import GemFi.BestThreshold
import GemFi.BestPaths
import GemFi.HmmDecoding
import GemFi.FreeRegisters
import GemFi.RobSquash
import GemFi.InterleavedLookup
import GemFi.TlbLookup
import GemFi.RecencyOrders
import GemFi.LruSet
import GemFi.LruReplacement
import GemFi.QuietHooks
import GemFi.BitFields
import GemFi.WideMultiply
import GemFi.OverflowTraps
import GemFi.ByteManipulation
import GemFi.UnalignedAccess
import GemFi.SlidingWindows
import GemFi.TimeBuffers
import GemFi.ClockEdges
import GemFi.ClockedObjects
import GemFi.ClockDomains
import GemFi.ClockRuns
import GemFi.FaultFileEnds
import GemFi.QueueCheck
import GemFi.CoherenceProtocol
import GemFi.CoherenceRoles
import GemFi.CoherenceMoves
import GemFi.CoherenceOwnership
import GemFi.CoherenceSteps
import GemFi.CoherenceRuns
import GemFi.CoherenceProgress
import GemFi.CoherenceRest
import GemFi.SnoopingCaches
import GemFi.SnoopingLines
import GemFi.SnoopingAccess
import GemFi.SnoopingRuns
import GemFi.SnoopingLocks
import GemFi.OutOfOrder
import GemFi.OutOfOrderRenaming
import GemFi.OutOfOrderValues
import GemFi.OutOfOrderRuns
import GemFi.FunctionalUnits
import GemFi.IssueOrder
import GemFi.InstructionIssue
import GemFi.BranchPredictor
import GemFi.BranchRollback
