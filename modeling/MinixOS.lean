import MinixOS.LoopExecution
import MinixOS.SystemRuns
import MinixOS.KeyedLists
import MinixOS.LinkedHeap
import MinixOS.MailboxState
import MinixOS.MailboxCalls
import MinixOS.MailboxReceive
import MinixOS.MailboxSystem
import MinixOS.MailboxRegistry
import MinixOS.MailboxCapacity
import MinixOS.MailboxPermissions
import MinixOS.MailboxSenders
import MinixOS.MailboxSending
import MinixOS.MailboxDelivery
import MinixOS.MailboxHeap
import MinixOS.MailboxLinking
import MinixOS.MailboxRefinement
import MinixOS.MailboxHandover
import MinixOS.MailboxSuspended
import MinixOS.CheckedExecution
import MinixOS.ReceiverGroups
import MinixOS.LinearProbing
import MinixOS.UndeleteTable
import MinixOS.UndeleteProbing
import MinixOS.UndeleteSystem
import MinixOS.UndeleteFifo
import MinixOS.UndeleteLookup
import MinixOS.UndeleteOrder
import MinixOS.UndeleteTermination
import MinixOS.UndeleteInsertion
import MinixOS.UndeletePaths
import MinixOS.UndeleteScans
import MinixOS.UndeleteRecovery
import MinixOS.UndeleteIndices
import MinixOS.StableQueues
import MinixOS.CommandQueue
import MinixOS.Tokenizer
import MinixOS.TokenizerSteps
import MinixOS.TokenizerForest
import MinixOS.TokenizerConservation
import MinixOS.TokenizerRejection
import MinixOS.TokenizerReading
import MinixOS.TokenizerTermination
import MinixOS.TokenizerText
import MinixOS.ParenDepth
import MinixOS.TokenizerInvariant
import MinixOS.CommandMerging
import MinixOS.TokenizerLayout
import MinixOS.ShellExecution
import MinixOS.AliasFile
import MinixOS.AliasDefinition
import MinixOS.ProfileFile
import MinixOS.ProfileLines
import MinixOS.ProfileRuns
import MinixOS.CommandLine
import MinixOS.CommandSplitting
import MinixOS.WordSlots
import MinixOS.SplittingBounds
import MinixOS.TypedCommands
import MinixOS.ExecutionBarrier
import MinixOS.ExecutionBounds
import MinixOS.ChildWaits
import MinixOS.QueueActions
import MinixOS.WriteBackCache
import MinixOS.InodeState
import MinixOS.InodeCopy
import MinixOS.InodeCache
import MinixOS.InodeView
import MinixOS.InodeRelease
import MinixOS.InodeAllocation
import MinixOS.InodeSystem
import MinixOS.InodeRecovery
import MinixOS.InodeSlots
import MinixOS.InodeZones
import MinixOS.LinkCalls
import MinixOS.InodeCoherence
import MinixOS.LinkCoherence
import MinixOS.LinkSystem
import MinixOS.RecoverAtomicity
import MinixOS.RecoverReferences
import MinixOS.RecordWidths
import MinixOS.InodeUse
import MinixOS.BlockFiles
import MinixOS.FileSpace
import MinixOS.FileHoles
import MinixOS.FileRuns
import MinixOS.DirectoryCalls
import MinixOS.LinkReferences
import MinixOS.RequestRuns
import MinixOS.ParentChains
import MinixOS.DirectoryTree
import MinixOS.DirectoryMoves
import MinixOS.LinkCounts
import MinixOS.LinkRuns
import MinixOS.ShellSession
import MinixOS.RelatedExecutions
import MinixOS.LineIndependence
import MinixOS.ScriptMeaning
