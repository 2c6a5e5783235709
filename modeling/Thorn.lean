import Thorn.AHCICommands
import Thorn.AHCIDevice
import Thorn.AHCIFlat
import Thorn.AHCIFlush
import Thorn.AHCIPort
import Thorn.AHCIRuns
import Thorn.AHCIWrites
import Thorn.AddedEntries
import Thorn.AssignPages
import Thorn.BootPaging
import Thorn.Cache
import Thorn.CacheNodes
import Thorn.CallEnds
import Thorn.CallOutcomes
import Thorn.CanonicalPaths
import Thorn.ChainWalks
import Thorn.ConfinedWrites
import Thorn.CountedCalls
import Thorn.CreatedFiles
import Thorn.CurrentCopies
import Thorn.DeviceClears
import Thorn.DeviceTwins
import Thorn.DirectoryNames
import Thorn.EarlyPages
import Thorn.EmptyDisk
import Thorn.EntryOffsets
import Thorn.FailedCalls
import Thorn.FatCalls
import Thorn.FatCreate
import Thorn.FatDriver
import Thorn.FatEffects
import Thorn.FatFlat
import Thorn.FatFormat
import Thorn.FatImage
import Thorn.FatLookup
import Thorn.FatMount
import Thorn.FatNewFile
import Thorn.FatOperations
import Thorn.FatPositions
import Thorn.FatRead
import Thorn.FatResize
import Thorn.FatSample
import Thorn.FatState
import Thorn.FatTree
import Thorn.FatTypes
import Thorn.FatWrite
import Thorn.FilePlaces
import Thorn.FileRuns
import Thorn.FileViews
import Thorn.ForgottenBlocks
import Thorn.FormatFaults
import Thorn.FoundPaths
import Thorn.FreeCount
import Thorn.FreshPIDs
import Thorn.HeapBlocks
import Thorn.HeapCalls
import Thorn.HeapLimits
import Thorn.HeapMemory
import Thorn.HeapPairs
import Thorn.HeapRefines
import Thorn.HeapRuns
import Thorn.HeldKeys
import Thorn.IDEDevice
import Thorn.IDEFiles
import Thorn.IDERequests
import Thorn.IDETaskFile
import Thorn.InterruptReturns
import Thorn.InterruptStubs
import Thorn.Keyboard
import Thorn.LexicalRuns
import Thorn.Library.Bits
import Thorn.Library.BlockFold
import Thorn.Library.Blocks
import Thorn.Library.ByteStack
import Thorn.Library.Bytes
import Thorn.Library.LinkedChain
import Thorn.Library.NamedStore
import Thorn.Library.Radix
import Thorn.Library.Runs
import Thorn.Library.Twins
import Thorn.LineEditor
import Thorn.Locks
import Thorn.MemoryBounds
import Thorn.Mutex
import Thorn.NewFileBlocks
import Thorn.OtherFiles
import Thorn.PCICapabilities
import Thorn.PageFrames
import Thorn.PageRuns
import Thorn.PageTables
import Thorn.ParentCopies
import Thorn.PathHelpers
import Thorn.PathNames
import Thorn.Paths
import Thorn.PlacedEntries
import Thorn.Printf
import Thorn.PrintfText
import Thorn.PrintfNumbers
import Thorn.PrintfDirectives
import Thorn.Shell
import Thorn.MountedDisks
import Thorn.ShellDesks
import Thorn.ShellWords
import Thorn.Processes
import Thorn.ReadContent
import Thorn.RecutFiles
import Thorn.RemovedDirectories
import Thorn.RenameEdits
import Thorn.RenameLosses
import Thorn.RenameMoves
import Thorn.RenameOutcomes
import Thorn.ResizeBlocks
import Thorn.ReworkedFiles
import Thorn.RootCopies
import Thorn.SHA1
import Thorn.SHA1Rounds
import Thorn.SHA1Runs
import Thorn.SpaceChecks
import Thorn.SplitPieces
import Thorn.TableWalks
import Thorn.Terminal
import Thorn.TreeEdits
import Thorn.TreeMoves
import Thorn.TreeNames
import Thorn.WriteContent
import Thorn.KeptSuperblock
import Thorn.ShellSessions
