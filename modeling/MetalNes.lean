import MetalNes.Words
import MetalNes.Loop
import MetalNes.RegionPool
import MetalNes.RingStack
import MetalNes.LinkedPath
import MetalNes.Blocks
import MetalNes.Runs
import MetalNes.LastWrite
import MetalNes.BitFolds
import MetalNes.MultiWord
import MetalNes.Observations
import MetalNes.Patches
import MetalNes.MallocLog
import MetalNes.SkipWalks
import MetalNes.Spans
import MetalNes.Segments
import MetalNes.Outcomes
import MetalNes.ByteWords
import MetalNes.Tilings
import MetalNes.Relinks
import MetalNes.Timed
import MetalNes.PageChunks
import MetalNes.PageRuns
import MetalNes.PageLoss
import MetalNes.FreeLists
import MetalNes.ChunkWalks
import MetalNes.ChunkMerging
import MetalNes.MergedChunks
import MetalNes.PageCounters
import MetalNes.Liballoc
import MetalNes.TagFields
import MetalNes.HeapShape
import MetalNes.TagMoves
import MetalNes.RunMoves
import MetalNes.SizeClasses
import MetalNes.HeapSound
import MetalNes.HeapMoves
import MetalNes.HeapSteps
import MetalNes.MeltLoops
import MetalNes.HeapCalls
import MetalNes.HeapSpecs
import MetalNes.FreeSpecs
import MetalNes.HeapCopies
import MetalNes.HeapUse
import MetalNes.HeapRuns
import MetalNes.HeapProgress
import MetalNes.HeapAtRest
import MetalNes.HeapPages
import MetalNes.KernelHeap
import MetalNes.SmallObjects
import MetalNes.BootRuns
import MetalNes.BootCopies
import MetalNes.NesTable
import MetalNes.NesBus
import MetalNes.NesAddressing
import MetalNes.NesOperations
import MetalNes.NesClock
import MetalNes.NesDissasembly
import MetalNes.DisassemblyBuffer
import MetalNes.NesStack
import MetalNes.Documented
import MetalNes.FlagWrites
import MetalNes.NesEffects
import MetalNes.FlagFrame
import MetalNes.ResultFlags
import MetalNes.ByteArithmetic
import MetalNes.LogicFold
import MetalNes.BranchLaws
import MetalNes.ShiftForms
import MetalNes.ShiftChains
import MetalNes.ZeroPage
import MetalNes.InstructionBoundaries
import MetalNes.AbsoluteModes
import MetalNes.Interrupts
import MetalNes.StackPage
import MetalNes.StackDiscipline
import MetalNes.CycleCount
import MetalNes.InstructionSet
import MetalNes.InstructionRefinement
import MetalNes.InstructionRuns
import MetalNes.InstructionRules
import MetalNes.CopyLoop
import MetalNes.Fat32
import MetalNes.FatFiles
import MetalNes.FileReads
import MetalNes.FileBounds
import MetalNes.ClusterChains
import MetalNes.TableWalks
import MetalNes.DirectorySlots
import MetalNes.Enumeration
import MetalNes.DirectorySearch
import MetalNes.DirectoryTree
import MetalNes.LongNames
import MetalNes.ReaddirHistory
import MetalNes.ReaddirBounds
import MetalNes.RootSearch
import MetalNes.ClusterZero
import MetalNes.TrapCard
import MetalNes.PathResolution
import MetalNes.OpenCalls
import MetalNes.BootSector
import MetalNes.ClusterUse
import MetalNes.VolumeDiscovery
import MetalNes.PathSplit
import MetalNes.FopenLeaks
import MetalNes.ShortReads
import MetalNes.SlotSearch
import MetalNes.SlotPaths
import MetalNes.DataClusters
import MetalNes.RamMirror
import MetalNes.NesCart
import MetalNes.RomWindow
import MetalNes.CartLayout
import MetalNes.CartLifetime
import MetalNes.CartSafety
import MetalNes.CartResources
import MetalNes.BusAccess
import MetalNes.TableBounds
import MetalNes.CStrings
import MetalNes.Vfs
import MetalNes.MountChain
import MetalNes.HandleTables
import MetalNes.OpenHandles
import MetalNes.MountWalks
import MetalNes.WalkSafety
import MetalNes.MountRouting
import MetalNes.MountNames
import MetalNes.BadDescriptors
import MetalNes.FileStatus
import MetalNes.Bmp
import MetalNes.BitmapPixels
import MetalNes.Console
import MetalNes.ConsoleScroll
import MetalNes.GlyphDrawing
import MetalNes.ConsoleOutput
import MetalNes.ConsoleText
import MetalNes.ConsoleStrings
import MetalNes.Pl181
import MetalNes.BlockReads
import MetalNes.SdCommands
import MetalNes.SdHandshake
import MetalNes.CardFormat
import MetalNes.CardMount
import MetalNes.Listings
import MetalNes.ListingOpens
import MetalNes.CardFiles
import MetalNes.SectorReads
