import MinStd.Proofs.ArenaRegions
import MinStd.Proofs.AvlTree
import MinStd.Proofs.AvlTreeIteration
import MinStd.Proofs.BasicString
import MinStd.Proofs.BitblockCallers
import MinStd.Proofs.BitblockFreeCount
import MinStd.Proofs.BitblockResource
import MinStd.Proofs.BitblockSearch
import MinStd.Proofs.Duration
import MinStd.Proofs.EliminationArray
import MinStd.Proofs.FixedVector
import MinStd.Proofs.FormatFloat
import MinStd.Proofs.FormatNumber
import MinStd.Proofs.FormatOutput
import MinStd.Proofs.FormatPadding
import MinStd.Proofs.FormatSpec
import MinStd.Proofs.GrowableRingWord
import MinStd.Proofs.LatestValueViews
import MinStd.Proofs.MemoryStatisticsAlone
import MinStd.Proofs.MetadataManagers
import MinStd.Proofs.MonotonicBuffer
import MinStd.Proofs.NodeList
import MinStd.Proofs.PointerCodecs
import MinStd.Proofs.RecursiveSpinMutex
import MinStd.Proofs.RetiredNodes
import MinStd.Proofs.ScatteredBitset
import MinStd.Proofs.SingleArena
import MinStd.Proofs.SingleBlockAlone
import MinStd.Proofs.SingleBlockHeap
import MinStd.Proofs.SingleBlockResource
import MinStd.Proofs.SizeClasses
import MinStd.Proofs.SkipListAlone
import MinStd.Proofs.SkipListHistory
import MinStd.Proofs.SkipListLevels
import MinStd.Proofs.SkipListSkipped
import MinStd.Proofs.SlotPolicy
import MinStd.Proofs.SpscQueue
import MinStd.Proofs.StaticArenaThreads
import MinStd.Proofs.TaggedStack
import MinStd.Proofs.UniformInt
import MinStd.Proofs.ValueStack
import MinStd.Proofs.Xoroshiro
