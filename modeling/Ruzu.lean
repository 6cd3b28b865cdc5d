import Ruzu.Lib.BTreeMap
import Ruzu.Lib.Tiling
import Ruzu.Kernel.MemoryBlock
import Ruzu.Kernel.MemoryBlockManager
import Ruzu.Kernel.MemoryBlockTiling
import Ruzu.Kernel.MemoryBlockCoalesce
import Ruzu.Kernel.MemoryBlockUpdate
import Ruzu.Kernel.MemoryBlockCalls
import Ruzu.Kernel.MemoryBlockIpc
import Ruzu.Kernel.HandleTable
import Ruzu.Kernel.HandleTableRuns
import Ruzu.Kernel.PageBitmap
import Ruzu.Kernel.PageBitmapBits
import Ruzu.Kernel.PageBitmapOps
import Ruzu.Kernel.PageHeap
import Ruzu.Kernel.PageHeapLevels
import Ruzu.Kernel.PageHeapFree
import Ruzu.Kernel.PageHeapInitialize
import Ruzu.Kernel.PageHeapRuns
import Ruzu.Kernel.MemoryManager
import Ruzu.Kernel.MemoryManagerGroups
import Ruzu.Kernel.MemoryManagerRollback
import Ruzu.Kernel.MemoryManagerPools
import Ruzu.Kernel.MemoryManagerErrors
import Ruzu.Kernel.MemoryManagerRanges
import Ruzu.Kernel.MemoryManagerRuns
import Ruzu.Common.AddressSpace
import Ruzu.Lib.Piecewise
import Ruzu.Common.AddressSpaceMap
import Ruzu.Common.FlatAllocator
import Ruzu.Common.HeapTracker
import Ruzu.Common.HeapTrackerMaps
import Ruzu.Common.HeapTrackerRuns
import Ruzu.Ir.Block
import Ruzu.Lib.Ssa
import Ruzu.Ir.Run
import Ruzu.Ir.A64GetSetElimination
import Ruzu.Ir.A64GetSetRuns
import Ruzu.Ir.Registers
import Ruzu.Ir.GetSet
import Ruzu.Ir.GetSetRuns
import Ruzu.Ir.A32RegisterPass
import Ruzu.Ir.A32RegisterMoves
import Ruzu.Ir.A32RegisterRuns
import Ruzu.Ir.A32FlagsPass
import Ruzu.Ir.A32FlagsSteps
import Ruzu.Ir.A32FlagsEdits
import Ruzu.Ir.A32FlagsRequests
import Ruzu.Ir.A32FlagsWalk
import Ruzu.Ir.A32FlagsSets
import Ruzu.Ir.A32FlagsCarry
import Ruzu.Ir.A32FlagsRuns
import Ruzu.Ir.ConstantPropagation
import Ruzu.Ir.Arithmetic
import Ruzu.Ir.ConstantFolds
import Ruzu.Ir.ConstantSound
import Ruzu.Ir.UseCounts
import Ruzu.Ir.Related
import Ruzu.Ir.DeadCode
import Ruzu.Ir.IdentityRemoval
import Ruzu.Ir.ConstantRuns
import Ruzu.Ir.Pipeline
import Ruzu.Lib.Transition
import Ruzu.Nvnflinger.BufferQueueConsumer
import Ruzu.Nvnflinger.BufferQueueProducer
import Ruzu.Nvnflinger.BufferQueue
import Ruzu.Nvnflinger.BufferQueueOwnership
import Ruzu.Nvnflinger.BufferQueueSections
import Ruzu.Nvnflinger.BufferQueueRuns
import Ruzu.Nvnflinger.BufferQueueFrames
import Ruzu.Common.BoundedThreadsafeQueue
import Ruzu.Common.BoundedQueueLocks
import Ruzu.Common.BoundedQueueOrder
import Ruzu.Common.BoundedQueueWakes
import Ruzu.Lib.Scatter
import Ruzu.VideoCore.Textures.BlockLinear
import Ruzu.VideoCore.Textures.Decoders
import Ruzu.VideoCore.Textures.DecodersOffsets
import Ruzu.VideoCore.Textures.DecodersRuns
import Ruzu.VideoCore.Textures.DecodersSubrect
import Ruzu.Common.RangeMap
import Ruzu.Lib.Packed
import Ruzu.VideoCore.GpuMemoryManager
import Ruzu.VideoCore.GpuMemoryTables
import Ruzu.VideoCore.GpuMemoryCalls
import Ruzu.VideoCore.GpuMemoryWalks
import Ruzu.VideoCore.GpuMemoryRuns
import Ruzu.Lib.Image
import Ruzu.FileSys.VfsConcat
import Ruzu.FileSys.RomFsBuild
import Ruzu.FileSys.RomFs
import Ruzu.FileSys.RomFsTables
import Ruzu.FileSys.RomFsTree
import Ruzu.Kernel.MemoryBlockAllocator
import Ruzu.Kernel.MemoryBlockFreeArea
import Ruzu.Kernel.MemoryBlockAllocatorRuns
import Ruzu.Kernel.MemoryManagerContinuous
import Ruzu.Common.FlatAllocatorSearch
import Ruzu.Common.RangeMapRuns
import Ruzu.Common.OverlapRangeSet
import Ruzu.Common.OverlapRangeSetRuns
import Ruzu.Kernel.PriorityQueue
import Ruzu.Kernel.PriorityQueueLists
import Ruzu.Kernel.PriorityQueueMembers
import Ruzu.Kernel.PriorityQueuePlaces
import Ruzu.Kernel.PriorityQueueCalls
import Ruzu.Kernel.PriorityQueueRuns
import Ruzu.Kernel.PriorityQueueFronts
import Ruzu.VideoCore.UsageTracker
import Ruzu.FileSys.BaseStorage
import Ruzu.FileSys.AlignmentMatching
import Ruzu.FileSys.AesUtil
import Ruzu.FileSys.AesStorage
import Ruzu.VideoCore.VirtualRangeCache
import Ruzu.Fp.Format
import Ruzu.Fp.Mantissa
import Ruzu.Fp.Unpacked
import Ruzu.Lib.Rounding
import Ruzu.Fp.Value
import Ruzu.Fp.Round
import Ruzu.Fp.Unpack
import Ruzu.Fp.Convert
import Ruzu.Fp.RoundInteger
import Ruzu.Fp.RoundInt
import Ruzu.Fp.ToFixed
import Ruzu.FileSys.BucketTree
import Ruzu.FileSys.BucketTreeLayout
import Ruzu.FileSys.VfsConcatParts
import Ruzu.FileSys.IpsLayer
import Ruzu.FileSys.IpsPatch
import Ruzu.FileSys.RomFsWalk
import Ruzu.FileSys.IpSwitch
import Ruzu.FileSys.IpSwitchSafety
import Ruzu.CheatVm.Decode
import Ruzu.CheatVm.Execute
import Ruzu.CheatVm.Safety
import Ruzu.CheatVm.Blocks
import Ruzu.FileSys.BucketTreeFind
import Ruzu.FileSys.BucketTreeVisit
import Ruzu.FileSys.AesCtrCounterExtended
import Ruzu.FileSys.AesCtrCounterExtendedReads
import Ruzu.Kernel.PageBitmapRuns
import Ruzu.Common.RangeSet
import Ruzu.Kernel.ResourceLimit
import Ruzu.Kernel.MemoryRegion
import Ruzu.Common.LruCache
import Ruzu.Common.RingBuffer
import Ruzu.Lib.MaximalRuns
import Ruzu.VideoCore.GpuMemoryContiguity
import Ruzu.FileSys.PathNormalized
import Ruzu.FileSys.PathReplacement
import Ruzu.FileSys.PathNormalization
import Ruzu.Ir.Emitter
import Ruzu.Ir.Polyfill
import Ruzu.Lib.Lanes
import Ruzu.Ir.PolyfillValues
import Ruzu.Ir.PolyfillLanes
import Ruzu.Ir.PolyfillLinks
import Ruzu.Ir.PolyfillPass
import Ruzu.Shader.BasicBlock
import Ruzu.Shader.BasicBlockOrder
import Ruzu.Shader.BasicBlockRuns
import Ruzu.Shader.BasicBlockRefinement
import Ruzu.Common.SlotVector
import Ruzu.Common.SlotVectorSlots
import Ruzu.Common.SlotVectorIterators
import Ruzu.Common.SlotVectorRuns
import Ruzu.Common.RangeMutex
import Ruzu.VideoCore.SyncpointManager
import Ruzu.VideoCore.SyncpointActions
