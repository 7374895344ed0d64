import UnixKernel.SlotList
import UnixKernel.SegmentMap
import UnixKernel.RamLayout
import UnixKernel.PhysAlloc
import UnixKernel.PhysBoot
import UnixKernel.PhysWord
import UnixKernel.PhysAdd
import UnixKernel.PhysCut
import UnixKernel.PhysTable
import UnixKernel.PhysExpand
import UnixKernel.PhysSpec
import UnixKernel.PhysRun
import UnixKernel.PhysInit
import UnixKernel.PhysBooted
import UnixKernel.PhysLow
import UnixKernel.Digits
import UnixKernel.RadixTree
import UnixKernel.RvmCfg
import UnixKernel.Glacier
import UnixKernel.GlacierTree
import UnixKernel.GlacierMap
import UnixKernel.GlacierUnmap
import UnixKernel.GlacierRun
import UnixKernel.GlacierShare
import UnixKernel.GlacierFlags
import UnixKernel.Fat
import UnixKernel.BlockDevice
import UnixKernel.PartDev
import UnixKernel.Paths
import UnixKernel.Vfs
import UnixKernel.VfsDir
import UnixKernel.GlacierRange
import UnixKernel.ProcCtrlBlk
import UnixKernel.ProcSpace
import UnixKernel.ProcLoad
import UnixKernel.IntLock
import UnixKernel.KernelStacks
import UnixKernel.ApList
import UnixKernel.FatDir
import UnixKernel.Acpi
import UnixKernel.KernelHeap
import UnixKernel.ByteWords
import UnixKernel.GlacierLock
import UnixKernel.Reloc
import UnixKernel.PhysBlocks
import UnixKernel.PhysSeal
import UnixKernel.PhysFollow
import UnixKernel.PhysDepth
import UnixKernel.PhysReclaim
import UnixKernel.PhysCoalesced
import UnixKernel.PhysGrowth
import UnixKernel.KernelRequest
import UnixKernel.Exceptions
import UnixKernel.ProcCreate
import UnixKernel.ProcHeaders
import UnixKernel.ProcMachine
import UnixKernel.DevFile
import UnixKernel.FatGeometry
import UnixKernel.FatNodes
import UnixKernel.HeapTrace
import UnixKernel.GlacierSpan
import UnixKernel.RvmArith
import UnixKernel.LineWalk
import UnixKernel.Vga
import UnixKernel.Slice
import UnixKernel.VfsParent
import UnixKernel.VirtFile
import UnixKernel.VfsFiles
import UnixKernel.VfsMove
import UnixKernel.Gpt
import UnixKernel.NvmeBounce
import UnixKernel.AsmAmd64
import UnixKernel.AsmAarch64
import UnixKernel.SvcAarch64
import UnixKernel.SyscallAmd64
import UnixKernel.GuardPages
