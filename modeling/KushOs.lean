import KushOs.Foundation.Run
import KushOs.Foundation.Fallible
import KushOs.Foundation.WordBitmap
import KushOs.Kernel.Memory.Region
import KushOs.Kernel.Memory.Pool
import KushOs.Kernel.Memory.Geometry
import KushOs.Kernel.Memory.Release
import KushOs.Kernel.Memory.PoolRun
import KushOs.Kernel.Memory.Exclusivity
import KushOs.Kernel.Memory.Restore
import KushOs.Kernel.Memory.FirstFree
import KushOs.Kernel.Memory.UncheckedRelease
import KushOs.Kernel.Boot.MemoryMap
import KushOs.Foundation.RadixTable
import KushOs.Kernel.Machine
import KushOs.Kernel.Vm.PageTable
import KushOs.Kernel.Vm.Translation
import KushOs.Kernel.Vm.Paging
import KushOs.Kernel.Vm.Hardware
import KushOs.Kernel.Vm.Mapping
import KushOs.Kernel.Vm.Construction
import KushOs.Kernel.Vm.PageTables
import KushOs.Kernel.Vm.Links
import KushOs.Kernel.Vm.AllocatorFrame
import KushOs.Kernel.Memory.PoolAllocator
import KushOs.Kernel.Memory.LoggedPool
import KushOs.Kernel.Vm.Aperture
import KushOs.Kernel.Vm.MapPage
import KushOs.Kernel.Vm.UserAccess
import KushOs.Kernel.Vm.SharedHalf
import KushOs.Kernel.Vm.PageAllocator
import KushOs.Kernel.Vm.PageRange
import KushOs.Kernel.Vm.Supply
import KushOs.Kernel.Vm.UnmapRange
import KushOs.Kernel.Vm.UserRights
import KushOs.Kernel.Vm.ContiguousRegion
import KushOs.Kernel.Memory.Remap
import KushOs.Kernel.Memory.Remapped
import KushOs.Kernel.Vm.VAlloc
import KushOs.Kernel.Vm.VAllocBounds
import KushOs.Kernel.Vm.VAllocFailure
import KushOs.Kernel.Vm.VAllocRun
import KushOs.Kernel.Vm.VFree
import KushOs.Foundation.TranslationCache
import KushOs.Kernel.Vm.Tlb
import KushOs.Kernel.Vm.TlbCoherence
import KushOs.Kernel.Vm.AddressSpace
import KushOs.Kernel.Vm.Provision
import KushOs.Kernel.Boot.BootSpace
import KushOs.Kernel.Boot.KernelMap
import KushOs.Kernel.Boot.BootReturns
import KushOs.Foundation.PointerList
import KushOs.Kernel.Vm.ZoneAllocator
import KushOs.Kernel.Vm.ZoneRun
import KushOs.Kernel.Vm.ZoneFree
import KushOs.Kernel.Vm.ZoneFailure
import KushOs.Foundation.RefGraph
import KushOs.Kernel.Vm.MapLifetime
import KushOs.Foundation.NestedCall
import KushOs.Kernel.Console.Log
import KushOs.Kernel.Console.PanicLog
import KushOs.Kernel.Console.FbCons
import KushOs.Kernel.Console.Escape
import KushOs.Kernel.Console.Drawing
import KushOs.Kernel.Console.Termination
import KushOs.Kernel.Console.OnScreen
import KushOs.Kernel.Console.Sequence
import KushOs.Kernel.Console.EscapeBounds
import KushOs.Kernel.Console.Attributes
import KushOs.Kernel.Console.CursorPosition
import KushOs.Foundation.Numeral
import KushOs.Kernel.Console.Strings
import KushOs.Kernel.Console.CommandLine
import KushOs.Foundation.BlockMemory
import KushOs.Kernel.Console.Scrolling
import KushOs.Kernel.Runtime.StringRoutines
import KushOs.Foundation.Peg
import KushOs.Foundation.PegLogic
import KushOs.Foundation.PegUndo
import KushOs.Foundation.PegRounds
import KushOs.Foundation.ByteBuffer
import KushOs.Foundation.Mixing
import KushOs.Idl.Interface
import KushOs.Idl.Builder
import KushOs.Idl.Grammar
import KushOs.Idl.Layout
import KushOs.Idl.Parsing
import KushOs.Idl.Recovery
import KushOs.Idl.Declarations
import KushOs.Idl.Serialization
import KushOs.Idl.DecoderSafety
import KushOs.Idl.RoundTrip
import KushOs.Idl.VectorCodec
import KushOs.Idl.Oversize
import KushOs.Idl.Stubs
import KushOs.Idl.Delivery
import KushOs.Foundation.RemoteCall
import KushOs.Idl.Session
import KushOs.Idl.ServerRun
import KushOs.Idl.ClientReply
import KushOs.Idl.Identifiers
import KushOs.Idl.NameHash
import KushOs.Idl.GeneratedNames
import KushOs.Idl.Backtracking
import KushOs.Idl.Assertions
import KushOs.Idl.Lines
import KushOs.Idl.Locality
import KushOs.Idl.Fillers
import KushOs.Idl.Readings
import KushOs.Idl.Boundaries
import KushOs.Foundation.Reads
import KushOs.Kernel.Backtrace.Print
import KushOs.Kernel.Backtrace.Symbolicate
import KushOs.Kernel.Backtrace.KernelElf
import KushOs.Kernel.Gdt.Descriptor
import KushOs.Kernel.Gdt.Table
import KushOs.Kernel.Gdt.TaskState
import KushOs.Foundation.WordStack
import KushOs.Kernel.Exceptions.Idt
import KushOs.Kernel.Exceptions.Processor
import KushOs.Kernel.Exceptions.Routines
import KushOs.Kernel.Exceptions.Dispatch
import KushOs.Kernel.Exceptions.Nesting
import KushOs.Kernel.Vm.VAllocSpace
import KushOs.Kernel.Boot.KernelRun
