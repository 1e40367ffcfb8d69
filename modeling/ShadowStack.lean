import ShadowStack.Ir.Equivalence
import ShadowStack.Ir.Function
import ShadowStack.Ir.Mask
import ShadowStack.Ir.Pass
import ShadowStack.Ir.Rewrite
import ShadowStack.Ir.Simulation
import ShadowStack.Ir.Stores
import ShadowStack.Lib.Auxv
import ShadowStack.Lib.Dominance
import ShadowStack.Lib.ForRange
import ShadowStack.Lib.Memory
import ShadowStack.Lib.Rounds
import ShadowStack.Lib.Run
import ShadowStack.Lib.Walk
import ShadowStack.Lib.Xarray
import ShadowStack.Lkm.Alike
import ShadowStack.Lkm.Areas
import ShadowStack.Lkm.Batch
import ShadowStack.Lkm.Bounds
import ShadowStack.Lkm.Capacity
import ShadowStack.Lkm.Complete
import ShadowStack.Lkm.Consistent
import ShadowStack.Lkm.DebugFile
import ShadowStack.Lkm.Descriptors
import ShadowStack.Lkm.Device
import ShadowStack.Lkm.Effects
import ShadowStack.Lkm.Failure
import ShadowStack.Lkm.ForkCopy
import ShadowStack.Lkm.FreeRange
import ShadowStack.Lkm.GlobalList
import ShadowStack.Lkm.Holding
import ShadowStack.Lkm.Interleaving
import ShadowStack.Lkm.Invariant
import ShadowStack.Lkm.Isolation
import ShadowStack.Lkm.Lifetime
import ShadowStack.Lkm.MapRange
import ShadowStack.Lkm.Mapped
import ShadowStack.Lkm.MaxId
import ShadowStack.Lkm.Module
import ShadowStack.Lkm.Order
import ShadowStack.Lkm.Outcome
import ShadowStack.Lkm.PageTable
import ShadowStack.Lkm.Pagelist
import ShadowStack.Lkm.Pivot
import ShadowStack.Lkm.PivotAreas
import ShadowStack.Lkm.Quiescence
import ShadowStack.Lkm.Refinement
import ShadowStack.Lkm.Remove
import ShadowStack.Lkm.RemoveFrees
import ShadowStack.Lkm.Reservation
import ShadowStack.Lkm.Secrecy
import ShadowStack.Lkm.Shadow
import ShadowStack.Lkm.Solo
import ShadowStack.Lkm.State
import ShadowStack.Lkm.Teardown
import ShadowStack.Lkm.Unlinks
import ShadowStack.Runtime.Auxv
import ShadowStack.Runtime.Depth
import ShadowStack.Runtime.Fork
import ShadowStack.Runtime.Gaps
import ShadowStack.Runtime.Mapping
import ShadowStack.Runtime.Pool
import ShadowStack.Runtime.Relocate
import ShadowStack.Runtime.Setup
import ShadowStack.Runtime.Startup
import ShadowStack.Runtime.Stckcpy
import ShadowStack.Runtime.Threads
import ShadowStack.Runtime.Usage
import ShadowStack.X86.Dead
import ShadowStack.X86.Integrity
import ShadowStack.X86.Interleaved
import ShadowStack.X86.Machine
import ShadowStack.X86.Pass
import ShadowStack.X86.Paths
import ShadowStack.X86.Process
import ShadowStack.X86.Program
import ShadowStack.X86.Sequences
import ShadowStack.X86.Ticks
import ShadowStack.X86.Transparent
import ShadowStack.X86.Window
