import Cerberos.Lib.Mem
import Cerberos.Lib.Bitmap
import Cerberos.Mm.Pmm
import Cerberos.Mm.Kheap
import Cerberos.Mm.KheapFields
import Cerberos.Base.Tiling
import Cerberos.Mm.KheapRep
import Cerberos.Mm.KheapSteps
import Cerberos.Mm.PmmSpec
import Cerberos.Mm.PmmBoot
import Cerberos.Mm.KheapCalls
import Cerberos.Mm.KheapLayout
import Cerberos.Mm.KheapMalloc
import Cerberos.Mm.KheapRealloc
import Cerberos.Mm.KheapInit
import Cerberos.Mm.KheapRuns
import Cerberos.Mm.KheapReallocRuns
import Cerberos.Mm.PmmInit
import Cerberos.Mm.PmmRuns
import Cerberos.Mm.PagingTables
import Cerberos.Mm.PagingMap
import Cerberos.Mm.PagingRuns
import Cerberos.Mm.PagingInit
import Cerberos.Mm.KheapBacking
import Cerberos.Base.Blocks
import Cerberos.Lib.Queue
import Cerberos.Lib.QueueRuns
import Cerberos.Base.Chaining
import Cerberos.Lib.Map
import Cerberos.Lib.MapLookup
import Cerberos.Acpi.Madt
import Cerberos.Mm.PmmHint
import Cerberos.Acpi.Acpi
import Cerberos.Intr.Ioapic
import Cerberos.Intr.IoapicRoute
import Cerberos.Cpu.Smp
import Cerberos.Mm.PmmLimits
import Cerberos.Mm.PmmTally
import Cerberos.Mm.KheapLimits
import Cerberos.Mm.KheapDoubleFree
import Cerberos.Mm.PagingLimits
import Cerberos.Base.Elems
import Cerberos.Lib.Vector
import Cerberos.Lib.VectorRuns
import Cerberos.Lib.MapCount
import Cerberos.Mm.Gdt
import Cerberos.Base.Decimal
import Cerberos.Log.Print
import Cerberos.Log.Format
import Cerberos.Acpi.AcpiSearch
import Cerberos.Base.Orbit
import Cerberos.Intr.Lapic
import Cerberos.Acpi.MadtEnds
import Cerberos.Acpi.MadtPasses
import Cerberos.Base.BlockHeap
import Cerberos.Lib.MapMemory
import Cerberos.Lib.QueueMemory
import Cerberos.Mm.KheapChecks
import Cerberos.Base.Fields
import Cerberos.Base.Stack
import Cerberos.Dev.Keyboard
import Cerberos.Intr.Nesting
import Cerberos.Intr.Pic
import Cerberos.Base.Cache
import Cerberos.Base.Fifo
import Cerberos.Boot.Start
import Cerberos.Boot.Stivale2
import Cerberos.Dev.Com
import Cerberos.Mm.KheapDebug
import Cerberos.Intr.PicHandlers
import Cerberos.Intr.ApicInit
import Cerberos.Lib.Copy
