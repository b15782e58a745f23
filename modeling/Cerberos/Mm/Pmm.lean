/-
# Cerberos.Mm.Pmm — `kernel/mm/pmm.c`: the physical page-frame allocator.

Two zones, DMA below 16 MiB and NORMAL above, each with a bitmap whose bit `i` stands for the frame
`offset + 4096 * i`. The bitmaps live in the static array `alloc_area` of the kernel image, here the
byte memory `Pmm.area`, carved by the bump pointer `alloc_ptr`. `pmm_init` walks the memory map of
the bootloader with a zone cursor that only moves forward; the cursor is the list of zones from the
current one on, and running off its end is the out-of-bounds access of `mem_zone[PMM_NUM_ZONES]`.
-/
import Cerberos.Lib.Mem
import Cerberos.Lib.Bitmap

namespace Cerberos

open Cerberos.Base

/-- `zone_e`. -/
inductive ZoneE where
  | dma | normal
  deriving DecidableEq, Repr

/-- The zones in the order of `zone_e`. -/
def ZoneE.all : List ZoneE := [.dma, .normal]

/-- `zone_t`. -/
structure Zone where
  memTotal : Word
  memFree : Word
  memUsed : Word
  offset : Word
  bitmap : Bitmap
  firstFreeIdx : Word
  zone : ZoneE
  deriving DecidableEq, Repr

/-- The static state of `pmm.c`: the bump arena, the memory size and the zones. -/
structure Pmm where
  area : Mem
  allocPtr : Word
  memSize : Word
  memZone : ZoneE → Zone

/-- The static initialisers, with `alloc_area` at `allocArea` and the static memory holding `area`. -/
def Pmm.static (area : Mem) (allocArea : Word) : Pmm where
  area := area
  allocPtr := allocArea
  memSize := 0
  memZone z :=
    { memTotal := -1, memFree := -1, memUsed := -1
      offset := match z with | .dma => 0 | .normal => 16 * mib
      bitmap := { size := -1, data := null }
      firstFreeIdx := -1
      zone := z }

/-- Replace the record of zone `z`. -/
def Pmm.setZone (p : Pmm) (z : ZoneE) (zone : Zone) : Pmm :=
  { p with memZone := Function.update p.memZone z zone }

/-- `alloc(size, align)`: the address of `size` zeroed bytes of the arena. -/
def alloc (p : Pmm) (size align : Word) : Word × Pmm :=
  let ret := alignUp p.allocPtr align
  (ret, { p with area := memset p.area ret 0 size, allocPtr := ret + size })

/-- `pmm_alloc(zone, size)`. -/
def pmmAlloc (p : Pmm) (z : ZoneE) (size : Word) : Res (Word × Pmm) :=
  let zone := p.memZone z
  let idx := bitmapFindRange p.area zone.bitmap zone.firstFreeIdx false size
  if idx = -1 then
    .error (.panic "pmm_alloc could not find %lu of free pages." [size])
  else
    .ok (zone.offset + pageSize * idx,
      { p with area := bitmapSetRange p.area zone.bitmap idx size }.setZone z
        { zone with
          memFree := zone.memFree - size * pageSize
          memUsed := zone.memUsed + size * pageSize
          firstFreeIdx := idx + size })

/-- `(zone + 1 == PMM_NUM_ZONES) ? mem_size : mem_zone[zone + 1].offset`, from the zones after
the current one. -/
def zoneEnd (p : Pmm) : List ZoneE → Word
  | [] => p.memSize
  | z :: _ => (p.memZone z).offset

/-- The zone search of `pmm_free`. -/
def pmmFindZone (p : Pmm) (addr : Word) : List ZoneE → Option ZoneE
  | [] => none
  | z :: rest =>
    if (p.memZone z).offset ≤ addr ∧ addr < zoneEnd p rest then some z
    else pmmFindZone p addr rest

/-- `pmm_free(addr, size)`. -/
def pmmFree (p : Pmm) (addr size : Word) : Res Pmm :=
  match pmmFindZone p addr ZoneE.all with
  | none => .error (.panic "pmm_free could not identify the zone for addr %lx.\n" [addr])
  | some z =>
    let zone := p.memZone z
    let idx := (addr - zone.offset) / pageSize
    .ok ({ p with area := bitmapClearRange p.area zone.bitmap idx size }.setZone z
      { zone with
        memFree := zone.memFree + size * pageSize
        memUsed := zone.memUsed - size * pageSize
        firstFreeIdx := if idx < zone.firstFreeIdx then idx else zone.firstFreeIdx })

/-- `pmm_set_unused(zone, bit, size)`. -/
def pmmSetUnused (p : Pmm) (z : ZoneE) (bit size : Word) : Pmm :=
  { p with area := bitmapClearRange p.area (p.memZone z).bitmap bit size }

/-- One round of the loop of `pmm_init` that sets up zone `z`; `rest` are the zones after it. -/
def pmmInitZone (p : Pmm) (z : ZoneE) (rest : List ZoneE) : Pmm :=
  let zone := p.memZone z
  let memTotal := zoneEnd p rest - zone.offset
  let size := memTotal / pageSize
  let (data, p) := alloc p (bitmapSizeBytes { size := size, data := zone.bitmap.data }) 8
  let bitmap : Bitmap := { size := size, data := data }
  { p with area := bitmapSetRange p.area bitmap 0 size }.setZone z
    { zone with memTotal := memTotal, memUsed := memTotal, memFree := 0, bitmap := bitmap }

/-- The loop of `pmm_init` over the zones. -/
def pmmInitZones (p : Pmm) : List ZoneE → Pmm
  | [] => p
  | z :: rest => pmmInitZones (pmmInitZone p z rest) rest

/-- `while (curr_zone_end < entry_start) curr_zone++;` -/
def pmmSeekZone (p : Pmm) (entryStart : Word) : List ZoneE → Res (List ZoneE)
  | [] => .error .fault
  | z :: rest =>
    if zoneEnd p rest < entryStart then pmmSeekZone p entryStart rest else .ok (z :: rest)

/-- The `while (true)` of `pmm_init`: clear the bits of `[entry_start, entry_end)` zone by zone. -/
def pmmSetEntry (p : Pmm) (entryStart entryEnd : Word) : List ZoneE → Res (Pmm × List ZoneE)
  | [] => .error .fault
  | z :: rest =>
    let currZoneStart := (p.memZone z).offset
    let currZoneEnd := zoneEnd p rest
    let idx := (entryStart - currZoneStart) / pageSize
    let size := (cMin entryEnd currZoneEnd - entryStart) / pageSize
    let p := pmmSetUnused p z idx size
    let zone := p.memZone z
    let p := p.setZone z
      { zone with
        memUsed := zone.memUsed - size * pageSize
        memFree := zone.memFree + size * pageSize
        firstFreeIdx := if idx < zone.firstFreeIdx then idx else zone.firstFreeIdx }
    if entryEnd ≤ currZoneEnd then .ok (p, z :: rest)
    else pmmSetEntry p (cMin currZoneEnd entryEnd) entryEnd rest

/-- The loop of `pmm_init` over the memory map, with the zone cursor. -/
def pmmSetEntries (p : Pmm) (cursor : List ZoneE) : List MmapEntry → Res (Pmm × List ZoneE)
  | [] => .ok (p, cursor)
  | entry :: entries =>
    if entry.type = memUsable then do
      let entryStart := alignUp entry.base pageSize
      let entryEnd := alignDown (entry.base + entry.length) pageSize
      let cursor ← pmmSeekZone p entryStart cursor
      let (p, cursor) ← pmmSetEntry p entryStart entryEnd cursor
      pmmSetEntries p cursor entries
    else
      pmmSetEntries p cursor entries

/-- `get_mem_size(memmap)`: the end of the last entry. -/
def getMemSize (memmap : List MmapEntry) : Res Word :=
  match memmap.getLast? with
  | none => .error .fault
  | some last => .ok (last.base + last.length)

/-- `pmm_init(handover)`. -/
def pmmInit (p : Pmm) (handover : Handover) : Res Pmm :=
  match handover.memmap with
  | none => .error (.panic "pmm_init could not find memory map from bootloader." [])
  | some memmap => do
    let memSize ← getMemSize memmap
    if memSize < 16 * mib then
      .error (.panic "pmm_init found less than 16 MiB of memory." [])
    else
      let p := pmmInitZones { p with memSize := memSize } ZoneE.all
      let (p, _) ← pmmSetEntries p ZoneE.all memmap
      .ok p

end Cerberos
