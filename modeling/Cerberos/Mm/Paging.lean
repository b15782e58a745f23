/-
# Cerberos.Mm.Paging — `kernel/mm/paging.c`: four-level page tables in physical memory.

A table is a page frame of 512 eight-byte entries, addressed physically (the kernel runs identity
mapped), so the tables live in the byte memory `Mmu.phys` and `&table->entries[idx]` is
`table + 8 * idx`. The walk goes from level 3 (`PML4`) down to the wanted level and, when asked to,
creates the missing tables on its way. An entry pointer is `NULL` when the walk fails; storing or
loading through it is `Halt.fault`.

`Mmu.created` is a HISTORY variable: the frames `paging_create` has taken so far, each with what
physical memory held at that moment. No function reads it; statements about runs use it to say what
the frames contained when they were handed over.
-/
import Cerberos.Mm.Pmm

set_option linter.style.nameCheck false

namespace Cerberos

open Cerberos.Base

/-! ## Entries (`pmask_e`, levels) -/

abbrev pagePresent : Word := 0x0000000000000001
abbrev pageWritable : Word := 0x0000000000000002
abbrev pageUser : Word := 0x0000000000000004
abbrev pageAddr : Word := 0x000ffffffffff000

abbrev pml4 : Nat := 3
abbrev pml1 : Nat := 0

/-- A frame taken by `paging_create` and the physical memory of that moment. -/
structure TableFrame where
  frame : Word
  before : Mem

/-- The state paging works on: the frame allocator, physical memory, the register `cr3`, the log
lines of `paging.c`, and the history of created tables. -/
structure Mmu where
  pmm : Pmm
  phys : Mem
  cr3 : Word
  log : List LogMsg
  created : List TableFrame

/-- Append a log line. -/
def Mmu.say (s : Mmu) (msg : LogMsg) : Mmu := { s with log := s.log ++ [msg] }

/-- `*pentry`. -/
def Mmu.entry (s : Mmu) (pentry : Word) : Word := read64 s.phys pentry

/-- `*pentry = value`. -/
def Mmu.setEntry (s : Mmu) (pentry value : Word) : Mmu :=
  { s with phys := write64 s.phys pentry value }

/-- `paging_set_flags(pentry, flags)`. -/
def pagingSetFlags (s : Mmu) (pentry flags : Word) : Mmu :=
  if flags &&& pageAddr ≠ 0 then
    s.say (warningMsg
      "[paging_set_flags] illegal set flag attempt on page entry physical address.\n")
  else
    s.setEntry pentry (s.entry pentry ||| flags)

/-- `paging_clear_flags(pentry, flags)`. -/
def pagingClearFlags (s : Mmu) (pentry flags : Word) : Mmu :=
  if flags &&& pageAddr ≠ 0 then
    s.say (warningMsg
      "[paging_clear_flags] illegal clear flag attempt on page entry physical address.\n")
  else
    s.setEntry pentry (s.entry pentry &&& ~~~flags)

/-- `paging_check_flags(pentry, flags)`. -/
def pagingCheckFlags (s : Mmu) (pentry flags : Word) : Bool × Mmu :=
  if flags &&& pageAddr ≠ 0 then
    (false, s.say (warningMsg
      "[paging_check_flags] illegal clear flag attempt on page entry physical address.\n"))
  else
    (s.entry pentry &&& flags == flags, s)

/-- `paging_set_paddr(pentry, paddr)`. -/
def pagingSetPaddr (s : Mmu) (pentry paddr : Word) : Mmu :=
  let (s, paddr) :=
    if paddr % pageSize ≠ 0 then
      (s.say (warningMsg "[paging_set_addr] paddr is not 4 KiB aligned, paddr: %lx\n" [paddr]),
        alignDown paddr pageSize)
    else (s, paddr)
  let s := s.setEntry pentry (s.entry pentry &&& ~~~pageAddr)
  s.setEntry pentry (s.entry pentry ||| (paddr &&& pageAddr))

/-- `paging_get_paddr(pentry)`. -/
def pagingGetPaddr (s : Mmu) (pentry : Word) : Word := s.entry pentry &&& pageAddr

/-! ## Tables -/

/-- `paging_create()`. The `memset` clears `sizeof(ptable)` bytes, the size of a POINTER. -/
def pagingCreate (s : Mmu) : Res (Word × Mmu) := do
  let (ptable, pmm) ← pmmAlloc s.pmm .normal 1
  .ok (ptable,
    { s with
      pmm := pmm
      phys := memset s.phys ptable 0 8
      created := ⟨ptable, s.phys⟩ :: s.created })

/-- `paging_destroy(ptable)`. -/
def pagingDestroy (s : Mmu) (ptable : Word) : Res Mmu := do
  let (s, paddr) :=
    if ptable % pageSize ≠ 0 then
      (s.say (warningMsg "[paging_destroy] ptable is not 4KiB aligned.\n"),
        alignDown ptable pageSize)
    else (s, ptable)
  let pmm ← pmmFree s.pmm paddr 1
  .ok { s with pmm := pmm }

/-- `paging_vaddr_idx(vaddr, level)`. -/
def pagingVaddrIdx (vaddr : Word) (level : Nat) : Word := (vaddr >>> (9 * level + 12)) &&& 0x1ff

/-- `&table->entries[paging_vaddr_idx(vaddr, level)]`. -/
def pagingEntryPtr (table vaddr : Word) (level : Nat) : Word :=
  table + 8 * pagingVaddrIdx vaddr level

/-- `vaddr` rounded down to its page, with the warning `tag` prints when it was not aligned. -/
def pagingAlign (s : Mmu) (warn : String) (addr : Word) : Mmu × Word :=
  if addr % pageSize ≠ 0 then (s.say (warningMsg warn [addr]), alignDown addr pageSize)
  else (s, addr)

/-- The loop of `paging_walk` from level `i` and table `table` on. -/
def pagingWalkLoop (vaddr : Word) (level : Nat) (create : Bool) :
    Nat → Mmu → Word → Res (Word × Mmu)
  | 0, s, table =>
    if level = 0 then .ok (pagingEntryPtr table vaddr 0, s)
    else .ok (null, s.say (errorMsg
      "[paging_walk] parsed entire page hiearchy and ended outside of loop.\n"))
  | i + 1, s, table =>
    if i + 1 < level then
      .ok (null, s.say (errorMsg
        "[paging_walk] parsed entire page hiearchy and ended outside of loop.\n"))
    else if i + 1 = level then .ok (pagingEntryPtr table vaddr (i + 1), s)
    else
      let pentry := pagingEntryPtr table vaddr (i + 1)
      let (present, s) := pagingCheckFlags s pentry pagePresent
      if present then
        pagingWalkLoop vaddr level create i s (pagingGetPaddr s pentry)
      else if create then do
        let (childTable, s) ← pagingCreate s
        let s := pagingSetPaddr s pentry childTable
        let s := pagingSetFlags s pentry pagePresent
        pagingWalkLoop vaddr level create i s childTable
      else
        .ok (null, s.say (errorMsg
          "[paging_walk] A non-present entry was found at level %u for vaddr 0x%lx\n"
          [BitVec.ofNat 64 level, vaddr]))

/-- `paging_walk(pml4_table, vaddr, level, create)`. -/
def pagingWalk (s : Mmu) (pml4Table vaddr : Word) (level : Nat) (create : Bool) :
    Res (Word × Mmu) :=
  if pml4Table = null then .ok (null, s.say (errorMsg "[paging_walk] pml4 table is null\n"))
  else
    let (s, vaddr) :=
      pagingAlign s "[paging_walk] vaddr is not 4 KiB aligned, vaddr: %lx\n" vaddr
    pagingWalkLoop vaddr level create pml4 s pml4Table

/-! ## Mapping and unmapping -/

/-- `__paging_map(pml4_table, vaddr, paddr, flags)`. -/
def __pagingMap (s : Mmu) (pml4Table vaddr paddr flags : Word) : Res Mmu :=
  if pml4Table = null then .ok (s.say (errorMsg "[__paging_map] pml4 table is null\n"))
  else do
    let (s, vaddr) :=
      pagingAlign s "[__paging_map] vaddr is not 4 KiB aligned, vaddr: %lx\n" vaddr
    let (s, paddr) :=
      pagingAlign s "[__paging_map] paddr is not 4 KiB aligned, paddr: %lx\n" paddr
    let (pentry, s) ← pagingWalk s pml4Table vaddr pml1 true
    if pentry = null then .error .fault
    else
      let (present, s) := pagingCheckFlags s pentry pagePresent
      if present then
        let oldPaddr := pagingGetPaddr s pentry
        .ok (s.say (errorMsg
          "[__paging_map] request to map vaddr 0x%lx to paddr 0x%lx but vaddr was already mapped to %0xlx.\n"
          [vaddr, paddr, oldPaddr]))
      else
        let s := pagingSetFlags s pentry flags
        .ok (pagingSetPaddr s pentry paddr)

/-- `__paging_maps(pml4_table, vaddr, paddr, num, flags)`, with `n` pages to go. -/
def __pagingMaps (s : Mmu) (pml4Table vaddr paddr : Word) (flags : Word) : Nat → Res Mmu
  | 0 => .ok s
  | n + 1 => do
    let s ← __pagingMap s pml4Table vaddr paddr flags
    __pagingMaps s pml4Table (vaddr + pageSize) (paddr + pageSize) flags n

/-- `__paging_unmap(pml4_table, vaddr)`. -/
def __pagingUnmap (s : Mmu) (pml4Table vaddr : Word) : Res Mmu :=
  if pml4Table = null then .ok (s.say (errorMsg "[__paging_unmap] pml4 table is null\n"))
  else do
    let (s, vaddr) :=
      pagingAlign s "[__paging_unmap] vaddr is not 4 KiB aligned, vaddr: %lx\n" vaddr
    let (pentry, s) ← pagingWalk s pml4Table vaddr pml1 false
    if pentry = null then .error .fault else .ok (s.setEntry pentry 0)

/-- `__paging_unmaps(pml4_table, vaddr, num)`, with `n` pages to go. -/
def __pagingUnmaps (s : Mmu) (pml4Table vaddr : Word) : Nat → Res Mmu
  | 0 => .ok s
  | n + 1 => do
    let s ← __pagingUnmap s pml4Table vaddr
    __pagingUnmaps s pml4Table (vaddr + pageSize) n

/-- `paging_cr3()`. -/
def pagingCr3 (s : Mmu) : Word := alignDown s.cr3 pageSize

/-- `paging_map(vaddr, paddr, flags)`: map in the table `cr3` points to. -/
def pagingMap (s : Mmu) (vaddr paddr flags : Word) : Res Mmu :=
  __pagingMap s (pagingCr3 s) vaddr paddr flags

/-! ## `paging_init` -/

/-- The loop of `paging_init` that maps the protected memory ranges of the kernel. -/
def pagingMapPmrs (s : Mmu) (pml4Table pbase vbase : Word) : List Pmr → Res Mmu
  | [] => .ok s
  | entry :: entries => do
    let s :=
      if entry.length % pageSize ≠ 0 then
        s.say (warningMsg
          "[paging_init] pmr with base: 0x%lx has length non multiple of page size: 0x%lx.\n"
          [entry.base, entry.length])
      else s
    let ventry := entry.base
    let pentry := pbase + (ventry - vbase)
    let num := entry.length / pageSize
    let flags :=
      if entry.permissions &&& pmrWritable ≠ 0 then pagePresent ||| pageWritable else pagePresent
    let s ← __pagingMaps s pml4Table ventry pentry flags num.toNat
    pagingMapPmrs s pml4Table pbase vbase entries

/-- `paging_init(handover)`. The listing of the handover it prints, and the registration of the
page fault handler, do not touch memory management and are left out. -/
def pagingInit (s : Mmu) (handover : Handover) : Res Mmu :=
  match handover.kernelBase with
  | none => .error (.panic "[paging_init] stivale2 kernel base tag was not found" [])
  | some kernelBase =>
  match handover.pmrs with
  | none => .error (.panic "[paging_init] stivale2 pmrs tag was not found" [])
  | some pmrs =>
  match handover.hhdm with
  | none => .error (.panic "[paging_init] stivale2 hhdm addr tag was not found" [])
  | some _ =>
  match handover.memmap with
  | none => .error (.panic "[paging_init] stivale2 memmap tag not found" [])
  | some memmap => do
    let (pml4Table, s) ← pagingCreate s
    let s ← pagingMapPmrs s pml4Table kernelBase.physicalBaseAddress
      kernelBase.virtualBaseAddress pmrs
    let memStart := pageSize
    let memEnd ← getMemSize memmap
    let memLength := memEnd - memStart
    let s :=
      if memLength % pageSize ≠ 0 then
        s.say (warningMsg "[paging_init] mem_length is not a multiple of page size: 0x%lx\n"
          [memLength])
      else s
    let numPages := memLength / pageSize
    let s ← __pagingMaps s pml4Table memStart memStart (pagePresent ||| pageWritable)
      numPages.toNat
    let s ← __pagingMaps s pml4Table (p2v memStart) memStart (pagePresent ||| pageWritable)
      numPages.toNat
    .ok { s with cr3 := pml4Table }

end Cerberos
