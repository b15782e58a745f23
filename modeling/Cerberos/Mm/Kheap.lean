/-
# Cerberos.Mm.Kheap — `kernel/mm/kheap.c`: the kernel heap.

The heap occupies `[kheap_top, 2^64)` and grows downwards. Every block starts with a `memblock_t`
header of five words, INLINE in the heap's own memory: two intrusive lists share the headers, the
doubly linked list of all blocks in address order (`next`, `prev`) and the circular doubly linked
list of free blocks (`free_next`, `free_prev`). A header is free when both of its free-list links
are non-`NULL`. Header fields are words of the byte memory `Kheap.mem` that also holds the payloads.
-/
import Cerberos.Mm.Paging

namespace Cerberos

open Cerberos.Base

/-! ## Headers -/

/-- The fields of `memblock_t`, in memory order. -/
inductive Field where
  | next | prev | freeNext | freePrev | size
  deriving DecidableEq, Repr

/-- The byte offset of a field in its header. -/
def Field.offset : Field → Word
  | .next => 0
  | .prev => 8
  | .freeNext => 16
  | .freePrev => 24
  | .size => 32

/-- `sizeof(memblock_t)`. -/
abbrev hdrSize : Word := 40

/-- `KHEAP_MIN_FREE_SIZE`. -/
abbrev kheapMinFreeSize : Word := 1

/-- The static state of `kheap.c`, the virtual memory it manages and its log lines. -/
structure Kheap where
  mem : Mem
  kheapTop : Word
  kheapMax : Word
  freeHead : Word
  blockHead : Word
  log : List LogMsg

/-- `hdr->field`. -/
def Kheap.get (s : Kheap) (hdr : Word) (f : Field) : Word := read64 s.mem (hdr + f.offset)

/-- `hdr->field = value`. -/
def Kheap.set (s : Kheap) (hdr : Word) (f : Field) (value : Word) : Kheap :=
  { s with mem := write64 s.mem (hdr + f.offset) value }

/-- Append a log line. -/
def Kheap.say (s : Kheap) (msg : LogMsg) : Kheap := { s with log := s.log ++ [msg] }

/-- `is_free(hdr)`. -/
def isFree (s : Kheap) (hdr : Word) : Bool :=
  s.get hdr .freeNext ≠ null ∧ s.get hdr .freePrev ≠ null

/-- `block_start_addr(hdr)`. -/
def blockStartAddr (hdr : Word) : Word := hdr + hdrSize

/-- `block_end_addr(hdr)`, the last address of the block. -/
def blockEndAddr (s : Kheap) (hdr : Word) : Word := hdr + hdrSize - 1 + s.get hdr .size

/-! ## The free list -/

/-- `freelist_insert(hdr)`. -/
def freelistInsert (s : Kheap) (hdr : Word) : Kheap :=
  if s.freeHead = null then
    let s := { s with freeHead := hdr }
    let s := s.set hdr .freeNext hdr
    s.set hdr .freePrev hdr
  else
    let s := s.set hdr .freeNext s.freeHead
    let s := s.set hdr .freePrev (s.get s.freeHead .freePrev)
    let s := s.set (s.get s.freeHead .freePrev) .freeNext hdr
    let s := s.set s.freeHead .freePrev hdr
    { s with freeHead := hdr }

/-- `freelist_remove(hdr)`. -/
def freelistRemove (s : Kheap) (hdr : Word) : Kheap :=
  if s.freeHead = null then
    s.say (errorMsg "[freelist_remove] removal attempted on empty freelist.\n")
  else if ¬ isFree s hdr then
    s.say (errorMsg "[freelist_remove] hdr is not free.\n")
  else if s.get hdr .freeNext = hdr ∧ s.get hdr .freePrev = hdr then
    if hdr ≠ s.freeHead then
      s.say (errorMsg "[freelist_remove] one element in freelist, but it's not hdr\n")
    else
      let s := s.set hdr .freeNext null
      let s := s.set hdr .freePrev null
      { s with freeHead := null }
  else
    let prevHdr := s.get hdr .freePrev
    let nextHdr := s.get hdr .freeNext
    let s := s.set prevHdr .freeNext nextHdr
    let s := s.set nextHdr .freePrev prevHdr
    let s := s.set hdr .freeNext null
    let s := s.set hdr .freePrev null
    if hdr = s.freeHead then { s with freeHead := nextHdr } else s

/-! ## Merging and splitting -/

/-- `merge_right(header)`. -/
def mergeRight (s : Kheap) (header : Word) : Word × Kheap :=
  if header = null then (null, s.say (errorMsg "[merge_right] header is NULL.\n"))
  else
    let rightHeader := s.get header .next
    if rightHeader ≠ null ∧ isFree s rightHeader then
      let s := s.set header .size (blockEndAddr s rightHeader - blockStartAddr header + 1)
      let s := s.set header .next (s.get rightHeader .next)
      let s :=
        if s.get rightHeader .next ≠ null then s.set (s.get rightHeader .next) .prev header else s
      (header, freelistRemove s rightHeader)
    else if rightHeader = null then
      (header, s.set header .size (vaEnd - blockStartAddr header + 1))
    else
      (header, s.set header .size (rightHeader - blockStartAddr header))

/-- `merge_left(header)`. -/
def mergeLeft (s : Kheap) (header : Word) : Word × Kheap :=
  if header = null then (null, s.say (errorMsg "[merge_right] header is NULL.\n"))
  else if ¬ isFree s header then
    (null, s.say (errorMsg "[merge_right] merge_right attempt on non-free header.\n"))
  else
    let leftHeader := s.get header .prev
    if leftHeader ≠ null ∧ isFree s leftHeader then
      let s := s.set leftHeader .size (blockEndAddr s header - blockStartAddr leftHeader + 1)
      let s := s.set leftHeader .next (s.get header .next)
      let s := if s.get header .next ≠ null then s.set (s.get header .next) .prev leftHeader else s
      (leftHeader, freelistRemove s header)
    else if leftHeader = null then
      if header ≠ s.blockHead then
        (null, s.say (errorMsg
          "[merge_left] no header on the left, but header is no head of block list\n"))
      else
        let s := s.set header .size (blockEndAddr s header - s.kheapTop - hdrSize + 1)
        (s.kheapTop, { s with mem := memmove s.mem s.kheapTop header hdrSize })
    else
      let s := s.set header .size (blockEndAddr s header - blockEndAddr s leftHeader - hdrSize)
      let newHeader := blockEndAddr s leftHeader + 1
      (newHeader, { s with mem := memmove s.mem newHeader header hdrSize })

/-- `merge(header)`. -/
def merge (s : Kheap) (header : Word) : Word × Kheap :=
  let (header, s) := mergeRight s header
  mergeLeft s header

/-- `split(hdr, num_bytes)`: the upper part becomes a new FREE block of `num_bytes`. -/
def split (s : Kheap) (hdr numBytes : Word) : Word × Kheap :=
  if hdr = null then (null, s.say (errorMsg "[split] hdr is NULL\n"))
  else
    let numBytes := alignUp numBytes 8
    if s.get hdr .size - numBytes < hdrSize + kheapMinFreeSize then (hdr, s)
    else
      let s := s.set hdr .size
        ((blockEndAddr s hdr - numBytes - hdrSize + 1) - blockStartAddr hdr)
      let newHdr := blockEndAddr s hdr + 1
      let s := s.set newHdr .size numBytes
      let s := s.set newHdr .prev hdr
      let s := s.set newHdr .next (s.get hdr .next)
      let s := s.set hdr .next newHdr
      let s := if s.get newHdr .next ≠ null then s.set (s.get newHdr .next) .prev newHdr else s
      (newHdr, freelistInsert s newHdr)

/-! ## Growing the heap -/

/-- The memory-management state: the heap over the page tables over the frame allocator. -/
structure Kernel where
  mmu : Mmu
  heap : Kheap

/-- The loop of `kheap_expand` and of `kheap_init`: map `n` fresh frames from `currPage` downwards. -/
def kheapMapPages (s : Mmu) (currPage : Word) : Nat → Res Mmu
  | 0 => .ok s
  | n + 1 => do
    let (frame, pmm) ← pmmAlloc s.pmm .normal 1
    let s ← pagingMap { s with pmm := pmm } currPage frame (pagePresent ||| pageWritable)
    kheapMapPages s (currPage - pageSize) n

/-- The tail of `kheap_expand`, from `header = kheap_top` on: the new pages become a free block at
the head of the block list. -/
def kheapPush (s : Kheap) : Kheap :=
  let header := s.kheapTop
  let s := s.set header .size (s.blockHead - blockStartAddr header)
  let s := s.set header .next s.blockHead
  let s := s.set header .prev null
  let s := s.set s.blockHead .prev header
  let s := { s with blockHead := header }
  let s := freelistInsert s header
  (mergeRight s header).2

/-- `kheap_expand(num_pages)`. -/
def kheapExpand (k : Kernel) (numPages : Word) : Res Kernel :=
  if numPages = 0 then
    .ok { k with heap := k.heap.say (warningMsg
      "[kheap_expand] request to expand kheap with 0 pages\n") }
  else do
    let mmu ← kheapMapPages k.mmu (k.heap.kheapTop - pageSize) numPages.toNat
    let heap := { k.heap with kheapTop := k.heap.kheapTop - numPages * pageSize }
    if heap.kheapTop < heap.kheapMax then
      .error (.panic
        "[kheap_expand] kheap has expanded too much:\nkheap_top: 0x%lx\nkheap_max: 0x%lx\nnum_pages: %lu\n"
        [heap.kheapTop, heap.kheapMax, numPages])
    else
      .ok { mmu := mmu, heap := kheapPush heap }

/-! ## `kmalloc`, `kfree`, `krealloc` -/

/-- The search loop of `kmalloc` from `curr` on: the first free block of at least `size` bytes,
`some null` when the list is exhausted. The loop changes nothing, so a search that outlives one
round per address revisits a header and never ends: `none`. -/
def kmallocSearch (s : Kheap) (size : Word) : Nat → Word → Option Word
  | 0, _ => none
  | n + 1, curr =>
    if curr = null then some null
    else if size ≤ s.get curr .size then some curr
    else
      let curr := s.get curr .freeNext
      if curr = s.freeHead then some null else kmallocSearch s size n curr

/-- What `kmalloc` does with the block `curr` its search stopped at. -/
def kmallocTake (s : Kheap) (size curr : Word) : Word × Kheap :=
  if s.get curr .size = size then
    (blockStartAddr curr, freelistRemove s curr)
  else
    let (newHdr, s) := split s curr size
    (blockStartAddr newHdr, freelistRemove s newHdr)

/-- The number of pages `kmalloc` asks `kheap_expand` for. -/
def kmallocPages (s : Kheap) (size : Word) : Word :=
  let newSize :=
    if isFree s s.blockHead then size - s.get s.blockHead .size + hdrSize else size + hdrSize
  newSize / pageSize + (if newSize % pageSize ≠ 0 then 1 else 0)

/-- `kmalloc(size)` with at most `depth` nested calls. -/
def kmallocDepth : Nat → Kernel → Word → Res (Word × Kernel)
  | 0, _, _ => .error .hang
  | depth + 1, k, size =>
    if size = 0 then
      .ok (null, { k with heap := k.heap.say (errorMsg
        "[kmalloc] size of 0 was requested from kheap\n") })
    else
      let size := alignUp size 8
      match kmallocSearch k.heap size (2 ^ 64) k.heap.freeHead with
      | none => .error .hang
      | some curr =>
        if curr ≠ null then
          let (ptr, heap) := kmallocTake k.heap size curr
          .ok (ptr, { k with heap := heap })
        else do
          let newPages := kmallocPages k.heap size
          let k := { k with heap := k.heap.say (plainMsg
            "[kmalloc] expanding heap by %lu pages ...\n" [newPages]) }
          let k ← kheapExpand k newPages
          kmallocDepth depth k size

/-- `kmalloc(size)`. Every nested call follows an expansion of the heap, so a nesting deeper than
the number of addresses never ends. -/
def kmalloc (k : Kernel) (size : Word) : Res (Word × Kernel) := kmallocDepth (2 ^ 64) k size

/-- `kfree(ptr)`. -/
def kfree (s : Kheap) (ptr : Word) : Kheap :=
  let header := ptr - hdrSize
  if isFree s header then
    s.say (errorMsg "[kfree] free request called on an already free memory block\n")
  else
    let s := freelistInsert s header
    (merge s header).2

/-- `krealloc(ptr, size)`. -/
def krealloc (k : Kernel) (ptr size : Word) : Res (Word × Kernel) :=
  let header := ptr - hdrSize
  if isFree k.heap header then
    .ok (null, { k with heap := k.heap.say (errorMsg
      "[krealloc] realloc request called on a free memory block\n") })
  else
    let (header, heap) := mergeRight k.heap header
    if size ≤ heap.get header .size then
      let (header, heap) := split heap header size
      .ok (blockStartAddr header, { k with heap := heap })
    else do
      let (newPtr, k) ← kmalloc { k with heap := heap } size
      if newPtr = null then .ok (null, k)
      else
        let heap := { k.heap with
          mem := memcpy k.heap.mem newPtr ptr (k.heap.get header .size) }
        .ok (newPtr, { k with heap := kfree heap ptr })

/-! ## `kheap_init` -/

/-- `kheap_init(handover, num_pages)`. -/
def kheapInit (k : Kernel) (handover : Handover) (numPages : Word) : Res Kernel :=
  if numPages = 0 then
    .ok { k with heap := k.heap.say (errorMsg
      "[kheap_init] kheap_init was asked to initialize heap with 0 pages.\n") }
  else
    match handover.pmrs with
    | none => .error (.panic "[kheap_init] stivale2 pmrs tag was not found" [])
    | some pmrs =>
      let kheapMax :=
        pmrs.foldl (fun kmax entry => cMax kmax (entry.base + entry.length)) k.heap.kheapMax
      let kheapTop := vaEnd - pageSize * numPages + 1
      if kheapTop < kheapMax then
        .error (.panic
          "[kheap_init] kheap was initialized with too much memory:\nkheap_top: 0x%lx\nkheap_max: 0x%lx\nnum_pages: %lu\n"
          [kheapTop, kheapMax, numPages])
      else do
        let mmu ← kheapMapPages k.mmu (vaEnd - pageSize + 1) numPages.toNat
        let heap := { k.heap with
          kheapTop := kheapTop, kheapMax := kheapMax, blockHead := kheapTop, freeHead := kheapTop }
        let heap := heap.set heap.blockHead .size (numPages * pageSize - hdrSize)
        let heap := heap.set heap.blockHead .next null
        let heap := heap.set heap.blockHead .prev null
        let heap := heap.set heap.freeHead .freeNext heap.freeHead
        let heap := heap.set heap.freeHead .freePrev heap.freeHead
        .ok { mmu := mmu, heap := heap }

end Cerberos
