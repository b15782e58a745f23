/-
# Cerberos.Boot.Start — memory from `_start` on (`boot/boot.c`, `cpu/smp.c`).

`_start` brings up memory in three steps: `pmm_init` takes the frames from the memory map, `paging_init`
builds tables in some of them and loads them, `kheap_init` maps the first page of the heap. From then on
the heap grows by frames that it maps below itself, and `smp_init` takes a frame for each processor.

The heap was modelled with a memory of its own, indexed by virtual addresses, next to the physical one
that holds the tables. This file is what entitles it to that: behind the heap's addresses lie bytes of
physical memory that are all different, and neither the tables nor the frame allocator touch them.
-/
import Cerberos.Cpu.Smp
import Cerberos.Mm.KheapBacking
import Cerberos.Mm.KheapReallocRuns
import Cerberos.Mm.Tlb

namespace Cerberos

open Cerberos.Base

/-! ## `_start` -/

/-- `KHEAP_INIT_PAGES`. -/
abbrev kheapInitPages : Word := 1

/-- The static initialisers of `kheap.c`, over whatever lies at the heap's addresses. -/
def Kheap.static (mem : Mem) : Kheap where
  mem := mem
  kheapTop := 0
  kheapMax := 0
  freeHead := null
  blockHead := null
  log := []

/-- The memory of `_start`: `pmm_init(handover); paging_init(handover); kheap_init(handover,
KHEAP_INIT_PAGES);`, with the tables of the bootloader in `cr3`. -/
def startMemory (area : Mem) (allocArea : Word) (phys mem : Mem) (cr3 : Word) (handover : Handover) :
    Res Kernel := do
  let pmm ← pmmInit (Pmm.static area allocArea) handover
  let mmu ← pagingInit ⟨pmm, phys, cr3, [], []⟩ handover
  kheapInit ⟨mmu, Kheap.static mem⟩ handover kheapInitPages

/-- The heap in use: any calls of a client on live pointers, with reallocations that cut nothing. -/
inductive StartRun (k₀ : Kernel) : Kernel → List (Word × Word) → Prop
  | start : StartRun k₀ k₀ []
  | step {k k' : Kernel} {live live' : List (Word × Word)} {call : ClientCall} :
      StartRun k₀ k live → ClientStep NoSplit call k live k' live' → StartRun k₀ k' live'

/-! ## The three steps -/

theorem pmmInit_memSize {p p' : Pmm} {handover : Handover} {memmap : List MmapEntry} {memEnd : Word}
    (hmemmap : handover.memmap = some memmap) (hend : getMemSize memmap = .ok memEnd)
    (h : pmmInit p handover = .ok p') : p'.memSize = memEnd := by
  unfold pmmInit at h
  rw [hmemmap] at h
  obtain ⟨memSize, hsize, h⟩ := Res.bind_eq_ok.mp h
  cases hend.symm.trans hsize
  split at h
  · cases h
  · obtain ⟨⟨p₁, cursor⟩, hset, h⟩ := Res.bind_eq_ok.mp h
    cases h
    exact (pmmSetEntries_same hset).memSize

theorem pagingInit_walk {s₀ s : Mmu} {handover : Handover} (h : pagingInit s₀ handover = .ok s) :
    FrameSteps s₀.pmm s.pmm := by
  obtain ⟨kb, pmrs, memmap, memEnd, root, s₁, s₂, s₃, s₄, s₅, -, -, -, -, hcreate, hmapPmrs, hsay,
    hid, hhhdm, rfl⟩ := pagingInit_cases h
  have hsay' : WalkSteps s₂ s₃ := by
    rcases hsay with rfl | ⟨msg, rfl⟩
    · exact WalkSteps.refl _
    · exact WalkSteps.say _ _
  exact ((pagingCreate_walk hcreate).trans ((pagingMapPmrs_walk hmapPmrs).trans
    (hsay'.trans ((pagingMaps_walk hid).trans (pagingMaps_walk hhhdm))))).frames

theorem PmmBooted.steps {p p' : Pmm} (h : PmmBooted p) (hs : FrameSteps p p') : PmmBooted p' := by
  induction hs with
  | refl => exact h
  | tail _ hstep ih =>
      obtain ⟨addr, halloc⟩ := hstep
      obtain ⟨area, allocArea, handover, p₀, hinit, hsteps⟩ := ih
      exact ⟨area, allocArea, handover, p₀, hinit, hsteps.tail (.alloc halloc)⟩

/-- The stages of the memory of `_start`, with at most `2 ^ 52` bytes of it. -/
structure Started (handover : Handover) (s₀ s : Mmu) (k₀ : Kernel) : Prop where
  booted : PmmBooted s₀.pmm
  fresh : s₀.created = []
  small : s₀.pmm.memSize.toNat ≤ 2 ^ 52
  paging : pagingInit s₀ handover = .ok s
  heap : ∃ mem, kheapInit ⟨s, Kheap.static mem⟩ handover kheapInitPages = .ok k₀

/-- A `_start` that gets through its memory is such a start. -/
theorem startMemory_started {area phys mem : Mem} {allocArea cr3 : Word} {handover : Handover}
    {k₀ : Kernel} {memmap : List MmapEntry} {memEnd : Word} (hmemmap : handover.memmap = some memmap)
    (hend : getMemSize memmap = .ok memEnd) (hsmall : memEnd.toNat ≤ 2 ^ 52)
    (h : startMemory area allocArea phys mem cr3 handover = .ok k₀) :
    ∃ s₀ s, Started handover s₀ s k₀ := by
  obtain ⟨pmm, hpmm, h⟩ := Res.bind_eq_ok.mp h
  obtain ⟨s, hpaging, hheap⟩ := Res.bind_eq_ok.mp h
  refine ⟨_, s, ⟨area, allocArea, handover, pmm, hpmm, .refl⟩, rfl, ?_, hpaging, mem, hheap⟩
  have hsize : pmm.memSize = memEnd := pmmInit_memSize hmemmap hend hpmm
  rw [hsize]
  exact hsmall

/-- A handover with the kernel above the direct map: the tags are there, the ranges can be mapped, and one
of them ends above the last page `paging_init` maps for physical memory. -/
structure HandoverOk (handover : Handover) (kb : KernelBase) (pmrs : List Pmr) (memEnd : Word) :
    Prop where
  base_tag : handover.kernelBase = some kb
  pmrs_tag : handover.pmrs = some pmrs
  memmap_tag : ∃ memmap, handover.memmap = some memmap ∧ getMemSize memmap = .ok memEnd
  space : SpaceOk kb pmrs memEnd
  kernel : ∃ e ∈ pmrs, vaHhdm.toNat + memEnd.toNat ≤ e.base.toNat + e.length.toNat
  wrap : ∀ e ∈ pmrs, e.base.toNat + e.length.toNat < 2 ^ 64

/-- Above the ranges `paging_init` maps nothing is mapped. -/
theorem SpaceOk.freeAbove {kb : KernelBase} {pmrs : List Pmr} {memEnd : Word}
    (h : SpaceOk kb pmrs memEnd) {top : ℕ} (halign : top % 4096 = 0)
    (hpmrs : ∀ e ∈ pmrs, e.base.toNat + e.length.toNat ≤ top)
    (hhhdm : vaHhdm.toNat + memEnd.toNat ≤ top) :
    FreeAbove (mapAll (fun _ => none) ((initRegions kb pmrs memEnd).flatMap Region.reqs)) top := by
  have hva : vaHhdm.toNat = 2 ^ 64 - 2 ^ 47 := by decide
  intro v hv
  by_contra hne
  have hdown := toNat_alignDown_page v
  have hmod : (alignDown v pageSize).toNat % 4096 = 0 := by omega
  have hcanonical : Canonical (alignDown v pageSize) := by
    unfold Canonical
    omega
  rw [← pageNo_alignDown] at hne
  obtain ⟨r, hr, hholds⟩ := regions_none h.regions_ok hcanonical hmod hne
  rcases SpaceOk.mem_regions hr with ⟨e, he, rfl⟩ | rfl | rfl
  · have hin := (h.pmr_holds he _).mp hholds
    have hbelow := hpmrs e he
    unfold Pmr.Holds at hin
    omega
  · have hin := (h.identity_holds _).mp hholds
    have hlow := h.end_high
    unfold InIdentity at hin
    omega
  · have hin := (h.hhdm_holds _).mp hholds
    unfold InHhdm at hin
    omega

/-! ## The pages of the heap, in every run -/

theorem Backed.krealloc {s₀ : Mmu} {kmax : Word} {k k' : Kernel} (h : Backed s₀ kmax k)
    {ptr size q : Word} (hok : Cerberos.krealloc k ptr size = .ok (q, k')) : Backed s₀ kmax k' := by
  unfold Cerberos.krealloc at hok
  dsimp only at hok
  split at hok
  · cases hok
    exact h.same rfl ⟨rfl, rfl⟩
  have hmerged : Backed s₀ kmax { k with heap := (mergeRight k.heap (ptr - hdrSize)).2 } :=
    h.same rfl (mergeRight_place _ _)
  split at hok
  · cases hok
    exact hmerged.same rfl (split_place _ _ _)
  · obtain ⟨⟨newPtr, k₁⟩, hmalloc, hok⟩ := Res.bind_eq_ok.mp hok
    have h₁ : Backed s₀ kmax k₁ := hmerged.kmallocDepth hmalloc
    dsimp only at hok
    split at hok
    · cases hok
      exact h₁
    · cases hok
      have hcopied : SamePlace k₁.heap { k₁.heap with
          mem := memcpy k₁.heap.mem q ptr (k₁.heap.get (mergeRight k.heap (ptr - hdrSize)).1 .size) } :=
        ⟨rfl, rfl⟩
      exact h₁.same rfl (hcopied.trans (kfree_place _ ptr))

theorem Backed.clientStep {s₀ : Mmu} {kmax : Word} {k k' : Kernel} {live live' : List (Word × Word)}
    {call : ClientCall} (h : Backed s₀ kmax k) (hstep : ClientStep NoSplit call k live k' live') :
    Backed s₀ kmax k' := by
  cases hstep with
  | kmalloc _ hok => exact h.kmallocDepth hok
  | kfree _ => exact h.same rfl (kfree_place _ _)
  | krealloc _ _ _ hok => exact h.krealloc hok
  | write v _ _ => exact h.same rfl ⟨rfl, rfl⟩

section Run

variable {handover : Handover} {s₀ s : Mmu} {k₀ k : Kernel} {live : List (Word × Word)}

theorem Started.clientRun (h : Started handover s₀ s k₀) (hrun : StartRun k₀ k live) :
    ClientRun NoSplit k live := by
  induction hrun with
  | start =>
      obtain ⟨mem, hheap⟩ := h.heap
      exact .init (h.booted.steps (pagingInit_walk h.paging)) (by decide) hheap
  | step _ hstep ih => exact .step ih hstep

/-- The heap never grows past the highest of the protected memory ranges. -/
theorem Started.backed (h : Started handover s₀ s k₀) (hrun : StartRun k₀ k live) :
    ∃ kmax, Backed s kmax k ∧ ∀ pmrs, handover.pmrs = some pmrs → ∀ e ∈ pmrs,
      (e.base + e.length).toNat ≤ kmax.toNat := by
  induction hrun with
  | start =>
      obtain ⟨mem, hheap⟩ := h.heap
      have hzones := (h.booted.steps (pagingInit_walk h.paging)).zones
      have hinit : BackedRun ⟨s, Kheap.static mem⟩ handover k₀ := .init (by decide) hheap
      exact hinit.backed hzones
  | step _ hstep ih =>
      obtain ⟨kmax, hbacked, hmax⟩ := ih
      exact ⟨kmax, hbacked.clientStep hstep, hmax⟩

/-- **The pages of the heap in every run.** -/
theorem Started.mapped (h : Started handover s₀ s k₀) {kb : KernelBase} {pmrs : List Pmr}
    {memEnd : Word} (hhandover : HandoverOk handover kb pmrs memEnd) (hrun : StartRun k₀ k live)
    (hclean : CleanTables k.mmu) : 2 ^ 64 - 2 ^ 47 ≤ k.heap.kheapTop.toNat ∧
    ∃ G M, HeapMapped k.mmu (pagingCr3 k.mmu) (mapAll (fun _ => none)
      ((initRegions kb pmrs memEnd).flatMap Region.reqs)) s.pmm k.heap.kheapTop.toNat G M := by
  obtain ⟨memmap, hmemmap, hend⟩ := hhandover.memmap_tag
  have hspace := hhandover.space
  obtain ⟨kmax, hbacked, hmax⟩ := h.backed hrun
  obtain ⟨G₀, h₀⟩ := pagingInit_tables h.booted.zones h.small h.fresh hhandover.base_tag
    hhandover.pmrs_tag hmemmap hend
    hspace.regions_args h.paging (hclean.of_suffix hbacked.history)
  have hroot : pagingCr3 s = s.cr3 :=
    alignDown_page_of_mod (h₀.tables.frame h₀.tables.root_eq).align
  rw [← hroot] at h₀
  have hbelow : ∀ e ∈ pmrs, e.base.toNat + e.length.toNat ≤ k.heap.kheapTop.toNat := by
    intro e he
    have hlimit := hmax pmrs hhandover.pmrs_tag e he
    rw [BitVec.toNat_add_of_lt (hhandover.wrap e he)] at hlimit
    have hbound : k.heap.kheapMax.toNat ≤ k.heap.kheapTop.toNat := hbacked.bound
    rw [hbacked.max] at hbound
    exact hlimit.trans hbound
  obtain ⟨e, he, hhigh⟩ := hhandover.kernel
  have htop := hbelow e he
  have hva : vaHhdm.toNat = 2 ^ 64 - 2 ^ 47 := by decide
  have hfree := hspace.freeAbove hbacked.room.align hbelow (hhigh.trans htop)
  have hupper : 2 ^ 64 - 2 ^ 47 ≤ k.heap.kheapTop.toNat := by omega
  rw [pagingCr3_eq hbacked.cr3]
  exact ⟨hupper, hbacked.mapped hclean hupper G₀ _ h₀ hfree⟩

end Run

/-! ## Physical memory behind the heap -/

/-- The byte of physical memory behind `v`. -/
def physAt (s : Mmu) (v : Word) : Option Word := (translate s.phys (pagingCr3 s) v).map (inFrame v)

/-- The bytes of physical memory behind a range `(address, size)`. -/
def physBytes (s : Mmu) (a : Word × Word) : Set Word :=
  {p | ∃ i < a.2.toNat, physAt s (a.1 + BitVec.ofNat 64 i) = some p}

/-- The bytes of a frame. -/
def frameBytes (t : Word) : Set Word := {p | t.toNat ≤ p.toNat ∧ p.toNat < t.toNat + 4096}

theorem toNat_inFrame {t v f : Word} (hlt : t.toNat + 4096 ≤ 2 ^ 64) :
    (inFrame v (t, f)).toNat = t.toNat + v.toNat % 4096 := by
  unfold inFrame
  rw [BitVec.toNat_add, BitVec.toNat_umod, show pageSize.toNat = 4096 from rfl]
  dsimp only
  omega

section Phys

variable {s : Mmu} {root : Word} {M₀ M : PageMap} {p₀ : Pmm} {top : ℕ} {G : Tree}

/-- Behind an address of the heap lies a byte of a frame that is taken and holds no table. -/
theorem HeapMapped.physAt (h : HeapMapped s (pagingCr3 s) M₀ p₀ top G M) {v : Word}
    (hv : top ≤ v.toNat) : ∃ t f, M (pageNo v) = some (t, f) ∧
      Cerberos.physAt s v = some (inFrame v (t, f)) ∧ Taken s.pmm t ∧
      (inFrame v (t, f)).toNat = t.toNat + v.toNat % 4096 ∧ ∀ table ∈ s.created, table.frame ≠ t := by
  obtain ⟨t, hpage, htaken, -, htables⟩ := h.pages v hv
  have hhigh := htaken.high
  have hmem := s.pmm.memSize.isLt
  refine ⟨t, _, hpage, ?_, htaken, toNat_inFrame (by omega), htables⟩
  unfold Cerberos.physAt
  rw [h.tables.tables.translate_eq, hpage]
  rfl

/-- **No byte lies behind two addresses of the heap.** -/
theorem HeapMapped.physAt_inj (h : HeapMapped s (pagingCr3 s) M₀ p₀ top G M)
    (hhigh : 2 ^ 64 - 2 ^ 47 ≤ top) {v w p : Word} (hv : top ≤ v.toNat) (hw : top ≤ w.toNat)
    (hvp : Cerberos.physAt s v = some p) (hwp : Cerberos.physAt s w = some p) : v = w := by
  obtain ⟨t, f, hMv, hpv, htaken, hnum, -⟩ := h.physAt hv
  obtain ⟨t', f', hMw, hpw, htaken', hnum', -⟩ := h.physAt hw
  have hp : inFrame v (t, f) = inFrame w (t', f') :=
    Option.some.inj (hpv.symm.trans (hvp.trans (hwp.symm.trans hpw)))
  rw [hp, hnum'] at hnum
  have halign := htaken.align
  have halign' := htaken'.align
  have htt : t = t' := BitVec.eq_of_toNat_eq (by omega)
  subst htt
  have hpages := h.apart v w hv hw t f f' hMv hMw
  have h1 := pageNo_high (show 2 ^ 64 - 2 ^ 47 ≤ v.toNat by omega)
  have h2 := pageNo_high (show 2 ^ 64 - 2 ^ 47 ≤ w.toNat by omega)
  apply BitVec.eq_of_toNat_eq
  omega

/-- No byte behind the heap is a byte of a frame that is none of the heap's. -/
theorem HeapMapped.disjoint_frame (h : HeapMapped s (pagingCr3 s) M₀ p₀ top G M) {t' : Word}
    (halign : t'.toNat % 4096 = 0)
    (hother : ∀ t, Taken s.pmm t → (∀ table ∈ s.created, table.frame ≠ t) → t ≠ t')
    {a : Word × Word} (ha : ∀ i < a.2.toNat, top ≤ (a.1 + BitVec.ofNat 64 i).toNat) :
    Disjoint (physBytes s a) (frameBytes t') := by
  rw [Set.disjoint_left]
  rintro p ⟨i, hi, hp⟩ ⟨hlow, hlt⟩
  obtain ⟨t, f, -, hpv, htaken, hnum, htables⟩ := h.physAt (ha i hi)
  cases hp.symm.trans hpv
  have htt : t = t' := by
    have := htaken.align
    apply BitVec.eq_of_toNat_eq
    omega
  exact hother t htaken htables htt

end Phys

/-- **Live allocations are isolated in physical memory**: from each other, from the headers, from the
page tables, and from every frame the allocator may hand out next. -/
structure Isolated (k : Kernel) (live : List (Word × Word)) : Prop where
  present : ∀ a ∈ live, ∀ i < a.2.toNat, physAt k.mmu (a.1 + BitVec.ofNat 64 i) ≠ none
  apart : live.Pairwise fun a b => Disjoint (physBytes k.mmu a) (physBytes k.mmu b)
  headers : ∀ a ∈ live, ∀ b ∈ blockList k.heap,
    Disjoint (physBytes k.mmu a) (physBytes k.mmu (b.hdr, hdrSize))
  tables : ∀ a ∈ live, ∀ f ∈ k.mmu.created, Disjoint (physBytes k.mmu a) (frameBytes f.frame)
  later : ∀ a ∈ live, ∀ t pmm, pmmAlloc k.mmu.pmm .normal 1 = .ok (t, pmm) →
    Disjoint (physBytes k.mmu a) (frameBytes t)

/-- Where a live allocation lies. -/
structure InHeap (k : Kernel) (a : Word × Word) : Prop where
  low : k.heap.kheapTop.toNat ≤ a.1.toNat
  high : a.1.toNat + a.2.toNat ≤ 2 ^ 64

theorem InHeap.toNat_add {k : Kernel} {a : Word × Word} (h : InHeap k a) {i : ℕ} (hi : i < a.2.toNat) :
    (a.1 + BitVec.ofNat 64 i).toNat = a.1.toNat + i := by
  have := h.high
  rw [BitVec.toNat_add, BitVec.toNat_ofNat]
  omega

theorem ClientOk.inHeap {k : Kernel} {live : List (Word × Word)} {L : List Blk} {F : List Word}
    (h : ClientOk k live L F) {a : Word × Word} (ha : a ∈ live) : InHeap k a := by
  obtain ⟨b, hb, hocc⟩ := h.live_ok.block a ha
  obtain ⟨hptr, hend⟩ := hocc.range h.rep.tiled hb (h.sizes a ha)
  obtain ⟨hlow, hhigh⟩ := h.rep.tiled.fits hb
  unfold Blk.ext at hend
  exact ⟨by omega, by omega⟩

/-- A header lies in the heap. -/
theorem ClientOk.header_inHeap {k : Kernel} {live : List (Word × Word)} {L : List Blk}
    {F : List Word} (h : ClientOk k live L F) {b : Blk} (hb : b ∈ L) : InHeap k (b.hdr, hdrSize) := by
  obtain ⟨hlow, hhigh⟩ := h.rep.tiled.fits hb
  refine ⟨hlow, ?_⟩
  change b.hdr.toNat + 40 ≤ _
  omega

/-- Ranges of the heap that do not meet have no byte in common. -/
theorem HeapMapped.disjoint_ranges {k : Kernel} {M₀ M : PageMap} {p₀ : Pmm} {G : Tree}
    (h : HeapMapped k.mmu (pagingCr3 k.mmu) M₀ p₀ k.heap.kheapTop.toNat G M)
    (hhigh : 2 ^ 64 - 2 ^ 47 ≤ k.heap.kheapTop.toNat) {a b : Word × Word} (ha : InHeap k a)
    (hb : InHeap k b) (hab : RangesDisjoint a b) :
    Disjoint (physBytes k.mmu a) (physBytes k.mmu b) := by
  rw [Set.disjoint_left]
  rintro p ⟨i, hi, hpa⟩ ⟨j, hj, hpb⟩
  have hi' := ha.toNat_add hi
  have hj' := hb.toNat_add hj
  have hla := ha.low
  have hlb := hb.low
  have heq := h.physAt_inj hhigh (by omega) (by omega) hpa hpb
  have hnum := congrArg BitVec.toNat heq
  unfold RangesDisjoint at hab
  omega

theorem HeapMapped.isolated {k : Kernel} {live : List (Word × Word)} {L : List Blk} {F : List Word}
    {M₀ M : PageMap} {p₀ : Pmm} {G : Tree} (hclient : ClientOk k live L F)
    (h : HeapMapped k.mmu (pagingCr3 k.mmu) M₀ p₀ k.heap.kheapTop.toNat G M)
    (hhigh : 2 ^ 64 - 2 ^ 47 ≤ k.heap.kheapTop.toNat) : Isolated k live := by
  have hwithin : ∀ a ∈ live, ∀ i < a.2.toNat,
      k.heap.kheapTop.toNat ≤ (a.1 + BitVec.ofNat 64 i).toNat := by
    intro a ha i hi
    have hin := hclient.inHeap ha
    have hlow := hin.low
    rw [hin.toNat_add hi]
    omega
  constructor
  case present =>
    intro a ha i hi
    obtain ⟨t, f, -, hp, -⟩ := h.physAt (hwithin a ha i hi)
    rw [hp]
    exact Option.some_ne_none _
  case apart =>
    have hdisj := hclient.live_ok.disjoint hclient.rep.tiled hclient.sizes
    exact hdisj.imp_of_mem fun ha hb hab =>
      h.disjoint_ranges hhigh (hclient.inHeap ha) (hclient.inHeap hb) hab
  case headers =>
    intro a ha b hb
    rw [hclient.rep.blockList_eq] at hb
    refine h.disjoint_ranges hhigh (hclient.inHeap ha) (hclient.header_inHeap hb) ?_
    obtain ⟨c, hc, hocc⟩ := hclient.live_ok.block a ha
    obtain ⟨hptr, hend⟩ := hocc.range hclient.rep.tiled hc (hclient.sizes a ha)
    change _ ≤ b.hdr.toNat ∨ b.hdr.toNat + 40 ≤ _
    by_cases hbc : b = c
    · subst hbc
      exact Or.inr (by omega)
    · have hdisj := hclient.rep.tiled.disjoint hb hc hbc
      have hext := b.ext_pos
      simp only [Blk.pos, Blk.ext] at hdisj hend
      omega
  case tables =>
    intro a ha f hf
    refine h.disjoint_frame (h.tables.taken f hf).align ?_ (hwithin a ha)
    rintro t - htables rfl
    exact htables f hf rfl
  case later =>
    intro a ha t pmm halloc
    obtain ⟨htaken, hkeep⟩ := pmmAlloc_taken h.tables.zones halloc
    exact h.disjoint_frame htaken.align (fun t' ht' _ => (hkeep t' ht').2) (hwithin a ha)

/-- **The heap owns the physical memory behind it.** After the memory of `_start`, and through every
sequence of `kmalloc`, `kfree`, reallocations that cut nothing and writes of the client, with tables in
zeroed frames: every byte of a live allocation has a byte of physical memory behind it; no two live
allocations share one, none shares one with a block header or a page table, and the frame allocator hands
out none of them. A `_start` that gets through its memory is such a start. -/
theorem startRun_isolated {handover : Handover} {kb : KernelBase} {pmrs : List Pmr} {memEnd : Word}
    (hhandover : HandoverOk handover kb pmrs memEnd) :
    (∀ (s₀ s : Mmu) (k₀ k : Kernel) (live : List (Word × Word)), Started handover s₀ s k₀ →
      StartRun k₀ k live → CleanTables k.mmu → Isolated k live) ∧
    ∀ (area phys mem : Mem) (allocArea cr3 : Word) (k₀ : Kernel), memEnd.toNat ≤ 2 ^ 52 →
      startMemory area allocArea phys mem cr3 handover = .ok k₀ →
      ∃ s₀ s, Started handover s₀ s k₀ := by
  refine ⟨?_, ?_⟩
  · intro s₀ s k₀ k live h hrun hclean
    obtain ⟨L, F, hclient⟩ := (h.clientRun hrun).ok
    obtain ⟨hupper, G, M, hmapped⟩ := h.mapped hhandover hrun hclean
    exact hmapped.isolated hclient hupper
  · intro area phys mem allocArea cr3 k₀ hsmall hok
    obtain ⟨memmap, hmemmap, hend⟩ := hhandover.memmap_tag
    exact startMemory_started hmemmap hend hsmall hok

/-! ## The other processors -/

/-- What `smp_init` made of one processor: the boot processor is left alone, any other is sent to
`smp_ap_entry` with a frame that was not taken before and is now. -/
def SmpStarted (bsp : BitVec 32) (apEntry : Word) (p p' : Pmm) (proc : SmpInfo)
    (q : SmpInfo × Option Word) : Prop :=
  q.1.lapicId = proc.lapicId ∧
    if proc.lapicId = bsp then q.1 = proc
    else q.1.gotoAddress = apEntry ∧ Taken p' q.1.targetStack ∧ ∀ t, Taken p t → t ≠ q.1.targetStack

/-- The stack pointers of the processors that were started. -/
def smpStacks (bsp : BitVec 32) (procs : List (SmpInfo × Option Word)) : List Word :=
  (procs.filter fun q => q.1.lapicId ≠ bsp).map fun q => q.1.targetStack

theorem smpStacks_taken {bsp : BitVec 32} {apEntry : Word} {p p' : Pmm} {infos : List SmpInfo}
    {procs : List (SmpInfo × Option Word)}
    (h : List.Forall₂ (SmpStarted bsp apEntry p p') infos procs) :
    ∀ stack ∈ smpStacks bsp procs, Taken p' stack ∧ ∀ t, Taken p t → t ≠ stack := by
  induction h with
  | nil => simp [smpStacks]
  | @cons proc q infos procs hstarted _ ih =>
      obtain ⟨hid, hproc⟩ := hstarted
      unfold smpStacks at ih ⊢
      by_cases hbsp : proc.lapicId = bsp
      · rw [List.filter_cons_of_neg (by simpa [hid] using hbsp)]
        exact ih
      · rw [if_neg hbsp] at hproc
        rw [List.filter_cons_of_pos (by simpa [hid] using hbsp), List.map_cons, List.forall_mem_cons]
        exact ⟨hproc.2, ih⟩

theorem smpLoop_started {bsp : BitVec 32} {apEntry : Word} :
    ∀ {infos : List SmpInfo} {procs : List (SmpInfo × Option Word)} {p p' : Pmm}, ZonesOk p →
      smpLoop apEntry bsp p infos = .ok (p', procs) →
      FrameSteps p p' ∧ List.Forall₂ (SmpStarted bsp apEntry p p') infos procs ∧
        (smpStacks bsp procs).Nodup := by
  intro infos
  induction infos with
  | nil =>
      intro procs p p' _ hok
      cases hok
      exact ⟨FrameSteps.refl _, .nil, List.nodup_nil⟩
  | cons proc infos ih =>
      intro procs p p' hz hok
      unfold smpLoop at hok
      by_cases hbsp : proc.lapicId = bsp
      · rw [if_neg (not_not_intro hbsp)] at hok
        obtain ⟨⟨p₁, rest⟩, hrest, hok⟩ := Res.bind_eq_ok.mp hok
        cases hok
        obtain ⟨hsteps, hall, hnodup⟩ := ih hz hrest
        refine ⟨hsteps, .cons ⟨rfl, ?_⟩ hall, ?_⟩
        · rw [if_pos hbsp]
        · unfold smpStacks at hnodup ⊢
          rw [List.filter_cons_of_neg (by simpa using hbsp)]
          exact hnodup
      · rw [if_pos hbsp] at hok
        obtain ⟨⟨stack, p₁⟩, halloc, hok⟩ := Res.bind_eq_ok.mp hok
        obtain ⟨⟨p₂, rest⟩, hrest, hok⟩ := Res.bind_eq_ok.mp hok
        cases hok
        obtain ⟨htaken, hkeep⟩ := pmmAlloc_taken hz halloc
        have hz₁ := hz.same (FrameSteps.single halloc).same
        obtain ⟨hsteps, hall, hnodup⟩ := ih hz₁ hrest
        -- the frames of the rest are taken after this one
        have hall' : List.Forall₂ (SmpStarted bsp apEntry p p') infos rest := by
          refine hall.imp ?_
          rintro a b ⟨hid, hb⟩
          refine ⟨hid, ?_⟩
          split
          · rename_i ha
            rwa [if_pos ha] at hb
          · rename_i ha
            rw [if_neg ha] at hb
            exact ⟨hb.1, hb.2.1, fun t ht => hb.2.2 t (hkeep t ht).1⟩
        refine ⟨(FrameSteps.single halloc).trans hsteps, .cons ⟨rfl, ?_⟩ hall', ?_⟩
        · rw [if_neg hbsp]
          exact ⟨rfl, hsteps.taken hz₁ htaken, fun t ht => (hkeep t ht).2⟩
        · unfold smpStacks at hnodup ⊢
          rw [List.filter_cons_of_pos (by simpa using hbsp), List.map_cons, List.nodup_cons]
          refine ⟨?_, hnodup⟩
          exact fun hmem => (smpStacks_taken hall stack hmem).2 stack htaken rfl

/-- **Every processor gets a frame of its own.** In every state of the heap, `smp_init` leaves the boot
processor alone and sends each other processor to `smp_ap_entry` with a frame that is no other's: no other
processor's, no page table's, none behind the heap; and no later allocation of a frame returns it. The
stack pointer is the LOWEST address of the frame. -/
theorem smpInit_stacks {handover : Handover} {s₀ s : Mmu} {k₀ k : Kernel}
    {live : List (Word × Word)} {kb : KernelBase} {pmrs : List Pmr} {memEnd : Word}
    (h : Started handover s₀ s k₀) (hhandover : HandoverOk handover kb pmrs memEnd)
    (hrun : StartRun k₀ k live) (hclean : CleanTables k.mmu) {apEntry : Word} {tag : SmpTag} {pmm : Pmm}
    {procs : List (SmpInfo × Option Word)}
    (hok : smpInit apEntry k.mmu.pmm (some tag) = .ok (pmm, procs)) :
    List.Forall₂ (fun proc q => q.1.lapicId = proc.lapicId ∧
      if proc.lapicId = tag.bspLapicId then q.1 = proc else q.1.gotoAddress = apEntry)
      tag.smpInfo procs ∧
    (smpStacks tag.bspLapicId procs).Nodup ∧
    ∀ stack ∈ smpStacks tag.bspLapicId procs, stack.toNat % 4096 = 0 ∧
      (∀ f ∈ k.mmu.created, f.frame ≠ stack) ∧
      (∀ v : Word, k.heap.kheapTop.toNat ≤ v.toNat → ∀ x, physAt k.mmu v = some x →
        x ∉ frameBytes stack) ∧
      ∀ p p' t, FrameSteps pmm p → pmmAlloc p .normal 1 = .ok (t, p') → t ≠ stack := by
  obtain ⟨-, G, M, hmapped⟩ := h.mapped hhandover hrun hclean
  have hz := hmapped.tables.zones
  obtain ⟨hsteps, hall, hnodup⟩ := smpLoop_started hz hok
  refine ⟨?_, hnodup, ?_⟩
  · refine hall.imp ?_
    rintro proc q ⟨hid, hproc⟩
    refine ⟨hid, ?_⟩
    split
    · rename_i hbsp
      rwa [if_pos hbsp] at hproc
    · rename_i hbsp
      rw [if_neg hbsp] at hproc
      exact hproc.1
  · intro stack hstack
    obtain ⟨htaken, hfresh⟩ := smpStacks_taken hall stack hstack
    refine ⟨htaken.align, fun f hf => hfresh _ (hmapped.tables.taken f hf), ?_, ?_⟩
    · rintro v hv x hx ⟨hlow, hlt⟩
      obtain ⟨t, f, -, hp, ht, hnum, -⟩ := hmapped.physAt hv
      cases hx.symm.trans hp
      have htt : t = stack := by
        have h1 := ht.align
        have h2 := htaken.align
        apply BitVec.eq_of_toNat_eq
        omega
      exact hfresh t ht htt
    · intro p p' t hlater halloc
      have hzp := (hz.same hsteps.same).same hlater.same
      exact ((pmmAlloc_taken hzp halloc).2 stack (hlater.taken (hz.same hsteps.same) htaken)).2.symm

/-! ### The small machine -/

/-- The first pages of the heap leave memory zero outside the tables. -/
theorem kheapMapPages_zeroed {root : Word} : ∀ {n : ℕ} {s s' : Mmu} {page : Word} {G : Tree}
    {M : PageMap}, PageTables s root G M → pagingCr3 s = root → Zeroed s →
    kheapMapPages s page n = .ok s' → Zeroed s' := by
  intro n
  induction n with
  | zero =>
      intro s s' page G M _ _ hz hok
      cases hok
      exact hz
  | succ n ih =>
      intro s s' page G M h hroot hz hok
      obtain ⟨⟨frame, pmm⟩, halloc, hok⟩ := Res.bind_eq_ok.mp hok
      obtain ⟨s₁, hmap, hok⟩ := Res.bind_eq_ok.mp hok
      have h₁ := h.alloc halloc
      have hcr3 := (pagingMap_walk hmap).cr3
      have hargs := ((pmmAlloc_taken h.zones halloc).1).mapArgs h₁.small
      have hmap' : __pagingMap { s with pmm := pmm } root page frame
          (pagePresent ||| pageWritable) = .ok s₁ := by
        rw [← hroot]
        exact hmap
      have hz₁ := pagingMapAt_zeroed h₁ hargs (hz.congr rfl rfl) hmap'
      obtain ⟨G₁, h₂⟩ := pagingMapAt_spec h₁ hargs hmap' hz₁.clean
      exact ih h₂ ((pagingCr3_eq hcr3).trans hroot) hz₁ hok

theorem kmallocDepth_history : ∀ {depth : ℕ} {k k' : Kernel} {size ptr : Word},
    kmallocDepth depth k size = .ok (ptr, k') → k.mmu.created <:+ k'.mmu.created := by
  intro depth
  induction depth with
  | zero =>
      intro k k' size ptr hok
      cases hok
  | succ depth ih =>
      intro k k' size ptr hok
      unfold kmallocDepth at hok
      split at hok
      · cases hok
        exact List.suffix_refl _
      dsimp only at hok
      split at hok
      · cases hok
      split at hok
      · cases hok
        exact List.suffix_refl _
      · obtain ⟨k₁, hexpand, hok⟩ := Res.bind_eq_ok.mp hok
        refine List.IsSuffix.trans ?_ (ih hok)
        unfold kheapExpand at hexpand
        split at hexpand
        · cases hexpand
          exact List.suffix_refl _
        · obtain ⟨mmu, hmap, hexpand⟩ := Res.bind_eq_ok.mp hexpand
          dsimp only at hexpand
          split at hexpand
          · cases hexpand
          · cases hexpand
            exact (kheapMapPages_walk hmap).2.2

theorem tinyHandover_ok : HandoverOk tinyHandover ⟨0x200000, 0xffffffff80000000⟩
    [⟨0xffffffff80000000, 0x1000, pmrWritable⟩] 0x3000 := by
  refine ⟨rfl, rfl, ⟨_, rfl, rfl⟩, tinyHandover_space, ⟨_, List.mem_singleton_self _, ?_⟩, ?_⟩
  · decide
  · simp

/-- Two allocations of 64 bytes on the small machine. -/
def tinyAllocations (s : Mmu) : Res (Kernel × Word × Kernel × Word × Kernel) := do
  let k₀ ← kheapInit ⟨s, Kheap.static fun _ => 0⟩ tinyHandover kheapInitPages
  let (p, k₁) ← kmalloc k₀ 64
  let (q, k₂) ← kmalloc k₁ 64
  .ok (k₀, p, k₁, q, k₂)

/-- The small machine starts, with its tables in zeroed frames. -/
theorem tinyHandover_start : ∃ s, pagingInit smallMmu tinyHandover = .ok s ∧
    ∀ k₀, kheapInit ⟨s, Kheap.static fun _ => 0⟩ tinyHandover kheapInitPages = .ok k₀ →
      Started tinyHandover smallMmu s k₀ ∧ CleanTables k₀.mmu := by
  obtain ⟨s, hinit, hzeroed⟩ := tinyHandover_init
  refine ⟨s, hinit, ?_⟩
  intro k₀ hheap
  obtain ⟨G, hG⟩ := pagingInit_tables smallPmm_booted.zones smallPmm_small rfl rfl rfl rfl rfl
    tinyHandover_space.regions_args hinit hzeroed.clean
  have hroot : pagingCr3 s = s.cr3 :=
    alignDown_page_of_mod (hG.tables.frame hG.tables.root_eq).align
  have hspec := kheapInit_spec hG.zones (show kheapInitPages ≠ 0 by decide) hheap
  have hz₀ : Zeroed k₀.mmu := kheapMapPages_zeroed hG hroot hzeroed hspec.mmu
  exact ⟨⟨smallPmm_booted, rfl, smallPmm_small, hinit, _, hheap⟩, hz₀.clean⟩

theorem startRun_isolated_tiny : ∃ s k₀ p k₁ q k₂, pagingInit smallMmu tinyHandover = .ok s ∧
    tinyAllocations s = .ok (k₀, p, k₁, q, k₂) ∧
    Disjoint (physBytes k₂.mmu (q, 64)) (physBytes k₂.mmu (p, 64)) := by
  obtain ⟨s, hinit, hstarts⟩ := tinyHandover_start
  have hok : (do
      let s ← pagingInit smallMmu tinyHandover
      let (k₀, _, _, _, k₂) ← tinyAllocations s
      .ok (k₂.mmu.created.length == k₀.mmu.created.length) : Res Bool) = .ok true := by
    decide +kernel
  replace hok := Res.after hinit hok
  obtain ⟨⟨k₀, p, k₁, q, k₂⟩, hrun, hlength⟩ := Res.bind_eq_ok.mp hok
  injection hlength with hlength
  refine ⟨s, k₀, p, k₁, q, k₂, hinit, hrun, ?_⟩
  obtain ⟨k₀', hheap, hcalls⟩ := Res.bind_eq_ok.mp hrun
  obtain ⟨⟨p', k₁'⟩, hp, hcalls⟩ := Res.bind_eq_ok.mp hcalls
  obtain ⟨⟨q', k₂'⟩, hq, hcalls⟩ := Res.bind_eq_ok.mp hcalls
  cases hcalls
  obtain ⟨h, hclean₀⟩ := hstarts _ hheap
  have hstart : StartRun k₀ k₂ [(q, 64), (p, 64)] :=
    .step (.step .start (.kmalloc (by decide) hp)) (.kmalloc (by decide) hq)
  -- the allocations needed no new table
  have hclean : CleanTables k₂.mmu := by
    have hsame := ((kmallocDepth_history hp).trans (kmallocDepth_history hq)).eq_of_length
      (beq_iff_eq.mp hlength).symm
    unfold CleanTables
    rw [← hsame]
    exact hclean₀
  have hisolated := (startRun_isolated tinyHandover_ok).1 _ _ _ _ _ h hstart hclean
  exact (List.pairwise_cons.mp hisolated.apart).1 _ (List.mem_singleton_self _)

/-- Two more processors on the small machine: they get two different frames. -/
theorem smpInit_stacks_tiny : ∃ s k₀ pmm procs a b, pagingInit smallMmu tinyHandover = .ok s ∧
    kheapInit ⟨s, Kheap.static fun _ => 0⟩ tinyHandover kheapInitPages = .ok k₀ ∧
    smpInit 0x9000 k₀.mmu.pmm (some ⟨0, [⟨0, 0, 0⟩, ⟨1, 0, 0⟩, ⟨2, 0, 0⟩]⟩) = .ok (pmm, procs) ∧
    smpStacks 0 procs = [a, b] ∧ a ≠ b ∧ ∀ f ∈ k₀.mmu.created, f.frame ≠ a ∧ f.frame ≠ b := by
  obtain ⟨s, hinit, hstarts⟩ := tinyHandover_start
  have hok : (do
      let s ← pagingInit smallMmu tinyHandover
      let k₀ ← kheapInit ⟨s, Kheap.static fun _ => 0⟩ tinyHandover kheapInitPages
      let r ← smpInit 0x9000 k₀.mmu.pmm (some ⟨0, [⟨0, 0, 0⟩, ⟨1, 0, 0⟩, ⟨2, 0, 0⟩]⟩)
      .ok ((smpStacks 0 r.2).length) : Res ℕ) = .ok 2 := by
    decide +kernel
  replace hok := Res.after hinit hok
  obtain ⟨k₀, hheap, hok⟩ := Res.bind_eq_ok.mp hok
  obtain ⟨⟨pmm, procs⟩, hsmp, hlength⟩ := Res.bind_eq_ok.mp hok
  -- the boot processor is not among them
  obtain ⟨a, b, hab⟩ := List.length_eq_two.mp (Except.ok.inj hlength)
  obtain ⟨h, hclean⟩ := hstarts k₀ hheap
  obtain ⟨-, hnodup, hapart⟩ := smpInit_stacks h tinyHandover_ok .start hclean hsmp
  change (smpStacks 0 procs).Nodup at hnodup
  change ∀ stack ∈ smpStacks 0 procs, _ at hapart
  rw [hab] at hnodup hapart
  refine ⟨s, k₀, pmm, procs, a, b, hinit, hheap, hsmp, hab, by simpa using hnodup, fun f hf => ?_⟩
  exact ⟨(hapart a (by simp)).2.1 f hf, (hapart b (by simp)).2.1 f hf⟩

end Cerberos
