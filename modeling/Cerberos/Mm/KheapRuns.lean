/-
# Cerberos.Mm.KheapRuns — what holds in every state of the kernel heap.

Three kinds of runs. `HeapReach` is the most liberal one: any calls of the three entry points on
pointers whose header is in the block list, and clients that write into the payloads of blocks in use.
In all its states the two lists are intact. `AllocRun` is the run of a well-behaved client, with the
list of its LIVE allocations as a ghost: there allocations own their memory, and the layout is the
unique coalesced one.
-/
import Cerberos.Mm.KheapInit

namespace Cerberos

open Cerberos.Base

/-! ## Any calls on pointers in the block list -/

/-- The header of `ptr` is in the block list. -/
def InBlockList (s : Kheap) (ptr : Word) : Prop := ptr - hdrSize ∈ (blockList s).map Blk.hdr

/-- A client stores one byte. -/
def Kernel.store (k : Kernel) (x : Word) (v : Byte) : Kernel :=
  { k with heap := k.heap.withMem (Function.update k.heap.mem x v) }

/-- The states after `kheap_init` and any calls that return. -/
inductive HeapReach : Kernel → Prop
  | init {k₀ k : Kernel} {handover : Handover} {numPages : Word} :
      PmmBooted k₀.mmu.pmm → 1 ≤ numPages.toNat → kheapInit k₀ handover numPages = .ok k →
      HeapReach k
  | kmalloc {k k' : Kernel} {size ptr : Word} :
      HeapReach k → SizeOk size → kmalloc k size = .ok (ptr, k') → HeapReach k'
  | kfree {k : Kernel} {ptr : Word} :
      HeapReach k → InBlockList k.heap ptr → HeapReach { k with heap := kfree k.heap ptr }
  | krealloc {k k' : Kernel} {ptr size newPtr : Word} :
      HeapReach k → InBlockList k.heap ptr → SizeOk size →
      krealloc k ptr size = .ok (newPtr, k') → HeapReach k'
  | write {k : Kernel} {b : Blk} {x : Word} (v : Byte) :
      HeapReach k → b ∈ blockList k.heap → b.free = false → b.Payload x →
      HeapReach (k.store x v)

theorem numPages_ne_zero {numPages : Word} (h : 1 ≤ numPages.toNat) : numPages ≠ 0 := by
  rintro rfl
  exact absurd h (by decide)

/-- A client's store into a payload is seen by no header. -/
theorem Rep.write {s : Kheap} {L : List Blk} {F : List Word} (h : Rep s L F) {b : Blk} (hb : b ∈ L)
    {x : Word} (hx : b.Payload x) (v : Byte) :
    Rep (s.withMem (Function.update s.mem x v)) L F := by
  refine h.congr ?_ rfl rfl rfl
  intro c hc g
  refine h.tiled.get_of_outside ?_ hc g
  rintro y ⟨z, hz, h1, h2⟩
  refine Function.update_of_ne ?_ _ _
  rintro rfl
  have := h.tiled.payload_outside hb hx z hz
  omega

theorem InBlockList.block {s : Kheap} {L : List Blk} {F : List Word} (h : Rep s L F) {ptr : Word}
    (hptr : InBlockList s ptr) : ∃ b ∈ L, ptr = blockStartAddr b.hdr := by
  unfold InBlockList at hptr
  rw [h.blockList_eq] at hptr
  obtain ⟨b, hb, heq⟩ := List.mem_map.mp hptr
  refine ⟨b, hb, ?_⟩
  rw [heq, blockStartAddr]
  ring

/-- `kfree` of any block keeps the heap intact. -/
theorem Rep.kfree_any {k : Kernel} {L : List Blk} {F : List Word} (h : Rep k.heap L F)
    (hroom : HeapRoom k) {ptr : Word} (hptr : InBlockList k.heap ptr) :
    ∃ L' F', Rep (kfree k.heap ptr) L' F' ∧ HeapRoom { k with heap := kfree k.heap ptr } := by
  obtain ⟨b, hb, rfl⟩ := hptr.block h
  cases hf : b.free with
  | true =>
      rw [kfree_free h hb hf]
      exact ⟨L, F, h.say _, hroom.of_eq rfl rfl⟩
  | false =>
      obtain ⟨L', F', hrel⟩ := kfree_released h hb hf
      exact ⟨L', F', hrel.rep, hroom.of_eq rfl hrel.top⟩

/-- **Every reachable state represents a layout.** -/
theorem HeapReach.rep {k : Kernel} (h : HeapReach k) : ∃ L F, Rep k.heap L F ∧ HeapRoom k := by
  induction h with
  | init hboot hn hok =>
      have spec := kheapInit_spec hboot.zones (numPages_ne_zero hn) hok
      obtain ⟨size, hrep⟩ := spec.rep
      exact ⟨_, _, hrep, spec.room⟩
  | kmalloc _ hsize hok ih =>
      obtain ⟨L, F, hrep, hroom⟩ := ih
      obtain ⟨L', F', u, hm⟩ := (kmalloc_spec hrep hroom hsize).2 _ _ hok
      exact ⟨L', F', hm.rep, hm.room⟩
  | kfree _ hptr ih =>
      obtain ⟨L, F, hrep, hroom⟩ := ih
      exact hrep.kfree_any hroom hptr
  | krealloc _ hptr hsize hok ih =>
      obtain ⟨L, F, hrep, hroom⟩ := ih
      obtain ⟨b, hb, rfl⟩ := hptr.block hrep
      exact (krealloc_rep hrep hroom hb hsize).2 _ _ hok
  | write v _ hb _ hx ih =>
      obtain ⟨L, F, hrep, hroom⟩ := ih
      rw [hrep.blockList_eq] at hb
      exact ⟨L, F, hrep.write hb hx v, hroom.of_eq rfl rfl⟩

/-! ## The two lists -/

/-- The block list visits `hs` and the free list is the ring `fs`. -/
structure HeapShape (s : Kheap) (hs fs : List Word) : Prop where
  head : s.blockHead = s.kheapTop
  first : hs.head? = some s.kheapTop
  next : hs.IsChain (fun a b => s.get a .next = b)
  last : ∀ h ∈ hs.getLast?, s.get h .next = null
  increasing : hs.Pairwise (fun a b => a.toNat < b.toNat)
  tiles : hs.IsChain (fun a b => a.toNat + 40 + (s.get a .size).toNat = b.toNat)
  fills : ∀ h ∈ hs.getLast?, h.toNat + 40 + (s.get h .size).toNat = 2 ^ 64
  prev : hs.IsChain (fun a b => s.get b .prev = a)
  prev_first : s.get s.kheapTop .prev = null
  sizes : ∀ h ∈ hs, (s.get h .size).toNat % 8 = 0
  free_head : s.freeHead = fs.headD null
  free_ring : Ring (fun h => s.get h .freeNext) (fun h => s.get h .freePrev) fs
  free_once : fs.Nodup
  free_iff : ∀ h, h ∈ fs ↔ h ∈ hs ∧ isFree s h = true
  free_none : s.freeHead = null ↔ ∀ h ∈ hs, isFree s h = false

/-- The links and sizes along the layout, header by header. -/
theorem BlockLinks.chains {s : Kheap} :
    ∀ {L : List Blk} {p : Word} {a : ℕ}, BlockLinks s p L null →
      Tiles Blk.pos Blk.ext a L (2 ^ 64) →
      (L.map Blk.hdr).IsChain (fun a b => s.get a .next = b ∧ s.get b .prev = a ∧
        a.toNat + 40 + (s.get a .size).toNat = b.toNat) ∧
      ∀ h ∈ (L.map Blk.hdr).getLast?,
        s.get h .next = null ∧ h.toNat + 40 + (s.get h .size).toNat = 2 ^ 64 := by
  intro L
  induction L with
  | nil =>
      intro p a _ _
      exact ⟨List.isChain_nil, by simp⟩
  | cons b L ih =>
      intro p a hlinks htiles
      obtain ⟨-, hnext, hsize, hrest⟩ := hlinks
      obtain ⟨hpos, htail⟩ := htiles
      obtain ⟨hchain, hlast⟩ := ih hrest htail
      have hposb : b.hdr.toNat = a := hpos
      cases L with
      | nil =>
          have hend : a + (40 + b.size.toNat) = 2 ^ 64 := htail
          refine ⟨List.isChain_singleton _, ?_⟩
          intro h hh
          have hh' : b.hdr = h := by simpa using hh
          rw [← hh', hsize]
          exact ⟨hnext, by omega⟩
      | cons c L =>
          have hc : c.hdr.toNat = a + (40 + b.size.toNat) := htail.1
          refine ⟨?_, ?_⟩
          · simp only [List.map_cons] at hchain ⊢
            refine List.isChain_cons_cons.mpr ⟨⟨hnext, hrest.1, ?_⟩, hchain⟩
            rw [hsize]
            omega
          · intro h hh
            exact hlast h (by simpa using hh)

theorem Rep.shape {s : Kheap} {L : List Blk} {F : List Word} (h : Rep s L F) :
    HeapShape s (L.map Blk.hdr) F := by
  obtain ⟨hchain, hlast⟩ := h.links.chains h.tiled
  obtain ⟨hfirst, hne⟩ := h.firstHdr_eq_top
  constructor
  case head => exact h.head
  case first =>
    cases L with
    | nil => exact absurd rfl hne
    | cons b L => exact congrArg some hfirst
  case next => exact hchain.imp fun _ _ h => h.1
  case last => exact fun x hx => (hlast x hx).1
  case increasing =>
    rw [List.pairwise_map]
    refine h.tiled.pairwise.imp ?_
    intro a b hab
    have := a.ext_pos
    simp only [Blk.pos] at hab
    omega
  case tiles => exact hchain.imp fun _ _ h => h.2.2
  case fills => exact fun x hx => (hlast x hx).2
  case prev => exact hchain.imp fun _ _ h => h.2.1
  case prev_first =>
    rw [← hfirst]
    cases L with
    | nil => exact absurd rfl hne
    | cons b L => exact h.links.1
  case sizes =>
    intro x hx
    obtain ⟨b, hb, rfl⟩ := List.mem_map.mp hx
    obtain ⟨A, C, rfl⟩ := List.append_of_mem hb
    rw [h.fields.2.2]
    exact h.sizes b hb
  case free_head => exact h.ring.head
  case free_ring => exact h.ring.ring
  case free_once => exact h.ring.nodup
  case free_iff =>
    intro x
    rw [h.free x]
    constructor
    · rintro ⟨b, hb, hf, rfl⟩
      exact ⟨List.mem_map_of_mem hb, (h.isFree_eq hb).trans hf⟩
    · rintro ⟨hx, hf⟩
      obtain ⟨b, hb, rfl⟩ := List.mem_map.mp hx
      exact ⟨b, hb, (h.isFree_eq hb).symm.trans hf, rfl⟩
  case free_none =>
    constructor
    · intro h0 x hx
      obtain ⟨b, hb, rfl⟩ := List.mem_map.mp hx
      rw [h.isFree_eq hb]
      cases hf : b.free with
      | false => rfl
      | true => exact absurd h0 (freeHead_ne_null h.ring (h.mem_free hb hf))
    · intro hall
      rw [h.ring.head]
      cases F with
      | nil => rfl
      | cons x F =>
          obtain ⟨b, hb, hf, -⟩ := (h.free x).mp List.mem_cons_self
          have := hall b.hdr (List.mem_map_of_mem hb)
          rw [h.isFree_eq hb, hf] at this
          cases this

/-- **The two lists are intact in every reachable state**, and every further call comes to an end. -/
theorem heapReach_shape {k : Kernel} (h : HeapReach k) :
    (∃ fs, HeapShape k.heap ((blockList k.heap).map Blk.hdr) fs) ∧
      ∀ size, SizeOk size → (kmalloc k size).Ends ∧
        ∀ ptr, InBlockList k.heap ptr → (krealloc k ptr size).Ends := by
  obtain ⟨L, F, hrep, hroom⟩ := h.rep
  constructor
  · rw [hrep.blockList_eq]
    exact ⟨F, hrep.shape⟩
  · intro size hsize
    refine ⟨(kmalloc_spec hrep hroom hsize).1, ?_⟩
    intro ptr hptr
    obtain ⟨b, hb, rfl⟩ := hptr.block hrep
    exact (krealloc_rep hrep hroom hb hsize).1

/-! ### The small machine

Its memory is zeroed, with an empty root table at `0x1000`. -/

def smallKernel : Kernel where
  mmu := { pmm := smallPmm, phys := fun _ => 0, cr3 := 0x1000, log := [], created := [] }
  heap :=
    { mem := fun _ => 0, kheapTop := 0, kheapMax := 0, freeHead := null, blockHead := null
      log := [] }

/-- A first page of heap, and 2048 bytes from it. -/
def smallMalloc : Res (Word × Kernel) := do
  let k ← kheapInit smallKernel smallHandover 1
  kmalloc k 2048

theorem smallMalloc_returns : ∃ k p k', kheapInit smallKernel smallHandover 1 = .ok k ∧
    kmalloc k 2048 = .ok (p, k') := by
  obtain ⟨⟨p, k'⟩, h⟩ := Res.exists_of_isOk (x := smallMalloc) (by decide +kernel)
  obtain ⟨k, hk, h⟩ := Res.bind_eq_ok.mp h
  exact ⟨k, p, k', hk, h⟩

/-- And 64 bytes after that. -/
def smallMallocs : Res (Word × Word × Kernel) := do
  let first ← smallMalloc
  let second ← kmalloc first.2 64
  .ok (first.1, second)

theorem smallMallocs_returns : ∃ k p k₁ q k₂, kheapInit smallKernel smallHandover 1 = .ok k ∧
    kmalloc k 2048 = .ok (p, k₁) ∧ kmalloc k₁ 64 = .ok (q, k₂) ∧
    smallMallocs = .ok (p, q, k₂) := by
  obtain ⟨⟨p, q, k₂⟩, hall⟩ := Res.exists_of_isOk (x := smallMallocs) (by decide +kernel)
  obtain ⟨⟨p, k₁⟩, hfirst, h⟩ := Res.bind_eq_ok.mp hall
  obtain ⟨⟨q, k₂⟩, hq, h⟩ := Res.bind_eq_ok.mp h
  obtain ⟨k, hk, hp⟩ := Res.bind_eq_ok.mp hfirst
  cases h
  exact ⟨k, p, k₁, q, k₂, hk, hp, hq, hall⟩

/-- The lists of the small machine after an allocation. -/
theorem heapReach_shape_small : ∃ k p k', kheapInit smallKernel smallHandover 1 = .ok k ∧
    kmalloc k 2048 = .ok (p, k') ∧
    ∃ fs, HeapShape k'.heap ((blockList k'.heap).map Blk.hdr) fs := by
  obtain ⟨k, p, k', hk, hp⟩ := smallMalloc_returns
  have hreach : HeapReach k' :=
    .kmalloc (.init smallPmm_booted (by decide) hk) (by decide) hp
  exact ⟨k, p, k', hk, hp, (heapReach_shape hreach).1⟩

/-! ## A client and its live allocations -/

/-- A run of `kmalloc` and `kfree`, with the live allocations `(pointer, size)`; the client writes into
its allocations. -/
inductive AllocRun : Kernel → List (Word × Word) → Prop
  | init {k₀ k : Kernel} {handover : Handover} {numPages : Word} :
      PmmBooted k₀.mmu.pmm → 1 ≤ numPages.toNat → kheapInit k₀ handover numPages = .ok k →
      AllocRun k []
  | kmalloc {k k' : Kernel} {live : List (Word × Word)} {size ptr : Word} :
      AllocRun k live → SizeOk size → kmalloc k size = .ok (ptr, k') →
      AllocRun k' ((ptr, size) :: live)
  | kfree {k : Kernel} {live : List (Word × Word)} {a : Word × Word} :
      AllocRun k live → a ∈ live →
      AllocRun { k with heap := kfree k.heap a.1 } (live.erase a)
  | write {k : Kernel} {live : List (Word × Word)} {a : Word × Word} {i : ℕ} (v : Byte) :
      AllocRun k live → a ∈ live → i < a.2.toNat →
      AllocRun (k.store (a.1 + BitVec.ofNat 64 i) v) live

/-- The allocation `a` lives in the block `b`. -/
def Occupies (a : Word × Word) (b : Blk) : Prop :=
  b.free = false ∧ a.1 = blockStartAddr b.hdr ∧ a.2.toNat ≤ b.size.toNat

/-- The live allocations are the blocks in use, one each. -/
structure LiveOk (live : List (Word × Word)) (L : List Blk) : Prop where
  once : (live.map Prod.fst).Nodup
  block : ∀ a ∈ live, ∃ b ∈ L, Occupies a b

theorem Occupies.payload {a : Word × Word} {b : Blk} (h : Occupies a b)
    (hfit : b.hdr.toNat + 40 + b.size.toNat ≤ 2 ^ 64) {i : ℕ} (hi : i < a.2.toNat) :
    b.Payload (a.1 + BitVec.ofNat 64 i) := by
  rw [h.2.1]
  exact (Blk.payload_index hfit (by have := h.2.2; omega)).1

theorem blockStartAddr_inj {x y : Word} (h : blockStartAddr x = blockStartAddr y) : x = y := by
  rw [← blockStartAddr_sub x, h, blockStartAddr_sub]

namespace LiveOk

variable {live : List (Word × Word)} {L L' : List Blk} {b u : Blk} {size : Word}

/-- A block is put in use for a new allocation. -/
theorem alloc (h : LiveOk live L) {top : ℕ} (ht : Tiled top L') (hu : u ∈ L')
    (hused : u.free = false) (hnew : u ∉ L) (hfits : size.toNat ≤ u.size.toNat)
    (hothers : ∀ x ∈ L, x.free = false → x ∈ L') :
    LiveOk ((blockStartAddr u.hdr, size) :: live) L' := by
  refine ⟨?_, ?_⟩
  · rw [List.map_cons, List.nodup_cons]
    refine ⟨?_, h.once⟩
    intro hmem
    obtain ⟨a, ha, heq⟩ := List.mem_map.mp hmem
    obtain ⟨b, hb, hocc⟩ := h.block a ha
    have hhdr : b.hdr = u.hdr := blockStartAddr_inj (hocc.2.1.symm.trans heq)
    have hbu := ht.eq_of_hdr (hothers b hb hocc.1) hu hhdr
    exact hnew (hbu ▸ hb)
  · intro a ha
    rcases List.mem_cons.mp ha with rfl | ha
    · exact ⟨u, hu, hused, rfl, hfits⟩
    · obtain ⟨b, hb, hocc⟩ := h.block a ha
      exact ⟨b, hothers b hb hocc.1, hocc⟩

/-- The block of a dead allocation goes out of use. -/
theorem free (h : LiveOk live L) {a : Word × Word} (ha : a ∈ live) (hocc : Occupies a b)
    (hothers : ∀ x ∈ L, x.free = false → x ≠ b → x ∈ L') : LiveOk (live.erase a) L' := by
  refine ⟨h.once.sublist (List.erase_sublist.map _), ?_⟩
  intro a' ha'
  obtain ⟨b', hb', hocc'⟩ := h.block a' (List.mem_of_mem_erase ha')
  refine ⟨b', hothers b' hb' hocc'.1 ?_, hocc'⟩
  rintro rfl
  -- two live allocations with one pointer are one
  have hptr : a'.1 = a.1 := hocc'.2.1.trans hocc.2.1.symm
  have hnd : live.Nodup := List.Nodup.of_map _ h.once
  have heq : a' = a := List.inj_on_of_nodup_map h.once (List.mem_of_mem_erase ha') ha hptr
  rw [heq] at ha'
  exact (hnd.not_mem_erase) ha'

end LiveOk

/-- **What holds along every run of a client.** -/
structure RunOk (k : Kernel) (live : List (Word × Word)) (L : List Blk) (F : List Word) : Prop where
  rep : Rep k.heap L F
  room : HeapRoom k
  coalesced : Coalesced L
  live_ok : LiveOk live L
  used : ∀ b ∈ L, b.free = false → ∃ a ∈ live, Occupies a b

theorem RunOk.kmalloc {k k' : Kernel} {live : List (Word × Word)} {L : List Blk} {F : List Word}
    (h : RunOk k live L F) {size ptr : Word} (hsize : SizeOk size)
    (hok : Cerberos.kmalloc k size = .ok (ptr, k')) :
    ∃ L' F', RunOk k' ((ptr, size) :: live) L' F' ∧ KeepsUsed L k.heap.mem k'.heap.mem := by
  obtain ⟨L', F', u, hm⟩ := (kmalloc_spec h.rep h.room hsize).2 _ _ hok
  have hfits : size.toNat ≤ u.size.toNat := by
    have h1 := hm.fits
    have h2 := hsize.toNat_alignUp
    omega
  refine ⟨L', F', ⟨hm.rep, hm.room, hm.coalesced h.coalesced, ?_, ?_⟩, hm.keeps⟩
  · rw [hm.ptr]
    exact h.live_ok.alloc hm.rep.tiled hm.mem hm.used hm.new hfits
      fun x hx hf => (hm.others x hf).mpr (Or.inr hx)
  · intro b hb hf
    rcases (hm.others b hf).mp hb with rfl | hb
    · exact ⟨_, List.mem_cons_self, hf, hm.ptr, hfits⟩
    · obtain ⟨a, ha, hocc⟩ := h.used b hb hf
      exact ⟨a, List.mem_cons_of_mem _ ha, hocc⟩

theorem RunOk.kfree {k : Kernel} {live : List (Word × Word)} {L : List Blk} {F : List Word}
    (h : RunOk k live L F) {a : Word × Word} (ha : a ∈ live) :
    ∃ L' F', RunOk { k with heap := Cerberos.kfree k.heap a.1 } (live.erase a) L' F' ∧
      KeepsUsed L k.heap.mem (Cerberos.kfree k.heap a.1).mem := by
  obtain ⟨b, hb, hocc⟩ := h.live_ok.block a ha
  obtain ⟨L', F', hrel⟩ := kfree_released h.rep hb hocc.1
  rw [hocc.2.1]
  refine ⟨L', F', ⟨hrel.rep, h.room.of_eq rfl hrel.top, hrel.coalesced h.coalesced, ?_, ?_⟩,
    hrel.keeps⟩
  · exact h.live_ok.free ha hocc fun x hx hf hne => (hrel.others x hf).mpr ⟨hx, hne⟩
  · intro x hx hf
    obtain ⟨hxL, hxb⟩ := (hrel.others x hf).mp hx
    obtain ⟨a', ha', hocc'⟩ := h.used x hxL hf
    refine ⟨a', ?_, hocc'⟩
    refine (List.mem_erase_of_ne ?_).mpr ha'
    rintro rfl
    exact hxb (h.rep.tiled.eq_of_hdr hxL hb
      (blockStartAddr_inj (hocc'.2.1.symm.trans hocc.2.1)))

theorem AllocRun.ok {k : Kernel} {live : List (Word × Word)} (h : AllocRun k live) :
    ∃ L F, RunOk k live L F := by
  induction h with
  | init hboot hn hok =>
      have spec := kheapInit_spec hboot.zones (numPages_ne_zero hn) hok
      obtain ⟨size, hrep⟩ := spec.rep
      refine ⟨_, _, hrep, spec.room, List.isChain_singleton _, ⟨List.nodup_nil, by simp⟩, ?_⟩
      intro b hb hf
      rw [List.mem_singleton.mp hb] at hf
      cases hf
  | kmalloc _ hsize hok ih =>
      obtain ⟨L, F, hrun⟩ := ih
      obtain ⟨L', F', hrun', -⟩ := hrun.kmalloc hsize hok
      exact ⟨L', F', hrun'⟩
  | kfree _ ha ih =>
      obtain ⟨L, F, hrun⟩ := ih
      obtain ⟨L', F', hrun', -⟩ := hrun.kfree ha
      exact ⟨L', F', hrun'⟩
  | write v _ ha hi ih =>
      obtain ⟨L, F, hrun⟩ := ih
      obtain ⟨b, hb, hocc⟩ := hrun.live_ok.block _ ha
      have hpay := hocc.payload (hrun.rep.tiled.fits hb).2 hi
      exact ⟨L, F, hrun.rep.write hb hpay v, hrun.room.of_eq rfl rfl, hrun.coalesced, hrun.live_ok,
        hrun.used⟩

/-! ## Allocations own their memory -/

/-- Blocks of whole words keep the alignment of the first header. -/
theorem Tiles.hdr_align :
    ∀ {L : List Blk} {a : ℕ}, Tiles Blk.pos Blk.ext a L (2 ^ 64) → a % 8 = 0 →
      (∀ b ∈ L, b.size.toNat % 8 = 0) → ∀ b ∈ L, b.hdr.toNat % 8 = 0 := by
  intro L
  induction L with
  | nil => simp
  | cons c L ih =>
      intro a htiles ha hsizes b hb
      have hc : c.hdr.toNat = a := htiles.1
      have hs := hsizes c List.mem_cons_self
      rcases List.mem_cons.mp hb with rfl | hb
      · omega
      · refine ih htiles.2 ?_ (fun x hx => hsizes x (List.mem_cons_of_mem c hx)) b hb
        rw [Blk.ext]
        omega

/-- Two allocations have no byte in common. -/
def RangesDisjoint (a b : Word × Word) : Prop :=
  a.1.toNat + a.2.toNat ≤ b.1.toNat ∨ b.1.toNat + b.2.toNat ≤ a.1.toNat

/-- Where the payload of an occupied block lies. -/
theorem Occupies.range {a : Word × Word} {b : Blk} (h : Occupies a b) {top : ℕ} {L : List Blk}
    (ht : Tiled top L) (hb : b ∈ L) (hpos : 0 < a.2.toNat) :
    a.1.toNat = b.hdr.toNat + 40 ∧ a.1.toNat + a.2.toNat ≤ b.hdr.toNat + b.ext := by
  have hfit := (ht.fits hb).2
  have hle := h.2.2
  have hptr : a.1.toNat = b.hdr.toNat + 40 := by
    rw [h.2.1, blockStartAddr, BitVec.toNat_add, show hdrSize.toNat = 40 from rfl]
    omega
  rw [hptr, Blk.ext]
  omega

/-- Live allocations are disjoint. -/
theorem LiveOk.disjoint {live : List (Word × Word)} {L : List Blk} (h : LiveOk live L) {top : ℕ}
    (ht : Tiled top L) (hpos : ∀ a ∈ live, 0 < a.2.toNat) : live.Pairwise RangesDisjoint := by
  refine (List.Nodup.of_map _ h.once).pairwise_of_forall_ne ?_
  intro a ha a' ha' hne
  obtain ⟨b, hb, hocc⟩ := h.block a ha
  obtain ⟨b', hb', hocc'⟩ := h.block a' ha'
  have hbb : b ≠ b' := by
    rintro rfl
    exact hne (List.inj_on_of_nodup_map h.once ha ha' (hocc.2.1.trans hocc'.2.1.symm))
  obtain ⟨hptr, hend⟩ := hocc.range ht hb (hpos a ha)
  obtain ⟨hptr', hend'⟩ := hocc'.range ht hb' (hpos a' ha')
  have hd := ht.disjoint hb hb' hbb
  simp only [Blk.pos] at hd
  unfold RangesDisjoint
  omega

theorem AllocRun.size_pos {k : Kernel} {live : List (Word × Word)} (h : AllocRun k live) :
    ∀ a ∈ live, 0 < a.2.toNat := by
  induction h with
  | init => simp
  | kmalloc _ hsize _ ih =>
      intro a ha
      rcases List.mem_cons.mp ha with rfl | ha
      · exact hsize.1
      · exact ih a ha
  | kfree _ _ ih => exact fun a ha => ih a (List.mem_of_mem_erase ha)
  | write _ _ _ _ ih => exact ih

/-- **Allocations own their memory.** Live allocations are aligned, inside the heap, disjoint from
each other and from every header, and no call made for another pointer changes a byte of them. -/
theorem allocRun_owns {k : Kernel} {live : List (Word × Word)} (h : AllocRun k live) :
    (∀ a ∈ live, a.1.toNat % 8 = 0 ∧ k.heap.kheapTop.toNat ≤ a.1.toNat ∧
      a.1.toNat + a.2.toNat ≤ 2 ^ 64) ∧
    live.Pairwise RangesDisjoint ∧
    (∀ a ∈ live, ∀ b ∈ blockList k.heap,
      a.1.toNat + a.2.toNat ≤ b.hdr.toNat ∨ b.hdr.toNat + 40 ≤ a.1.toNat) ∧
    (∀ size ptr k', SizeOk size → kmalloc k size = .ok (ptr, k') →
      ∀ a ∈ live, ∀ i < a.2.toNat,
        k'.heap.mem (a.1 + BitVec.ofNat 64 i) = k.heap.mem (a.1 + BitVec.ofNat 64 i)) ∧
    ∀ f ∈ live, ∀ a ∈ live.erase f, ∀ i < a.2.toNat,
      (kfree k.heap f.1).mem (a.1 + BitVec.ofNat 64 i) =
        k.heap.mem (a.1 + BitVec.ofNat 64 i) := by
  obtain ⟨L, F, hrun⟩ := h.ok
  have hpos := h.size_pos
  have ht := hrun.rep.tiled
  have hkeep : ∀ m', KeepsUsed L k.heap.mem m' → ∀ a ∈ live, ∀ i < a.2.toNat,
      m' (a.1 + BitVec.ofNat 64 i) = k.heap.mem (a.1 + BitVec.ofNat 64 i) := by
    intro m' hk a ha i hi
    obtain ⟨b, hb, hocc⟩ := hrun.live_ok.block a ha
    exact hk b hb hocc.1 _ (hocc.payload (ht.fits hb).2 hi)
  refine ⟨?_, ?_, ?_, ?_, ?_⟩
  · intro a ha
    obtain ⟨b, hb, hocc⟩ := hrun.live_ok.block a ha
    obtain ⟨hptr, hend⟩ := hocc.range ht hb (hpos a ha)
    have h8 := Tiles.hdr_align ht hrun.rep.align hrun.rep.sizes b hb
    have hfit := ht.fits hb
    rw [Blk.ext] at hend
    omega
  · exact hrun.live_ok.disjoint ht hpos
  · intro a ha c hc
    rw [hrun.rep.blockList_eq] at hc
    obtain ⟨b, hb, hocc⟩ := hrun.live_ok.block a ha
    obtain ⟨hptr, hend⟩ := hocc.range ht hb (hpos a ha)
    by_cases hbc : b = c
    · subst hbc
      exact Or.inr (by omega)
    · have hd := ht.disjoint hb hc hbc
      simp only [Blk.pos, Blk.ext] at hd hend
      omega
  · intro size ptr k' hsize hok
    obtain ⟨-, -, -, hk⟩ := hrun.kmalloc hsize hok
    exact hkeep _ hk
  · intro f hf a ha
    obtain ⟨-, -, -, hk⟩ := hrun.kfree hf
    exact hkeep _ hk a (List.mem_of_mem_erase ha)

theorem smallMallocs_run : ∃ p q k, smallMallocs = .ok (p, q, k) ∧
    AllocRun k [(q, 64), (p, 2048)] := by
  obtain ⟨k, p, k₁, q, k₂, hk, hp, hq, hall⟩ := smallMallocs_returns
  exact ⟨p, q, k₂, hall,
    .kmalloc (.kmalloc (.init smallPmm_booted (by decide) hk) (by decide) hp) (by decide) hq⟩

/-- The two allocations on the small machine are aligned and apart, and freeing the second keeps the
bytes of the first. -/
theorem allocRun_owns_small : ∃ k p q, AllocRun k [(q, 64), (p, 2048)] ∧
    p.toNat % 8 = 0 ∧ q.toNat % 8 = 0 ∧ RangesDisjoint (q, 64) (p, 2048) ∧
    ∀ i < 2048, (kfree k.heap q).mem (p + BitVec.ofNat 64 i) = k.heap.mem (p + BitVec.ofNat 64 i) := by
  obtain ⟨p, q, k, -, hrun⟩ := smallMallocs_run
  obtain ⟨hrange, hapart, -, -, hfree⟩ := allocRun_owns hrun
  have hp : (p, 2048) ∈ [(q, (64 : Word)), (p, 2048)] := by simp
  have hq : (q, 64) ∈ [(q, (64 : Word)), (p, 2048)] := by simp
  refine ⟨k, p, q, hrun, (hrange _ hp).1, (hrange _ hq).1,
    List.rel_of_pairwise_cons hapart (by simp), ?_⟩
  exact hfree _ hq (p, 2048) (by simp)

/-! ## The layout is canonical -/

theorem Blk.eq_of_place {b c : Blk} (hpos : b.pos = c.pos) (hext : b.ext = c.ext)
    (hfree : b.free = c.free) : b = c := by
  obtain ⟨hdr, size, free⟩ := b
  obtain ⟨hdr', size', free'⟩ := c
  simp only [Blk.pos, Blk.ext] at hpos hext hfree
  have h1 : hdr = hdr' := BitVec.eq_of_toNat_eq hpos
  have h2 : size = size' := BitVec.eq_of_toNat_eq (by omega)
  rw [h1, h2, hfree]

/-- **The layout is canonical.** It is determined by the top of the heap and the blocks in use,
whatever the order of the calls; no two neighbours are free; and when nothing is live it is one free
block. -/
theorem allocRun_canonical {k₁ : Kernel} {live₁ : List (Word × Word)} (h₁ : AllocRun k₁ live₁) :
    (∀ k₂ live₂, AllocRun k₂ live₂ → k₁.heap.kheapTop = k₂.heap.kheapTop →
      (∀ b : Blk, b.free = false → (b ∈ blockList k₁.heap ↔ b ∈ blockList k₂.heap)) →
      blockList k₁.heap = blockList k₂.heap) ∧
    Coalesced (blockList k₁.heap) ∧
    (live₁ = [] → ∃ size : Word, blockList k₁.heap = [⟨k₁.heap.kheapTop, size, true⟩] ∧
      size.toNat = 2 ^ 64 - k₁.heap.kheapTop.toNat - 40) := by
  obtain ⟨L₁, F₁, hrun₁⟩ := h₁.ok
  rw [hrun₁.rep.blockList_eq]
  refine ⟨?_, hrun₁.coalesced, ?_⟩
  · intro k₂ live₂ h₂ htop hused
    obtain ⟨L₂, F₂, hrun₂⟩ := h₂.ok
    rw [hrun₂.rep.blockList_eq] at hused ⊢
    have ht₂ := hrun₂.rep.tiled
    rw [← htop] at ht₂
    exact Tiles.canonical Blk.ext_pos (fun _ _ => Blk.eq_of_place) hrun₁.rep.tiled ht₂
      hrun₁.coalesced hrun₂.coalesced hused
  · intro hnone
    have hall : ∀ b ∈ L₁, b.free = true := by
      intro b hb
      cases hf : b.free with
      | true => rfl
      | false =>
          obtain ⟨a, ha, -⟩ := hrun₁.used b hb hf
          rw [hnone] at ha
          cases ha
    obtain ⟨b, hL, hpos, hend⟩ := hrun₁.rep.tiled.eq_singleton_of_all_free
      k₁.heap.kheapTop.isLt hrun₁.coalesced hall
    have hfree := hall b (by rw [hL]; exact List.mem_singleton_self b)
    simp only [Blk.pos, Blk.ext] at hpos hend
    refine ⟨b.size, ?_, by omega⟩
    rw [hL, ← BitVec.eq_of_toNat_eq hpos, ← hfree]

/-- After its only allocation is freed, the heap of the small machine is one block again. -/
theorem allocRun_canonical_small : ∃ k p, AllocRun k [(p, 2048)] ∧
    ∃ size : Word, blockList (kfree k.heap p) = [⟨(kfree k.heap p).kheapTop, size, true⟩] := by
  obtain ⟨k, p, k', hk, hp⟩ := smallMalloc_returns
  have hrun : AllocRun k' [(p, 2048)] :=
    .kmalloc (.init smallPmm_booted (by decide) hk) (by decide) hp
  have hfree := AllocRun.kfree hrun List.mem_cons_self
  obtain ⟨size, hlist, -⟩ := (allocRun_canonical hfree).2.2 (by simp)
  exact ⟨k', p, hrun, size, hlist⟩

end Cerberos
