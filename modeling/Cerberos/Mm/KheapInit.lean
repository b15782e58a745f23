/-
# Cerberos.Mm.KheapInit — `kheap_init`, and the block list a reader of memory sees.

`kheap_init` maps the first pages and writes one header: a single free block. From there on the block
list can be read back from memory by following `next` (`blockList`), and what is read back is the
layout the state represents.
-/
import Cerberos.Mm.KheapRealloc

namespace Cerberos

open Cerberos.Base

/-! ## `kheap_init` -/

/-- The header stores of `kheap_init`. -/
def initStores (s : Kheap) (top size : Word) : Kheap :=
  ((((s.set top .size size).set top .next null).set top .prev null).set top .freeNext top).set top
    .freePrev top

theorem initStores_get (s : Kheap) {top : Word} (size : Word) (hfit : top.toNat + 40 ≤ 2 ^ 64) (g : Field) :
    (initStores s top size).get top g =
      match g with
      | .next => null
      | .prev => null
      | .freeNext => top
      | .freePrev => top
      | .size => size := by
  have hH : Apart {top} := by
    refine ⟨?_, ?_⟩
    · rintro _ rfl
      exact hfit
    · rintro _ rfl _ rfl hne
      exact absurd rfl hne
  have hm : top ∈ ({top} : Set Word) := Set.mem_singleton top
  unfold initStores
  rw [Kheap.get_set hH _ hm hm, Kheap.get_set hH _ hm hm, Kheap.get_set hH _ hm hm,
    Kheap.get_set hH _ hm hm, Kheap.get_set hH _ hm hm]
  cases g <;> simp

/-- One free block from the top of the heap to the end of memory. -/
def initBlk (top size : Word) : Blk := ⟨top, size, true⟩

theorem initStores_rep {s : Kheap} {top size : Word} (htop : s.kheapTop = top)
    (hblock : s.blockHead = top) (hfree : s.freeHead = top) (hpos : 0 < top.toNat)
    (h8 : top.toNat % 8 = 0) (hsize : top.toNat + 40 + size.toNat = 2 ^ 64) :
    Rep (initStores s top size) [initBlk top size] [top] := by
  have hget := initStores_get s size (show top.toNat + 40 ≤ 2 ^ 64 by omega)
  have hne : top ≠ null := by
    rintro rfl
    exact absurd hpos (by decide)
  refine ⟨⟨?_, ?_, ?_, ?_, ?_, ?_, ?_, ?_⟩, ?_⟩
  · show 0 < s.kheapTop.toNat
    rw [htop]
    exact hpos
  · show s.kheapTop.toNat % 8 = 0
    rw [htop]
    exact h8
  · show s.blockHead = s.kheapTop
    rw [htop, hblock]
  · show Tiled s.kheapTop.toNat _
    rw [htop]
    refine ⟨rfl, ?_⟩
    show top.toNat + (40 + size.toNat) = 2 ^ 64
    omega
  · intro b hb
    rw [List.mem_singleton.mp hb]
    show size.toNat % 8 = 0
    omega
  · exact ⟨hget .prev, hget .next, hget .size, trivial⟩
  · refine ⟨hfree, List.nodup_singleton top, by simpa using hne.symm, ?_⟩
    exact ring_singleton (hget .freeNext) (hget .freePrev)
  · intro x
    constructor
    · intro hx
      exact ⟨initBlk top size, List.mem_singleton_self _, rfl, (List.mem_singleton.mp hx).symm⟩
    · rintro ⟨b, hb, -, rfl⟩
      rw [List.mem_singleton.mp hb]
      exact List.mem_singleton_self top
  · intro b hb hf
    rw [List.mem_singleton.mp hb] at hf
    cases hf

/-- What a returning `kheap_init` did. -/
structure Inited (k : Kernel) (handover : Handover) (numPages : Word) (k' : Kernel) : Prop where
  rep : ∃ size, Rep k'.heap [initBlk k'.heap.kheapTop size] [k'.heap.kheapTop]
  room : HeapRoom k'
  mmu : kheapMapPages k.mmu (vaEnd - pageSize + 1) numPages.toNat = .ok k'.mmu
  top : k'.heap.kheapTop.toNat + 4096 * numPages.toNat = 2 ^ 64
  max : ∃ pmrs, handover.pmrs = some pmrs ∧ k'.heap.kheapMax =
    pmrs.foldl (fun kmax entry => cMax kmax (entry.base + entry.length)) k.heap.kheapMax
  bound : k'.heap.kheapMax ≤ k'.heap.kheapTop

/-- **`kheap_init` sets up one free block.** -/
theorem kheapInit_spec {k k' : Kernel} {handover : Handover} {numPages : Word}
    (hzones : ZonesOk k.mmu.pmm) (h0 : numPages ≠ 0)
    (hok : kheapInit k handover numPages = .ok k') : Inited k handover numPages k' := by
  unfold kheapInit at hok
  rw [if_neg h0] at hok
  cases hpmrs : handover.pmrs with
  | none =>
      rw [hpmrs] at hok
      cases hok
  | some pmrs =>
      rw [hpmrs] at hok
      dsimp only at hok
      generalize hmax : pmrs.foldl (fun kmax entry => cMax kmax (entry.base + entry.length))
        k.heap.kheapMax = kheapMax at hok
      by_cases hlt : vaEnd - pageSize * numPages + 1 < kheapMax
      · rw [if_pos hlt] at hok
        cases hok
      · rw [if_neg hlt] at hok
        obtain ⟨mmu, hmap, hok⟩ := Res.bind_eq_ok.mp hok
        injection hok with hok
        obtain ⟨hgrow, -⟩ := kheapMapPages_grows hmap
        have hsz := hzones.size_lt
        have hpos := toNat_pos_of_ne_zero h0
        have hfirst := hgrow.first
        have hbound : (mmu.pmm.memZone .normal).firstFreeIdx.toNat ≤
            (k.mmu.pmm.memZone .normal).bitmap.size.toNat := by
          rcases hgrow.bound with heq | hle
          · rw [heq] at hfirst
            omega
          · exact hle
        have hmul : (pageSize * numPages).toNat = 4096 * numPages.toNat := by
          rw [BitVec.toNat_mul, show pageSize.toNat = 4096 from rfl]
          omega
        have htop : (vaEnd - pageSize * numPages + 1).toNat = 2 ^ 64 - 4096 * numPages.toNat := by
          rw [BitVec.toNat_add, BitVec.toNat_sub, hmul, show vaEnd.toNat = 2 ^ 64 - 1 from rfl,
            show (1 : Word).toNat = 1 from rfl]
          omega
        have hsize : (numPages * pageSize - hdrSize).toNat = 4096 * numPages.toNat - 40 := by
          rw [BitVec.toNat_sub, BitVec.mul_comm, hmul, show hdrSize.toNat = 40 from rfl]
          omega
        have hheap : k'.heap = initStores { k.heap with
            kheapTop := vaEnd - pageSize * numPages + 1, kheapMax := kheapMax,
            blockHead := vaEnd - pageSize * numPages + 1,
            freeHead := vaEnd - pageSize * numPages + 1 } (vaEnd - pageSize * numPages + 1)
            (numPages * pageSize - hdrSize) := by
          rw [← hok]
          rfl
        have hmmu : k'.mmu = mmu := by rw [← hok]
        have hktop : k'.heap.kheapTop = vaEnd - pageSize * numPages + 1 := by rw [hheap]; rfl
        have hkmax : k'.heap.kheapMax = kheapMax := by rw [hheap]; rfl
        refine ⟨⟨numPages * pageSize - hdrSize, ?_⟩, ⟨?_, ?_, ?_, ?_⟩, ?_, ?_, ⟨pmrs, hpmrs, ?_⟩, ?_⟩
        · rw [hktop, hheap]
          exact initStores_rep rfl rfl rfl (by omega) (by omega) (by omega)
        · rw [hktop, htop]
          omega
        · rw [hktop, htop, hmmu]
          omega
        · rw [hmmu, hgrow.bitmap]
          exact hbound
        · rw [hmmu, hgrow.bitmap]
          exact hsz
        · rw [hmmu]
          exact hmap
        · rw [hktop, htop]
          omega
        · rw [hkmax, hmax]
        · rw [hktop, hkmax]
          exact BitVec.not_lt.mp hlt

/-! ## The block list in memory -/

/-- At most `n` blocks from `hdr` on, following `next`. -/
def blocksFrom (s : Kheap) : ℕ → Word → List Blk
  | 0, _ => []
  | n + 1, hdr =>
    if hdr = null then []
    else ⟨hdr, s.get hdr .size, isFree s hdr⟩ :: blocksFrom s n (s.get hdr .next)

/-- The block list, as the links and fields in memory have it. -/
def blockList (s : Kheap) : List Blk := blocksFrom s (2 ^ 64) s.blockHead

theorem blocksFrom_eq {s : Kheap} :
    ∀ {L : List Blk} {p : Word} {n : ℕ}, BlockLinks s p L null → (∀ b ∈ L, b.hdr ≠ null) →
      (∀ b ∈ L, isFree s b.hdr = b.free) → L.length ≤ n → blocksFrom s n (firstHdr L null) = L := by
  intro L
  induction L with
  | nil =>
      intro p n _ _ _ _
      cases n with
      | zero => rfl
      | succ n => exact if_pos rfl
  | cons b L ih =>
      intro p n hlinks hne hfree hn
      obtain ⟨m, rfl⟩ : ∃ m, n = m + 1 := ⟨n - 1, by simp at hn; omega⟩
      obtain ⟨-, hnext, hsize, hrest⟩ := hlinks
      have hrec := ih (n := m) hrest (fun x hx => hne x (List.mem_cons_of_mem b hx))
        (fun x hx => hfree x (List.mem_cons_of_mem b hx)) (by simp at hn; omega)
      rw [show firstHdr (b :: L) null = b.hdr from rfl, blocksFrom,
        if_neg (hne b List.mem_cons_self), hsize, hnext, hfree b List.mem_cons_self, hrec]

/-- **The block list in memory is the layout.** -/
theorem Rep.blockList_eq {s : Kheap} {L : List Blk} {F : List Word} (h : Rep s L F) :
    blockList s = L := by
  have hlen : L.length ≤ 2 ^ 64 := by
    have := nodup_length_le h.tiled.hdrs_nodup
    rwa [List.length_map] at this
  unfold blockList
  rw [h.head, ← h.firstHdr_eq_top.1]
  exact blocksFrom_eq h.links (fun b hb => h.hdr_ne_null hb) (fun b hb => h.isFree_eq hb) hlen

end Cerberos
