/-
# Cerberos.Mm.KheapClient — the kernel heap as an allocator.

The data structures of `lib/ds` are proved over any allocator that meets its contract. This module is
the other half: the heap of `kheap.c` meets it, for the sizes it can be asked for. Its live blocks are
the allocations of a well-behaved client, under an invariant that the calls keep (`HeapInv`): `RunOk`
when the client only allocates and frees, `ClientOk` when it also reallocates without a cut.
-/
import Cerberos.Base.Blocks
import Cerberos.Mm.KheapReallocRuns

namespace Cerberos

open Cerberos.Base

instance : Std.Symm RangesDisjoint := ⟨fun _ _ h => Or.symm h⟩

/-- `kmalloc` and `kfree` over the virtual memory of the kernel. -/
def kernelHeap : Allocator Halt Kernel where
  mem k := k.heap.mem
  setMem k m := { k with heap := k.heap.withMem m }
  malloc k size := kmalloc k size
  free k ptr := { k with heap := kfree k.heap ptr }

/-- `B` are the live allocations of a client of the heap. -/
def KernelLive (k : Kernel) (B : Blocks) : Prop :=
  ∃ live L F, RunOk k live L F ∧ (∀ a ∈ live, 0 < a.2.toNat) ∧
    ∀ a n, B a = some n ↔ ∃ size : Word, (a, size) ∈ live ∧ n = size.toNat

theorem kernelLive_init {k₀ k : Kernel} {handover : Handover} {numPages : Word}
    (hboot : PmmBooted k₀.mmu.pmm) (hn : 1 ≤ numPages.toNat)
    (hok : kheapInit k₀ handover numPages = .ok k) : KernelLive k fun _ => none := by
  obtain ⟨L, F, hrun⟩ := (AllocRun.init hboot hn hok).ok
  refine ⟨[], L, F, hrun, by simp, ?_⟩
  simp

/-! ## Allocations as blocks -/

/-- `B` are the allocations of `live`. -/
def BlocksOf (B : Blocks) (live : List (Word × Word)) : Prop :=
  ∀ a n, B a = some n ↔ ∃ size : Word, (a, size) ∈ live ∧ n = size.toNat

namespace BlocksOf

variable {B : Blocks} {live : List (Word × Word)} {p n : Word} {a : Word × Word}

/-- A pointer that occurs once is new. -/
theorem eq_none (h : BlocksOf B live)
    (honce : (((p, n) :: live).map Prod.fst).Nodup) : B p = none := by
  rw [List.map_cons, List.nodup_cons] at honce
  cases hp : B p with
  | none => rfl
  | some m =>
      obtain ⟨size, hmem, -⟩ := (h p m).mp hp
      exact absurd (List.mem_map.mpr ⟨_, hmem, rfl⟩) honce.1

theorem cons (h : BlocksOf B live) (honce : (((p, n) :: live).map Prod.fst).Nodup) :
    BlocksOf (Function.update B p (some n.toNat)) ((p, n) :: live) := by
  have hnone := h.eq_none honce
  intro a m
  by_cases hap : a = p
  · subst hap
    rw [Function.update_self]
    constructor
    · rintro ⟨⟩
      exact ⟨n, List.mem_cons_self, rfl⟩
    · rintro ⟨size, hmem, rfl⟩
      rcases List.mem_cons.mp hmem with heq | hmem
      · cases heq
        rfl
      · have hsome := (h a _).mpr ⟨size, hmem, rfl⟩
        rw [hnone] at hsome
        cases hsome
  · rw [Function.update_of_ne hap, h]
    simp [hap]

theorem erase (h : BlocksOf B live) (honce : (live.map Prod.fst).Nodup) (ha : a ∈ live) :
    BlocksOf (Function.update B a.1 none) (live.erase a) := by
  have hnd : live.Nodup := List.Nodup.of_map _ honce
  intro b m
  by_cases hba : b = a.1
  · -- the pointer determines the allocation
    subst hba
    rw [Function.update_self]
    constructor
    · rintro ⟨⟩
    · rintro ⟨size', hmem', -⟩
      have heq : (a.1, size') = a := List.inj_on_of_nodup_map honce
        (List.mem_of_mem_erase hmem') ha rfl
      rw [heq] at hmem'
      exact absurd hmem' hnd.not_mem_erase
  · rw [Function.update_of_ne hba, h]
    have hne : ∀ size', (b, size') ≠ a := by
      rintro size' rfl
      exact hba rfl
    simp only [List.mem_erase_of_ne (hne _)]

end BlocksOf

/-- A byte of an allocation is a byte of the payload it occupies. -/
theorem Occupies.payload_of_inBlock {a : Word × Word} {b : Blk} (hocc : Occupies a b) {top : ℕ}
    {L : List Blk} (ht : Tiled top L) (hb : b ∈ L) (hpos : 0 < a.2.toNat) {x : Word}
    (hx : InBlock a.1 a.2.toNat x) : b.Payload x := by
  obtain ⟨hptr, hend⟩ := hocc.range ht hb hpos
  unfold InBlock at hx
  unfold Blk.Payload
  unfold Blk.ext at hend
  omega

/-- The live blocks hold the payloads of blocks in use, so calls keep their bytes. -/
theorem LiveOk.keeps {live : List (Word × Word)} {L : List Blk} (h : LiveOk live L) {top : ℕ}
    (ht : Tiled top L) {m m' : Mem} (hk : KeepsUsed L m m') {a : Word × Word}
    (ha : a ∈ live) (hpos : 0 < a.2.toNat) {x : Word} (hx : InBlock a.1 a.2.toNat x) :
    m' x = m x := by
  obtain ⟨b, hb, hocc⟩ := h.block _ ha
  exact hk b hb hocc.1 x (hocc.payload_of_inBlock ht hb hpos hx)

/-- A client's stores into its allocations are seen by no header. -/
theorem LiveOk.withMem {s : Kheap} {live : List (Word × Word)} {L : List Blk} {F : List Word}
    (h : LiveOk live L) (hrep : Rep s L F) (hpos : ∀ a ∈ live, 0 < a.2.toNat) {m : Mem}
    (hm : ∀ x, (∀ a ∈ live, ¬ InBlock a.1 a.2.toNat x) → m x = s.mem x) : Rep (s.withMem m) L F := by
  refine hrep.congr ?_ rfl rfl rfl
  intro c hc g
  refine hrep.tiled.get_of_outside ?_ hc g
  rintro x ⟨y, hy, h1, h2⟩
  apply hm
  intro a ha hx
  obtain ⟨b, hb, hocc⟩ := h.block _ ha
  have hpay := hocc.payload_of_inBlock hrep.tiled hb (hpos _ ha) hx
  have := hrep.tiled.payload_outside hb hpay y hy
  omega

/-! ## Invariants of the heap -/

/-- **An invariant of the heap and its live allocations that the calls of a client keep.** -/
structure HeapInv (I : Kernel → List (Word × Word) → List Blk → List Word → Prop) : Prop where
  rep : ∀ {k live L F}, I k live L F → Rep k.heap L F
  live_ok : ∀ {k live L F}, I k live L F → LiveOk live L
  kmalloc : ∀ {k k' live L F size ptr}, I k live L F → SizeOk size →
    Cerberos.kmalloc k size = .ok (ptr, k') →
    ∃ L' F', I k' ((ptr, size) :: live) L' F' ∧ KeepsUsed L k.heap.mem k'.heap.mem
  kfree : ∀ {k live L F a}, I k live L F → a ∈ live →
    ∃ L' F', I { k with heap := Cerberos.kfree k.heap a.1 } (live.erase a) L' F' ∧
      KeepsUsed L k.heap.mem (Cerberos.kfree k.heap a.1).mem
  withMem : ∀ {k live L F m}, I k live L F → Rep (k.heap.withMem m) L F →
    I { k with heap := k.heap.withMem m } live L F

/-- `B` are the live allocations of a client, under the invariant. -/
def LiveUnder (I : Kernel → List (Word × Word) → List Blk → List Word → Prop) (k : Kernel)
    (B : Blocks) : Prop :=
  ∃ live L F, I k live L F ∧ (∀ a ∈ live, 0 < a.2.toNat) ∧ BlocksOf B live

namespace HeapInv

variable {I : Kernel → List (Word × Word) → List Blk → List Word → Prop}

theorem blocks_ok (hI : HeapInv I) {k : Kernel} {B : Blocks} (h : LiveUnder I k B) : B.Ok := by
  obtain ⟨live, L, F, hinv, hpos, hB⟩ := h
  have ht := (hI.rep hinv).tiled
  constructor
  · intro a n ha
    obtain ⟨size, hmem, rfl⟩ := (hB a n).mp ha
    obtain ⟨b, hb, hocc⟩ := (hI.live_ok hinv).block _ hmem
    obtain ⟨hptr, hend⟩ := hocc.range ht hb (hpos _ hmem)
    have hfit := (ht.fits hb).2
    unfold Blk.ext at hend
    dsimp only at hptr hend
    refine ⟨?_, by omega⟩
    rintro rfl
    have h0 : (0 : Word).toNat = 0 := rfl
    omega
  · intro a n b m ha hb hab
    obtain ⟨size, hmem, rfl⟩ := (hB a n).mp ha
    obtain ⟨size', hmem', rfl⟩ := (hB b m).mp hb
    have hd := ((hI.live_ok hinv).disjoint ht hpos).forall hmem hmem' (by simp [hab])
    exact hd

/-- **Under such an invariant the kernel heap meets the contract of an allocator.** -/
theorem meets (hI : HeapInv I) : kernelHeap.Meets SizeOk (LiveUnder I) := by
  constructor
  case mem_setMem => exact fun _ _ => rfl
  case blocks => exact hI.blocks_ok
  case malloc =>
    rintro k k' B n p ⟨live, L, F, hinv, hpos, hB⟩ hsize hok
    obtain ⟨L', F', hinv', hk⟩ := hI.kmalloc hinv hsize hok
    have honce := (hI.live_ok hinv').once
    refine ⟨hB.eq_none honce, ⟨_, L', F', hinv', ?_, hB.cons honce⟩, ?_⟩
    · rw [List.forall_mem_cons]
      exact ⟨hsize.1, hpos⟩
    · intro a m ha x hx
      obtain ⟨size, hmem, rfl⟩ := (hB a m).mp ha
      exact (hI.live_ok hinv).keeps (hI.rep hinv).tiled hk hmem (hpos _ hmem) hx
  case free =>
    rintro k B a n ⟨live, L, F, hinv, hpos, hB⟩ ha
    obtain ⟨size, hmem, rfl⟩ := (hB a n).mp ha
    obtain ⟨L', F', hinv', hk⟩ := hI.kfree hinv hmem
    have hB' := hB.erase (hI.live_ok hinv).once hmem
    refine ⟨⟨_, L', F', hinv', ?_, hB'⟩, ?_⟩
    · exact fun c hc => hpos c (List.mem_of_mem_erase hc)
    · intro b m hb x hx
      obtain ⟨size', hmem', rfl⟩ := (hB' b m).mp hb
      have hmem'' := List.mem_of_mem_erase hmem'
      exact (hI.live_ok hinv).keeps (hI.rep hinv).tiled hk hmem'' (hpos _ hmem'') hx
  case setMem =>
    rintro k B m ⟨live, L, F, hinv, hpos, hB⟩ hm
    refine ⟨live, L, F, hI.withMem hinv ?_, hpos, hB⟩
    refine (hI.live_ok hinv).withMem (hI.rep hinv) hpos fun x hx => hm x ?_
    intro a n ha
    obtain ⟨size, hmem, rfl⟩ := (hB a n).mp ha
    exact hx (a, size) hmem

end HeapInv

/-! ## The two kinds of clients -/

theorem runOk_heapInv : HeapInv RunOk where
  rep h := h.rep
  live_ok h := h.live_ok
  kmalloc h := h.kmalloc
  kfree h := h.kfree
  withMem h hrep := ⟨hrep, h.room.of_eq rfl rfl, h.coalesced, h.live_ok, h.used⟩

theorem clientOk_heapInv : HeapInv ClientOk where
  rep h := h.rep
  live_ok h := h.live_ok
  kmalloc h := h.kmalloc
  kfree h := h.kfree
  withMem h hrep := ⟨hrep, h.room.of_eq rfl rfl, h.live_ok, h.sizes⟩

/-- **The kernel heap meets the contract of an allocator.** -/
theorem kernelHeap_meets : kernelHeap.Meets SizeOk KernelLive := runOk_heapInv.meets

/-- The live allocations of a client that may also reallocate. -/
abbrev ClientLive : Kernel → Blocks → Prop := LiveUnder ClientOk

theorem clientLive_init {k₀ k : Kernel} {handover : Handover} {numPages : Word}
    (hboot : PmmBooted k₀.mmu.pmm) (hn : 1 ≤ numPages.toNat)
    (hok : kheapInit k₀ handover numPages = .ok k) : ClientLive k fun _ => none := by
  obtain ⟨L, F, hclient⟩ := (ClientRun.init hboot hn hok).ok
  refine ⟨[], L, F, hclient, by simp, ?_⟩
  unfold BlocksOf
  simp

/-- A reallocation the heap serves without a cut. -/
def ReallocOk (k : Kernel) (ptr size : Word) : Prop := SizeOk size ∧ NoSplit k.heap ptr size

instance (k : Kernel) (ptr size : Word) : Decidable (ReallocOk k ptr size) :=
  inferInstanceAs (Decidable (_ ∧ _))

/-- **`krealloc` meets the contract of a reallocation** as long as it cuts nothing. -/
theorem kernelHeap_regrows : kernelHeap.Regrows krealloc ReallocOk ClientLive := by
  rintro k k' B a n size q ⟨live, L, F, hclient, hpos, hB⟩ ha ⟨hsize, hns⟩ hok
  obtain ⟨old, hmem, rfl⟩ := (hB a n).mp ha
  obtain ⟨b, hb, hocc, L', F', u, hr, hclient'⟩ := hclient.krealloc hmem hsize hns hok
  have honce := hclient'.live_ok.once
  have hB' := hB.erase hclient.live_ok.once hmem
  refine ⟨?_, ⟨_, L', F', hclient', hclient'.sizes, hB'.cons honce⟩, ?_, ?_⟩
  · intro hne
    have hnone := hB'.eq_none honce
    rwa [Function.update_of_ne hne] at hnone
  · intro i hi
    have hle : old.toNat ≤ b.size.toNat := hocc.2.2
    have hptr : a = blockStartAddr b.hdr := hocc.2.1
    rw [hptr]
    exact hr.copied i (by omega)
  · intro c m hc x hx
    obtain ⟨size', hmem', rfl⟩ := (hB' c m).mp hc
    have hmem'' := List.mem_of_mem_erase hmem'
    obtain ⟨y, hy, hocc'⟩ := hclient.live_ok.block _ hmem''
    have hyb : y ≠ b := by
      rintro rfl
      have hca : c = a := hocc'.2.1.trans hocc.2.1.symm
      rw [hca, Function.update_self] at hc
      cases hc
    exact hr.keeps y hy hocc'.1 hyb x
      (hocc'.payload_of_inBlock hclient.rep.tiled hy (hpos _ hmem'') hx)

theorem kmalloc_zero (k : Kernel) : kmalloc k 0 = .ok (null, { k with heap := k.heap.say (errorMsg
    "[kmalloc] size of 0 was requested from kheap\n") }) := by
  unfold kmalloc
  rw [show 2 ^ 64 = (2 ^ 64 - 1) + 1 by norm_num, kmallocDepth, if_pos rfl]

/-- A request for 0 bytes is only logged. -/
theorem kernelHeap_zeroOk : kernelHeap.ZeroOk ClientLive := by
  rintro k k' B p ⟨live, L, F, hclient, hpos, hB⟩ hok
  have hlogged := (kmalloc_zero k).symm.trans hok
  cases hlogged
  exact ⟨⟨live, L, F, ⟨hclient.rep.say _, hclient.room.of_eq rfl rfl, hclient.live_ok,
    hclient.sizes⟩, hpos, hB⟩, fun _ _ _ _ _ => rfl⟩

end Cerberos
