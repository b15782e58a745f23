/-
# Cerberos.Mm.KheapMalloc — one call of `kmalloc` or `kfree`, whichever way it goes.

`kmalloc` either carves the first fit or grows the heap and carves the new first block. `Malloced` is
what the two ways have in common: one block in use more, the others in use as before with their
payloads, and a layout that stays coalesced. `Released` says the same of `kfree`, with one block in
use less.
-/
import Cerberos.Mm.KheapCalls

namespace Cerberos

open Cerberos.Base

/-! ## Payloads of other blocks -/

/-- No byte in the payload of a block in use differs. -/
def KeepsUsed (L : List Blk) (m m' : Mem) : Prop :=
  ∀ b ∈ L, b.free = false → ∀ x, b.Payload x → m' x = m x

theorem KeepsUsed.trans {L L' : List Blk} {m₁ m₂ m₃ : Mem} (h : KeepsUsed L m₁ m₂)
    (h' : KeepsUsed L' m₂ m₃) (hsub : ∀ b ∈ L, b.free = false → b ∈ L') : KeepsUsed L m₁ m₃ :=
  fun b hb hf x hx => (h' b (hsub b hb hf) hf x hx).trans (h b hb hf x hx)

/-- An edit of headers keeps the payloads of the blocks of its layout. -/
theorem HdrFrame.keepsUsed {top : ℕ} {L L' : List Blk} {m m' : Mem}
    (h : HdrFrame (hdrs L') m m') (ht : Tiled top L') (hsub : ∀ b ∈ L, b.free = false → b ∈ L') :
    KeepsUsed L m m' :=
  fun b hb hf x hx => h x (ht.payload_outside (hsub b hb hf) hx)

/-! ## Sizes -/

/-- The sizes the heap is asked for: at least one byte, and no wrap when the header is added. -/
def SizeOk (size : Word) : Prop := 1 ≤ size.toNat ∧ (size.toNat + 7) / 8 * 8 + 40 < 2 ^ 64

instance (size : Word) : Decidable (SizeOk size) := inferInstanceAs (Decidable (_ ∧ _))

theorem SizeOk.toNat_alignUp {size : Word} (h : SizeOk size) :
    (alignUp size 8).toNat = (size.toNat + 7) / 8 * 8 := by
  have := h.2
  exact toNat_alignUp_eight (by omega)

theorem SizeOk.alignUp {size : Word} (h : SizeOk size) : SizeOk (alignUp size 8) := by
  have h1 := h.1
  have h2 := h.2
  have h3 := h.toNat_alignUp
  constructor <;> rw [h3] <;> omega

theorem SizeOk.alignUp_lt {size : Word} (h : SizeOk size) :
    (Cerberos.alignUp size 8).toNat + 40 < 2 ^ 64 := by
  rw [h.toNat_alignUp]
  exact h.2

theorem SizeOk.ne_zero {size : Word} (h : SizeOk size) : size ≠ 0 := by
  rintro rfl
  exact absurd h.1 (by decide)

/-- `kmalloc` asks for enough whole pages. -/
theorem pages_cover (x : Word) :
    x.toNat ≤ 4096 * (x / pageSize + (if x % pageSize ≠ 0 then 1 else 0)).toNat := by
  have hx := x.isLt
  have hdiv : (x / pageSize).toNat = x.toNat / 4096 := BitVec.toNat_udiv
  have hmod : (x % pageSize).toNat = x.toNat % 4096 := BitVec.toNat_umod
  by_cases h : x % pageSize = 0
  · rw [if_neg (not_not.mpr h), BitVec.toNat_add, hdiv, show (0 : Word).toNat = 0 from rfl]
    rw [h, show (0 : Word).toNat = 0 from rfl] at hmod
    omega
  · rw [if_pos h, BitVec.toNat_add, hdiv, show (1 : Word).toNat = 1 from rfl]
    omega

/-! ## One call -/

/-- The heap kept its place, or grew by whole pages. -/
def Extended (k k' : Kernel) : Prop :=
  (k'.mmu = k.mmu ∧ k'.heap.kheapTop = k.heap.kheapTop ∧ k'.heap.kheapMax = k.heap.kheapMax) ∨
    ∃ numPages, numPages ≠ 0 ∧ Grown k numPages k'

/-- **What `kmalloc` did**: the block `u` is new, and in use. -/
structure Malloced (k : Kernel) (L : List Blk) (n p : Word) (k' : Kernel) (L' : List Blk)
    (F' : List Word) (u : Blk) : Prop where
  rep : Rep k'.heap L' F'
  room : HeapRoom k'
  extended : Extended k k'
  mem : u ∈ L'
  used : u.free = false
  new : u ∉ L
  ptr : p = blockStartAddr u.hdr
  fits : n.toNat ≤ u.size.toNat
  others : ∀ x, x.free = false → (x ∈ L' ↔ x = u ∨ x ∈ L)
  coalesced : Coalesced L → Coalesced L'
  keeps : KeepsUsed L k.heap.mem k'.heap.mem

theorem HeapRoom.of_eq {k k' : Kernel} (h : HeapRoom k) (hmmu : k'.mmu = k.mmu)
    (htop : k'.heap.kheapTop = k.heap.kheapTop) : HeapRoom k' := by
  refine ⟨?_, ?_, ?_, ?_⟩
  · rw [htop]; exact h.align
  · rw [htop, hmmu]; exact h.pages
  · rw [hmmu]; exact h.first
  · rw [hmmu]; exact h.size

/-- The search succeeds: the first fit is carved. -/
theorem kmallocDepth_found {k : Kernel} {L : List Blk} {F : List Word} (h : Rep k.heap L F)
    (hroom : HeapRoom k) {size n : Word} (h0 : size ≠ 0) (hn : alignUp size 8 = n)
    (hfit : firstFit k.heap n F ≠ null) (depth : ℕ) :
    ∃ p k' L' F' u, kmallocDepth (depth + 1) k size = .ok (p, k') ∧ k'.mmu = k.mmu ∧
      k'.heap.kheapTop = k.heap.kheapTop ∧ Malloced k L n p k' L' F' u := by
  obtain ⟨A, b, C, rfl, hb, hhdr, hle⟩ := h.firstFit_mem hfit
  have h8 : n.toNat % 8 = 0 := hn ▸ toNat_alignUp_eight_mod size
  obtain ⟨s', F', htake, hrep, hedit⟩ := h.kmallocTake_spec hb h8 hle
  have hcall : kmallocDepth (depth + 1) k size =
      .ok (blockStartAddr (carveUsed b n).hdr, { k with heap := s' }) := by
    rw [kmallocDepth, if_neg h0]
    simp only [hn, kmallocSearch_spec h.ring n (le_refl (2 ^ 64)), if_pos hfit]
    rw [← hhdr, htake]
  have hmem : ∀ x ∈ A ++ b :: C, x.free = false → x ∈ A ++ (carveRest b n ++ carveUsed b n :: C) :=
    fun x hx hf => (mem_carve hb hf).mpr (Or.inr hx)
  refine ⟨_, _, _, F', carveUsed b n, hcall, rfl, hedit.top, hrep, hroom.of_eq rfl hedit.top,
    Or.inl ⟨rfl, hedit.top, hedit.max⟩, by simp, carveUsed_free b n, ?_, rfl, carveUsed_size hle,
    fun x hx => mem_carve hb hx, Coalesced.carve, hedit.frame.keepsUsed hrep.tiled hmem⟩
  -- a block in use of the old layout is another block of the new one
  intro hu
  have hub : carveUsed b n ≠ b := by
    intro heq
    have := carveUsed_free b n
    rw [heq, hb] at this
    cases this
  have ht : Tiled s'.kheapTop.toNat ((A ++ carveRest b n) ++ carveUsed b n :: C) := by
    simpa using hrep.tiled
  obtain ⟨hA, hC⟩ := ht.hdr_ne
  simp only [List.mem_append, List.mem_cons, hub, false_or] at hu
  rcases hu with hu | hu
  · exact hA _ (by simp [hu]) rfl
  · exact hC _ hu rfl

/-- After an expansion the new first block is large enough. -/
theorem Grown.first_fits {k k' : Kernel} {L C : List Blk} {F F' : List Word} {b : Blk} {n : Word}
    (h : Rep k.heap L F) (hn : n.toNat + 40 < 2 ^ 64) (hnone : firstFit k.heap n F = null)
    (hgrown : Grown k (kmallocPages k.heap n) k')
    (hpages : kmallocPages k.heap n ≠ 0)
    (hfuse : fuseRight ((freshBlk k'.heap.kheapTop k.heap.kheapTop).mark true) L = (b, C))
    (hrep : Rep k'.heap (b :: C) (k'.heap.kheapTop :: F')) :
    firstFit k'.heap n (k'.heap.kheapTop :: F') = k'.heap.kheapTop := by
  have htop := hgrown.top
  have hpos : 0 < (kmallocPages k.heap n).toNat := toNat_pos_of_ne_zero hpages
  have hfit : k'.heap.kheapTop.toNat + 40 ≤ k.heap.kheapTop.toNat := by omega
  have hfresh := freshBlk_size hfit
  have hcover := pages_cover
    (if isFree k.heap k.heap.blockHead then n - k.heap.get k.heap.blockHead .size + hdrSize
      else n + hdrSize)
  rw [show _ / pageSize + _ = kmallocPages k.heap n from rfl] at hcover
  obtain ⟨hfirst, -⟩ := h.firstHdr_eq_top
  have hsize : n.toNat ≤ b.size.toNat := by
    rcases fuseRight_cases ((freshBlk k'.heap.kheapTop k.heap.kheapTop).mark true) L with
      ⟨heq, hhead⟩ | ⟨r, C', rfl, hr, heq⟩
    · -- the old first block is in use, or there is none
      have hnf : isFree k.heap k.heap.blockHead = false := by
        cases L with
        | nil => exact absurd rfl h.firstHdr_eq_top.2
        | cons r C =>
            rw [h.head, ← hfirst]
            exact (h.isFree_eq List.mem_cons_self).trans (hhead r rfl)
      rw [hnf, if_neg (by simp), BitVec.toNat_add, show hdrSize.toNat = 40 from rfl] at hcover
      rw [heq] at hfuse
      injection hfuse with hb _
      rw [← hb]
      show n.toNat ≤ (freshBlk k'.heap.kheapTop k.heap.kheapTop).size.toNat
      omega
    · have hblock : k.heap.blockHead = r.hdr := by rw [h.head, ← hfirst]; rfl
      have hf : isFree k.heap r.hdr = true := (h.isFree_eq List.mem_cons_self).trans hr
      have hrsize : k.heap.get r.hdr .size = r.size :=
        (Laid.fields (A := []) (C := C') h.toLaid).2.2
      have hlt : r.size.toNat < n.toNat := h.firstFit_none hnone List.mem_cons_self hr
      rw [hblock, hf, if_pos rfl, hrsize, BitVec.toNat_add, BitVec.toNat_sub_of_le (le_of_lt hlt),
        show hdrSize.toNat = 40 from rfl] at hcover
      rw [heq] at hfuse
      injection hfuse with hb _
      have htf := (h.tiled.fresh hfit).fuse (A := [])
      rw [← hb]
      show n.toNat ≤ ((freshBlk k'.heap.kheapTop k.heap.kheapTop).fuse r).size.toNat
      rw [htf.1]
      omega
  have hbhdr : b.hdr = k'.heap.kheapTop := by
    have := (fuseRight_hdr ((freshBlk k'.heap.kheapTop k.heap.kheapTop).mark true) L).1
    rw [hfuse] at this
    exact this
  have hbsize : k'.heap.get k'.heap.kheapTop .size = b.size := by
    rw [← hbhdr]
    exact (Laid.fields (A := []) hrep.toLaid).2.2
  unfold firstFit
  rw [List.find?_cons_of_pos]
  · rfl
  · rw [hbsize]
    exact decide_eq_true hsize

theorem kmallocPages_ne_zero {s : Kheap} {L : List Blk} {F : List Word} (h : Rep s L F) {n : Word}
    (hn : n.toNat + 40 < 2 ^ 64) (hnone : firstFit s n F = null) : kmallocPages s n ≠ 0 := by
  intro h0
  have hcover := pages_cover
    (if isFree s s.blockHead then n - s.get s.blockHead .size + hdrSize else n + hdrSize)
  rw [show _ / pageSize + _ = kmallocPages s n from rfl, h0] at hcover
  by_cases hf : isFree s s.blockHead = true
  · obtain ⟨hfirst, hne⟩ := h.firstHdr_eq_top
    cases L with
    | nil => exact hne rfl
    | cons r C =>
        have hblock : s.blockHead = r.hdr := by rw [h.head, ← hfirst]; rfl
        rw [hblock] at hf hcover
        have hr : r.free = true := (h.isFree_eq List.mem_cons_self).symm.trans hf
        have hlt : r.size.toNat < n.toNat := h.firstFit_none hnone List.mem_cons_self hr
        rw [hf, if_pos rfl, (Laid.fields (A := []) (C := C) h.toLaid).2.2, BitVec.toNat_add,
          BitVec.toNat_sub_of_le (le_of_lt hlt), show hdrSize.toNat = 40 from rfl] at hcover
        simp at hcover
        omega
  · rw [if_neg hf, BitVec.toNat_add, show hdrSize.toNat = 40 from rfl] at hcover
    simp at hcover
    omega

theorem kheapMapPages_ends : ∀ (n : ℕ) (s : Mmu) (page : Word), (kheapMapPages s page n).Ends := by
  intro n
  induction n with
  | zero =>
      intro s page
      exact Res.ends_ok s
  | succ n ih =>
      intro s page
      unfold kheapMapPages
      refine (pmmAlloc_ends _ _ _).bind fun a _ => ?_
      exact (pagingMap_ends _ _ _ _).bind fun s _ => ih s _

theorem kheapExpand_ends (k : Kernel) (numPages : Word) : (kheapExpand k numPages).Ends := by
  unfold kheapExpand
  split
  · exact Res.ends_ok _
  · refine (kheapMapPages_ends _ _ _).bind fun a _ => ?_
    dsimp only
    split
    · intro h
      cases h
    · exact Res.ends_ok _

/-- The log line of `kmalloc` before it grows the heap. -/
def Kernel.announce (k : Kernel) (n : Word) : Kernel :=
  { k with heap := k.heap.say (plainMsg
      "[kmalloc] expanding heap by %lu pages ...\n" [kmallocPages k.heap n]) }

/-- The search fails: the heap is grown and the call repeated. -/
theorem kmallocDepth_none {k : Kernel} {F : List Word} (hF : FreeRing k.heap F) {size n : Word}
    (h0 : size ≠ 0) (hn : alignUp size 8 = n) (hfit : firstFit k.heap n F = null) (depth : ℕ) :
    kmallocDepth (depth + 1) k size =
      (kheapExpand (k.announce n) (kmallocPages k.heap n) >>= fun k => kmallocDepth depth k n) := by
  rw [kmallocDepth, if_neg h0]
  simp only [hn, kmallocSearch_spec hF n (le_refl (2 ^ 64)), hfit, ne_eq, not_true_eq_false,
    if_false]
  rfl

/-- **What the expansion inside `kmalloc` did**: the layout `L₁` has the blocks in use of `L`, and a
free block in front. -/
structure Expanded (k : Kernel) (L : List Blk) (n : Word) (k₁ : Kernel) (b : Blk) (C : List Blk)
    (F : List Word) : Prop where
  grown : Grown k (kmallocPages k.heap n) k₁
  fuse : fuseRight ((freshBlk k₁.heap.kheapTop k.heap.kheapTop).mark true) L = (b, C)
  rep : Rep k₁.heap (b :: C) (k₁.heap.kheapTop :: F)
  others : ∀ x, x.free = false → (x ∈ b :: C ↔ x ∈ L)
  coalesced : Coalesced L → Coalesced (b :: C)
  keeps : KeepsUsed L k.heap.mem k₁.heap.mem

theorem kheapExpand_expanded {k k₁ : Kernel} {L : List Blk} {F : List Word} (h : Rep k.heap L F)
    (hroom : HeapRoom k) {n : Word} (hpages : kmallocPages k.heap n ≠ 0)
    (hok : kheapExpand (k.announce n) (kmallocPages k.heap n) = .ok k₁) :
    ∃ b C F', Expanded k L n k₁ b C F' := by
  obtain ⟨hgrown, F', b, C, hfuse, hrep, hframe⟩ :=
    kheapExpand_spec (k := k.announce n) (h.say _) (hroom.of_eq rfl rfl) hpages hok
  have hgrown' : Grown k (kmallocPages k.heap n) k₁ :=
    ⟨hgrown.mmu, hgrown.top, hgrown.max, hgrown.bound, hgrown.room⟩
  have hroom₁ : k₁.heap.kheapTop.toNat + 40 ≤ k.heap.kheapTop.toNat := by
    have h1 := hgrown'.top
    have h2 : 0 < (kmallocPages k.heap n).toNat := toNat_pos_of_ne_zero hpages
    omega
  exact ⟨b, C, F', hgrown', hfuse, hrep, fun x hx => mem_grow rfl hx hfuse,
    fun hc => Coalesced.grow hc hfuse,
    hframe.keepsUsed (h.tiled.fresh hroom₁) fun x hx _ => List.mem_cons_of_mem _ hx⟩

/-- After the expansion the search succeeds. -/
theorem Expanded.fits {k k₁ : Kernel} {L C : List Blk} {F F' : List Word} {b : Blk} {n : Word}
    (h : Rep k.heap L F) (hn : n.toNat + 40 < 2 ^ 64) (hnone : firstFit k.heap n F = null)
    (hexp : Expanded k L n k₁ b C F') :
    firstFit k₁.heap n (k₁.heap.kheapTop :: F') ≠ null := by
  rw [Grown.first_fits h hn hnone hexp.grown (kmallocPages_ne_zero h hn hnone) hexp.fuse hexp.rep]
  intro h0
  have := hexp.rep.pos
  rw [h0] at this
  exact absurd this (by decide)

/-- A block carved from the grown heap is a block carved from the heap. -/
theorem Expanded.malloced {k k₁ k' : Kernel} {L C L' : List Blk} {F F' : List Word} {b u : Blk}
    {n p : Word} (hexp : Expanded k L n k₁ b C F) (hpages : kmallocPages k.heap n ≠ 0)
    (hmmu : k'.mmu = k₁.mmu) (htop : k'.heap.kheapTop = k₁.heap.kheapTop)
    (hm : Malloced k₁ (b :: C) n p k' L' F' u) : Malloced k L n p k' L' F' u := by
  refine ⟨hm.rep, hm.room, ?_, hm.mem, hm.used, ?_, hm.ptr, hm.fits, ?_, ?_, ?_⟩
  · -- the carving kept the place of the grown heap
    refine Or.inr ⟨_, hpages, ?_⟩
    have hmax : k'.heap.kheapMax = k₁.heap.kheapMax := by
      rcases hm.extended with ⟨-, -, hmax⟩ | ⟨_, _, hg⟩
      · exact hmax
      · exact hg.max
    refine ⟨?_, ?_, ?_, ?_, hm.room⟩
    · rw [hmmu]; exact hexp.grown.mmu
    · rw [htop]; exact hexp.grown.top
    · rw [hmax]; exact hexp.grown.max
    · rw [hmax, htop]; exact hexp.grown.bound
  · intro hu
    exact hm.new ((hexp.others u hm.used).mpr hu)
  · intro x hx
    rw [hm.others x hx, hexp.others x hx]
  · intro hc
    exact hm.coalesced (hexp.coalesced hc)
  · exact hexp.keeps.trans hm.keeps fun x hx hf => (hexp.others x hf).mpr hx

/-- **`kmalloc` ends, and when it returns it has put one more block in use.** -/
theorem kmalloc_spec {k : Kernel} {L : List Blk} {F : List Word} (h : Rep k.heap L F)
    (hroom : HeapRoom k) {size : Word} (hsize : SizeOk size) :
    (kmalloc k size).Ends ∧ ∀ p k', kmalloc k size = .ok (p, k') →
      ∃ L' F' u, Malloced k L (alignUp size 8) p k' L' F' u := by
  have hwrap := hsize.alignUp_lt
  have hn0 := hsize.alignUp.ne_zero
  have haa : alignUp (alignUp size 8) 8 = alignUp size 8 :=
    alignUp_eight_of_mod (toNat_alignUp_eight_mod size)
  -- two nested calls are enough
  obtain ⟨depth, hdepth⟩ : ∃ depth, kmalloc k size = kmallocDepth (depth + 1 + 1) k size :=
    ⟨2 ^ 64 - 2, by rw [kmalloc]; norm_num⟩
  rw [hdepth]
  generalize hneq : alignUp size 8 = n at *
  by_cases hfit : firstFit k.heap n F = null
  · have hpages := kmallocPages_ne_zero h hwrap hfit
    rw [kmallocDepth_none h.ring hsize.ne_zero hneq hfit]
    -- after the expansion the nested call finds the new block
    have hnext : ∀ k₁, kheapExpand (k.announce n) (kmallocPages k.heap n) = .ok k₁ →
        ∃ p k' L' F' u, kmallocDepth (depth + 1) k₁ n = .ok (p, k') ∧
          Malloced k L n p k' L' F' u := by
      intro k₁ hok
      obtain ⟨b, C, F', hexp⟩ := kheapExpand_expanded h hroom hpages hok
      obtain ⟨p, k', L', F'', u, hok', hmmu, htop, hm⟩ := kmallocDepth_found hexp.rep
        hexp.grown.room hn0 haa (hexp.fits h hwrap hfit) depth
      exact ⟨p, k', L', F'', u, hok', hexp.malloced hpages hmmu htop hm⟩
    constructor
    · refine (kheapExpand_ends _ _).bind fun k₁ hexp => ?_
      obtain ⟨p, k', L', F', u, hok, -⟩ := hnext k₁ hexp
      rw [hok]
      exact Res.ends_ok _
    · intro p k' hok
      obtain ⟨k₁, hexp, hok⟩ := Res.bind_eq_ok.mp hok
      obtain ⟨p', k'', L', F', u, hok', hm⟩ := hnext k₁ hexp
      rw [hok'] at hok
      cases hok
      exact ⟨L', F', u, hm⟩
  · obtain ⟨p, k', L', F', u, hok, -, -, hm⟩ :=
      kmallocDepth_found h hroom hsize.ne_zero hneq hfit (depth + 1)
    rw [hok]
    refine ⟨Res.ends_ok _, ?_⟩
    intro p' k'' heq
    cases heq
    exact ⟨L', F', u, hm⟩

/-! ## `kfree` -/

/-- **What `kfree` of the block `b` did.** -/
structure Released (s : Kheap) (L : List Blk) (b : Blk) (s' : Kheap) (L' : List Blk)
    (F' : List Word) : Prop where
  rep : Rep s' L' F'
  top : s'.kheapTop = s.kheapTop
  max : s'.kheapMax = s.kheapMax
  others : ∀ x, x.free = false → (x ∈ L' ↔ x ∈ L ∧ x ≠ b)
  coalesced : Coalesced L → Coalesced L'
  keeps : KeepsUsed L s.mem s'.mem

theorem kfree_released {s : Kheap} {L : List Blk} {F : List Word} (h : Rep s L F) {b : Blk}
    (hb : b ∈ L) (hused : b.free = false) :
    ∃ L' F', Released s L b (kfree s (blockStartAddr b.hdr)) L' F' := by
  obtain ⟨A, C, rfl⟩ := List.append_of_mem hb
  obtain ⟨F', hrep, hedit⟩ := h.kfree_spec hused
  refine ⟨_, F', hrep, hedit.top, hedit.max, ?_, Coalesced.release,
    hedit.frame.keepsUsed h.tiled fun _ hx _ => hx⟩
  intro x hx
  rw [mem_release hx, h.tiled.mem_others]

/-- `kfree` of a free block only complains. -/
theorem kfree_free {s : Kheap} {L : List Blk} {F : List Word} (h : Rep s L F) {b : Blk}
    (hb : b ∈ L) (hfree : b.free = true) :
    kfree s (blockStartAddr b.hdr) =
      s.say (errorMsg "[kfree] free request called on an already free memory block\n") := by
  have hhdr : blockStartAddr b.hdr - hdrSize = b.hdr := by
    rw [blockStartAddr]
    ring
  have hf : isFree s b.hdr = true := (h.isFree_eq hb).trans hfree
  unfold kfree
  rw [hhdr]
  exact if_pos hf

end Cerberos
