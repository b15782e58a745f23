/-
# Cerberos.Mm.KheapRealloc — one call of `krealloc`, path by path.

`krealloc` first lets the block swallow a free right neighbour. A block that is then too small is
replaced: allocate, copy, free. A block that is large enough goes to `split`, which either leaves it
alone or CUTS it, and a cut returns the upper part, free and with other bytes in it. `NoSplit` is the
condition under which no cut happens; under it the caller gets a block in use with the old bytes
(`Realloced`).
-/
import Cerberos.Mm.KheapMalloc

namespace Cerberos

open Cerberos.Base

/-! ## When nothing is cut -/

/-- The size of the block at `hdr` after it has swallowed a free right neighbour. -/
def mergedSize (s : Kheap) (hdr : Word) : Word :=
  let right := s.get hdr .next
  if right ≠ null ∧ isFree s right then s.get hdr .size + hdrSize + s.get right .size
  else s.get hdr .size

/-- Reallocating to `size` bytes cuts nothing: the block is too small, or too little would be left. -/
def NoSplit (s : Kheap) (ptr size : Word) : Prop :=
  mergedSize s (ptr - hdrSize) < size ∨
    mergedSize s (ptr - hdrSize) - alignUp size 8 < hdrSize + kheapMinFreeSize

instance (s : Kheap) (ptr size : Word) : Decidable (NoSplit s ptr size) :=
  inferInstanceAs (Decidable (_ ∨ _))

theorem blockStartAddr_sub (hdr : Word) : blockStartAddr hdr - hdrSize = hdr := by
  rw [blockStartAddr]
  ring

theorem Rep.mergedSize_eq {s : Kheap} {A C : List Blk} {b : Blk} {F : List Word}
    (h : Rep s (A ++ b :: C) F) : mergedSize s b.hdr = (fuseRight b C).1.size := by
  obtain ⟨-, hnext, hsize⟩ := h.fields
  unfold mergedSize
  rw [hnext, hsize]
  cases C with
  | nil =>
      rw [show firstHdr [] null = null from rfl]
      exact if_neg fun hc => hc.1 rfl
  | cons r C =>
      have h' : Rep s ((A ++ [b]) ++ r :: C) F := by simpa using h
      have hr : isFree s r.hdr = r.free := h.isFree_eq (by simp)
      have hrn : r.hdr ≠ null := h.hdr_ne_null (by simp)
      rw [show firstHdr (r :: C) null = r.hdr from rfl]
      simp only [hr, hrn, ne_eq, not_false_eq_true, true_and, h'.fields.2.2, fuseRight]
      split <;> rfl

/-- The layout with `b` widened has the other blocks in use of the old one. -/
theorem mem_widen {A C : List Blk} {b x : Blk} (hx : x.free = false) :
    x ∈ A ++ (fuseRight b C).1 :: (fuseRight b C).2 ↔ x = (fuseRight b C).1 ∨ x ∈ A ∨ x ∈ C := by
  simp only [List.mem_append, List.mem_cons, mem_fuseRight hx]
  tauto

/-! ## The outcomes -/

/-- **What a `krealloc` that cuts nothing did**: the block `u` took the place of `b`, with its
bytes. -/
structure Realloced (k : Kernel) (L : List Blk) (b : Blk) (size q : Word) (k' : Kernel)
    (L' : List Blk) (F' : List Word) (u : Blk) : Prop where
  rep : Rep k'.heap L' F'
  room : HeapRoom k'
  mem : u ∈ L'
  used : u.free = false
  ptr : q = blockStartAddr u.hdr
  fits : size.toNat ≤ u.size.toNat
  new : ∀ x ∈ L, x.free = false → x ≠ b → x ≠ u
  others : ∀ x, x.free = false → (x ∈ L' ↔ x = u ∨ x ∈ L ∧ x ≠ b)
  keeps : ∀ x ∈ L, x.free = false → x ≠ b → ∀ y, x.Payload y → k'.heap.mem y = k.heap.mem y
  copied : ∀ i < b.size.toNat, k'.heap.mem (q + BitVec.ofNat 64 i) =
    k.heap.mem (blockStartAddr b.hdr + BitVec.ofNat 64 i)

/-- A byte of the payload, by its index. -/
theorem Blk.payload_index {b : Blk} (hfit : b.hdr.toNat + 40 + b.size.toNat ≤ 2 ^ 64) {i : ℕ}
    (hi : i < b.size.toNat) : b.Payload (blockStartAddr b.hdr + BitVec.ofNat 64 i) ∧
      (blockStartAddr b.hdr + BitVec.ofNat 64 i).toNat = b.hdr.toNat + 40 + i := by
  have hadd : (blockStartAddr b.hdr + BitVec.ofNat 64 i).toNat = b.hdr.toNat + 40 + i := by
    rw [blockStartAddr, BitVec.toNat_add, BitVec.toNat_add, BitVec.toNat_ofNat,
      show hdrSize.toNat = 40 from rfl]
    omega
  refine ⟨⟨?_, ?_⟩, hadd⟩ <;> rw [hadd] <;> omega

/-- Payloads of two blocks of a layout do not meet. -/
theorem Tiled.payload_disjoint {top : ℕ} {L : List Blk} (h : Tiled top L) {b b' : Blk} (hb : b ∈ L)
    (hb' : b' ∈ L) (hne : b ≠ b') {x : Word} (hx : b.Payload x) : ¬ b'.Payload x := by
  rintro ⟨h1, h2⟩
  have hd := h.disjoint hb hb' hne
  have h3 := hx.1
  have h4 := hx.2
  simp only [Blk.pos, Blk.ext] at hd
  omega

/-- Copying the payload of `b` into the larger payload of `u`. -/
theorem memcpy_payload {m : Mem} {top : ℕ} {L : List Blk} (ht : Tiled top L) {b u : Blk} (hb : b ∈ L)
    (hu : u ∈ L) (hne : u ≠ b) (hle : b.size.toNat ≤ u.size.toNat) :
    (∀ i < b.size.toNat,
      memcpy m (blockStartAddr u.hdr) (blockStartAddr b.hdr) b.size
        (blockStartAddr u.hdr + BitVec.ofNat 64 i) =
          m (blockStartAddr b.hdr + BitVec.ofNat 64 i)) ∧
      ∀ x, ¬ u.Payload x →
        memcpy m (blockStartAddr u.hdr) (blockStartAddr b.hdr) b.size x = m x := by
  have hfu := (ht.fits hu).2
  have hfb := (ht.fits hb).2
  rcases Nat.eq_zero_or_pos b.size.toNat with hz | hpos
  · unfold memcpy
    rw [hz]
    exact ⟨fun i hi => absurd hi (by omega), fun _ _ => rfl⟩
  · have hsu : (blockStartAddr u.hdr).toNat = u.hdr.toNat + 40 := by
      rw [blockStartAddr, BitVec.toNat_add, show hdrSize.toNat = 40 from rfl]
      omega
    have hsb : (blockStartAddr b.hdr).toNat = b.hdr.toNat + 40 := by
      rw [blockStartAddr, BitVec.toNat_add, show hdrSize.toNat = 40 from rfl]
      omega
    have hd := ht.disjoint hu hb hne
    simp only [Blk.pos, Blk.ext] at hd
    have hcopy : memcpy m (blockStartAddr u.hdr) (blockStartAddr b.hdr) b.size =
        fillBytes m (blockStartAddr u.hdr)
          (fun i => m (blockStartAddr b.hdr + BitVec.ofNat 64 i)) b.size.toNat := by
      unfold memcpy
      exact memcpyLoop_eq_fillBytes (by omega) (by omega) (by omega)
    rw [hcopy]
    constructor
    · intro i hi
      exact fillBytes_apply_add _ _ _ (by omega) hi
    · intro x hx
      apply fillBytes_apply_of_outside (by omega)
      unfold Blk.Payload at hx
      omega

/-! ## The paths -/

/-- The fallback of `krealloc`: allocate, copy, free. -/
def kreallocMove (k : Kernel) (ptr hdr size : Word) : Res (Word × Kernel) := do
  let (newPtr, k) ← kmalloc k size
  if newPtr = null then .ok (null, k)
  else
    let heap := k.heap.withMem (memcpy k.heap.mem newPtr ptr (k.heap.get hdr .size))
    .ok (newPtr, { k with heap := kfree heap ptr })

/-- `krealloc` of a block in use, after its `merge_right`. -/
theorem krealloc_eq {k : Kernel} {A C : List Blk} {b : Blk} {F : List Word}
    (h : Rep k.heap (A ++ b :: C) F) (hused : b.free = false) (size : Word) :
    ∃ s₁ F₁, mergeRight k.heap b.hdr = (b.hdr, s₁) ∧
      Rep s₁ (A ++ (fuseRight b C).1 :: (fuseRight b C).2) F₁ ∧
      HdrEdit (hdrs (A ++ b :: C)) k.heap s₁ ∧
      krealloc k (blockStartAddr b.hdr) size =
        if size ≤ (fuseRight b C).1.size then
          .ok (blockStartAddr (split s₁ b.hdr size).1, { k with heap := (split s₁ b.hdr size).2 })
        else kreallocMove { k with heap := s₁ } (blockStartAddr b.hdr) b.hdr size := by
  obtain ⟨s₁, F₁, hmerge, hrep, hedit⟩ := h.mergeRight_spec
  refine ⟨s₁, F₁, hmerge, hrep, hedit, ?_⟩
  have hfree : isFree k.heap b.hdr = false := (h.isFree_eq (by simp)).trans hused
  have hsize : s₁.get b.hdr .size = (fuseRight b C).1.size := by
    rw [← (fuseRight_hdr b C).1]
    exact hrep.fields.2.2
  unfold krealloc
  simp only [blockStartAddr_sub, hfree, Bool.false_eq_true, if_false, hmerge, hsize]
  rfl

/-- The block is large enough and is kept. -/
theorem krealloc_keep {k : Kernel} {A C : List Blk} {b : Blk} {F : List Word}
    (h : Rep k.heap (A ++ b :: C) F) (hroom : HeapRoom k) (hused : b.free = false) {size : Word}
    (hle : size ≤ (fuseRight b C).1.size)
    (hkeep : (fuseRight b C).1.size - alignUp size 8 < hdrSize + kheapMinFreeSize) :
    ∃ k' F', krealloc k (blockStartAddr b.hdr) size = .ok (blockStartAddr b.hdr, k') ∧
      Realloced k (A ++ b :: C) b size (blockStartAddr b.hdr) k'
        (A ++ (fuseRight b C).1 :: (fuseRight b C).2) F' (fuseRight b C).1 := by
  obtain ⟨s₁, F₁, -, hrep, hedit, hcall⟩ := krealloc_eq h hused size
  obtain ⟨hhdr, hfree⟩ := fuseRight_hdr b C
  have hsplit : split s₁ b.hdr size = (b.hdr, s₁) := by
    have := hrep.split_keep hkeep
    rwa [hhdr] at this
  rw [if_pos hle, hsplit] at hcall
  refine ⟨_, F₁, hcall, hrep, hroom.of_eq rfl hedit.top, by simp, hfree.trans hused, ?_, hle, ?_, ?_,
    ?_, ?_⟩
  · rw [hhdr]
  · intro x hx _ hxb heq
    exact hxb (h.tiled.eq_of_hdr hx (by simp) (by rw [heq, hhdr]))
  · intro x hx
    rw [mem_widen hx, h.tiled.mem_others]
  · intro x hx _ _ y hy
    exact hedit.frame y (h.tiled.payload_outside hx hy)
  · intro i hi
    have hfit := (h.tiled.fits (b := b) (by simp)).2
    exact hedit.frame _ (h.tiled.payload_outside (by simp) (Blk.payload_index hfit hi).1)

/-- Sizes are whole words, so a block that has the bytes has them rounded up. -/
theorem Rep.alignUp_le {s : Kheap} {L : List Blk} {F : List Word} (h : Rep s L F) {b : Blk}
    (hb : b ∈ L) {size : Word} (hsize : SizeOk size) (hle : size ≤ b.size) :
    (alignUp size 8).toNat ≤ b.size.toNat := by
  have h8 := h.sizes b hb
  have hround := hsize.toNat_alignUp
  have hle' : size.toNat ≤ b.size.toNat := hle
  omega

/-- **The cut.** The caller gets the upper part, and that part is free. -/
theorem krealloc_cut {k : Kernel} {A C : List Blk} {b : Blk} {F : List Word}
    (h : Rep k.heap (A ++ b :: C) F) (hused : b.free = false) {size : Word} (hsize : SizeOk size)
    (hle : size ≤ (fuseRight b C).1.size)
    (hcut : ¬ (fuseRight b C).1.size - alignUp size 8 < hdrSize + kheapMinFreeSize) :
    ∃ s₁ F₁ s', mergeRight k.heap b.hdr = (b.hdr, s₁) ∧
      HdrEdit (hdrs (A ++ b :: C)) k.heap s₁ ∧
      krealloc k (blockStartAddr b.hdr) size =
        .ok (blockStartAddr ((fuseRight b C).1.high (alignUp size 8)).hdr, { k with heap := s' }) ∧
      Rep s' (A ++ (fuseRight b C).1.low (alignUp size 8) ::
        ((fuseRight b C).1.high (alignUp size 8)).mark true :: (fuseRight b C).2)
        (((fuseRight b C).1.high (alignUp size 8)).hdr :: F₁) ∧
      HdrEdit (hdrs (A ++ (fuseRight b C).1.low (alignUp size 8) ::
        (fuseRight b C).1.high (alignUp size 8) :: (fuseRight b C).2)) s₁ s' := by
  obtain ⟨s₁, F₁, hmerge, hrep, hedit, hcall⟩ := krealloc_eq h hused size
  obtain ⟨hhdr, -⟩ := fuseRight_hdr b C
  have hn := hrep.alignUp_le (by simp) hsize hle
  obtain ⟨s', hsplit, hrep', hedit'⟩ := hrep.split_cut rfl hn hcut
  rw [hhdr] at hsplit
  rw [if_pos hle, hsplit] at hcall
  exact ⟨s₁, F₁, s', hmerge, hedit, hcall, hrep', hedit'⟩

theorem Rep.get_size {s : Kheap} {L : List Blk} {F : List Word} (h : Rep s L F) {b : Blk}
    (hb : b ∈ L) : s.get b.hdr .size = b.size := by
  obtain ⟨A, C, rfl⟩ := List.append_of_mem hb
  exact h.fields.2.2

/-- The new block of a `krealloc` that moves: it is another one than the old block, large enough, and
the old block is still there with its size. -/
theorem Malloced.moves {k₁ k₂ : Kernel} {L₁ L₂ : List Blk} {F₂ : List Word} {b u : Blk}
    {size p : Word} (hm : Malloced k₁ L₁ (alignUp size 8) p k₂ L₂ F₂ u) (hb : b ∈ L₁)
    (hused : b.free = false) (hsize : SizeOk size) (hlt : ¬ size ≤ b.size) :
    p ≠ null ∧ b ∈ L₂ ∧ u ≠ b ∧ b.size.toNat ≤ u.size.toNat ∧
      k₂.heap.get b.hdr .size = b.size := by
  have hb₂ : b ∈ L₂ := (hm.others b hused).mpr (Or.inr hb)
  have hfits := hm.fits
  have halign := hsize.toNat_alignUp
  rw [BitVec.le_def] at hlt
  refine ⟨?_, hb₂, fun heq => hm.new (heq ▸ hb), by omega, hm.rep.get_size hb₂⟩
  have hfitu := (hm.rep.tiled.fits hm.mem).2
  rw [hm.ptr]
  intro h0
  have h1 := congrArg BitVec.toNat h0
  rw [blockStartAddr, BitVec.toNat_add, show hdrSize.toNat = 40 from rfl] at h1
  simp at h1
  omega

/-- A copy into the payload of a block is seen by no header. -/
theorem Rep.copied {s : Kheap} {L : List Blk} {F : List Word} {b u : Blk} (h : Rep s L F)
    (hb : b ∈ L) (hu : u ∈ L) (hne : u ≠ b) (hle : b.size.toNat ≤ u.size.toNat) :
    Rep (s.withMem (memcpy s.mem (blockStartAddr u.hdr) (blockStartAddr b.hdr) b.size)) L F := by
  obtain ⟨-, hout⟩ := memcpy_payload (m := s.mem) h.tiled hb hu hne hle
  refine h.congr ?_ rfl rfl rfl
  intro x hx g
  refine h.tiled.get_of_outside ?_ hx g
  rintro y ⟨z, hz, h1, h2⟩
  refine hout y fun hy => ?_
  have := h.tiled.payload_outside hu hy z hz
  omega

theorem realloced_of_move {k k₂ k' : Kernel} {A C : List Blk} {b u : Blk} {F F₁ F₂ : List Word}
    {s₁ : Kheap} {L₂ : List Blk} {size q newPtr : Word}
    (h : Rep k.heap (A ++ b :: C) F) (hused : b.free = false) (hsize : SizeOk size)
    (hlt : ¬ size ≤ (fuseRight b C).1.size)
    (hrep : Rep s₁ (A ++ (fuseRight b C).1 :: (fuseRight b C).2) F₁)
    (hedit : HdrEdit (hdrs (A ++ b :: C)) k.heap s₁)
    (hm : Malloced { k with heap := s₁ } (A ++ (fuseRight b C).1 :: (fuseRight b C).2)
      (alignUp size 8) newPtr k₂ L₂ F₂ u)
    (hq : (if newPtr = null then (.ok (null, k₂) : Res (Word × Kernel)) else
      .ok (newPtr, Kernel.mk k₂.mmu (kfree (k₂.heap.withMem (memcpy k₂.heap.mem newPtr
        (blockStartAddr b.hdr) (k₂.heap.get b.hdr .size))) (blockStartAddr b.hdr)))) =
      .ok (q, k')) :
    ∃ L' F' u, Realloced k (A ++ b :: C) b size q k' L' F' u := by
  obtain ⟨hhdr, hfree⟩ := fuseRight_hdr b C
  have hused' : (fuseRight b C).1.free = false := hfree.trans hused
  have hbsize : b.size.toNat ≤ (fuseRight b C).1.size.toNat := by
    rcases fuseRight_cases b C with ⟨heq, -⟩ | ⟨r, C', rfl, -, heq⟩
    · rw [heq]
    · rw [heq, h.tiled.fuse.1]
      omega
  have hold := fun x hx => mem_widen (A := A) (C := C) (b := b) (x := x) hx
  generalize hb' : (fuseRight b C).1 = b' at *
  generalize (fuseRight b C).2 = C' at *
  have hb'₁ : b' ∈ A ++ b' :: C' := by simp
  obtain ⟨hptr, hb'₂, hne, hle, hget⟩ := hm.moves hb'₁ hused' hsize hlt
  rw [hhdr] at hget
  have hfits := hm.fits
  have halign := hsize.toNat_alignUp
  have hfitu := (hm.rep.tiled.fits hm.mem).2
  rw [if_neg hptr, hget, hm.ptr, ← hhdr] at hq
  injection hq with hq
  injection hq with hq hk'
  obtain ⟨hcopy, hout⟩ := memcpy_payload (m := k₂.heap.mem) hm.rep.tiled hb'₂ hm.mem hne hle
  obtain ⟨L', F', hrel⟩ :=
    kfree_released (hm.rep.copied hb'₂ hm.mem hne hle) hb'₂ hused'
  subst hk' hq
  have hothers : ∀ x, x.free = false →
      (x ∈ L' ↔ x = u ∨ x ∈ A ++ b :: C ∧ x ≠ b) := by
    intro x hx
    rw [hrel.others x hx, hm.others x hx, hold x hx, ← h.tiled.mem_others]
    have hxb' : x ∈ A ∨ x ∈ C → x ≠ b' := by
      intro hmem heq
      have h1 := (h.tiled.mem_others x).mp hmem
      exact h1.2 (h.tiled.eq_of_hdr h1.1 (by simp) (by rw [heq, hhdr]))
    have hub : x = u → x ≠ b' := fun heq => heq ▸ hne
    tauto
  have hkeep₁ : ∀ x ∈ A ++ b :: C, ∀ y, x.Payload y → s₁.mem y = k.heap.mem y :=
    fun x hx y hy => hedit.frame y (h.tiled.payload_outside hx hy)
  have hin : ∀ x ∈ A ++ b :: C, x.free = false → x ≠ b → x ∈ A ++ b' :: C' := by
    intro x hx hf hxb
    exact (hold x hf).mpr (Or.inr ((h.tiled.mem_others x).mpr ⟨hx, hxb⟩))
  refine ⟨L', F', u, hrel.rep, hm.room.of_eq rfl hrel.top, ?_, hm.used, rfl, by omega, ?_, hothers,
    ?_, ?_⟩
  · exact (hothers u hm.used).mpr (Or.inl rfl)
  · intro x hx hf hxb heq
    exact hm.new (heq ▸ hin x hx hf hxb)
  · -- the copy goes to the new block, which is none of the others
    intro x hx hf hxb y hy
    have hx₁ := hin x hx hf hxb
    have hx₂ : x ∈ L₂ := (hm.others x hf).mpr (Or.inr hx₁)
    have hxu : x ≠ u := fun heq => hm.new (heq ▸ hx₁)
    have h1 := hrel.keeps x hx₂ hf y hy
    have h2 := hout y (hm.rep.tiled.payload_disjoint hx₂ hm.mem hxu hy)
    have h3 := hm.keeps x hx₁ hf y hy
    exact h1.trans (h2.trans (h3.trans (hkeep₁ x hx y hy)))
  · intro i hi
    have hfitb := (h.tiled.fits (b := b) (by simp)).2
    have hfitb' := (hrep.tiled.fits hb'₁).2
    have hpay := (Blk.payload_index hfitb hi).1
    have hpay' := (Blk.payload_index hfitb' (i := i) (by omega)).1
    have h1 := hrel.keeps u hm.mem hm.used _ (Blk.payload_index hfitu (i := i) (by omega)).1
    have h2 := hcopy i (by omega)
    have h3 := hm.keeps b' hb'₁ hused' _ hpay'
    have h4 := hkeep₁ b (by simp) _ hpay
    rw [← hhdr] at h4 ⊢
    exact h1.trans (h2.trans (h3.trans h4))

/-- The block is too small: its bytes move to a new block. -/
theorem krealloc_move {k : Kernel} {A C : List Blk} {b : Blk} {F : List Word}
    (h : Rep k.heap (A ++ b :: C) F) (hroom : HeapRoom k) (hused : b.free = false) {size : Word}
    (hsize : SizeOk size) (hlt : ¬ size ≤ (fuseRight b C).1.size) :
    (krealloc k (blockStartAddr b.hdr) size).Ends ∧
      ∀ q k', krealloc k (blockStartAddr b.hdr) size = .ok (q, k') →
        ∃ L' F' u, Realloced k (A ++ b :: C) b size q k' L' F' u := by
  obtain ⟨s₁, F₁, -, hrep, hedit, hcall⟩ := krealloc_eq h hused size
  obtain ⟨hhdr, hfree⟩ := fuseRight_hdr b C
  have hused' : (fuseRight b C).1.free = false := hfree.trans hused
  rw [if_neg hlt] at hcall
  obtain ⟨hends, hok⟩ := kmalloc_spec (k := { k with heap := s₁ }) hrep
    (hroom.of_eq rfl hedit.top) hsize
  rw [hcall]
  constructor
  · refine hends.bind fun a _ => ?_
    dsimp only
    split <;> exact Res.ends_ok _
  · intro q k' hq
    obtain ⟨⟨newPtr, k₂⟩, hmalloc, hq⟩ := Res.bind_eq_ok.mp hq
    obtain ⟨L₂, F₂, u, hm⟩ := hok newPtr k₂ hmalloc
    exact realloced_of_move h hused hsize hlt hrep hedit hm hq

/-! ## One call -/

/-- **A `krealloc` that cuts nothing returns a block in use with the old bytes.** -/
theorem krealloc_noSplit {k : Kernel} {L : List Blk} {F : List Word} (h : Rep k.heap L F)
    (hroom : HeapRoom k) {b : Blk} (hb : b ∈ L) (hused : b.free = false) {size : Word}
    (hsize : SizeOk size) (hns : NoSplit k.heap (blockStartAddr b.hdr) size) :
    (krealloc k (blockStartAddr b.hdr) size).Ends ∧
      ∀ q k', krealloc k (blockStartAddr b.hdr) size = .ok (q, k') →
        ∃ L' F' u, Realloced k L b size q k' L' F' u := by
  obtain ⟨A, C, rfl⟩ := List.append_of_mem hb
  unfold NoSplit at hns
  rw [blockStartAddr_sub, h.mergedSize_eq] at hns
  by_cases hle : size ≤ (fuseRight b C).1.size
  · have hkeep : (fuseRight b C).1.size - alignUp size 8 < hdrSize + kheapMinFreeSize := by
      rcases hns with hlt | hkeep
      · exact absurd hle (BitVec.not_le.mpr hlt)
      · exact hkeep
    obtain ⟨k', F', hcall, hr⟩ := krealloc_keep h hroom hused hle hkeep
    rw [hcall]
    refine ⟨Res.ends_ok _, ?_⟩
    intro q k'' heq
    cases heq
    exact ⟨_, F', _, hr⟩
  · exact krealloc_move h hroom hused hsize hle

/-- `krealloc` of a free block only complains. -/
theorem krealloc_free {k : Kernel} {L : List Blk} {F : List Word} (h : Rep k.heap L F) {b : Blk}
    (hb : b ∈ L) (hfree : b.free = true) (size : Word) :
    krealloc k (blockStartAddr b.hdr) size =
      .ok (null, { k with heap := k.heap.say (errorMsg
        "[krealloc] realloc request called on a free memory block\n") }) := by
  have hf : isFree k.heap b.hdr = true := (h.isFree_eq hb).trans hfree
  unfold krealloc
  rw [blockStartAddr_sub]
  exact if_pos hf

/-- **Every `krealloc` ends**, and a returning one leaves a layout behind. -/
theorem krealloc_rep {k : Kernel} {L : List Blk} {F : List Word} (h : Rep k.heap L F)
    (hroom : HeapRoom k) {b : Blk} (hb : b ∈ L) {size : Word} (hsize : SizeOk size) :
    (krealloc k (blockStartAddr b.hdr) size).Ends ∧
      ∀ q k', krealloc k (blockStartAddr b.hdr) size = .ok (q, k') →
        ∃ L' F', Rep k'.heap L' F' ∧ HeapRoom k' := by
  cases hused : b.free with
  | true =>
      rw [krealloc_free h hb hused]
      refine ⟨Res.ends_ok _, ?_⟩
      intro q k' heq
      cases heq
      exact ⟨L, F, h.say _, hroom.of_eq rfl rfl⟩
  | false =>
      by_cases hns : NoSplit k.heap (blockStartAddr b.hdr) size
      · obtain ⟨hends, hok⟩ := krealloc_noSplit h hroom hb hused hsize hns
        refine ⟨hends, ?_⟩
        intro q k' heq
        obtain ⟨L', F', u, hr⟩ := hok q k' heq
        exact ⟨L', F', hr.rep, hr.room⟩
      · obtain ⟨A, C, rfl⟩ := List.append_of_mem hb
        unfold NoSplit at hns
        rw [blockStartAddr_sub, h.mergedSize_eq, not_or, BitVec.not_lt] at hns
        obtain ⟨s₁, F₁, s', -, hedit₁, hcall, hrep', hedit'⟩ :=
          krealloc_cut h hused hsize hns.1 hns.2
        rw [hcall]
        refine ⟨Res.ends_ok _, ?_⟩
        intro q k' heq
        cases heq
        exact ⟨_, _, hrep', hroom.of_eq rfl (hedit'.top.trans hedit₁.top)⟩

end Cerberos
