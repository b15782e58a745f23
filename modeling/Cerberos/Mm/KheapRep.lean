/-
# Cerberos.Mm.KheapRep — the heap represents a layout of blocks.

The ABSTRACT heap is a `List Blk`: blocks with header address, payload size and free mark, tiling
`[kheap_top, 2^64)`. `Rep s L F` says that the memory of `s` represents the layout `L` with the free
list in the order `F`: the block links follow the layout, the free ring holds exactly the free
blocks, and a used block has both free links cleared.

Every primitive of `kheap.c` that edits headers is then one edit of the layout: `freelist_insert`
and `freelist_remove` flip a mark, `merge_right` and `merge_left` fuse two neighbours (`absorb`),
`split` cuts a block in two, and the tail of `kheap_expand` puts a new block in front.
-/
import Cerberos.Base.Tiling
import Cerberos.Mm.KheapFields

namespace Cerberos

open Cerberos.Base

/-! ## Layouts -/

/-- A block of the heap: where its header is, how many payload bytes it has, whether it is free. -/
structure Blk where
  hdr : Word
  size : Word
  free : Bool
  deriving DecidableEq, Repr

/-- The first address of the block, header included. -/
def Blk.pos (b : Blk) : ℕ := b.hdr.toNat

/-- The number of bytes of the block, header included. -/
def Blk.ext (b : Blk) : ℕ := 40 + b.size.toNat

/-- The block with another free mark. -/
def Blk.mark (b : Blk) (v : Bool) : Blk := { b with free := v }

/-- The blocks tile the addresses from `top` to the end of the address space. -/
abbrev Tiled (top : ℕ) (L : List Blk) : Prop := Tiles Blk.pos Blk.ext top L (2 ^ 64)

/-- The header addresses of a layout. -/
def hdrs (L : List Blk) : Set Word := {h | ∃ b ∈ L, b.hdr = h}

theorem mem_hdrs {L : List Blk} {b : Blk} (hb : b ∈ L) : b.hdr ∈ hdrs L := ⟨b, hb, rfl⟩

theorem hdrs_mono {L L' : List Blk} (h : ∀ b ∈ L, ∃ b' ∈ L', b'.hdr = b.hdr) : hdrs L ⊆ hdrs L' := by
  rintro x ⟨b, hb, rfl⟩
  exact h b hb

/-- Marks do not move headers. -/
theorem hdrs_mark (A C : List Blk) (b : Blk) (v : Bool) :
    hdrs (A ++ b.mark v :: C) = hdrs (A ++ b :: C) := by
  unfold hdrs
  simp [Blk.mark, or_and_right, exists_or]

theorem Blk.ext_pos (b : Blk) : 0 < b.ext := by
  rw [Blk.ext]
  omega

theorem Tiled.fits {top : ℕ} {L : List Blk} (h : Tiled top L) {b : Blk} (hb : b ∈ L) :
    top ≤ b.hdr.toNat ∧ b.hdr.toNat + 40 + b.size.toNat ≤ 2 ^ 64 := by
  have := h.bounds hb
  simp only [Blk.pos, Blk.ext] at this
  omega

theorem Tiled.eq_of_hdr {top : ℕ} {L : List Blk} (h : Tiled top L) {b b' : Blk} (hb : b ∈ L)
    (hb' : b' ∈ L) (heq : b.hdr = b'.hdr) : b = b' :=
  h.eq_of_pos Blk.ext_pos hb hb' (by rw [Blk.pos, Blk.pos, heq])

theorem Tiled.apart {top : ℕ} {L : List Blk} (h : Tiled top L) : Apart (hdrs L) where
  fits := by
    rintro _ ⟨b, hb, rfl⟩
    have := (h.fits hb).2
    omega
  sep := by
    rintro _ ⟨b, hb, rfl⟩ _ ⟨b', hb', rfl⟩ hne
    have hbb : b ≠ b' := fun h => hne (h ▸ rfl)
    have := h.disjoint hb hb' hbb
    simp only [Blk.pos, Blk.ext] at this
    omega

theorem Tiled.hdrs_nodup {top : ℕ} {L : List Blk} (h : Tiled top L) :
    (L.map Blk.hdr).Nodup := by
  rw [List.Nodup, List.pairwise_map]
  refine h.pairwise.imp ?_
  intro x y hxy heq
  have := x.ext_pos
  simp only [Blk.pos, heq] at hxy
  omega

theorem Tiled.nodup_append {top : ℕ} {A B : List Blk} (h : Tiled top (A ++ B)) :
    (B.map Blk.hdr).Nodup ∧ ∀ x ∈ A, ∀ y ∈ B, x.hdr ≠ y.hdr := by
  have hnd := h.hdrs_nodup
  rw [List.map_append, List.nodup_append] at hnd
  refine ⟨hnd.2.1, ?_⟩
  intro x hx y hy
  exact hnd.2.2 x.hdr (List.mem_map_of_mem hx) y.hdr (List.mem_map_of_mem hy)

/-- The blocks before and after a block have other headers. -/
theorem Tiled.hdr_ne {top : ℕ} {A C : List Blk} {b : Blk} (h : Tiled top (A ++ b :: C)) :
    (∀ x ∈ A, x.hdr ≠ b.hdr) ∧ ∀ x ∈ C, x.hdr ≠ b.hdr := by
  obtain ⟨hnd, hne⟩ := h.nodup_append
  refine ⟨fun x hx => hne x hx b List.mem_cons_self, ?_⟩
  intro x hx heq
  rw [List.map_cons, List.nodup_cons] at hnd
  exact hnd.1 (heq ▸ List.mem_map_of_mem hx)

theorem Tiled.mem_others {top : ℕ} {A C : List Blk} {b : Blk} (h : Tiled top (A ++ b :: C))
    (x : Blk) : x ∈ A ∨ x ∈ C ↔ x ∈ A ++ b :: C ∧ x ≠ b := by
  obtain ⟨hA, hC⟩ := h.hdr_ne
  constructor
  · rintro (hm | hm)
    · exact ⟨by simp [hm], fun heq => hA x hm (by rw [heq])⟩
    · exact ⟨by simp [hm], fun heq => hC x hm (by rw [heq])⟩
  · rintro ⟨hm, hne⟩
    simp only [List.mem_append, List.mem_cons, hne, false_or] at hm
    exact hm

/-! ## The block list -/

/-- The header of the first block, or `q` when there is none. -/
def firstHdr : List Blk → Word → Word
  | [], q => q
  | b :: _, _ => b.hdr

/-- The header of the last block, or `p` when there is none. -/
def lastHdr : Word → List Blk → Word
  | p, [] => p
  | _, b :: bs => lastHdr b.hdr bs

/-- The blocks of the list are linked in order, between the neighbours `p` and `q`, and their size
fields hold their sizes. -/
def BlockLinks (s : Kheap) : Word → List Blk → Word → Prop
  | _, [], _ => True
  | p, b :: bs, q =>
    s.get b.hdr .prev = p ∧ s.get b.hdr .next = firstHdr bs q ∧ s.get b.hdr .size = b.size ∧
      BlockLinks s b.hdr bs q

theorem firstHdr_append (A B : List Blk) (q : Word) :
    firstHdr (A ++ B) q = firstHdr A (firstHdr B q) := by
  cases A <;> rfl

theorem blockLinks_append {s : Kheap} {A B : List Blk} {p q : Word} :
    BlockLinks s p (A ++ B) q ↔
      BlockLinks s p A (firstHdr B q) ∧ BlockLinks s (lastHdr p A) B q := by
  induction A generalizing p with
  | nil => simp [BlockLinks, lastHdr]
  | cons a A ih =>
      simp only [List.cons_append, BlockLinks, lastHdr, ih, firstHdr_append]
      tauto

theorem BlockLinks.congr {s s' : Kheap} {L : List Blk} {p q : Word} (h : BlockLinks s p L q)
    (hget : ∀ b ∈ L, ∀ g : Field, g ≠ .freeNext → g ≠ .freePrev →
      s'.get b.hdr g = s.get b.hdr g) : BlockLinks s' p L q := by
  induction L generalizing p with
  | nil => exact trivial
  | cons b L ih =>
      obtain ⟨h1, h2, h3, h4⟩ := h
      have hb := hget b List.mem_cons_self
      refine ⟨?_, ?_, ?_, ih h4 (fun x hx => hget x (List.mem_cons_of_mem b hx))⟩
      · rw [hb .prev (by decide) (by decide), h1]
      · rw [hb .next (by decide) (by decide), h2]
      · rw [hb .size (by decide) (by decide), h3]

/-- The links are those of the layout with other free marks. -/
theorem BlockLinks.mark {s : Kheap} {A C : List Blk} {b : Blk} {p q : Word} (v : Bool)
    (h : BlockLinks s p (A ++ b :: C) q) : BlockLinks s p (A ++ b.mark v :: C) q := by
  rw [blockLinks_append] at h ⊢
  exact h

/-- The links with another block in front. -/
theorem BlockLinks.relink {s s' : Kheap} {L : List Blk} {p p' q : Word} (h : BlockLinks s p L q)
    (hnd : (L.map Blk.hdr).Nodup) (hprev : L ≠ [] → s'.get (firstHdr L null) .prev = p')
    (hget : ∀ b ∈ L, ∀ g : Field, g ≠ .freeNext → g ≠ .freePrev →
      (b.hdr ≠ firstHdr L null ∨ g ≠ .prev) → s'.get b.hdr g = s.get b.hdr g) :
    BlockLinks s' p' L q := by
  cases L with
  | nil => exact trivial
  | cons b L =>
      obtain ⟨-, h2, h3, h4⟩ := h
      have hb := hget b List.mem_cons_self
      refine ⟨hprev (by simp), ?_, ?_, h4.congr ?_⟩
      · rw [hb .next (by decide) (by decide) (Or.inr (by decide)), h2]
      · rw [hb .size (by decide) (by decide) (Or.inr (by decide)), h3]
      · intro x hx g h1 h2
        have hne : x.hdr ≠ b.hdr := by
          intro heq
          exact (List.nodup_cons.mp hnd).1 (heq ▸ List.mem_map_of_mem hx)
        exact hget x (List.mem_cons_of_mem b hx) g h1 h2 (Or.inl hne)

/-! ## Representation -/

/-- The block list of `s` is the layout `L` and its free list the ring `F` of the free blocks. -/
structure Laid (s : Kheap) (L : List Blk) (F : List Word) : Prop where
  pos : 0 < s.kheapTop.toNat
  align : s.kheapTop.toNat % 8 = 0
  head : s.blockHead = s.kheapTop
  tiled : Tiled s.kheapTop.toNat L
  sizes : ∀ b ∈ L, b.size.toNat % 8 = 0
  links : BlockLinks s null L null
  ring : FreeRing s F
  free : ∀ h, h ∈ F ↔ ∃ b ∈ L, b.free = true ∧ b.hdr = h

/-- **The heap state `s` represents the layout `L`**: blocks off the free list have cleared
links. -/
structure Rep (s : Kheap) (L : List Blk) (F : List Word) : Prop extends Laid s L F where
  used : ∀ b ∈ L, b.free = false →
    s.get b.hdr .freeNext = null ∧ s.get b.hdr .freePrev = null

namespace Laid

variable {s : Kheap} {L A C : List Blk} {F : List Word} {b r : Blk}

theorem apart (h : Laid s L F) : Apart (hdrs L) := h.tiled.apart

theorem hdr_ne_null (h : Laid s L F) (hb : b ∈ L) : b.hdr ≠ null := by
  have h1 := (h.tiled.fits hb).1
  have h2 := h.pos
  intro h0
  rw [h0] at h1
  simp at h1
  omega

theorem free_sub (h : Laid s L F) : ∀ x ∈ F, x ∈ hdrs L := by
  intro x hx
  obtain ⟨b, hb, -, rfl⟩ := (h.free x).mp hx
  exact mem_hdrs hb

theorem mem_free (h : Laid s L F) (hb : b ∈ L) (hf : b.free = true) : b.hdr ∈ F :=
  (h.free b.hdr).mpr ⟨b, hb, hf, rfl⟩

theorem not_mem_free (h : Laid s L F) (hb : b ∈ L) (hf : b.free = false) : b.hdr ∉ F := by
  intro hm
  obtain ⟨b', hb', hf', heq⟩ := (h.free b.hdr).mp hm
  rw [h.tiled.eq_of_hdr hb' hb heq, hf] at hf'
  cases hf'

/-- The fields of a block in the middle of the layout. -/
theorem fields (h : Laid s (A ++ b :: C) F) :
    s.get b.hdr .prev = lastHdr null A ∧ s.get b.hdr .next = firstHdr C null ∧
      s.get b.hdr .size = b.size := by
  have hl := (blockLinks_append.mp h.links).2
  exact ⟨hl.1, hl.2.1, hl.2.2.1⟩

/-- An edit of the free list that flips the mark of one block. -/
theorem remark (h : Laid s (A ++ b :: C) F) (v : Bool) {s' : Kheap} {F' : List Word}
    {T : Set Word} (hused : ∀ x ∈ A ++ b :: C, x.hdr ≠ b.hdr → x.free = false →
      s.get x.hdr .freeNext = null ∧ s.get x.hdr .freePrev = null)
    (hlinks : LinksOnly (hdrs (A ++ b :: C)) T s s')
    (hT : ∀ x ∈ A ++ b :: C, x.hdr ≠ b.hdr → x.free = false → x.hdr ∉ T)
    (hedit : HdrEdit (hdrs (A ++ b :: C)) s s') (hblock : s'.blockHead = s.blockHead)
    (hring : FreeRing s' F')
    (hfree : ∀ x, x ∈ F' ↔ (x = b.hdr ∧ v = true) ∨ (x ∈ F ∧ x ≠ b.hdr))
    (hb : v = false → s'.get b.hdr .freeNext = null ∧ s'.get b.hdr .freePrev = null) :
    Rep s' (A ++ b.mark v :: C) F' := by
  have hmem : b ∈ A ++ b :: C := by simp
  have hne := h.tiled.hdr_ne
  -- the other blocks are those of the old layout
  have hother : ∀ x ∈ A ++ b.mark v :: C,
      x = b.mark v ∨ (x ∈ A ++ b :: C ∧ x.hdr ≠ b.hdr) := by
    intro x hx
    rcases List.mem_append.mp hx with hx | hx
    · exact Or.inr ⟨by simp [hx], hne.1 x hx⟩
    · rcases List.mem_cons.mp hx with rfl | hx
      · exact Or.inl rfl
      · exact Or.inr ⟨by simp [hx], hne.2 x hx⟩
  constructor
  case toLaid =>
    constructor
    case pos => rw [hedit.top]; exact h.pos
    case align => rw [hedit.top]; exact h.align
    case head => rw [hblock, hedit.top, h.head]
    case tiled =>
      rw [hedit.top]
      obtain ⟨h1, h2⟩ := h.tiled.split_at
      exact Tiles.join_at (x := b.mark v) h1 h2
    case sizes =>
      intro x hx
      rcases hother x hx with rfl | ⟨hx, -⟩
      · exact h.sizes b hmem
      · exact h.sizes x hx
    case links =>
      refine (h.links.congr ?_).mark v
      intro x hx g h1 h2
      exact hlinks x.hdr (mem_hdrs hx) g (Or.inr ⟨h1, h2⟩)
    case ring => exact hring
    case free =>
      intro x
      rw [hfree x, h.free x]
      constructor
      · rintro (⟨rfl, hv⟩ | ⟨⟨y, hy, hf, rfl⟩, hyb⟩)
        · exact ⟨b.mark v, by simp, hv, rfl⟩
        · refine ⟨y, ?_, hf, rfl⟩
          have hyb' : y ≠ b := fun h => hyb (h ▸ rfl)
          simp only [List.mem_append, List.mem_cons] at hy ⊢
          tauto
      · rintro ⟨y, hy, hf, rfl⟩
        rcases hother y hy with rfl | ⟨hy, hyb⟩
        · exact Or.inl ⟨rfl, hf⟩
        · exact Or.inr ⟨⟨y, hy, hf, rfl⟩, hyb⟩
  case used =>
    intro y hy hf
    rcases hother y hy with rfl | ⟨hy, hyb⟩
    · exact hb hf
    · have hyT := hT y hy hyb hf
      rw [hlinks y.hdr (mem_hdrs hy) _ (Or.inl hyT), hlinks y.hdr (mem_hdrs hy) _ (Or.inl hyT)]
      exact hused y hy hyb hf

/-- **`freelist_insert` sets a block free**, whatever its own links were. -/
theorem insert (h : Laid s (A ++ b :: C) F)
    (hused : ∀ x ∈ A ++ b :: C, x.hdr ≠ b.hdr → x.free = false →
      s.get x.hdr .freeNext = null ∧ s.get x.hdr .freePrev = null) (hb : b.free = false) :
    Rep (freelistInsert s b.hdr) (A ++ b.mark true :: C) (b.hdr :: F) ∧
      HdrEdit (hdrs (A ++ b :: C)) s (freelistInsert s b.hdr) := by
  have hmem : b ∈ A ++ b :: C := by simp
  have hnew := h.not_mem_free hmem hb
  have spec := freelistInsert_spec h.apart h.ring h.free_sub (mem_hdrs hmem) hnew
    (h.hdr_ne_null hmem)
  refine ⟨h.remark true hused spec.links ?_ spec.edit spec.head spec.ring ?_ (by simp), spec.edit⟩
  · intro x hx hxb hf hxT
    rcases List.mem_cons.mp hxT with h1 | h1
    · exact hxb h1
    · exact h.not_mem_free hx hf h1
  · intro x
    rw [List.mem_cons]
    have : x ∈ F → x ≠ b.hdr := fun hx h1 => hnew (h1 ▸ hx)
    tauto

end Laid

namespace Rep

variable {s : Kheap} {L A C : List Blk} {F : List Word} {b r : Blk}

/-- **`is_free` reads the free mark.** -/
theorem isFree_eq (h : Rep s L F) (hb : b ∈ L) : isFree s b.hdr = b.free := by
  cases hf : b.free with
  | true => exact h.ring.isFree_of_mem (h.mem_free hb hf)
  | false =>
      obtain ⟨h1, -⟩ := h.used b hb hf
      simp [isFree, h1]

/-- **`freelist_remove` takes a free block.** -/
theorem remove (h : Rep s (A ++ b :: C) F) (hb : b.free = true) :
    Rep (freelistRemove s b.hdr) (A ++ b.mark false :: C) (F.erase b.hdr) ∧
      HdrEdit (hdrs (A ++ b :: C)) s (freelistRemove s b.hdr) := by
  have hmem : b ∈ A ++ b :: C := by simp
  have spec := freelistRemove_spec h.apart h.ring h.free_sub (h.mem_free hmem hb)
  refine ⟨h.remark false (fun x hx _ => h.used x hx) spec.links ?_ spec.edit spec.head spec.ring ?_
    (fun _ => ⟨spec.next, spec.prev⟩), spec.edit⟩
  · intro x hx _ hf hxT
    exact h.not_mem_free hx hf hxT
  · intro x
    rw [h.ring.nodup.mem_erase_iff]
    simp [and_comm]

end Rep

/-! ## Neighbours in memory -/

/-- The word after a block is the header of the next one; the last block ends where the address
space wraps to `NULL`. -/
theorem Tiled.firstHdr_eq {top : ℕ} {A C : List Blk} {b : Blk} (h : Tiled top (A ++ b :: C)) :
    firstHdr C null = b.hdr + hdrSize + b.size := by
  have hend := h.split_at.2
  simp only [Blk.pos, Blk.ext] at hend
  cases C with
  | nil =>
      simp only [Tiles] at hend
      simp only [firstHdr]
      bv_omega
  | cons c C =>
      have hc := hend.1
      simp only [Blk.pos] at hc
      simp only [firstHdr]
      bv_omega

theorem lastHdr_concat (p : Word) (A : List Blk) (l : Blk) : lastHdr p (A ++ [l]) = l.hdr := by
  induction A generalizing p with
  | nil => rfl
  | cons a A ih => exact ih a.hdr

/-! ## `merge_right` and `merge_left` -/

/-- The block that spans `b` and its right neighbour `r`. -/
def Blk.fuse (b r : Blk) : Blk := { b with size := b.size + hdrSize + r.size }

theorem Tiled.fuse {top : ℕ} {A C : List Blk} {b r : Blk} (h : Tiled top (A ++ b :: r :: C)) :
    (b.fuse r).size.toNat = b.size.toNat + 40 + r.size.toNat ∧
      Tiled top (A ++ b.fuse r :: C) := by
  obtain ⟨htA, hrpos, htC⟩ := h.split_at
  have hfit := (h.fits (b := r) (by simp)).2
  simp only [Blk.pos, Blk.ext] at hrpos
  have hsize : (b.fuse r).size.toNat = b.size.toNat + 40 + r.size.toNat := by
    simp only [Blk.fuse, BitVec.toNat_add]
    rw [show hdrSize.toNat = 40 from rfl]
    omega
  refine ⟨hsize, Tiles.join_at (x := b.fuse r) htA ?_⟩
  have hext : (b.fuse r).pos + (b.fuse r).ext = b.pos + b.ext + r.ext := by
    rw [Blk.ext, hsize, Blk.ext, Blk.ext, show (b.fuse r).pos = b.pos from rfl]
    omega
  rw [hext]
  exact htC

/-- The stores of both merges before the free list is edited: `l` swallows its right neighbour
`r`. -/
def absorbStores (s : Kheap) (l r : Word) : Kheap :=
  let s := s.set l .size (blockEndAddr s r - blockStartAddr l + 1)
  let s := s.set l .next (s.get r .next)
  if s.get r .next ≠ null then s.set (s.get r .next) .prev l else s

theorem mergeRight_eq_absorb {s : Kheap} {l : Word} (hl : l ≠ null) (hr : s.get l .next ≠ null)
    (hf : isFree s (s.get l .next) = true) :
    mergeRight s l = (l, freelistRemove (absorbStores s l (s.get l .next)) (s.get l .next)) := by
  rw [mergeRight, if_neg hl]
  exact if_pos ⟨hr, hf⟩

theorem mergeLeft_eq_absorb {s : Kheap} {r : Word} (hr : r ≠ null) (hfr : isFree s r = true)
    (hl : s.get r .prev ≠ null) (hf : isFree s (s.get r .prev) = true) :
    mergeLeft s r = (s.get r .prev, freelistRemove (absorbStores s (s.get r .prev) r) r) := by
  rw [mergeLeft, if_neg hr, if_neg (by simp [hfr])]
  exact if_pos ⟨hl, hf⟩

theorem absorbStores_get {H : Set Word} (hH : Apart H) (s : Kheap) {l r : Word} (hl : l ∈ H)
    (hr : r ∈ H) (hne : l ≠ r) (hn : s.get r .next ≠ null → s.get r .next ∈ H) {y : Word}
    (hy : y ∈ H) (g : Field) :
    (absorbStores s l r).get y g =
      if s.get r .next ≠ null ∧ y = s.get r .next ∧ g = .prev then l else
      if y = l ∧ g = .next then s.get r .next else
      if y = l ∧ g = .size then blockEndAddr s r - blockStartAddr l + 1 else s.get y g := by
  have h1 : (s.set l .size (blockEndAddr s r - blockStartAddr l + 1)).get r .next =
      s.get r .next := by
    rw [Kheap.get_set hH _ hl hr, if_neg (by simp)]
  have h2 : ∀ v, ((s.set l .size (blockEndAddr s r - blockStartAddr l + 1)).set l .next v).get r
      .next = s.get r .next := by
    intro v
    rw [Kheap.get_set hH _ hl hr, if_neg (by simp [hne.symm]), h1]
  rw [absorbStores]
  simp only [h1, h2]
  by_cases h0 : s.get r .next = null
  · rw [if_neg (by simp [h0]), if_neg (by simp [h0]), Kheap.get_set hH _ hl hy,
      Kheap.get_set hH _ hl hy]
  · rw [if_pos h0, Kheap.get_set hH _ (hn h0) hy, Kheap.get_set hH _ hl hy,
      Kheap.get_set hH _ hl hy]
    simp only [ne_eq, h0, not_false_eq_true, true_and]

theorem absorbStores_edit {H : Set Word} (hH : Apart H) (s : Kheap) {l r : Word} (hl : l ∈ H)
    (hr : r ∈ H) (hne : l ≠ r) (hn : s.get r .next ≠ null → s.get r .next ∈ H) :
    HdrEdit H s (absorbStores s l r) ∧ (absorbStores s l r).freeHead = s.freeHead ∧
      (absorbStores s l r).blockHead = s.blockHead := by
  have h2 : ∀ v w, ((s.set l .size v).set l .next w).get r .next = s.get r .next := by
    intro v w
    rw [Kheap.get_set hH _ hl hr, if_neg (by simp [hne.symm]), Kheap.get_set hH _ hl hr,
      if_neg (by simp)]
  have e : ∀ v w, HdrEdit H s ((s.set l .size v).set l .next w) := fun v w =>
    HdrEdit.set hH (HdrEdit.set hH (HdrEdit.refl H s) hl .size v) hl .next w
  rw [absorbStores]
  simp only [h2]
  split
  · rename_i h0
    exact ⟨HdrEdit.set hH (e _ _) (hn h0) .prev l, rfl, rfl⟩
  · exact ⟨e _ _, rfl, rfl⟩

namespace Rep

variable {s : Kheap} {L A C : List Blk} {F : List Word} {b r : Blk}

/-- The following header of a block is a header of the layout, or `NULL` after the last one. -/
theorem firstHdr_mem (hsub : ∀ x ∈ C, x ∈ L) : firstHdr C null ≠ null → firstHdr C null ∈ hdrs L := by
  intro h0
  cases C with
  | nil => exact absurd rfl h0
  | cons c C => exact mem_hdrs (hsub c List.mem_cons_self)

/-- The successor of a block is none of the blocks before it. -/
theorem firstHdr_ne (hnd : ∀ x ∈ A, ∀ c ∈ C, x.hdr ≠ c.hdr) :
    ∀ x ∈ A, firstHdr C null ≠ null → x.hdr ≠ firstHdr C null := by
  intro x hx h0
  cases C with
  | nil => exact absurd rfl h0
  | cons c C => exact hnd x hx c List.mem_cons_self

/-- The blocks of the layout with `b` and `r` fused: the fused one, or an old one other than `r`. -/
theorem mem_fused (h : Rep s (A ++ b :: r :: C) F) {x : Blk} (hx : x ∈ A ++ b.fuse r :: C) :
    x = b.fuse r ∨ (x ∈ A ++ b :: r :: C ∧ x.hdr ≠ r.hdr) := by
  have h' : Rep s ((A ++ [b]) ++ r :: C) F := by simpa using h
  obtain ⟨hrA, hrC⟩ := h'.tiled.hdr_ne
  rcases List.mem_append.mp hx with hx | hx
  · exact Or.inr ⟨by simp [hx], hrA x (by simp [hx])⟩
  · rcases List.mem_cons.mp hx with rfl | hx
    · exact Or.inl rfl
    · exact Or.inr ⟨by simp [hx], hrC x hx⟩

/-- Fusing keeps every free header but that of the right block. -/
theorem free_fused (h : Rep s (A ++ b :: r :: C) F) (x : Word) :
    x ∈ F.erase r.hdr ↔ ∃ y ∈ A ++ b.fuse r :: C, y.free = true ∧ y.hdr = x := by
  have hne : b.hdr ≠ r.hdr := (h.tiled.hdr_ne.2 r List.mem_cons_self).symm
  rw [h.ring.nodup.mem_erase_iff, h.free x]
  constructor
  · rintro ⟨hxr, y, hy, hf, rfl⟩
    simp only [List.mem_append, List.mem_cons] at hy
    rcases hy with hy | rfl | rfl | hy
    · exact ⟨y, by simp [hy], hf, rfl⟩
    · exact ⟨y.fuse r, by simp, hf, rfl⟩
    · exact absurd rfl hxr
    · exact ⟨y, by simp [hy], hf, rfl⟩
  · rintro ⟨y, hy, hf, rfl⟩
    rcases h.mem_fused hy with rfl | ⟨hy, hyr⟩
    · exact ⟨hne, b, by simp, hf, rfl⟩
    · exact ⟨hyr, y, hy, hf, rfl⟩

/-- The links of the fused layout, from what the stores leave in the headers. -/
theorem links_fused (h : Rep s (A ++ b :: r :: C) F) {s₁ : Kheap}
    (hget : ∀ y ∈ hdrs (A ++ b :: r :: C), ∀ g : Field, g ≠ .freeNext → g ≠ .freePrev →
      s₁.get y g = if firstHdr C null ≠ null ∧ y = firstHdr C null ∧ g = .prev then b.hdr else
        if y = b.hdr ∧ g = .next then firstHdr C null else
        if y = b.hdr ∧ g = .size then (b.fuse r).size else s.get y g) :
    BlockLinks s₁ null (A ++ b.fuse r :: C) null := by
  have h' : Rep s ((A ++ [b]) ++ r :: C) F := by simpa using h
  have hbm : b ∈ A ++ b :: r :: C := by simp
  have hAm : ∀ x ∈ A, x ∈ A ++ b :: r :: C := fun x hx => by simp [hx]
  have hCm : ∀ x ∈ C, x ∈ A ++ b :: r :: C := fun x hx => by simp [hx]
  obtain ⟨hbprev, -, -⟩ := h.fields
  obtain ⟨hbA, hbC⟩ := h.tiled.hdr_ne
  obtain ⟨hlA, hlB⟩ := blockLinks_append.mp h.links
  obtain ⟨hndC, hnd⟩ := h'.tiled.nodup_append
  rw [List.map_cons, List.nodup_cons] at hndC
  have hfirst := firstHdr_ne fun x hx c hc => hnd x hx c (List.mem_cons_of_mem r hc)
  refine blockLinks_append.mpr ⟨?_, ?_, ?_, ?_, ?_⟩
  · refine hlA.congr fun x hx g h1 h2 => ?_
    rw [hget _ (mem_hdrs (hAm x hx)) g h1 h2, if_neg, if_neg, if_neg]
    · exact fun h => hbA x hx h.1
    · exact fun h => hbA x hx h.1
    · exact fun h => hfirst x (by simp [hx]) h.1 h.2.1
  · change s₁.get b.hdr .prev = _
    rw [hget _ (mem_hdrs hbm) _ (by decide) (by decide), if_neg, if_neg, if_neg, hbprev]
    · simp
    · simp
    · exact fun h => hfirst b (by simp) h.1 h.2.1
  · change s₁.get b.hdr .next = _
    rw [hget _ (mem_hdrs hbm) _ (by decide) (by decide)]
    simp
  · change s₁.get b.hdr .size = _
    rw [hget _ (mem_hdrs hbm) _ (by decide) (by decide)]
    simp
  · refine hlB.2.2.2.2.2.2.relink hndC.2 ?_ ?_
    · intro hC
      cases C with
      | nil => exact absurd rfl hC
      | cons c C =>
          have hc := hCm c List.mem_cons_self
          change s₁.get c.hdr .prev = b.hdr
          rw [hget _ (mem_hdrs hc) _ (by decide) (by decide), if_pos]
          exact ⟨h.hdr_ne_null hc, rfl, rfl⟩
    · intro x hx g h1 h2 h3
      have hxb := hbC x (List.mem_cons_of_mem r hx)
      rw [hget _ (mem_hdrs (hCm x hx)) g h1 h2, if_neg, if_neg, if_neg]
      · exact fun h => hxb h.1
      · exact fun h => hxb h.1
      · rintro ⟨-, h4, h5⟩
        exact h3.elim (· h4) (· h5)

/-- **Two neighbours become one block**, the right one leaving the free list. -/
theorem absorb (h : Rep s (A ++ b :: r :: C) F) (hr : r.free = true) :
    Rep (freelistRemove (absorbStores s b.hdr r.hdr) r.hdr) (A ++ b.fuse r :: C)
        (F.erase r.hdr) ∧
      HdrEdit (hdrs (A ++ b :: r :: C)) s
        (freelistRemove (absorbStores s b.hdr r.hdr) r.hdr) := by
  have hbm : b ∈ A ++ b :: r :: C := by simp
  have hrm : r ∈ A ++ b :: r :: C := by simp
  have hCm : ∀ x ∈ C, x ∈ A ++ b :: r :: C := fun x hx => by simp [hx]
  have h' : Rep s ((A ++ [b]) ++ r :: C) F := by simpa using h
  obtain ⟨-, hrnext, hrsize⟩ := h'.fields
  have hne : b.hdr ≠ r.hdr := (h.tiled.hdr_ne.2 r List.mem_cons_self).symm
  have hbr : r.hdr = b.hdr + hdrSize + b.size := h.tiled.firstHdr_eq
  have hnextH : s.get r.hdr .next ≠ null → s.get r.hdr .next ∈ hdrs (A ++ b :: r :: C) := by
    rw [hrnext]
    exact firstHdr_mem hCm
  have hsize : blockEndAddr s r.hdr - blockStartAddr b.hdr + 1 = (b.fuse r).size := by
    rw [blockEndAddr, blockStartAddr, hrsize, hbr, Blk.fuse]
    ring
  have hget := fun y hy g => absorbStores_get h.apart s (mem_hdrs hbm) (mem_hdrs hrm) hne hnextH
    (y := y) hy g
  obtain ⟨hedit, hfree, hblock⟩ := absorbStores_edit h.apart s (mem_hdrs hbm) (mem_hdrs hrm) hne
    hnextH
  rw [hsize, hrnext] at hget
  generalize absorbStores s b.hdr r.hdr = s₁ at *
  have hring : FreeRing s₁ F := h.ring.congr hfree fun x hx => by
    simp [hget x (h.free_sub x hx)]
  have spec := freelistRemove_spec h.apart hring h.free_sub (h.mem_free hrm hr)
  generalize freelistRemove s₁ r.hdr = s₂ at *
  have hedit₂ := hedit.trans spec.edit
  have hused : ∀ y ∈ A ++ b :: r :: C, y.free = false →
      s₂.get y.hdr .freeNext = null ∧ s₂.get y.hdr .freePrev = null := by
    intro y hy hf
    have hyF : y.hdr ∉ {x | x ∈ F} := h.not_mem_free hy hf
    rw [spec.links _ (mem_hdrs hy) _ (Or.inl hyF), spec.links _ (mem_hdrs hy) _ (Or.inl hyF),
      hget _ (mem_hdrs hy), hget _ (mem_hdrs hy)]
    simpa using h.used y hy hf
  obtain ⟨hfuse, htiled⟩ := h.tiled.fuse
  refine ⟨⟨?_, ?used⟩, hedit₂⟩
  constructor
  case pos => rw [hedit₂.top]; exact h.pos
  case align => rw [hedit₂.top]; exact h.align
  case head => rw [spec.head, hblock, hedit₂.top, h.head]
  case tiled => rw [hedit₂.top]; exact htiled
  case sizes =>
    intro x hx
    rcases h.mem_fused hx with rfl | ⟨hx, -⟩
    · have h1 := h.sizes b hbm
      have h2 := h.sizes r hrm
      omega
    · exact h.sizes x hx
  case links =>
    refine h.links_fused fun y hy g h1 h2 => ?_
    rw [spec.links y hy g (Or.inr ⟨h1, h2⟩), hget y hy]
  case ring => exact spec.ring
  case free => exact h.free_fused
  case used =>
    intro y hy hf
    rcases h.mem_fused hy with rfl | ⟨hy, -⟩
    · exact hused b hbm hf
    · exact hused y hy hf

end Rep

end Cerberos
