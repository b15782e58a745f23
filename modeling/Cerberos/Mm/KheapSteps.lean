/-
# Cerberos.Mm.KheapSteps — merging, splitting and growing as edits of the layout.

`KheapRep` turned the two free-list operations and the swallowing of a neighbour into edits of the
list of blocks. This module adds the rest: `merge_right` and `merge_left` either swallow a free
neighbour or store back what is already there, `split` cuts a block in two, and the tail of
`kheap_expand` puts a block in front. Each statement also says WHICH bytes may have changed: those of
the headers, old or new.
-/
import Cerberos.Mm.KheapRep

namespace Cerberos

open Cerberos.Base

/-! ## `split` -/

/-- The lower part of a block that gives `n` bytes away. -/
def Blk.low (b : Blk) (n : Word) : Blk := { b with size := b.size - n - hdrSize }

/-- The upper part of `n` bytes, with its own header, in use. -/
def Blk.high (b : Blk) (n : Word) : Blk := ⟨b.hdr + hdrSize + (b.size - n - hdrSize), n, false⟩

theorem Blk.low_size {b : Blk} {n : Word} (hn : n.toNat + 40 ≤ b.size.toNat) :
    (b.low n).size.toNat = b.size.toNat - n.toNat - 40 := by
  show (b.size - n - hdrSize).toNat = _
  rw [show hdrSize = (40 : Word) from rfl]
  bv_omega

theorem Blk.high_hdr {b : Blk} {n : Word} (hn : n.toNat + 40 ≤ b.size.toNat)
    (hfit : b.hdr.toNat + 40 + b.size.toNat ≤ 2 ^ 64) :
    (b.high n).hdr.toNat = b.hdr.toNat + b.size.toNat - n.toNat := by
  have hlow := Blk.low_size hn
  show (b.hdr + hdrSize + (b.low n).size).toNat = _
  rw [BitVec.toNat_add, BitVec.toNat_add, hlow, show hdrSize.toNat = 40 from rfl]
  omega

theorem Tiled.cut {top : ℕ} {A C : List Blk} {b : Blk} {n : Word} (h : Tiled top (A ++ b :: C))
    (hn : n.toNat + 40 ≤ b.size.toNat) : Tiled top ((A ++ [b.low n]) ++ b.high n :: C) := by
  obtain ⟨htA, htC⟩ := h.split_at
  have hfit := (h.fits (b := b) (by simp)).2
  have hlow := Blk.low_size hn
  have hhigh := Blk.high_hdr hn hfit
  have hmid : (b.low n).pos + (b.low n).ext = (b.high n).pos := by
    rw [Blk.ext, hlow, Blk.pos, Blk.pos, hhigh, show (b.low n).hdr = b.hdr from rfl]
    omega
  have hend : (b.high n).pos + (b.high n).ext = b.pos + b.ext := by
    rw [Blk.ext, Blk.ext, Blk.pos, Blk.pos, hhigh, show (b.high n).size = n from rfl]
    omega
  apply Tiles.join_at
  · rw [← hmid]
    exact Tiles.join_at (x := b.low n) htA rfl
  · rw [hend]
    exact htC

/-- The stores of `split` before the new block goes on the free list. -/
def splitStores (s : Kheap) (hdr newHdr size n next : Word) : Kheap :=
  let s := s.set hdr .size size
  let s := s.set newHdr .size n
  let s := s.set newHdr .prev hdr
  let s := s.set newHdr .next next
  let s := s.set hdr .next newHdr
  if next ≠ null then s.set next .prev newHdr else s

theorem split_eq_stores {H : Set Word} (hH : Apart H) {s : Kheap} {hdr newHdr size num : Word}
    (hh : hdr ∈ H) (hnew : newHdr ∈ H) (hne : hdr ≠ newHdr) (h0 : hdr ≠ null)
    (hroom : ¬ s.get hdr .size - alignUp num 8 < hdrSize + kheapMinFreeSize)
    (hsize : blockEndAddr s hdr - alignUp num 8 - hdrSize + 1 - blockStartAddr hdr = size)
    (hhdr : hdr + hdrSize - 1 + size + 1 = newHdr) :
    split s hdr num = (newHdr, freelistInsert
      (splitStores s hdr newHdr size (alignUp num 8) (s.get hdr .next)) newHdr) := by
  unfold split
  rw [if_neg h0]
  simp only [if_neg hroom, hsize]
  have hend : blockEndAddr (s.set hdr .size size) hdr + 1 = newHdr := by
    rw [blockEndAddr, Kheap.get_set hH _ hh hh, if_pos ⟨rfl, rfl⟩, hhdr]
  simp only [hend]
  have hnext : (((s.set hdr .size size).set newHdr .size (alignUp num 8)).set newHdr .prev
      hdr).get hdr .next = s.get hdr .next := by
    simp [Kheap.get_set hH _ hnew hh, Kheap.get_set hH _ hh hh, hne]
  simp only [hnext]
  have hlast : ∀ t : Kheap, ((t.set newHdr .next (s.get hdr .next)).set hdr .next newHdr).get newHdr
      .next = s.get hdr .next := by
    intro t
    rw [Kheap.get_set hH _ hh hnew, if_neg (by simp [hne.symm]), Kheap.get_set hH _ hnew hnew,
      if_pos ⟨rfl, rfl⟩]
  simp only [hlast, splitStores]

theorem splitStores_get {H : Set Word} (hH : Apart H) (s : Kheap) {hdr newHdr z n next : Word}
    (hh : hdr ∈ H) (hnew : newHdr ∈ H) (hnext : next ≠ null → next ∈ H) {y : Word} (hy : y ∈ H)
    (g : Field) :
    (splitStores s hdr newHdr z n next).get y g =
      if next ≠ null ∧ y = next ∧ g = .prev then newHdr else
      if y = hdr ∧ g = .next then newHdr else if y = newHdr ∧ g = .next then next else
      if y = newHdr ∧ g = .prev then hdr else if y = newHdr ∧ g = .size then n else
      if y = hdr ∧ g = .size then z else s.get y g := by
  unfold splitStores
  by_cases h0 : next = null
  · simp only [ne_eq, h0, not_true_eq_false, false_and, if_false]
    rw [Kheap.get_set hH _ hh hy, Kheap.get_set hH _ hnew hy, Kheap.get_set hH _ hnew hy,
      Kheap.get_set hH _ hnew hy, Kheap.get_set hH _ hh hy]
  · simp only [ne_eq, h0, not_false_eq_true, true_and, if_true]
    rw [Kheap.get_set hH _ (hnext h0) hy, Kheap.get_set hH _ hh hy, Kheap.get_set hH _ hnew hy,
      Kheap.get_set hH _ hnew hy, Kheap.get_set hH _ hnew hy, Kheap.get_set hH _ hh hy]

theorem splitStores_edit {H : Set Word} (hH : Apart H) (s : Kheap) {hdr newHdr z n next : Word}
    (hh : hdr ∈ H) (hnew : newHdr ∈ H) (hnext : next ≠ null → next ∈ H) :
    HdrEdit H s (splitStores s hdr newHdr z n next) ∧
      (splitStores s hdr newHdr z n next).freeHead = s.freeHead ∧
      (splitStores s hdr newHdr z n next).blockHead = s.blockHead := by
  have e := HdrEdit.set hH (HdrEdit.set hH (HdrEdit.set hH (HdrEdit.set hH (HdrEdit.set hH
    (HdrEdit.refl H s) hh .size z) hnew .size n) hnew .prev hdr) hnew .next next) hh .next newHdr
  unfold splitStores
  by_cases h0 : next = null
  · simp only [ne_eq, h0, not_true_eq_false, if_false] at e ⊢
    exact ⟨e, rfl, rfl⟩
  · simp only [ne_eq, h0, not_false_eq_true, if_true]
    exact ⟨HdrEdit.set hH e (hnext h0) .prev newHdr, rfl, rfl⟩

theorem mem_cut {A C : List Blk} {b x : Blk} {n : Word}
    (hx : x ∈ (A ++ [b.low n]) ++ b.high n :: C) :
    x = b.high n ∨ x = b.low n ∨ x ∈ A ∨ x ∈ C := by
  simp only [List.mem_append, List.mem_cons] at hx
  tauto

namespace Rep

variable {s : Kheap} {L A C : List Blk} {F : List Word} {b r : Blk}

/-- Cutting a block keeps the free headers: the lower part has the old one, the upper part is used. -/
theorem free_cut (h : Rep s (A ++ b :: C) F) (n x : Word) :
    x ∈ F ↔ ∃ y ∈ (A ++ [b.low n]) ++ b.high n :: C, y.free = true ∧ y.hdr = x := by
  rw [h.free x]
  constructor
  · rintro ⟨y, hy, hf, rfl⟩
    simp only [List.mem_append, List.mem_cons] at hy
    rcases hy with hy | rfl | hy
    · exact ⟨y, by simp [hy], hf, rfl⟩
    · exact ⟨y.low n, by simp, hf, rfl⟩
    · exact ⟨y, by simp [hy], hf, rfl⟩
  · rintro ⟨y, hy, hf, rfl⟩
    rcases mem_cut hy with rfl | rfl | hy | hy
    · cases hf
    · exact ⟨b, by simp, hf, rfl⟩
    · exact ⟨y, by simp [hy], hf, rfl⟩
    · exact ⟨y, by simp [hy], hf, rfl⟩

/-- The links of the cut layout, from what the stores leave in the headers. -/
theorem links_cut (h : Rep s (A ++ b :: C) F) {n : Word} (hn : n.toNat + 40 ≤ b.size.toNat)
    {s₁ : Kheap}
    (hget : ∀ y ∈ hdrs ((A ++ [b.low n]) ++ b.high n :: C), ∀ g : Field,
      s₁.get y g = if firstHdr C null ≠ null ∧ y = firstHdr C null ∧ g = .prev then (b.high n).hdr else
        if y = b.hdr ∧ g = .next then (b.high n).hdr else
        if y = (b.high n).hdr ∧ g = .next then firstHdr C null else
        if y = (b.high n).hdr ∧ g = .prev then b.hdr else
        if y = (b.high n).hdr ∧ g = .size then n else
        if y = b.hdr ∧ g = .size then (b.low n).size else s.get y g) :
    BlockLinks s₁ null ((A ++ [b.low n]) ++ b.high n :: C) null := by
  have ht := h.tiled.cut hn
  have hA : ∀ x ∈ A, x.hdr ∈ hdrs ((A ++ [b.low n]) ++ b.high n :: C) :=
    fun x hx => mem_hdrs (by simp [hx])
  have hC : ∀ x ∈ C, x.hdr ∈ hdrs ((A ++ [b.low n]) ++ b.high n :: C) :=
    fun x hx => mem_hdrs (by simp [hx])
  have hlow : b.hdr ∈ hdrs ((A ++ [b.low n]) ++ b.high n :: C) :=
    mem_hdrs (b := b.low n) (by simp)
  have hhigh : (b.high n).hdr ∈ hdrs ((A ++ [b.low n]) ++ b.high n :: C) := mem_hdrs (by simp)
  obtain ⟨hbprev, -, -⟩ := h.fields
  obtain ⟨hbA, hbC⟩ := h.tiled.hdr_ne
  obtain ⟨hhA, hhC⟩ := ht.hdr_ne
  have hbh : b.hdr ≠ (b.high n).hdr := hhA (b.low n) (by simp)
  obtain ⟨hndC, hnd⟩ := (show Tiled _ ((A ++ [b.low n] ++ [b.high n]) ++ C) by
    simpa using ht).nodup_append
  have hfirst := firstHdr_ne hnd
  obtain ⟨hlA, hlB⟩ := blockLinks_append.mp h.links
  rw [List.append_assoc]
  refine blockLinks_append.mpr ⟨?_, ?_, ?_, ?_, ?_, ?_, ?_, ?_⟩
  · refine hlA.congr fun x hx g h1 h2 => ?_
    have hxb := hbA x hx
    have hxh := hhA x (by simp [hx])
    have hxf := hfirst x (by simp [hx])
    rw [hget _ (hA x hx)]
    simp only [hxb, hxh, false_and, if_false]
    exact if_neg fun h => hxf h.1 h.2.1
  · show s₁.get b.hdr .prev = _
    rw [hget _ hlow, if_neg fun h => hfirst (b.low n) (by simp) h.1 h.2.1]
    simpa [hbh] using hbprev
  · show s₁.get b.hdr .next = (b.high n).hdr
    rw [hget _ hlow]
    simp
  · show s₁.get b.hdr .size = (b.low n).size
    rw [hget _ hlow]
    simp [hbh]
  · show s₁.get (b.high n).hdr .prev = b.hdr
    rw [hget _ hhigh, if_neg fun h => hfirst (b.high n) (by simp) h.1 h.2.1]
    simp
  · show s₁.get (b.high n).hdr .next = firstHdr C null
    rw [hget _ hhigh]
    simp [hbh.symm]
  · show s₁.get (b.high n).hdr .size = n
    rw [hget _ hhigh]
    simp
  · refine hlB.2.2.2.relink hndC ?_ ?_
    · intro hCne
      cases C with
      | nil => exact absurd rfl hCne
      | cons c C =>
          have hc := h.hdr_ne_null (b := c) (by simp)
          show s₁.get c.hdr .prev = (b.high n).hdr
          rw [hget _ (hC c List.mem_cons_self), if_pos ⟨hc, rfl, rfl⟩]
    · intro x hx g h1 h2 h3
      rw [hget _ (hC x hx)]
      simp only [hbC x hx, hhC x hx, false_and, if_false]
      refine if_neg ?_
      rintro ⟨-, h4, h5⟩
      exact h3.elim (· h4) (· h5)

/-- The stores of `split` lay the two parts out, the upper one not on the free list yet. -/
theorem splitStores_laid (h : Rep s (A ++ b :: C) F) {n : Word} (hn : n.toNat + 40 ≤ b.size.toNat)
    (h8 : n.toNat % 8 = 0) {s₁ : Kheap}
    (hs₁ : s₁ = splitStores s b.hdr (b.high n).hdr (b.low n).size n (firstHdr C null)) :
    Laid s₁ ((A ++ [b.low n]) ++ b.high n :: C) F ∧
      HdrEdit (hdrs ((A ++ [b.low n]) ++ b.high n :: C)) s s₁ ∧
      ∀ x ∈ (A ++ [b.low n]) ++ b.high n :: C, x.hdr ≠ (b.high n).hdr → x.free = false →
        s₁.get x.hdr .freeNext = null ∧ s₁.get x.hdr .freePrev = null := by
  have ht := h.tiled.cut hn
  have hbm : b ∈ A ++ b :: C := by simp
  have hAm : ∀ x ∈ A, x ∈ A ++ b :: C := fun x hx => by simp [hx]
  have hCm : ∀ x ∈ C, x ∈ A ++ b :: C := fun x hx => by simp [hx]
  have hlow : b.hdr ∈ hdrs ((A ++ [b.low n]) ++ b.high n :: C) :=
    mem_hdrs (b := b.low n) (by simp)
  have hhigh : (b.high n).hdr ∈ hdrs ((A ++ [b.low n]) ++ b.high n :: C) := mem_hdrs (by simp)
  have hnextH : firstHdr C null ≠ null →
      firstHdr C null ∈ hdrs ((A ++ [b.low n]) ++ b.high n :: C) :=
    firstHdr_mem fun x hx => by simp [hx]
  have hget := fun y hy g => splitStores_get ht.apart s (z := (b.low n).size) (n := n) hlow hhigh
    hnextH (y := y) hy g
  obtain ⟨hedit, hfree, hblock⟩ := splitStores_edit ht.apart s (z := (b.low n).size) (n := n)
    hlow hhigh hnextH
  rw [← hs₁] at hedit hfree hblock
  rw [← hs₁] at hget
  clear hs₁
  -- the links of the free list are not touched
  have hlinks : ∀ x ∈ A ++ b :: C, ∀ g : Field, g = .freeNext ∨ g = .freePrev →
      s₁.get x.hdr g = s.get x.hdr g := by
    intro x hx g hg
    have hxH : x.hdr ∈ hdrs ((A ++ [b.low n]) ++ b.high n :: C) := by
      simp only [List.mem_append, List.mem_cons] at hx
      rcases hx with hx | rfl | hx
      · exact mem_hdrs (by simp [hx])
      · exact hlow
      · exact mem_hdrs (by simp [hx])
    rw [hget _ hxH]
    rcases hg with rfl | rfl <;> simp
  refine ⟨?_, hedit, ?_⟩
  · constructor
    case pos => rw [hedit.top]; exact h.pos
    case align => rw [hedit.top]; exact h.align
    case head => rw [hblock, hedit.top, h.head]
    case tiled => rw [hedit.top]; exact ht
    case sizes =>
      intro x hx
      have hb8 := h.sizes b hbm
      have hl := Blk.low_size hn
      rcases mem_cut hx with rfl | rfl | hx | hx
      · exact h8
      · omega
      · exact h.sizes x (hAm x hx)
      · exact h.sizes x (hCm x hx)
    case links => exact h.links_cut hn hget
    case ring =>
      refine h.ring.congr hfree fun x hx => ?_
      obtain ⟨y, hy, -, rfl⟩ := (h.free x).mp hx
      exact ⟨hlinks y hy _ (Or.inl rfl), hlinks y hy _ (Or.inr rfl)⟩
    case free => exact h.free_cut n
  · intro x hx hxh hf
    have hold : ∃ y ∈ A ++ b :: C, y.hdr = x.hdr ∧ y.free = false := by
      rcases mem_cut hx with rfl | rfl | hx | hx
      · exact absurd rfl hxh
      · exact ⟨b, hbm, rfl, hf⟩
      · exact ⟨x, hAm x hx, rfl, hf⟩
      · exact ⟨x, hCm x hx, rfl, hf⟩
    obtain ⟨y, hy, hyx, hyf⟩ := hold
    rw [← hyx, hlinks y hy _ (Or.inl rfl), hlinks y hy _ (Or.inr rfl)]
    exact h.used y hy hyf

/-- **`split` cuts the block in two** and puts the upper part on the free list. -/
theorem split_cut (h : Rep s (A ++ b :: C) F) {num n : Word} (hnum : alignUp num 8 = n)
    (hle : n.toNat ≤ b.size.toNat) (hroom : ¬ b.size - n < hdrSize + kheapMinFreeSize) :
    ∃ s', split s b.hdr num = ((b.high n).hdr, s') ∧
      Rep s' (A ++ b.low n :: (b.high n).mark true :: C) ((b.high n).hdr :: F) ∧
      HdrEdit (hdrs (A ++ b.low n :: b.high n :: C)) s s' := by
  obtain ⟨-, hbnext, hbsize⟩ := h.fields
  have h8 : n.toNat % 8 = 0 := hnum ▸ toNat_alignUp_eight_mod num
  have hn : n.toNat + 40 ≤ b.size.toNat := by
    have hsub : (b.size - n).toNat = b.size.toNat - n.toNat := BitVec.toNat_sub_of_le hle
    rw [BitVec.lt_def, hsub, show (hdrSize + kheapMinFreeSize).toNat = 41 from rfl] at hroom
    omega
  obtain ⟨hlaid, hedit, hused⟩ := h.splitStores_laid hn h8 rfl
  obtain ⟨hrep, hedit₂⟩ := hlaid.insert hused rfl
  have hedit₃ := hedit.trans hedit₂
  have heq : split s b.hdr num = ((b.high n).hdr, freelistInsert
      (splitStores s b.hdr (b.high n).hdr (b.low n).size n (firstHdr C null)) (b.high n).hdr) := by
    have hlow : b.hdr ∈ hdrs ((A ++ [b.low n]) ++ b.high n :: C) :=
      mem_hdrs (b := b.low n) (by simp)
    have hne : b.hdr ≠ (b.high n).hdr := hlaid.tiled.hdr_ne.1 (b.low n) (by simp)
    rw [← hbnext]
    subst hnum
    refine split_eq_stores hlaid.apart hlow (mem_hdrs (by simp)) hne (h.hdr_ne_null (by simp)) ?_ ?_
      ?_
    · rwa [hbsize]
    · rw [blockEndAddr, blockStartAddr, hbsize]
      show _ = b.size - alignUp num 8 - hdrSize
      ring
    · show _ = b.hdr + hdrSize + (b.size - alignUp num 8 - hdrSize)
      show b.hdr + hdrSize - 1 + (b.size - alignUp num 8 - hdrSize) + 1 = _
      ring
  rw [List.append_assoc] at hrep hedit₃
  exact ⟨_, heq, hrep, hedit₃⟩

/-- `split` leaves a block alone that is too small to be cut. -/
theorem split_keep (h : Rep s (A ++ b :: C) F) {num : Word}
    (hroom : b.size - alignUp num 8 < hdrSize + kheapMinFreeSize) :
    split s b.hdr num = (b.hdr, s) := by
  obtain ⟨-, -, hbsize⟩ := h.fields
  unfold split
  rw [if_neg (h.hdr_ne_null (by simp)), hbsize]
  exact if_pos hroom

end Rep

/-! ## `merge` -/

/-- The block `b` and what follows it, after `b` has swallowed a free right neighbour. -/
def fuseRight (b : Blk) : List Blk → Blk × List Blk
  | [] => (b, [])
  | r :: C => if r.free then (b.fuse r, C) else (b, r :: C)

/-- The layout `A ++ b :: C` after the free block `b` has been swallowed by a free left
neighbour. -/
def fuseLeft (A : List Blk) (b : Blk) (C : List Blk) : List Blk :=
  match A.getLast? with
  | none => b :: C
  | some l => if l.free then A.dropLast ++ l.fuse b :: C else A ++ b :: C

theorem fuseLeft_concat (A : List Blk) (l b : Blk) (C : List Blk) :
    fuseLeft (A ++ [l]) b C = if l.free then A ++ l.fuse b :: C else A ++ l :: b :: C := by
  simp [fuseLeft]

theorem fuseRight_hdr (b : Blk) (C : List Blk) :
    (fuseRight b C).1.hdr = b.hdr ∧ (fuseRight b C).1.free = b.free := by
  cases C with
  | nil => exact ⟨rfl, rfl⟩
  | cons r C =>
      cases hr : r.free <;> simp [fuseRight, hr, Blk.fuse]

namespace Rep

variable {s : Kheap} {L A C : List Blk} {F : List Word} {b l r : Blk}

theorem mergeRight_absorb (h : Rep s (A ++ b :: r :: C) F) (hr : r.free = true) :
    ∃ s', mergeRight s b.hdr = (b.hdr, s') ∧ Rep s' (A ++ b.fuse r :: C) (F.erase r.hdr) ∧
      HdrEdit (hdrs (A ++ b :: r :: C)) s s' := by
  obtain ⟨-, hnext, -⟩ := h.fields
  have hnext' : s.get b.hdr .next = r.hdr := hnext
  obtain ⟨hrep, hedit⟩ := h.absorb hr
  refine ⟨_, ?_, hrep, hedit⟩
  have hfree : isFree s r.hdr = true := (h.isFree_eq (by simp)).trans hr
  have hm := mergeRight_eq_absorb (s := s) (l := b.hdr) (h.hdr_ne_null (by simp))
    (by rw [hnext']; exact h.hdr_ne_null (by simp)) (by rw [hnext']; exact hfree)
  rwa [hnext'] at hm

/-- The words of the swallowed header: its free-list links are cleared, the others are left. -/
theorem mergeRight_swallowed (h : Rep s (A ++ b :: r :: C) F) (hr : r.free = true) (g : Field) :
    (mergeRight s b.hdr).2.get r.hdr g =
      if g = .freeNext ∨ g = .freePrev then null else s.get r.hdr g := by
  have hbm : b ∈ A ++ b :: r :: C := by simp
  have hrm : r ∈ A ++ b :: r :: C := by simp
  have h' : Rep s ((A ++ [b]) ++ r :: C) F := by simpa using h
  obtain ⟨-, hnext, -⟩ := h.fields
  have hnext' : s.get b.hdr .next = r.hdr := hnext
  obtain ⟨-, hrnext, -⟩ := h'.fields
  have hne : b.hdr ≠ r.hdr := (h.tiled.hdr_ne.2 r List.mem_cons_self).symm
  have hnextH : s.get r.hdr .next ≠ null → s.get r.hdr .next ∈ hdrs (A ++ b :: r :: C) := by
    rw [hrnext]
    exact firstHdr_mem fun x hx => by simp [hx]
  have hself : s.get r.hdr .next ≠ null → r.hdr ≠ s.get r.hdr .next := by
    rw [hrnext]
    cases C with
    | nil => exact fun h0 => absurd rfl h0
    | cons c C => exact fun _ => (h'.tiled.hdr_ne.2 c List.mem_cons_self).symm
  have hfree : isFree s r.hdr = true := (h.isFree_eq hrm).trans hr
  have hm := mergeRight_eq_absorb (s := s) (l := b.hdr) (h.hdr_ne_null hbm)
    (by rw [hnext']; exact h.hdr_ne_null hrm) (by rw [hnext']; exact hfree)
  rw [hm, hnext']
  have hget := fun y hy g => absorbStores_get h.apart s (mem_hdrs hbm) (mem_hdrs hrm) hne hnextH
    (y := y) hy g
  obtain ⟨-, hfh, -⟩ := absorbStores_edit h.apart s (mem_hdrs hbm) (mem_hdrs hrm) hne hnextH
  generalize absorbStores s b.hdr r.hdr = s₁ at *
  have hring : FreeRing s₁ F := h.ring.congr hfh fun x hx => by
    simp [hget x (h.free_sub x hx)]
  have spec := freelistRemove_spec h.apart hring h.free_sub (h.mem_free hrm hr)
  by_cases hg : g = .freeNext ∨ g = .freePrev
  · rw [if_pos hg]
    rcases hg with rfl | rfl
    · exact spec.next
    · exact spec.prev
  · rw [if_neg hg, spec.links _ (mem_hdrs hrm) g (Or.inr (not_or.mp hg)), hget _ (mem_hdrs hrm),
      if_neg, if_neg, if_neg]
    · exact fun hc => hne hc.1.symm
    · exact fun hc => hne hc.1.symm
    · exact fun hc => hself hc.1 hc.2.1

/-- Without a free right neighbour `merge_right` stores the size the block already has. -/
theorem mergeRight_keep (h : Rep s (A ++ b :: C) F) (hC : ∀ r ∈ C.head?, r.free = false) :
    mergeRight s b.hdr = (b.hdr, s) := by
  obtain ⟨-, hnext, hsize⟩ := h.fields
  have hnb := h.tiled.firstHdr_eq
  unfold mergeRight
  rw [if_neg (h.hdr_ne_null (by simp)), hnext]
  cases C with
  | nil =>
      have hnull : firstHdr [] null = null := rfl
      have hsz : vaEnd - blockStartAddr b.hdr + 1 = s.get b.hdr .size := by
        rw [hsize, blockStartAddr, show vaEnd = (-1 : Word) from rfl]
        have h0 : (0 : Word) = b.hdr + hdrSize + b.size := hnb
        linear_combination h0
      rw [hnull]
      simp only [ne_eq, not_true_eq_false, false_and, if_false, if_true, hsz, Kheap.set_get_self]
  | cons r C =>
      have hr : isFree s r.hdr = false := (h.isFree_eq (by simp)).trans (hC r rfl)
      have hrn : r.hdr ≠ null := h.hdr_ne_null (by simp)
      have hsz : r.hdr - blockStartAddr b.hdr = s.get b.hdr .size := by
        have h0 : r.hdr = b.hdr + hdrSize + b.size := hnb
        rw [hsize, blockStartAddr, h0]
        ring
      rw [show firstHdr (r :: C) null = r.hdr from rfl]
      simp only [hr, hrn, hsz, Bool.false_eq_true, and_false, if_false, Kheap.set_get_self]

/-- **`merge_right` swallows a free right neighbour** and changes nothing otherwise. -/
theorem mergeRight_spec (h : Rep s (A ++ b :: C) F) :
    ∃ s' F', mergeRight s b.hdr = (b.hdr, s') ∧
      Rep s' (A ++ (fuseRight b C).1 :: (fuseRight b C).2) F' ∧
      HdrEdit (hdrs (A ++ b :: C)) s s' := by
  cases C with
  | nil => exact ⟨s, F, h.mergeRight_keep (by simp), h, HdrEdit.refl _ s⟩
  | cons r C =>
      cases hr : r.free with
      | true =>
          obtain ⟨s', heq, hrep, hedit⟩ := h.mergeRight_absorb hr
          have hf : fuseRight b (r :: C) = (b.fuse r, C) := if_pos hr
          exact ⟨s', _, heq, by rwa [hf], hedit⟩
      | false =>
          have hf : fuseRight b (r :: C) = (b, r :: C) := if_neg (by simp [hr])
          refine ⟨s, F, h.mergeRight_keep (by simpa using hr), by rwa [hf], HdrEdit.refl _ s⟩

/-- Without a free left neighbour the header is moved to where it already is. -/
theorem mergeLeft_keep (h : Rep s (A ++ b :: C) F) (hb : b.free = true)
    (hA : ∀ l ∈ A.getLast?, l.free = false) : mergeLeft s b.hdr = (b.hdr, s) := by
  obtain ⟨hprev, -, hsize⟩ := h.fields
  have hbf : isFree s b.hdr = true := (h.isFree_eq (by simp)).trans hb
  unfold mergeLeft
  rw [if_neg (h.hdr_ne_null (by simp)), if_neg (by simp [hbf]), hprev]
  rcases List.eq_nil_or_concat A with rfl | ⟨A, l, rfl⟩
  · -- the first block: it starts at `kheap_top`
    have htop : b.hdr = s.kheapTop := BitVec.eq_of_toNat_eq h.tiled.1
    have hsz : blockEndAddr s b.hdr - s.kheapTop - hdrSize + 1 = s.get b.hdr .size := by
      rw [blockEndAddr, ← htop]
      ring
    have hnull : lastHdr null [] = null := rfl
    have hhead : ¬ b.hdr ≠ s.blockHead := not_not.mpr (htop.trans h.head.symm)
    rw [hnull, if_neg fun h => h.1 rfl, if_pos rfl, if_neg hhead]
    simp only [hsz, Kheap.set_get_self]
    rw [htop, memmove_self]
  · rw [List.concat_eq_append] at h hA ⊢
    have hl : isFree s l.hdr = false := (h.isFree_eq (by simp)).trans (hA l (by simp))
    have hln : l.hdr ≠ null := h.hdr_ne_null (by simp)
    have h' : Rep s (A ++ l :: b :: C) F := by simpa using h
    obtain ⟨-, -, hlsize⟩ := h'.fields
    have hlb : b.hdr = l.hdr + hdrSize + l.size := h'.tiled.firstHdr_eq
    have hsz : blockEndAddr s b.hdr - blockEndAddr s l.hdr - hdrSize = s.get b.hdr .size := by
      rw [blockEndAddr, blockEndAddr, hlsize, hlb]
      ring
    have hnew : blockEndAddr s l.hdr + 1 = b.hdr := by
      rw [blockEndAddr, hlsize, hlb]
      ring
    rw [lastHdr_concat]
    simp only [hl, hln, hsz, Bool.false_eq_true, and_false, if_false, Kheap.set_get_self, hnew]
    rw [memmove_self]

theorem mergeLeft_absorb (h : Rep s (A ++ l :: b :: C) F) (hl : l.free = true)
    (hb : b.free = true) :
    ∃ s', mergeLeft s b.hdr = (l.hdr, s') ∧ Rep s' (A ++ l.fuse b :: C) (F.erase b.hdr) ∧
      HdrEdit (hdrs (A ++ l :: b :: C)) s s' := by
  have h' : Rep s ((A ++ [l]) ++ b :: C) F := by simpa using h
  obtain ⟨hprev, -, -⟩ := h'.fields
  rw [lastHdr_concat] at hprev
  obtain ⟨hrep, hedit⟩ := h.absorb hb
  refine ⟨_, ?_, hrep, hedit⟩
  have hlf : isFree s l.hdr = true := (h.isFree_eq (by simp)).trans hl
  have hbf : isFree s b.hdr = true := (h.isFree_eq (by simp)).trans hb
  have hm := mergeLeft_eq_absorb (s := s) (r := b.hdr) (h.hdr_ne_null (by simp)) hbf
    (by rw [hprev]; exact h.hdr_ne_null (by simp)) (by rw [hprev]; exact hlf)
  rwa [hprev] at hm

/-- **`merge_left` lets a free left neighbour swallow the block** and changes nothing otherwise. -/
theorem mergeLeft_spec (h : Rep s (A ++ b :: C) F) (hb : b.free = true) :
    ∃ s' F', (mergeLeft s b.hdr).2 = s' ∧ Rep s' (fuseLeft A b C) F' ∧
      HdrEdit (hdrs (A ++ b :: C)) s s' := by
  rcases List.eq_nil_or_concat A with rfl | ⟨A, l, rfl⟩
  · refine ⟨s, F, ?_, h, HdrEdit.refl _ s⟩
    rw [h.mergeLeft_keep hb (by simp)]
  · rw [List.concat_eq_append] at h ⊢
    rw [fuseLeft_concat]
    cases hl : l.free with
    | true =>
        have h' : Rep s (A ++ l :: b :: C) F := by simpa using h
        obtain ⟨s', heq, hrep, hedit⟩ := h'.mergeLeft_absorb hl hb
        exact ⟨s', _, by rw [heq], by rwa [if_pos rfl], by simpa using hedit⟩
    | false =>
        refine ⟨s, F, ?_, by simpa using h, HdrEdit.refl _ s⟩
        rw [h.mergeLeft_keep hb (by simpa using hl)]

end Rep

/-! ## A block in front -/

/-- The block that new pages from `top` up to the old first header form. -/
def freshBlk (top old : Word) : Blk := ⟨top, old - blockStartAddr top, false⟩

theorem freshBlk_size {top old : Word} (hroom : top.toNat + 40 ≤ old.toNat) :
    (freshBlk top old).size.toNat = old.toNat - top.toNat - 40 := by
  show (old - (top + hdrSize)).toNat = _
  rw [show hdrSize = (40 : Word) from rfl]
  bv_omega

theorem Tiled.fresh {top old : Word} {L : List Blk} (h : Tiled old.toNat L)
    (hroom : top.toNat + 40 ≤ old.toNat) : Tiled top.toNat (freshBlk top old :: L) := by
  have hs := freshBlk_size hroom
  refine ⟨rfl, ?_⟩
  have hend : top.toNat + (freshBlk top old).ext = old.toNat := by
    rw [Blk.ext, hs]
    omega
  rw [hend]
  exact h

/-- The stores of `kheap_expand` before the new block goes on the free list. -/
def pushStores (s : Kheap) (header old : Word) : Kheap :=
  let s := s.set header .size (old - blockStartAddr header)
  let s := s.set header .next old
  let s := s.set header .prev null
  let s := s.set old .prev header
  { s with blockHead := header }

theorem kheapPush_eq_stores {s : Kheap} {h old : Word} (hh : s.kheapTop = h)
    (ho : s.blockHead = old) :
    kheapPush s = (mergeRight (freelistInsert (pushStores s h old) h) h).2 := by
  subst hh ho
  rfl

theorem pushStores_get {H : Set Word} (hH : Apart H) (s : Kheap) {header old : Word}
    (hh : header ∈ H) (ho : old ∈ H) {y : Word} (hy : y ∈ H) (g : Field) :
    (pushStores s header old).get y g =
      if y = old ∧ g = .prev then header else if y = header ∧ g = .prev then null else
      if y = header ∧ g = .next then old else
      if y = header ∧ g = .size then old - blockStartAddr header else s.get y g := by
  show (Kheap.set _ old .prev header).get y g = _
  rw [Kheap.get_set hH _ ho hy, Kheap.get_set hH _ hh hy, Kheap.get_set hH _ hh hy,
    Kheap.get_set hH _ hh hy]

theorem pushStores_edit {H : Set Word} (hH : Apart H) (s : Kheap) {header old : Word}
    (hh : header ∈ H) (ho : old ∈ H) : HdrEdit H s (pushStores s header old) := by
  have e := HdrEdit.set hH (HdrEdit.set hH (HdrEdit.set hH (HdrEdit.set hH (HdrEdit.refl H s) hh
    .size (old - blockStartAddr header)) hh .next old) hh .prev null) ho .prev header
  exact ⟨e.frame, e.top, e.max, e.log⟩

namespace Rep

variable {s : Kheap} {L : List Blk} {F : List Word}

theorem firstHdr_eq_top (h : Rep s L F) : firstHdr L null = s.kheapTop ∧ L ≠ [] := by
  have ht := h.tiled
  cases L with
  | nil =>
      have hlt := s.kheapTop.isLt
      have heq : s.kheapTop.toNat = 2 ^ 64 := ht
      omega
  | cons b L => exact ⟨BitVec.eq_of_toNat_eq ht.1, by simp⟩

theorem pushStores_laid (h : Rep s L F) {top : Word} (hpos : 0 < top.toNat)
    (h8 : top.toNat % 8 = 0) (hroom : top.toNat + 40 ≤ s.kheapTop.toNat) {s₁ : Kheap}
    (hs₁ : s₁ = pushStores { s with kheapTop := top } top s.kheapTop) :
    Laid s₁ (freshBlk top s.kheapTop :: L) F ∧
      HdrEdit (hdrs (freshBlk top s.kheapTop :: L)) { s with kheapTop := top } s₁ ∧
      ∀ x ∈ freshBlk top s.kheapTop :: L, x.hdr ≠ top → x.free = false →
        s₁.get x.hdr .freeNext = null ∧ s₁.get x.hdr .freePrev = null := by
  have ht := h.tiled.fresh hroom
  obtain ⟨hfirst, hne⟩ := h.firstHdr_eq_top
  have hL : ∀ x ∈ L, x.hdr ∈ hdrs (freshBlk top s.kheapTop :: L) :=
    fun x hx => mem_hdrs (List.mem_cons_of_mem _ hx)
  have hnewH : top ∈ hdrs (freshBlk top s.kheapTop :: L) :=
    mem_hdrs (b := freshBlk top s.kheapTop) List.mem_cons_self
  have holdH : s.kheapTop ∈ hdrs (freshBlk top s.kheapTop :: L) := by
    have hmem := firstHdr_mem (C := L) (L := freshBlk top s.kheapTop :: L)
      (fun x hx => List.mem_cons_of_mem _ hx)
    rw [hfirst] at hmem
    apply hmem
    intro h0
    have := h.pos
    rw [h0] at this
    exact absurd this (by decide)
  have hLne := (show Tiled _ ([] ++ freshBlk top s.kheapTop :: L) from ht).hdr_ne.2
  have htopne : top ≠ s.kheapTop := by
    intro heq
    rw [heq] at hroom
    omega
  have hget := fun y hy g => pushStores_get ht.apart { s with kheapTop := top } hnewH holdH
    (y := y) hy g
  have hedit := pushStores_edit ht.apart { s with kheapTop := top } hnewH holdH
  have hfree : (pushStores { s with kheapTop := top } top s.kheapTop).freeHead = s.freeHead := rfl
  have hblock : (pushStores { s with kheapTop := top } top s.kheapTop).blockHead = top := rfl
  have hsame : ∀ y g, Kheap.get { s with kheapTop := top } y g = s.get y g := fun _ _ => rfl
  simp only [hsame] at hget
  rw [← hs₁] at hedit hfree hblock
  rw [← hs₁] at hget
  clear hs₁
  have htop : s₁.kheapTop = top := hedit.top
  have hlinks : ∀ x ∈ L, ∀ g : Field, g = .freeNext ∨ g = .freePrev →
      s₁.get x.hdr g = s.get x.hdr g := by
    intro x hx g hg
    rw [hget _ (hL x hx)]
    rcases hg with rfl | rfl <;> simp
  refine ⟨?_, hedit, ?_⟩
  · constructor
    case pos => rw [htop]; exact hpos
    case align => rw [htop]; exact h8
    case head => rw [htop]; exact hblock
    case tiled => rw [htop]; exact ht
    case sizes =>
      intro x hx
      rcases List.mem_cons.mp hx with rfl | hx
      · have h1 := freshBlk_size hroom
        have h2 := h.align
        omega
      · exact h.sizes x hx
    case links =>
      refine ⟨?_, ?_, ?_, ?_⟩
      · show s₁.get top .prev = null
        rw [hget _ hnewH]
        simp [htopne]
      · show s₁.get top .next = _
        rw [hget _ hnewH, hfirst]
        simp
      · show s₁.get top .size = s.kheapTop - blockStartAddr top
        rw [hget _ hnewH]
        simp
      · refine h.links.relink h.tiled.hdrs_nodup ?_ ?_
        · intro _
          rw [hfirst, hget _ holdH]
          simp
          rfl
        · intro x hx g h1 h2 h3
          have hxt : x.hdr ≠ top := hLne x hx
          rw [hfirst] at h3
          rw [hget _ (hL x hx)]
          simp only [hxt, false_and, if_false]
          refine if_neg ?_
          rintro ⟨h4, h5⟩
          exact h3.elim (· h4) (· h5)
    case ring =>
      refine h.ring.congr hfree fun x hx => ?_
      obtain ⟨y, hy, -, rfl⟩ := (h.free x).mp hx
      exact ⟨hlinks y hy _ (Or.inl rfl), hlinks y hy _ (Or.inr rfl)⟩
    case free =>
      intro x
      rw [h.free x]
      constructor
      · rintro ⟨y, hy, hf, rfl⟩
        exact ⟨y, List.mem_cons_of_mem _ hy, hf, rfl⟩
      · rintro ⟨y, hy, hf, rfl⟩
        rcases List.mem_cons.mp hy with rfl | hy
        · cases hf
        · exact ⟨y, hy, hf, rfl⟩
  · intro x hx hxt hf
    rcases List.mem_cons.mp hx with rfl | hx
    · exact absurd rfl hxt
    · rw [hlinks x hx _ (Or.inl rfl), hlinks x hx _ (Or.inr rfl)]
      exact h.used x hx hf

/-- **The tail of `kheap_expand` puts a free block in front**, merged with a free first block, at
the front of the free list. -/
theorem kheapPush_spec (h : Rep s L F) {top : Word} (hpos : 0 < top.toNat)
    (h8 : top.toNat % 8 = 0) (hroom : top.toNat + 40 ≤ s.kheapTop.toNat) :
    ∃ s' F' b C, kheapPush { s with kheapTop := top } = s' ∧
      fuseRight ((freshBlk top s.kheapTop).mark true) L = (b, C) ∧
      Rep s' (b :: C) (top :: F') ∧
      HdrEdit (hdrs (freshBlk top s.kheapTop :: L)) { s with kheapTop := top } s' := by
  obtain ⟨hlaid, hedit, hused⟩ := h.pushStores_laid hpos h8 hroom rfl
  obtain ⟨hrep, hedit₂⟩ := Laid.insert (A := []) hlaid hused rfl
  rw [kheapPush_eq_stores (s := { s with kheapTop := top }) rfl h.head]
  have hedit₃ := hedit.trans hedit₂
  have htop : (freshBlk top s.kheapTop).hdr = top := rfl
  rw [htop] at hrep hedit₃
  generalize freelistInsert (pushStores { s with kheapTop := top } top s.kheapTop) top = s₂ at *
  by_cases hL : ∀ r ∈ L.head?, r.free = false
  · refine ⟨s₂, F, (freshBlk top s.kheapTop).mark true, L, ?_, ?_, hrep, hedit₃⟩
    · rw [show mergeRight s₂ top = (top, s₂) from hrep.mergeRight_keep hL]
    · cases L with
      | nil => rfl
      | cons r C => exact if_neg (by simp [hL r rfl])
  · obtain ⟨r, C, rfl, hr⟩ : ∃ r C, L = r :: C ∧ r.free = true := by
      cases L with
      | nil => simp at hL
      | cons r C => exact ⟨r, C, rfl, by simpa using hL⟩
    obtain ⟨s', heq, hrep', hedit'⟩ := hrep.mergeRight_absorb hr
    have heq' : mergeRight s₂ top = (top, s') := heq
    have hrt : r.hdr ≠ top :=
      (show Tiled _ ([] ++ freshBlk top s.kheapTop :: r :: C) from hlaid.tiled).hdr_ne.2 r
        List.mem_cons_self
    rw [List.erase_cons_tail (by simpa using hrt.symm)] at hrep'
    refine ⟨s', F.erase r.hdr, _, C, by rw [heq'], if_pos hr, hrep', hedit₃.trans ?_⟩
    refine hedit'.mono ?_
    rintro x ⟨y, hy, rfl⟩
    rcases List.mem_cons.mp hy with rfl | hy
    · exact mem_hdrs (b := freshBlk top s.kheapTop) List.mem_cons_self
    · exact mem_hdrs (List.mem_cons_of_mem _ hy)

end Rep

end Cerberos
