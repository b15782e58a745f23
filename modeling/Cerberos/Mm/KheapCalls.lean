/-
# Cerberos.Mm.KheapCalls — `kmalloc`, `kfree` and `kheap_expand` on layouts.

Each call of the heap is one edit of the layout: `kmalloc` CARVES a block out of the first free block
that is large enough, growing the heap first when there is none; `kfree` RELEASES a block and fuses it
with its free neighbours. The search of `kmalloc` is a walk along the ring of free blocks, so it ends,
and after one expansion it always finds the new block in front: `kmalloc` never hangs.
-/
import Cerberos.Mm.KheapLayout
import Cerberos.Mm.PagingFrames
import Cerberos.Mm.PmmBoot

namespace Cerberos

open Cerberos.Base

/-! ## Edits that do not touch headers -/

/-- A layout is represented by every state with the same header fields. -/
theorem Rep.congr {s s' : Kheap} {L : List Blk} {F : List Word} (h : Rep s L F)
    (hget : ∀ b ∈ L, ∀ g, s'.get b.hdr g = s.get b.hdr g) (htop : s'.kheapTop = s.kheapTop)
    (hblock : s'.blockHead = s.blockHead) (hfree : s'.freeHead = s.freeHead) : Rep s' L F := by
  refine ⟨⟨?_, ?_, ?_, ?_, h.sizes, ?_, ?_, h.free⟩, ?_⟩
  · rw [htop]; exact h.pos
  · rw [htop]; exact h.align
  · rw [hblock, htop, h.head]
  · rw [htop]; exact h.tiled
  · exact h.links.congr fun b hb g _ _ => hget b hb g
  · refine h.ring.congr hfree fun x hx => ?_
    obtain ⟨b, hb, -, rfl⟩ := (h.free x).mp hx
    exact ⟨hget b hb _, hget b hb _⟩
  · intro b hb hf
    rw [hget b hb, hget b hb]
    exact h.used b hb hf

theorem Rep.say {s : Kheap} {L : List Blk} {F : List Word} (h : Rep s L F) (msg : LogMsg) :
    Rep (s.say msg) L F :=
  h.congr (fun _ _ _ => rfl) rfl rfl rfl

/-- The heap with other memory contents. -/
def Kheap.withMem (s : Kheap) (m : Mem) : Kheap := { s with mem := m }

/-- `x` is a byte of the payload of `b`. -/
def Blk.Payload (b : Blk) (x : Word) : Prop :=
  b.hdr.toNat + 40 ≤ x.toNat ∧ x.toNat < b.hdr.toNat + 40 + b.size.toNat

/-- A byte of a payload belongs to no header. -/
theorem Tiled.payload_outside {top : ℕ} {L : List Blk} (h : Tiled top L) {b : Blk} (hb : b ∈ L)
    {x : Word} (hx : b.Payload x) :
    ∀ y ∈ hdrs L, x.toNat < y.toNat ∨ y.toNat + 40 ≤ x.toNat := by
  rintro _ ⟨b', hb', rfl⟩
  by_cases heq : b = b'
  · subst heq
    exact Or.inr hx.1
  · have hd := h.disjoint hb hb' heq
    have h1 := hx.1
    have h2 := hx.2
    simp only [Blk.pos, Blk.ext] at hd
    omega

theorem Tiled.get_of_outside {top : ℕ} {L : List Blk} (h : Tiled top L) {s s' : Kheap}
    (hmem : ∀ x : Word, (∃ y ∈ hdrs L, y.toNat ≤ x.toNat ∧ x.toNat < y.toNat + 40) →
      s'.mem x = s.mem x) {b : Blk} (hb : b ∈ L) (g : Field) : s'.get b.hdr g = s.get b.hdr g := by
  have hfit := (h.fits hb).2
  have hg := g.offset_le
  have he := toNat_add_offset (h := b.hdr) (by omega) g
  apply read64_congr
  intro k hk
  have hadd : (b.hdr + g.offset + BitVec.ofNat 64 k).toNat = b.hdr.toNat + g.offset.toNat + k := by
    rw [BitVec.toNat_add, he, BitVec.toNat_ofNat]
    omega
  apply hmem
  exact ⟨b.hdr, mem_hdrs hb, by omega, by omega⟩

/-! ## The search -/

/-- The first block on the free list that has `size` bytes, `NULL` when there is none. -/
def firstFit (s : Kheap) (size : Word) (F : List Word) : Word :=
  (F.find? fun h => size ≤ s.get h .size).getD null

/-- The last node of the ring points back to the first one. -/
theorem FreeRing.last_next {s : Kheap} {F P : List Word} {x : Word} (hF : FreeRing s F)
    (hsplit : F = P ++ [x]) : s.get x .freeNext = s.freeHead := by
  have hring := hF.ring
  rw [hF.head]
  cases F with
  | nil => simp at hsplit
  | cons y T =>
      have hlast : (y :: T).getLast? = some x := by rw [hsplit]; simp
      exact (hring.link_last hlast).1

/-- The others point to their successors, which are not the first node. -/
theorem FreeRing.inner_next {s : Kheap} {F P T : List Word} {x y : Word} (hF : FreeRing s F)
    (hsplit : F = P ++ x :: y :: T) : s.get x .freeNext = y ∧ y ≠ s.freeHead := by
  constructor
  · have hring := hF.ring
    rw [hsplit] at hring
    exact hring.link_of_adjacent.1
  · intro heq
    have hnd := hF.nodup
    rw [hF.head, hsplit] at heq
    rw [hsplit] at hnd
    cases P with
    | nil =>
        simp only [List.nil_append, List.headD_cons] at heq
        subst heq
        simp at hnd
    | cons z P =>
        simp only [List.cons_append, List.headD_cons] at heq
        subst heq
        simp at hnd

/-- The search from the node `x` on looks at the rest of the ring. -/
theorem kmallocSearch_suffix {s : Kheap} {F : List Word} (hF : FreeRing s F) (size : Word) :
    ∀ {T P : List Word} {x : Word} {n : ℕ}, F = P ++ x :: T → T.length < n →
      kmallocSearch s size n x = some (firstFit s size (x :: T)) := by
  intro T
  induction T with
  | nil =>
      intro P x n hsplit hn
      obtain ⟨n, rfl⟩ : ∃ m, n = m + 1 := ⟨n - 1, by simp at hn; omega⟩
      have hx : x ≠ null := fun h => hF.nonnull (by rw [hsplit, h]; simp)
      have hnext := hF.last_next hsplit
      rw [kmallocSearch, if_neg hx]
      by_cases hfit : size ≤ s.get x .size
      · simp [firstFit, hfit]
      · simp [firstFit, hfit, hnext]
  | cons y T ih =>
      intro P x n hsplit hn
      obtain ⟨n, rfl⟩ : ∃ m, n = m + 1 := ⟨n - 1, by simp at hn; omega⟩
      have hx : x ≠ null := fun h => hF.nonnull (by rw [hsplit, h]; simp)
      obtain ⟨hnext, hyhead⟩ := hF.inner_next hsplit
      rw [kmallocSearch, if_neg hx]
      by_cases hfit : size ≤ s.get x .size
      · simp [firstFit, hfit]
      · have hrec := ih (P := P ++ [x]) (x := y) (n := n) (by simpa using hsplit)
          (by simp at hn; omega)
        simp only [if_neg hfit, hnext, if_neg hyhead, hrec]
        simp [firstFit, hfit]

theorem nodup_length_le {F : List Word} (h : F.Nodup) : F.length ≤ 2 ^ 64 := by
  have hmap : (F.map BitVec.toFin).Nodup := h.map (fun a b hab => BitVec.eq_of_toFin_eq hab)
  have hlen := hmap.length_le_card
  rwa [List.length_map, Fintype.card_fin] at hlen

/-- **The search ends** and finds the first fit. -/
theorem kmallocSearch_spec {s : Kheap} {F : List Word} (hF : FreeRing s F) (size : Word) {n : ℕ}
    (hn : 2 ^ 64 ≤ n) : kmallocSearch s size n s.freeHead = some (firstFit s size F) := by
  have hlen := nodup_length_le hF.nodup
  cases F with
  | nil =>
      have hhead : s.freeHead = null := hF.head
      obtain ⟨n, rfl⟩ : ∃ m, n = m + 1 := ⟨n - 1, by omega⟩
      rw [kmallocSearch, if_pos hhead]
      rfl
  | cons x T =>
      have hhead : s.freeHead = x := hF.head
      rw [hhead]
      exact kmallocSearch_suffix hF size (P := []) rfl (by simp at hlen; omega)

/-- What the search returns is a free block of the layout, large enough. -/
theorem Rep.firstFit_mem {s : Kheap} {L : List Blk} {F : List Word} (h : Rep s L F) {size : Word}
    (hfit : firstFit s size F ≠ null) :
    ∃ A b C, L = A ++ b :: C ∧ b.free = true ∧ b.hdr = firstFit s size F ∧ size ≤ b.size := by
  unfold firstFit at hfit ⊢
  cases hfind : F.find? (fun h => size ≤ s.get h .size) with
  | none =>
      rw [hfind] at hfit
      exact absurd rfl hfit
  | some x =>
      have hmem := List.mem_of_find?_eq_some hfind
      have hle := List.find?_some hfind
      obtain ⟨b, hb, hfree, rfl⟩ := (h.free x).mp hmem
      obtain ⟨A, C, rfl⟩ := List.append_of_mem hb
      rw [h.fields.2.2] at hle
      exact ⟨A, b, C, rfl, hfree, rfl, by simpa using hle⟩

theorem Rep.firstFit_none {s : Kheap} {L : List Blk} {F : List Word} (h : Rep s L F) {size : Word}
    (hfit : firstFit s size F = null) {b : Blk} (hb : b ∈ L) (hf : b.free = true) :
    b.size < size := by
  unfold firstFit at hfit
  cases hfind : F.find? (fun h => size ≤ s.get h .size) with
  | some x =>
      rw [hfind] at hfit
      have hmem := List.mem_of_find?_eq_some hfind
      rw [show x = null from hfit] at hmem
      exact absurd hmem h.ring.nonnull
  | none =>
      rw [List.find?_eq_none] at hfind
      have hx := hfind b.hdr (h.mem_free hb hf)
      obtain ⟨A, C, rfl⟩ := List.append_of_mem hb
      rw [h.fields.2.2] at hx
      simpa using hx

/-! ## Taking and releasing a block -/

/-- **`kmalloc` carves the block its search found.** -/
theorem Rep.kmallocTake_spec {s : Kheap} {A C : List Blk} {b : Blk} {F : List Word}
    (h : Rep s (A ++ b :: C) F) (hb : b.free = true) {n : Word} (h8 : n.toNat % 8 = 0)
    (hle : n.toNat ≤ b.size.toNat) :
    ∃ s' F', kmallocTake s n b.hdr = (blockStartAddr (carveUsed b n).hdr, s') ∧
      Rep s' (A ++ (carveRest b n ++ carveUsed b n :: C)) F' ∧
      HdrEdit (hdrs (A ++ (carveRest b n ++ carveUsed b n :: C))) s s' := by
  obtain ⟨-, -, hsize⟩ := h.fields
  obtain ⟨hrep, hedit⟩ := h.remove hb
  rw [← hdrs_mark A C b false] at hedit
  unfold kmallocTake carveUsed carveRest
  rw [hsize]
  by_cases heq : b.size = n
  · -- an exact fit
    have hsmall : b.size - n < hdrSize + kheapMinFreeSize := by rw [heq, BitVec.sub_self]; decide
    rw [if_pos heq, if_pos hsmall, if_pos hsmall]
    exact ⟨_, _, rfl, hrep, hedit⟩
  · rw [if_neg heq]
    have hn : alignUp n 8 = n := alignUp_eight_of_mod h8
    by_cases hsmall : b.size - n < hdrSize + kheapMinFreeSize
    · -- too little would be left: the block is taken whole
      rw [if_pos hsmall, if_pos hsmall, h.split_keep (by rwa [hn])]
      exact ⟨_, _, rfl, hrep, hedit⟩
    · rw [if_neg hsmall, if_neg hsmall]
      obtain ⟨s₁, hsplit, hrep₁, hedit₁⟩ := h.split_cut hn hle hsmall
      rw [hsplit]
      have hrep₁' : Rep s₁ ((A ++ [b.low n]) ++ (b.high n).mark true :: C)
          ((b.high n).hdr :: F) := by simpa using hrep₁
      obtain ⟨hrep₂, hedit₂⟩ := hrep₁'.remove rfl
      rw [hdrs_mark, List.append_assoc] at hedit₂
      have hfinal : (A ++ [b.low n]) ++ ((b.high n).mark true).mark false :: C =
          A ++ ([b.low n] ++ b.high n :: C) := List.append_assoc ..
      rw [hfinal] at hrep₂
      exact ⟨_, _, rfl, hrep₂, hedit₁.trans hedit₂⟩

/-- **`kfree` releases a block in use.** -/
theorem Rep.kfree_spec {s : Kheap} {A C : List Blk} {b : Blk} {F : List Word}
    (h : Rep s (A ++ b :: C) F) (hb : b.free = false) :
    ∃ F', Rep (kfree s (blockStartAddr b.hdr)) (release A b C) F' ∧
      HdrEdit (hdrs (A ++ b :: C)) s (kfree s (blockStartAddr b.hdr)) := by
  have hhdr : blockStartAddr b.hdr - hdrSize = b.hdr := by
    rw [blockStartAddr]
    ring
  have hfree : isFree s b.hdr = false := (h.isFree_eq (by simp)).trans hb
  have hkfree : kfree s (blockStartAddr b.hdr) = (merge (freelistInsert s b.hdr) b.hdr).2 := by
    unfold kfree
    simp only [hhdr, hfree, Bool.false_eq_true, if_false]
  obtain ⟨hrep, hedit⟩ := h.toLaid.insert (fun x hx _ => h.used x hx) hb
  obtain ⟨s₁, F₁, hright, hrep₁, hedit₁⟩ := hrep.mergeRight_spec
  have hb₁ : (fuseRight (b.mark true) C).1.free = true := (fuseRight_hdr _ C).2
  have hh₁ : (fuseRight (b.mark true) C).1.hdr = b.hdr := (fuseRight_hdr _ C).1
  obtain ⟨s₂, F₂, hleft, hrep₂, hedit₂⟩ := hrep₁.mergeLeft_spec hb₁
  have hmerge : (merge (freelistInsert s b.hdr) b.hdr).2 = s₂ := by
    have hright' : mergeRight (freelistInsert s b.hdr) b.hdr = (b.hdr, s₁) := hright
    unfold merge
    rw [hright', ← hleft, hh₁]
  rw [hkfree, hmerge]
  rw [hdrs_mark] at hedit₁
  refine ⟨F₂, hrep₂, hedit.trans (hedit₁.trans (hedit₂.mono ?_))⟩
  apply hdrs_mono
  intro y hy
  simp only [List.mem_append, List.mem_cons] at hy
  rcases hy with hy | rfl | hy
  · exact ⟨y, by simp [hy], rfl⟩
  · exact ⟨b, by simp, hh₁.symm⟩
  · refine ⟨y, ?_, rfl⟩
    rcases fuseRight_cases (b.mark true) C with ⟨heq, -⟩ | ⟨r, C', rfl, -, heq⟩
    · rw [heq] at hy
      simp [hy]
    · rw [heq] at hy
      simp [hy]

/-! ## Growing the heap -/

/-- Mapping `n` pages takes at least `n` frames. -/
theorem kheapMapPages_grows :
    ∀ {n : ℕ} {s s' : Mmu} {page : Word}, kheapMapPages s page n = .ok s' →
      HintGrows s.pmm s'.pmm n ∧ s'.cr3 = s.cr3 := by
  intro n
  induction n with
  | zero =>
      intro s s' page h
      cases h
      exact ⟨HintGrows.refl s.pmm, rfl⟩
  | succ n ih =>
      intro s s' page h
      unfold kheapMapPages at h
      obtain ⟨⟨frame, pmm⟩, halloc, h⟩ := Res.bind_eq_ok.mp h
      obtain ⟨s₁, hmap, h⟩ := Res.bind_eq_ok.mp h
      have hwalk := pagingMap_walk hmap
      obtain ⟨hgrow, hcr3⟩ := ih h
      have hall := ((HintGrows.single halloc).trans hwalk.frames.grows).trans hgrow
      exact ⟨by rwa [show n + 1 = 1 + 0 + n by omega], hcr3.trans hwalk.cr3⟩

/-- Every heap page has taken a frame of the normal zone, so the heap cannot reach down to `NULL`. -/
structure HeapRoom (k : Kernel) : Prop where
  align : k.heap.kheapTop.toNat % 4096 = 0
  pages : 2 ^ 64 ≤
    k.heap.kheapTop.toNat + 4096 * (k.mmu.pmm.memZone .normal).firstFreeIdx.toNat
  first : (k.mmu.pmm.memZone .normal).firstFreeIdx.toNat ≤
    (k.mmu.pmm.memZone .normal).bitmap.size.toNat
  size : (k.mmu.pmm.memZone .normal).bitmap.size.toNat < 2 ^ 52

/-- What an expansion of the heap by `numPages` did. -/
structure Grown (k : Kernel) (numPages : Word) (k' : Kernel) : Prop where
  mmu : kheapMapPages k.mmu (k.heap.kheapTop - pageSize) numPages.toNat = .ok k'.mmu
  top : k'.heap.kheapTop.toNat + 4096 * numPages.toNat = k.heap.kheapTop.toNat
  max : k'.heap.kheapMax = k.heap.kheapMax
  bound : k'.heap.kheapMax ≤ k'.heap.kheapTop
  room : HeapRoom k'

/-- The new top of the heap lies above `NULL`: there are not that many frames. -/
theorem HeapRoom.grow {k : Kernel} (h : HeapRoom k) {numPages : Word} (h0 : numPages ≠ 0) {mmu : Mmu}
    (hmap : kheapMapPages k.mmu (k.heap.kheapTop - pageSize) numPages.toNat = .ok mmu) :
    0 < (k.heap.kheapTop - numPages * pageSize).toNat ∧
      (k.heap.kheapTop - numPages * pageSize).toNat + 4096 * numPages.toNat =
        k.heap.kheapTop.toNat ∧
      ∀ heap : Kheap, heap.kheapTop = k.heap.kheapTop - numPages * pageSize →
        HeapRoom { mmu := mmu, heap := heap } := by
  obtain ⟨hgrow, -⟩ := kheapMapPages_grows hmap
  have hpos : 0 < numPages.toNat := toNat_pos_of_ne_zero h0
  have h1 := h.pages
  have h2 := h.size
  have h3 := hgrow.first
  have h5 := h.align
  have h6 := k.heap.kheapTop.isLt
  have h4 : (mmu.pmm.memZone .normal).firstFreeIdx.toNat ≤
      (k.mmu.pmm.memZone .normal).bitmap.size.toNat := by
    rcases hgrow.bound with heq | hle
    · rw [heq] at h3
      omega
    · exact hle
  have hmul : (numPages * pageSize).toNat = 4096 * numPages.toNat := by
    rw [BitVec.toNat_mul, show pageSize.toNat = 4096 from rfl]
    omega
  have hsub : (k.heap.kheapTop - numPages * pageSize).toNat =
      k.heap.kheapTop.toNat - 4096 * numPages.toNat := by
    rw [BitVec.toNat_sub_of_le (by rw [BitVec.le_def, hmul]; omega), hmul]
  refine ⟨by omega, by omega, ?_⟩
  intro heap htop
  refine ⟨?_, ?_, ?_, ?_⟩
  · show heap.kheapTop.toNat % 4096 = 0
    rw [htop, hsub]
    omega
  · show 2 ^ 64 ≤ heap.kheapTop.toNat + 4096 * (mmu.pmm.memZone .normal).firstFreeIdx.toNat
    rw [htop, hsub]
    omega
  · show (mmu.pmm.memZone .normal).firstFreeIdx.toNat ≤
      (mmu.pmm.memZone .normal).bitmap.size.toNat
    rw [hgrow.bitmap]
    exact h4
  · show (mmu.pmm.memZone .normal).bitmap.size.toNat < 2 ^ 52
    rw [hgrow.bitmap]
    exact h2

/-- **`kheap_expand` puts a free block in front of the layout.** -/
theorem kheapExpand_spec {k k' : Kernel} {L : List Blk} {F : List Word} (h : Rep k.heap L F)
    (hroom : HeapRoom k) {numPages : Word} (h0 : numPages ≠ 0)
    (hok : kheapExpand k numPages = .ok k') :
    Grown k numPages k' ∧ ∃ F' b C,
      fuseRight ((freshBlk k'.heap.kheapTop k.heap.kheapTop).mark true) L = (b, C) ∧
      Rep k'.heap (b :: C) (k'.heap.kheapTop :: F') ∧
      HdrFrame (hdrs (freshBlk k'.heap.kheapTop k.heap.kheapTop :: L)) k.heap.mem k'.heap.mem := by
  unfold kheapExpand at hok
  rw [if_neg h0] at hok
  obtain ⟨mmu, hmap, hok⟩ := Res.bind_eq_ok.mp hok
  obtain ⟨hpos, htop, hroom'⟩ := hroom.grow h0 hmap
  dsimp only at hok
  by_cases hmax : k.heap.kheapTop - numPages * pageSize < k.heap.kheapMax
  · rw [if_pos hmax] at hok
    cases hok
  · rw [if_neg hmax] at hok
    injection hok with hok
    subst hok
    have h8 : (k.heap.kheapTop - numPages * pageSize).toNat % 8 = 0 := by
      have := hroom.align
      omega
    have hn : 0 < numPages.toNat := toNat_pos_of_ne_zero h0
    obtain ⟨s', F', b, C, hpush, hfuse, hrep, hedit⟩ := h.kheapPush_spec hpos h8 (by omega)
    rw [hpush]
    have htop' : s'.kheapTop = k.heap.kheapTop - numPages * pageSize := hedit.top
    have hmax' : s'.kheapMax = k.heap.kheapMax := hedit.max
    refine ⟨⟨hmap, ?_, hmax', ?_, hroom' s' htop'⟩, F', b, C, ?_, ?_, ?_⟩
    · show s'.kheapTop.toNat + _ = _
      rw [htop', htop]
    · show s'.kheapMax ≤ s'.kheapTop
      rw [htop', hmax']
      exact BitVec.not_lt.mp hmax
    · rw [htop']
      exact hfuse
    · rw [htop']
      exact hrep
    · rw [htop']
      exact hedit.frame

end Cerberos
