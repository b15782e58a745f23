/-
# Cerberos.Mm.KheapDoubleFree — a second `kfree` of one pointer.

`kfree` tells a free block by the links of its header, and a merge clears the links of the header it
SWALLOWS. A pointer whose block was swallowed therefore passes the check, and is freed again. Often
nothing comes of it: `merge_right` and `merge_left` compute sizes from addresses, so that a stale
header whose `prev` is still the block that swallowed it, and whose `next` is still what follows that
block, is swallowed once more without a trace. When its neighbours have changed since, the stale words
go into the block list.
-/
import Cerberos.Mm.KheapLimits

namespace Cerberos

open Cerberos.Base

/-! ## The free list as a list -/

/-- The free list from `hdr` on, for `n` rounds at most. -/
def freeFrom (s : Kheap) : ℕ → Word → List Word
  | 0, _ => []
  | n + 1, hdr =>
    if hdr = null then []
    else
      let next := s.get hdr .freeNext
      hdr :: if next = s.freeHead then [] else freeFrom s n next

/-- The free list, as the links in memory have it. -/
def freeList (s : Kheap) : List Word := freeFrom s (2 ^ 64) s.freeHead

theorem freeFrom_suffix {s : Kheap} {F : List Word} (hF : FreeRing s F) :
    ∀ {T P : List Word} {x : Word} {n : ℕ}, F = P ++ x :: T → T.length < n →
      freeFrom s n x = x :: T := by
  intro T
  induction T with
  | nil =>
      intro P x n hsplit hn
      obtain ⟨n, rfl⟩ : ∃ m, n = m + 1 := ⟨n - 1, by simp at hn; omega⟩
      have hx : x ≠ null := fun h => hF.nonnull (by rw [hsplit, h]; simp)
      rw [freeFrom, if_neg hx]
      simp only [hF.last_next hsplit, if_true]
  | cons y T ih =>
      intro P x n hsplit hn
      obtain ⟨n, rfl⟩ : ∃ m, n = m + 1 := ⟨n - 1, by simp at hn; omega⟩
      have hx : x ≠ null := fun h => hF.nonnull (by rw [hsplit, h]; simp)
      obtain ⟨hnext, hyhead⟩ := hF.inner_next hsplit
      have hrec := ih (P := P ++ [x]) (x := y) (n := n) (by simpa using hsplit)
        (by simp at hn; omega)
      rw [freeFrom, if_neg hx]
      simp only [hnext, if_neg hyhead, hrec]

theorem FreeRing.freeList_eq {s : Kheap} {F : List Word} (hF : FreeRing s F) : freeList s = F := by
  have hlen := nodup_length_le hF.nodup
  unfold freeList
  cases F with
  | nil =>
      have hhead : s.freeHead = null := hF.head
      rw [show 2 ^ 64 = (2 ^ 64 - 1) + 1 by norm_num, freeFrom, if_pos hhead]
  | cons x T =>
      have hhead : s.freeHead = x := hF.head
      rw [hhead]
      exact freeFrom_suffix hF (P := []) rfl (by simp at hlen; omega)

/-! ## Stale headers -/

/-- The header `x` is stale and still as its swallowing left it: it lies in the free block `l`, its
`prev` is `l` and its `next` is what follows `l`. -/
structure Swallowed (s : Kheap) (l : Blk) (x : Word) : Prop where
  free : l.free = true
  low : l.hdr.toNat + 40 ≤ x.toNat
  high : x.toNat ≤ l.hdr.toNat + l.size.toNat
  prev : s.get x .prev = l.hdr
  next : s.get x .next = s.get l.hdr .next

instance (s : Kheap) (l : Blk) (x : Word) : Decidable (Swallowed s l x) :=
  decidable_of_iff (l.free = true ∧ l.hdr.toNat + 40 ≤ x.toNat ∧
      x.toNat ≤ l.hdr.toNat + l.size.toNat ∧ s.get x .prev = l.hdr ∧
      s.get x .next = s.get l.hdr .next)
    ⟨fun h => ⟨h.1, h.2.1, h.2.2.1, h.2.2.2.1, h.2.2.2.2⟩,
      fun h => ⟨h.free, h.low, h.high, h.prev, h.next⟩⟩

section Stale

variable {s : Kheap} {L A C : List Blk} {F : List Word} {l : Blk} {x : Word}

/-- The stale header and the headers of the layout do not overlap. -/
theorem Tiled.apart_insert {top : ℕ} (ht : Tiled top L) (hl : l ∈ L)
    (hlow : l.hdr.toNat + 40 ≤ x.toNat) (hhigh : x.toNat ≤ l.hdr.toNat + l.size.toNat) :
    Apart (insert x (hdrs L)) ∧ x ∉ hdrs L := by
  have hfit := (ht.fits hl).2
  have hsep : ∀ b ∈ L, x.toNat + 40 ≤ b.hdr.toNat ∨ b.hdr.toNat + 40 ≤ x.toNat := by
    intro b hb
    by_cases hbl : b = l
    · exact Or.inr (hbl ▸ hlow)
    · have := ht.disjoint hb hl hbl
      simp only [Blk.pos, Blk.ext] at this
      omega
  have hout : x ∉ hdrs L := by
    rintro ⟨b, hb, hbx⟩
    have := hsep b hb
    rw [hbx] at this
    omega
  refine ⟨⟨?_, ?_⟩, hout⟩
  · rintro y (rfl | hy)
    · omega
    · exact ht.apart.fits y hy
  · rintro y (rfl | hy) z (rfl | hz) hne
    · exact absurd rfl hne
    · obtain ⟨b, hb, rfl⟩ := hz
      exact hsep b hb
    · obtain ⟨b, hb, rfl⟩ := hy
      exact (hsep b hb).symm
    · exact ht.apart.sep y hy z hz hne

/-- `merge_right` of a stale header stores the distance to the end of the block it lies in. -/
theorem mergeRight_stale (hx : x ≠ null) {v : Word}
    (hend : s.get x .next = v) (hused : v ≠ null → isFree s v = false) :
    mergeRight s x = (x, s.set x .size (v - blockStartAddr x)) := by
  unfold mergeRight
  rw [if_neg hx, hend]
  by_cases hv : v = null
  · have hsize : vaEnd - blockStartAddr x + 1 = null - blockStartAddr x := by
      rw [show vaEnd = (-1 : Word) from rfl]
      ring
    simp only [hv, ne_eq, not_true_eq_false, false_and, if_false, if_true, hsize]
  · simp only [hv, hused hv, ne_eq, not_false_eq_true, Bool.false_eq_true, and_false, if_false]

/-- The header `v` that follows the free block `l`, if there is one, is in use and points back. -/
structure Follows (s : Kheap) (L : List Blk) (F : List Word) (l : Blk) (v : Word) : Prop where
  addr : v = l.hdr + hdrSize + l.size
  next : s.get l.hdr .next = v
  mem : v ≠ null → v ∈ hdrs L
  prev : v ≠ null → s.get v .prev = l.hdr
  used : v ≠ null → v ∉ F ∧ isFree s v = false

theorem Rep.follows (h : Rep s (A ++ l :: C) F) (hC : ∀ r ∈ C.head?, r.free = false) :
    Follows s (A ++ l :: C) F l (firstHdr C null) where
  addr := h.tiled.firstHdr_eq
  next := h.fields.2.1
  mem := firstHdr_mem fun b hb => by simp [hb]
  prev := fun h0 => by
    cases C with
    | nil => exact absurd rfl h0
    | cons c C =>
        have h' : Rep s ((A ++ [l]) ++ c :: C) F := by simpa using h
        rw [show firstHdr (c :: C) null = c.hdr from rfl, h'.fields.1, lastHdr_concat]
  used := fun h0 => by
    cases C with
    | nil => exact absurd rfl h0
    | cons c C =>
        have hc : c ∈ A ++ l :: c :: C := by simp
        have hused := hC c rfl
        exact ⟨h.not_mem_free hc hused, (h.isFree_eq hc).trans hused⟩

/-- The stale header `x` is on the free list again and reaches up to `v`. -/
structure Reinserted (H : Set Word) (s s' : Kheap) (F : List Word) (x v : Word) : Prop where
  ring : FreeRing s' (x :: F)
  prev : s'.get x .prev = s.get x .prev
  next : s'.get x .next = v
  size : s'.get x .size = v - blockStartAddr x
  others : ∀ y ∈ H, y ≠ x → ∀ g : Field, (y ∉ F ∨ (g ≠ .freeNext ∧ g ≠ .freePrev)) →
    s'.get y g = s.get y g
  top : s'.kheapTop = s.kheapTop
  head : s'.blockHead = s.blockHead

/-- `freelist_insert` and `merge_right` on a stale header: to its right there is nothing to swallow. -/
theorem mergeRight_reinserted {H : Set Word} (hH : Apart H) (hF : FreeRing s F)
    (hsub : ∀ y ∈ F, y ∈ H) (hx : x ∈ H) (hxF : x ∉ F) (hx0 : x ≠ null) {v : Word}
    (hnext : s.get x .next = v) (hvx : v ≠ x)
    (hv : v ≠ null → v ∈ H ∧ v ∉ F ∧ isFree s v = false) :
    ∃ s', mergeRight (freelistInsert s x) x = (x, s') ∧ Reinserted H s s' F x v := by
  have spec := freelistInsert_spec hH hF hsub hx hxF hx0
  generalize freelistInsert s x = s₁ at spec
  have hnext₁ : s₁.get x .next = v := by
    rw [spec.links x hx _ (Or.inr (by decide)), hnext]
  have hfree₁ : v ≠ null → isFree s₁ v = false := by
    intro h0
    obtain ⟨hvH, hvF, hfree⟩ := hv h0
    have hvT : v ∉ {y | y ∈ x :: F} := by
      intro hmem
      rcases List.mem_cons.mp hmem with heq | hmem
      · exact hvx heq
      · exact hvF hmem
    rw [← hfree]
    unfold isFree
    rw [spec.links v hvH _ (Or.inl hvT), spec.links v hvH _ (Or.inl hvT)]
  have hget : ∀ y ∈ H, ∀ g : Field, (y ≠ x ∨ g ≠ .size) →
      (s₁.set x .size (v - blockStartAddr x)).get y g = s₁.get y g := by
    intro y hy g hor
    rw [Kheap.get_set hH _ hx hy, if_neg]
    rintro ⟨h1, h2⟩
    exact hor.elim (fun h => h h1) fun h => h h2
  refine ⟨_, mergeRight_stale hx0 hnext₁ hfree₁, ?_⟩
  constructor
  case ring =>
    refine spec.ring.congr rfl fun y hy => ?_
    have hyH : y ∈ H := by
      rcases List.mem_cons.mp hy with rfl | hy
      · exact hx
      · exact hsub y hy
    exact ⟨hget y hyH _ (Or.inr (by decide)), hget y hyH _ (Or.inr (by decide))⟩
  case prev => rw [hget x hx _ (Or.inr (by decide)), spec.links x hx _ (Or.inr (by decide))]
  case next => rw [hget x hx _ (Or.inr (by decide)), hnext₁]
  case size => rw [Kheap.get_set hH _ hx hx, if_pos ⟨rfl, rfl⟩]
  case others =>
    intro y hy hyx g hor
    rw [hget y hy g (Or.inl hyx)]
    refine spec.links y hy g (hor.imp_left fun hyF hmem => ?_)
    rcases List.mem_cons.mp hmem with heq | hmem
    · exact hyx heq
    · exact hyF hmem
  case top => exact spec.edit.top
  case head => exact spec.head

/-- A free list that was taken apart and put together again. -/
theorem Rep.relinked (h : Rep s L F) {s' : Kheap} (htop : s'.kheapTop = s.kheapTop)
    (hhead : s'.blockHead = s.blockHead) (hring : FreeRing s' F)
    (hget : ∀ b ∈ L, ∀ g : Field, (b.hdr ∉ F ∨ (g ≠ .freeNext ∧ g ≠ .freePrev)) →
      s'.get b.hdr g = s.get b.hdr g) : Rep s' L F := by
  refine ⟨⟨?_, ?_, ?_, ?_, h.sizes, ?_, hring, h.free⟩, ?_⟩
  · rw [htop]; exact h.pos
  · rw [htop]; exact h.align
  · rw [hhead, htop, h.head]
  · rw [htop]; exact h.tiled
  · exact h.links.congr fun b hb g h1 h2 => hget b hb g (Or.inr ⟨h1, h2⟩)
  · intro b hb hf
    have hout := h.not_mem_free hb hf
    rw [hget b hb _ (Or.inl hout), hget b hb _ (Or.inl hout)]
    exact h.used b hb hf

/-- `merge_left` on a stale header: the block it lies in gets the words it has, and the header leaves
the free list again. -/
theorem Rep.remove_reinserted (h : Rep s L F) {H : Set Word} (hH : Apart H)
    (hsub : ∀ y ∈ hdrs L, y ∈ H) (hl : l ∈ L) (hx : x ∈ H) (hout : x ∉ hdrs L) {v : Word}
    (hfol : Follows s L F l v) {s₂ : Kheap} (hre : Reinserted H s s₂ F x v) :
    Rep (freelistRemove (absorbStores s₂ l.hdr x) x) L F ∧
      (freelistRemove (absorbStores s₂ l.hdr x) x).kheapTop = s.kheapTop := by
  have hne : ∀ {y}, y ∈ hdrs L → y ≠ x := fun hy heq => hout (heq ▸ hy)
  have hlH := mem_hdrs hl
  have hvH : s₂.get x .next ≠ null → s₂.get x .next ∈ H := by
    rw [hre.next]
    exact fun h0 => hsub v (hfol.mem h0)
  have hend : blockEndAddr s₂ x - blockStartAddr l.hdr + 1 = l.size := by
    rw [blockEndAddr, hre.size, blockStartAddr, blockStartAddr, hfol.addr]
    ring
  have hget := fun y hy g =>
    absorbStores_get hH s₂ (hsub _ hlH) hx (hne hlH) hvH (y := y) hy g
  rw [hre.next, hend] at hget
  obtain ⟨hedit, hfree, hblock⟩ := absorbStores_edit hH s₂ (hsub _ hlH) hx (hne hlH) hvH
  generalize absorbStores s₂ l.hdr x = s₃ at *
  have hsubF : ∀ y ∈ x :: F, y ∈ H := by
    intro y hy
    rcases List.mem_cons.mp hy with rfl | hy
    · exact hx
    · exact hsub y (h.free_sub y hy)
  have hring : FreeRing s₃ (x :: F) := hre.ring.congr hfree fun y hy => by
    simp [hget y (hsubF y hy)]
  have spec := freelistRemove_spec hH hring hsubF List.mem_cons_self
  rw [List.erase_cons_head] at spec
  -- each store writes the word that is there
  have hget₃ : ∀ y ∈ hdrs L, ∀ g : Field, (y ∉ F ∨ (g ≠ .freeNext ∧ g ≠ .freePrev)) →
      s₃.get y g = s.get y g := by
    intro y hy g hor
    have hold := hre.others y (hsub y hy) (hne hy) g hor
    rw [hget y (hsub y hy)]
    split_ifs with h1 h2 h3
    · obtain ⟨h0, rfl, rfl⟩ := h1
      exact (hfol.prev h0).symm
    · obtain ⟨rfl, rfl⟩ := h2
      exact hfol.next.symm
    · obtain ⟨rfl, rfl⟩ := h3
      exact (h.get_size hl).symm
    · exact hold
  have htop : (freelistRemove s₃ x).kheapTop = s.kheapTop := by
    rw [spec.edit.top, hedit.top, hre.top]
  refine ⟨h.relinked htop ?_ spec.ring ?_, htop⟩
  · rw [spec.head, hblock, hre.head]
  · intro b hb g hor
    have hbH := mem_hdrs hb
    rw [spec.links _ (hsub _ hbH) g, hget₃ _ hbH g hor]
    refine hor.imp_left fun hbF hmem => ?_
    rcases List.mem_cons.mp hmem with heq | hmem
    · exact hne hbH heq
    · exact hbF hmem

/-- **A stale header is swallowed again without a trace.** -/
theorem Rep.kfree_swallowed (h : Rep s (A ++ l :: C) F) (hsw : Swallowed s l x)
    (hC : ∀ r ∈ C.head?, r.free = false) (hnf : isFree s x = false) :
    Rep (kfree s (blockStartAddr x)) (A ++ l :: C) F ∧
      (kfree s (blockStartAddr x)).kheapTop = s.kheapTop := by
  have hl : l ∈ A ++ l :: C := by simp
  obtain ⟨hH, hout⟩ := h.tiled.apart_insert hl hsw.low hsw.high
  have hsub : ∀ y ∈ hdrs (A ++ l :: C), y ∈ insert x (hdrs (A ++ l :: C)) :=
    fun y hy => Set.mem_insert_of_mem x hy
  have hxH := Set.mem_insert x (hdrs (A ++ l :: C))
  have hx0 : x ≠ null := by
    intro h0
    have := hsw.low
    rw [h0] at this
    simp at this
  have hfol := h.follows hC
  generalize firstHdr C null = v at hfol
  obtain ⟨s₂, hright, hre⟩ := mergeRight_reinserted hH h.ring (fun y hy => hsub y (h.free_sub y hy))
    hxH (fun hmem => hout (h.free_sub x hmem)) hx0 (hsw.next.trans hfol.next)
    (fun heq => hout (heq ▸ hfol.mem (heq ▸ hx0)))
    (fun h0 => ⟨hsub v (hfol.mem h0), hfol.used h0⟩)
  have hprev : s₂.get x .prev = l.hdr := hre.prev.trans hsw.prev
  have hlF : l.hdr ∈ x :: F := List.mem_cons_of_mem x (h.mem_free hl hsw.free)
  have hleft := mergeLeft_eq_absorb (s := s₂) hx0 (hre.ring.isFree_of_mem List.mem_cons_self)
    (by rw [hprev]; exact h.hdr_ne_null hl) (by rw [hprev]; exact hre.ring.isFree_of_mem hlF)
  rw [hprev] at hleft
  have hkfree : kfree s (blockStartAddr x) = freelistRemove (absorbStores s₂ l.hdr x) x := by
    unfold kfree merge
    simp only [blockStartAddr_sub, hnf, Bool.false_eq_true, if_false, hright, hleft]
  rw [hkfree]
  exact h.remove_reinserted hH hsub hl hxH hout hfol hre

end Stale

/-! ## Runs with second frees -/

/-- A second `kfree(ptr)` finds either the block itself or a header as its swallowing left it. -/
def AsFreed (s : Kheap) (ptr : Word) : Prop :=
  InBlockList s ptr ∨ ∃ l ∈ blockList s, Swallowed s l (ptr - hdrSize)

instance (s : Kheap) (ptr : Word) : Decidable (AsFreed s ptr) :=
  inferInstanceAs (Decidable (ptr - hdrSize ∈ _ ∨ ∃ l ∈ blockList s, _))

/-- A run of `kmalloc` and `kfree` with the pointers that are live and those that were freed and not
returned again. Clients write into blocks in use; a second free comes only while the pointer is
`AsFreed`. -/
inductive FreedRun : Kernel → List Word → List Word → Prop
  | init {k₀ k : Kernel} {handover : Handover} {numPages : Word} :
      PmmBooted k₀.mmu.pmm → 1 ≤ numPages.toNat → kheapInit k₀ handover numPages = .ok k →
      FreedRun k [] []
  | kmalloc {k k' : Kernel} {live freed : List Word} {size ptr : Word} :
      FreedRun k live freed → kmalloc k size = .ok (ptr, k') →
      FreedRun k' (if ptr = null then live else ptr :: live) (freed.filter (· ≠ ptr))
  | kfree {k : Kernel} {live freed : List Word} {ptr : Word} :
      FreedRun k live freed → ptr ∈ live →
      FreedRun { k with heap := kfree k.heap ptr } (live.erase ptr) (ptr :: freed)
  | again {k : Kernel} {live freed : List Word} {ptr : Word} :
      FreedRun k live freed → ptr ∈ freed → AsFreed k.heap ptr →
      FreedRun { k with heap := kfree k.heap ptr } live freed
  | write {k : Kernel} {live freed : List Word} {b : Blk} {x : Word} (v : Byte) :
      FreedRun k live freed → b ∈ blockList k.heap → b.free = false → b.Payload x →
      FreedRun (k.store x v) live freed

/-- The blocks in use are the live pointers, and no freed pointer is one of them. A block whose
payload would start at 2^64 has no pointer. -/
structure FreedOk (live freed : List Word) (L : List Blk) : Prop where
  once : live.Nodup
  nonnull : null ∉ live ∧ null ∉ freed
  block : ∀ p ∈ live, ∃ b ∈ L, b.free = false ∧ p = blockStartAddr b.hdr
  used : ∀ b ∈ L, b.free = false → blockStartAddr b.hdr ≠ null → blockStartAddr b.hdr ∈ live
  apart : ∀ p ∈ freed, p ∉ live

namespace FreedOk

variable {live freed : List Word} {L L' : List Blk}

theorem congr (h : FreedOk live freed L) (hsame : ∀ x, x.free = false → (x ∈ L' ↔ x ∈ L)) :
    FreedOk live freed L' where
  once := h.once
  nonnull := h.nonnull
  block := fun p hp => by
    obtain ⟨b, hb, hf, rfl⟩ := h.block p hp
    exact ⟨b, (hsame b hf).mpr hb, hf, rfl⟩
  used := fun b hb hf hne => h.used b ((hsame b hf).mp hb) hf hne
  apart := h.apart

/-- Dropping freed pointers. -/
theorem filter (h : FreedOk live freed L) (q : Word → Bool) :
    FreedOk live (freed.filter q) L where
  once := h.once
  nonnull := ⟨h.nonnull.1, fun hm => h.nonnull.2 (List.mem_of_mem_filter hm)⟩
  block := h.block
  used := h.used
  apart := fun p hp => h.apart p (List.mem_of_mem_filter hp)

/-- `kmalloc` answers. -/
theorem malloc (h : FreedOk live freed L) {k k' : Kernel} {F' : List Word} {n ptr : Word}
    (hans : Answered k L n ptr k' L' F') :
    FreedOk (if ptr = null then live else ptr :: live) (freed.filter (· ≠ ptr)) L' := by
  rcases hans.block with ⟨rfl, hsame⟩ | ⟨u, hu, hused, hnew, hptr, -, hothers⟩
  · rw [if_pos rfl]
    exact (h.congr hsame).filter _
  · by_cases hnull : ptr = null
    · -- the block taken has no pointer
      rw [if_pos hnull]
      refine FreedOk.filter ⟨h.once, h.nonnull, ?_, ?_, h.apart⟩ _
      · intro p hp
        obtain ⟨b, hb, hf, rfl⟩ := h.block p hp
        exact ⟨b, (hothers b hf).mpr (Or.inr hb), hf, rfl⟩
      · intro b hb hf hne
        rcases (hothers b hf).mp hb with rfl | hb
        · exact absurd (hptr.symm.trans hnull) hne
        · exact h.used b hb hf hne
    · rw [if_neg hnull]
      have hfresh : ptr ∉ live := by
        intro hmem
        obtain ⟨b, hb, hf, heq⟩ := h.block ptr hmem
        have hbu := hans.rep.tiled.eq_of_hdr ((hothers b hf).mpr (Or.inr hb)) hu
          (blockStartAddr_inj (heq.symm.trans hptr))
        exact hnew (hbu ▸ hb)
      refine ⟨List.nodup_cons.mpr ⟨hfresh, h.once⟩, ⟨?_, ?_⟩, ?_, ?_, ?_⟩
      · intro hm
        rcases List.mem_cons.mp hm with h0 | hm
        · exact hnull h0.symm
        · exact h.nonnull.1 hm
      · exact fun hm => h.nonnull.2 (List.mem_of_mem_filter hm)
      · intro p hp
        rcases List.mem_cons.mp hp with rfl | hp
        · exact ⟨u, hu, hused, hptr⟩
        · obtain ⟨b, hb, hf, rfl⟩ := h.block p hp
          exact ⟨b, (hothers b hf).mpr (Or.inr hb), hf, rfl⟩
      · intro b hb hf hne
        rcases (hothers b hf).mp hb with rfl | hb
        · exact hptr ▸ List.mem_cons_self
        · exact List.mem_cons_of_mem _ (h.used b hb hf hne)
      · intro p hp hm
        obtain ⟨hp, hpne⟩ := List.mem_filter.mp hp
        rcases List.mem_cons.mp hm with rfl | hm
        · simp at hpne
        · exact h.apart p hp hm

/-- `kfree` of a live pointer. -/
theorem free (h : FreedOk live freed L) {s s' : Kheap} {F' : List Word} {b : Blk}
    (ht : ∀ x ∈ L, x.hdr = b.hdr → x = b)
    (hptr : blockStartAddr b.hdr ∈ live) (hrel : Released s L b s' L' F') :
    FreedOk (live.erase (blockStartAddr b.hdr)) (blockStartAddr b.hdr :: freed) L' := by
  refine ⟨h.once.erase _, ⟨fun hm => h.nonnull.1 (List.mem_of_mem_erase hm), ?_⟩, ?_, ?_, ?_⟩
  · intro hm
    rcases List.mem_cons.mp hm with h0 | hm
    · exact h.nonnull.1 (h0 ▸ hptr)
    · exact h.nonnull.2 hm
  · intro p hp
    obtain ⟨hpne, hp⟩ := h.once.mem_erase_iff.mp hp
    obtain ⟨c, hc, hf, rfl⟩ := h.block p hp
    exact ⟨c, (hrel.others c hf).mpr ⟨hc, fun heq => hpne (heq ▸ rfl)⟩, hf, rfl⟩
  · intro c hc hf hne
    obtain ⟨hc, hcb⟩ := (hrel.others c hf).mp hc
    refine h.once.mem_erase_iff.mpr ⟨?_, h.used c hc hf hne⟩
    exact fun heq => hcb (ht c hc (blockStartAddr_inj heq))
  · intro p hp hm
    rcases List.mem_cons.mp hp with rfl | hp
    · exact h.once.not_mem_erase hm
    · exact h.apart p hp (List.mem_of_mem_erase hm)

/-- The block of a freed pointer that is still in the block list is free. -/
theorem block_free (h : FreedOk live freed L) {b : Blk} (hb : b ∈ L)
    (hptr : blockStartAddr b.hdr ∈ freed) : b.free = true := by
  cases hf : b.free with
  | true => rfl
  | false =>
      have hne : blockStartAddr b.hdr ≠ null := fun h0 => h.nonnull.2 (h0 ▸ hptr)
      exact absurd (h.used b hb hf hne) (h.apart _ hptr)

end FreedOk

theorem Coalesced.next_used {A C : List Blk} {l : Blk} (h : Coalesced (A ++ l :: C))
    (hl : l.free = true) : ∀ r ∈ C.head?, r.free = false := by
  intro r hr
  rcases (noAdjacentFree_middle.mp h).2.2.2 r hr with h1 | h1
  · rw [hl] at h1
    cases h1
  · exact h1

/-- **A second free changes nothing but the log**, as long as the pointer is as it was freed. -/
theorem Rep.kfree_again {s : Kheap} {L : List Blk} {F live freed : List Word} (h : Rep s L F)
    (hcoal : Coalesced L) (hok : FreedOk live freed L) {ptr : Word} (hptr : ptr ∈ freed)
    (has : AsFreed s ptr) :
    Rep (kfree s ptr) L F ∧ (kfree s ptr).kheapTop = s.kheapTop := by
  by_cases hnf : isFree s (ptr - hdrSize) = true
  · -- the check of `kfree` fires
    have hrejected : kfree s ptr =
        s.say (errorMsg "[kfree] free request called on an already free memory block\n") := by
      unfold kfree
      exact if_pos hnf
    rw [hrejected]
    exact ⟨h.say _, rfl⟩
  · rcases has with hin | ⟨l, hl, hsw⟩
    · obtain ⟨b, hb, rfl⟩ := hin.block h
      rw [blockStartAddr_sub, h.isFree_eq hb] at hnf
      exact absurd (hok.block_free hb hptr) hnf
    · rw [h.blockList_eq] at hl
      obtain ⟨A, C, rfl⟩ := List.append_of_mem hl
      have hstart : blockStartAddr (ptr - hdrSize) = ptr := by
        unfold blockStartAddr
        ring
      have hagain := h.kfree_swallowed hsw (hcoal.next_used hsw.free) (by simpa using hnf)
      rwa [hstart] at hagain

theorem FreedRun.ok {k : Kernel} {live freed : List Word} (h : FreedRun k live freed) :
    ∃ L F, Rep k.heap L F ∧ HeapRoom k ∧ Coalesced L ∧ FreedOk live freed L := by
  induction h with
  | init hboot hn hok =>
      have spec := kheapInit_spec hboot.zones (numPages_ne_zero hn) hok
      obtain ⟨size, hrep⟩ := spec.rep
      refine ⟨_, _, hrep, spec.room, List.isChain_singleton _, List.nodup_nil, by simp, by simp,
        ?_, by simp⟩
      intro b hb hf
      rw [List.mem_singleton.mp hb] at hf
      cases hf
  | kmalloc _ hok ih =>
      obtain ⟨L, F, hrep, hroom, hcoal, hfreed⟩ := ih
      obtain ⟨L', F', hans⟩ := kmallocDepth_answered _ hrep hroom hok
      exact ⟨L', F', hans.rep, hans.room, hans.coalesced hcoal, hfreed.malloc hans⟩
  | kfree _ hptr ih =>
      obtain ⟨L, F, hrep, hroom, hcoal, hfreed⟩ := ih
      obtain ⟨b, hb, hf, rfl⟩ := hfreed.block _ hptr
      obtain ⟨L', F', hrel⟩ := kfree_released hrep hb hf
      exact ⟨L', F', hrel.rep, hroom.of_eq rfl hrel.top, hrel.coalesced hcoal,
        hfreed.free (fun x hx heq => hrep.tiled.eq_of_hdr hx hb heq) hptr hrel⟩
  | again _ hptr has ih =>
      obtain ⟨L, F, hrep, hroom, hcoal, hfreed⟩ := ih
      obtain ⟨hrep', htop⟩ := hrep.kfree_again hcoal hfreed hptr has
      exact ⟨L, F, hrep', hroom.of_eq rfl htop, hcoal, hfreed⟩
  | write v _ hb _ hx ih =>
      obtain ⟨L, F, hrep, hroom, hcoal, hfreed⟩ := ih
      rw [hrep.blockList_eq] at hb
      exact ⟨L, F, hrep.write hb hx v, hroom.of_eq rfl rfl, hcoal, hfreed⟩

/-- The block list with its sizes, the free list and the variables of the heap are the same. -/
structure SameLists (s s' : Kheap) : Prop where
  blocks : blockList s' = blockList s
  free : freeList s' = freeList s
  free_head : s'.freeHead = s.freeHead
  block_head : s'.blockHead = s.blockHead
  top : s'.kheapTop = s.kheapTop

theorem Rep.same_lists {s s' : Kheap} {L : List Blk} {F : List Word} (h : Rep s L F)
    (h' : Rep s' L F) (htop : s'.kheapTop = s.kheapTop) : SameLists s s' where
  blocks := h'.blockList_eq.trans h.blockList_eq.symm
  free := h'.ring.freeList_eq.trans h.ring.freeList_eq.symm
  free_head := h'.ring.head.trans h.ring.head.symm
  block_head := by rw [h'.head, h.head, htop]
  top := htop

/-- **A double free is rejected without effect**, whatever was allocated and freed since, as long as the
header of the pointer is still in the block list or as its swallowing left it. -/
theorem freedRun_rejected {k : Kernel} {live freed : List Word} (h : FreedRun k live freed)
    {ptr : Word} (hptr : ptr ∈ freed) (has : AsFreed k.heap ptr) :
    SameLists k.heap (kfree k.heap ptr) := by
  obtain ⟨L, F, hrep, -, hcoal, hfreed⟩ := h.ok
  obtain ⟨hrep', htop⟩ := hrep.kfree_again hcoal hfreed hptr has
  exact hrep.same_lists hrep' htop

/-- On the small heap two blocks are taken and the lower one, `a`, is freed twice. -/
theorem freedRun_rejected_small : ∃ k x a, FreedRun k [x] [a] ∧
    SameLists k.heap (kfree k.heap a) := by
  have hok : (do
      let k ← kheapInit smallKernel smallHandover 1
      let x ← kmalloc k 1024
      let a ← kmalloc x.2 1024
      if x.1 ≠ null ∧ a.1 ≠ null ∧ AsFreed (kfree a.2.heap a.1) a.1 then .ok () else .error .fault :
        Res Unit).isOk = true := by
    decide +kernel
  obtain ⟨⟨⟩, hcall⟩ := Res.exists_of_isOk hok
  obtain ⟨k₀, hinit, hcall⟩ := Res.bind_eq_ok.mp hcall
  obtain ⟨⟨x, k₁⟩, hx, hcall⟩ := Res.bind_eq_ok.mp hcall
  obtain ⟨⟨a, k₂⟩, ha, hcall⟩ := Res.bind_eq_ok.mp hcall
  dsimp only at hcall
  obtain ⟨hx0, ha0, has⟩ := Res.of_check hcall
  have hrun := FreedRun.kmalloc (.kmalloc (.init smallPmm_booted (by decide) hinit) hx) ha
  rw [if_neg ha0, if_neg hx0] at hrun
  have hfree := FreedRun.kfree hrun List.mem_cons_self
  rw [List.erase_cons_head] at hfree
  exact ⟨_, x, a, hfree, freedRun_rejected hfree List.mem_cons_self has⟩

/-- When the upper block `x` is freed in between, the second `kfree(a)` puts the stale header of `x`
back into the block list. -/
theorem freedRun_double : ∃ k₀ x k₁ a k₂, kheapInit smallKernel smallHandover 1 = .ok k₀ ∧
    kmalloc k₀ 1024 = .ok (x, k₁) ∧ kmalloc k₁ 1024 = .ok (a, k₂) ∧
    (blockList (kfree (kfree k₂.heap a) x)).map Blk.hdr = [k₂.heap.kheapTop] ∧
    (blockList (kfree (kfree (kfree k₂.heap a) x) a)).map Blk.hdr =
      [k₂.heap.kheapTop, x - hdrSize] := by
  have hok : (do
      let k ← kheapInit smallKernel smallHandover 1
      let x ← kmalloc k 1024
      let a ← kmalloc x.2 1024
      if (blockList (kfree (kfree a.2.heap a.1) x.1)).map Blk.hdr = [a.2.heap.kheapTop] ∧
        (blockList (kfree (kfree (kfree a.2.heap a.1) x.1) a.1)).map Blk.hdr =
          [a.2.heap.kheapTop, x.1 - hdrSize] then .ok () else .error .fault :
        Res Unit).isOk = true := by
    decide +kernel
  obtain ⟨⟨⟩, hcall⟩ := Res.exists_of_isOk hok
  obtain ⟨k₀, hinit, hcall⟩ := Res.bind_eq_ok.mp hcall
  obtain ⟨⟨x, k₁⟩, hx, hcall⟩ := Res.bind_eq_ok.mp hcall
  obtain ⟨⟨a, k₂⟩, ha, hcall⟩ := Res.bind_eq_ok.mp hcall
  dsimp only at hcall
  exact ⟨k₀, x, k₁, a, k₂, hinit, hx, ha, Res.of_check hcall⟩

end Cerberos
