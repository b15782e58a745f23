/-
# Cerberos.Mm.KheapLimits — the heap at the edge of its contract.

Two questions about callers that ask for anything. How often does `kmalloc` grow the heap: once, and
only when no free block is large enough. What does it hand out for a size near 2^64: `ALIGN_UP` wraps
to 0 for the last seven sizes, and every free block is large enough for 0 bytes.
-/
import Cerberos.Mm.KheapRuns

namespace Cerberos

open Cerberos.Base

/-! ## Requests of every size -/

/-- What any returning `kmalloc` did: nothing but growing the heap, with `NULL` as the answer, or one
block more is in use. -/
structure Answered (k : Kernel) (L : List Blk) (n p : Word) (k' : Kernel) (L' : List Blk)
    (F' : List Word) : Prop where
  rep : Rep k'.heap L' F'
  room : HeapRoom k'
  coalesced : Coalesced L → Coalesced L'
  block : (p = null ∧ ∀ x, x.free = false → (x ∈ L' ↔ x ∈ L)) ∨
    ∃ u ∈ L', u.free = false ∧ u ∉ L ∧ p = blockStartAddr u.hdr ∧ n.toNat ≤ u.size.toNat ∧
      ∀ x, x.free = false → (x ∈ L' ↔ x = u ∨ x ∈ L)

/-- The answer of a grown heap is the answer of the heap. -/
theorem Answered.of_others {k k₁ k' : Kernel} {L L₁ L' : List Blk} {F' : List Word} {n p : Word}
    (h : Answered k₁ L₁ n p k' L' F') (hothers : ∀ x, x.free = false → (x ∈ L₁ ↔ x ∈ L))
    (hcoal : Coalesced L → Coalesced L₁) : Answered k L n p k' L' F' := by
  refine ⟨h.rep, h.room, fun hc => h.coalesced (hcoal hc), ?_⟩
  rcases h.block with ⟨hp, hsame⟩ | ⟨u, hu, hused, hnew, hptr, hfits, hall⟩
  · refine Or.inl ⟨hp, ?_⟩
    intro x hx
    rw [hsame x hx, hothers x hx]
  · refine Or.inr ⟨u, hu, hused, fun h => hnew ((hothers u hused).mpr h), hptr, hfits, ?_⟩
    intro x hx
    rw [hall x hx, hothers x hx]

/-- The expansion inside `kmalloc`, whatever the number of pages. -/
theorem kheapExpand_any {k k₁ : Kernel} {L : List Blk} {F : List Word} (h : Rep k.heap L F)
    (hroom : HeapRoom k) {n : Word}
    (hok : kheapExpand (k.announce n) (kmallocPages k.heap n) = .ok k₁) :
    ∃ L₁ F₁, Rep k₁.heap L₁ F₁ ∧ HeapRoom k₁ ∧ (Coalesced L → Coalesced L₁) ∧
      ∀ x, x.free = false → (x ∈ L₁ ↔ x ∈ L) := by
  by_cases hpages : kmallocPages k.heap n = 0
  · rw [kheapExpand, if_pos hpages] at hok
    injection hok with hok
    subst hok
    exact ⟨L, F, (h.say _).say _, hroom.of_eq rfl rfl, id, fun x _ => Iff.rfl⟩
  · obtain ⟨b, C, F', hexp⟩ := kheapExpand_expanded h hroom hpages hok
    exact ⟨_, _, hexp.rep, hexp.grown.room, hexp.coalesced, hexp.others⟩

/-- **`kmalloc` keeps the heap intact for every 64-bit size.** The induction is on the nesting: each
call either carves a block or grows the heap and repeats itself. -/
theorem kmallocDepth_answered :
    ∀ (depth : ℕ) {k k' : Kernel} {L : List Blk} {F : List Word} {size p : Word},
      Rep k.heap L F → HeapRoom k → kmallocDepth depth k size = .ok (p, k') →
      ∃ L' F', Answered k L (alignUp size 8) p k' L' F' := by
  intro depth
  induction depth with
  | zero =>
      intro k k' L F size p _ _ hok
      cases hok
  | succ depth ih =>
      intro k k' L F size p h hroom hok
      by_cases h0 : size = 0
      · rw [kmallocDepth, if_pos h0] at hok
        injection hok with hok
        injection hok with hp hk
        subst hp hk
        exact ⟨L, F, h.say _, hroom.of_eq rfl rfl, id, Or.inl ⟨rfl, fun x _ => Iff.rfl⟩⟩
      · generalize hn : alignUp size 8 = n
        have haa : alignUp n 8 = n := hn ▸ alignUp_eight_of_mod (toNat_alignUp_eight_mod size)
        by_cases hfit : firstFit k.heap n F = null
        · rw [kmallocDepth_none h.ring h0 hn hfit] at hok
          obtain ⟨k₁, hexp, hok⟩ := Res.bind_eq_ok.mp hok
          obtain ⟨L₁, F₁, hrep, hroom₁, hcoal, hothers⟩ := kheapExpand_any h hroom hexp
          obtain ⟨L', F', hans⟩ := ih hrep hroom₁ hok
          rw [haa] at hans
          exact ⟨L', F', hans.of_others hothers hcoal⟩
        · obtain ⟨p', k'', L', F', u, hok', -, -, hm⟩ := kmallocDepth_found h hroom h0 hn hfit depth
          rw [hok'] at hok
          cases hok
          exact ⟨L', F', hm.rep, hm.room, hm.coalesced,
            Or.inr ⟨u, hm.mem, hm.used, hm.new, hm.ptr, hm.fits, hm.others⟩⟩

/-- The states after `kheap_init` and any calls that return, with requests of EVERY size to
`kmalloc`. -/
inductive MallocReach : Kernel → Prop
  | init {k₀ k : Kernel} {handover : Handover} {numPages : Word} :
      PmmBooted k₀.mmu.pmm → 1 ≤ numPages.toNat → kheapInit k₀ handover numPages = .ok k →
      MallocReach k
  | kmalloc {k k' : Kernel} {size ptr : Word} :
      MallocReach k → kmalloc k size = .ok (ptr, k') → MallocReach k'
  | kfree {k : Kernel} {ptr : Word} :
      MallocReach k → InBlockList k.heap ptr → MallocReach { k with heap := kfree k.heap ptr }
  | krealloc {k k' : Kernel} {ptr size newPtr : Word} :
      MallocReach k → InBlockList k.heap ptr → SizeOk size →
      krealloc k ptr size = .ok (newPtr, k') → MallocReach k'
  | write {k : Kernel} {b : Blk} {x : Word} (v : Byte) :
      MallocReach k → b ∈ blockList k.heap → b.free = false → b.Payload x →
      MallocReach (k.store x v)

theorem MallocReach.rep {k : Kernel} (h : MallocReach k) :
    ∃ L F, Rep k.heap L F ∧ HeapRoom k := by
  induction h with
  | init hboot hn hok => exact (HeapReach.init hboot hn hok).rep
  | kmalloc _ hok ih =>
      obtain ⟨L, F, hrep, hroom⟩ := ih
      obtain ⟨L', F', hans⟩ := kmallocDepth_answered _ hrep hroom hok
      exact ⟨L', F', hans.rep, hans.room⟩
  | kfree _ hptr ih =>
      obtain ⟨L, F, hrep, hroom⟩ := ih
      exact hrep.kfree_any hroom hptr
  | krealloc _ hptr hsize hok ih =>
      obtain ⟨L, F, hrep, hroom⟩ := ih
      obtain ⟨b, hb, rfl⟩ := hptr.block hrep
      exact (krealloc_rep hrep hroom hb hsize).2 _ _ hok
  | write v _ hb _ hx ih =>
      obtain ⟨L, F, hrep, hroom⟩ := ih
      rw [hrep.blockList_eq] at hb
      exact ⟨L, F, hrep.write hb hx v, hroom.of_eq rfl rfl⟩

/-! ## At most one expansion

`kmallocTrace` is `kmalloc` with a record of its calls of `kheap_expand`. -/

/-- `kmalloc(size)` with at most `depth` nested calls, and the page counts it gave to
`kheap_expand`. -/
def kmallocTrace : Nat → Kernel → Word → Res (List Word × Word × Kernel)
  | 0, _, _ => .error .hang
  | depth + 1, k, size =>
    if size = 0 then
      .ok ([], null, { k with heap := k.heap.say (errorMsg
        "[kmalloc] size of 0 was requested from kheap\n") })
    else
      let size := alignUp size 8
      match kmallocSearch k.heap size (2 ^ 64) k.heap.freeHead with
      | none => .error .hang
      | some curr =>
        if curr ≠ null then
          let (ptr, heap) := kmallocTake k.heap size curr
          .ok ([], ptr, { k with heap := heap })
        else do
          let newPages := kmallocPages k.heap size
          let k ← kheapExpand (k.announce size) newPages
          let (calls, r) ← kmallocTrace depth k size
          .ok (newPages :: calls, r)

/-- The record changes nothing. -/
theorem kmallocDepth_eq_trace :
    ∀ (depth : ℕ) (k : Kernel) (size : Word),
      kmallocDepth depth k size = (do
        let (_, r) ← kmallocTrace depth k size
        .ok r) := by
  intro depth
  induction depth with
  | zero => exact fun _ _ => rfl
  | succ depth ih =>
      intro k size
      rw [kmallocDepth, kmallocTrace]
      by_cases h0 : size = 0
      · rw [if_pos h0, if_pos h0]
        rfl
      · rw [if_neg h0, if_neg h0]
        dsimp only
        cases kmallocSearch k.heap (alignUp size 8) (2 ^ 64) k.heap.freeHead with
        | none => rfl
        | some curr =>
            dsimp only
            by_cases hcurr : curr ≠ null
            · rw [if_pos hcurr, if_pos hcurr]
              rfl
            · rw [if_neg hcurr, if_neg hcurr]
              unfold Kernel.announce
              cases kheapExpand { k with heap := k.heap.say (plainMsg
                  "[kmalloc] expanding heap by %lu pages ...\n"
                  [kmallocPages k.heap (alignUp size 8)]) }
                (kmallocPages k.heap (alignUp size 8)) with
              | error e => rfl
              | ok k₁ =>
                  simp only [bind, Except.bind, ih]
                  cases kmallocTrace depth k₁ (alignUp size 8) <;> rfl

/-- Some free block has `n` bytes. -/
def Fits (s : Kheap) (n : Word) : Prop := ∃ b ∈ blockList s, b.free = true ∧ n ≤ b.size

theorem Rep.fits_iff {s : Kheap} {L : List Blk} {F : List Word} (h : Rep s L F) (n : Word) :
    Fits s n ↔ firstFit s n F ≠ null := by
  unfold Fits
  rw [h.blockList_eq]
  constructor
  · rintro ⟨b, hb, hfree, hle⟩ hnone
    have hlt := h.firstFit_none hnone hb hfree
    exact absurd hle (BitVec.not_le.mpr hlt)
  · intro hfit
    obtain ⟨A, b, C, rfl, hfree, -, hle⟩ := h.firstFit_mem hfit
    exact ⟨b, by simp, hfree, hle⟩

section Trace

variable {k : Kernel} {F : List Word} {size n : Word}

theorem kmallocTrace_found (hF : FreeRing k.heap F) (h0 : size ≠ 0) (hn : alignUp size 8 = n)
    (hfit : firstFit k.heap n F ≠ null) (depth : ℕ) :
    ∃ r, kmallocTrace (depth + 1) k size = .ok ([], r) := by
  rw [kmallocTrace, if_neg h0]
  simp only [hn, kmallocSearch_spec hF n (le_refl (2 ^ 64)), if_pos hfit]
  exact ⟨_, rfl⟩

theorem kmallocTrace_none (hF : FreeRing k.heap F) (h0 : size ≠ 0) (hn : alignUp size 8 = n)
    (hfit : firstFit k.heap n F = null) (depth : ℕ) :
    kmallocTrace (depth + 1) k size = (do
      let k₁ ← kheapExpand (k.announce n) (kmallocPages k.heap n)
      let (calls, r) ← kmallocTrace depth k₁ n
      .ok (kmallocPages k.heap n :: calls, r)) := by
  rw [kmallocTrace, if_neg h0]
  simp only [hn, kmallocSearch_spec hF n (le_refl (2 ^ 64)), hfit, ne_eq, not_true_eq_false,
    if_false]

end Trace

/-- **`kmalloc` grows the heap at most once.** Its search ends; it calls `kheap_expand` exactly when no
free block is large enough, with at least one page; and if that expansion returns, some free block is
large enough afterwards, and the nested call takes it. -/
theorem kmalloc_one_expansion {k : Kernel} (h : MallocReach k) {size n : Word} (hsize : SizeOk size)
    (hn : n = alignUp size 8) :
    (∃ curr, kmallocSearch k.heap n (2 ^ 64) k.heap.freeHead = some curr) ∧
    (Fits k.heap n → ∃ r, kmallocTrace (2 ^ 64) k size = .ok ([], r) ∧ kmalloc k size = .ok r) ∧
    (¬ Fits k.heap n → kmallocPages k.heap n ≠ 0 ∧
      ∀ k₁, kheapExpand (k.announce n) (kmallocPages k.heap n) = .ok k₁ →
        Fits k₁.heap n ∧ ∃ r, kmallocTrace (2 ^ 64) k size = .ok ([kmallocPages k.heap n], r) ∧
          kmalloc k size = .ok r) := by
  obtain ⟨L, F, hrep, hroom⟩ := h.rep
  have hwrap : n.toNat + 40 < 2 ^ 64 := by
    have h1 := hsize.2
    have h2 := hsize.toNat_alignUp
    rw [hn]
    omega
  have haa : alignUp n 8 = n := by
    rw [hn]
    exact alignUp_eight_of_mod (toNat_alignUp_eight_mod size)
  have hn0 : n ≠ 0 := hn ▸ hsize.alignUp.ne_zero
  have hdepth : ∃ d, 2 ^ 64 = d + 1 + 1 := ⟨2 ^ 64 - 2, by norm_num⟩
  have htrace : ∀ calls r, kmallocTrace (2 ^ 64) k size = .ok (calls, r) →
      kmalloc k size = .ok r := by
    intro calls r hok
    rw [kmalloc, kmallocDepth_eq_trace, hok]
    rfl
  refine ⟨⟨_, kmallocSearch_spec hrep.ring n (le_refl _)⟩, ?_, ?_⟩
  · intro hfit
    obtain ⟨d, hd⟩ := hdepth
    obtain ⟨r, hok⟩ := kmallocTrace_found hrep.ring hsize.ne_zero hn.symm
      ((hrep.fits_iff n).mp hfit) (d + 1)
    rw [← hd] at hok
    exact ⟨r, hok, htrace _ _ hok⟩
  · intro hnone
    have hfit : firstFit k.heap n F = null := by
      by_contra hne
      exact hnone ((hrep.fits_iff n).mpr hne)
    have hpages := kmallocPages_ne_zero hrep hwrap hfit
    refine ⟨hpages, ?_⟩
    intro k₁ hexpand
    obtain ⟨b, C, F', hexp⟩ := kheapExpand_expanded hrep hroom hpages hexpand
    have hfits := hexp.fits hrep hwrap hfit
    refine ⟨(hexp.rep.fits_iff n).mpr hfits, ?_⟩
    obtain ⟨d, hd⟩ := hdepth
    obtain ⟨r, hok⟩ := kmallocTrace_found hexp.rep.ring hn0 haa hfits d
    have hcall : kmallocTrace (2 ^ 64) k size = .ok ([kmallocPages k.heap n], r) := by
      rw [hd, kmallocTrace_none hrep.ring hsize.ne_zero hn.symm hfit, hexpand]
      simp only [bind, Except.bind, hok]
    exact ⟨r, hcall, htrace _ _ hcall⟩

instance (s : Kheap) (n : Word) : Decidable (Fits s n) :=
  inferInstanceAs (Decidable (∃ b ∈ blockList s, _))

/-- On the small machine 8192 bytes do not fit into the first page, and the heap is grown once. -/
theorem kmalloc_one_expansion_small : ∃ k k₁ r, MallocReach k ∧ ¬ Fits k.heap 8192 ∧
    kheapExpand (k.announce 8192) (kmallocPages k.heap 8192) = .ok k₁ ∧ Fits k₁.heap 8192 ∧
    kmalloc k 8192 = .ok r := by
  have hok : (do
      let k ← kheapInit smallKernel smallHandover 1
      if Fits k.heap 8192 then .error .fault
      else kheapExpand (k.announce 8192) (kmallocPages k.heap 8192)).isOk = true := by
    decide +kernel
  obtain ⟨k₁, hcall⟩ := Res.exists_of_isOk hok
  obtain ⟨k, hinit, hcall⟩ := Res.bind_eq_ok.mp hcall
  split at hcall
  case isTrue => cases hcall
  rename_i hnone
  have hreach : MallocReach k := .init smallPmm_booted (by decide) hinit
  have hn : (8192 : Word) = alignUp 8192 8 := by decide
  obtain ⟨hfits, r, -, hr⟩ :=
    ((kmalloc_one_expansion hreach (by decide) hn).2.2 hnone).2 k₁ hcall
  exact ⟨k, k₁, r, hreach, hnone, hcall, hfits, hr⟩

/-! ## Sizes near 2^64 -/

/-- For the last seven sizes `ALIGN_UP` wraps to 0. -/
theorem alignUp_eight_wraps {size : Word} (h : 2 ^ 64 - 8 < size.toNat) : alignUp size 8 = 0 := by
  have hlt := size.isLt
  have hsum : (size + 8 - 1 : Word).toNat = size.toNat + 7 - 2 ^ 64 := by bv_omega
  have hval : (alignUp size 8).toNat = (size + 8 - 1).toNat / 8 * 8 :=
    toNat_and_not_low_ones (size + 8 - 1) 3
  apply BitVec.eq_of_toNat_eq
  rw [hval, hsum, show (0 : Word).toNat = 0 from rfl]
  omega

/-- The state in which a request of 0 bytes is answered with `NULL`: the free list is empty, or the
first free block ends with the address space and is empty or large enough to be split, so that the
payload of the block taken would start at 2^64. -/
def AnswersNull (s : Kheap) : Prop :=
  s.freeHead = null ∨
    (s.freeHead.toNat + 40 + (s.get s.freeHead .size).toNat = 2 ^ 64 ∧
      (s.get s.freeHead .size = 0 ∨ hdrSize + kheapMinFreeSize ≤ s.get s.freeHead .size))

/-- Where a block of 0 bytes carved from `b` starts. -/
theorem carveUsed_zero_null_iff {b : Blk} (hpos : 0 < b.hdr.toNat)
    (hfit : b.hdr.toNat + 40 + b.size.toNat ≤ 2 ^ 64) :
    blockStartAddr (carveUsed b 0).hdr = null ↔
      b.hdr.toNat + 40 + b.size.toNat = 2 ^ 64 ∧
        (b.size = 0 ∨ hdrSize + kheapMinFreeSize ≤ b.size) := by
  have hnull : ∀ x : Word, blockStartAddr x = null ↔ (x.toNat + 40) % 2 ^ 64 = 0 := by
    intro x
    rw [← BitVec.toNat_inj, blockStartAddr, BitVec.toNat_add]
    rfl
  have hmin : (hdrSize + kheapMinFreeSize).toNat = 41 := rfl
  have hzero : b.size = 0 ↔ b.size.toNat = 0 := by
    rw [← BitVec.toNat_inj]
    rfl
  unfold carveUsed
  rw [sub_zero, hnull, hzero, BitVec.le_def, hmin]
  by_cases hsmall : b.size < hdrSize + kheapMinFreeSize
  · -- the block is taken whole
    have hsmall' : b.size.toNat < 41 := hsmall
    rw [if_pos hsmall]
    change (b.hdr.toNat + 40) % 2 ^ 64 = 0 ↔ _
    omega
  · have hlarge : 41 ≤ b.size.toNat := by
      rw [BitVec.not_lt] at hsmall
      exact hsmall
    have hhdr : (b.high 0).hdr.toNat = b.hdr.toNat + b.size.toNat :=
      Blk.high_hdr (n := 0) (by change 0 + 40 ≤ b.size.toNat; omega) hfit
    rw [if_neg hsmall, hhdr]
    omega

/-- A wrapped request takes the first free block, or its last 0 bytes. -/
theorem kmalloc_wrapped {k : Kernel} {A C : List Blk} {b : Blk} {F : List Word}
    (h : Rep k.heap (A ++ b :: C) F) (hfree : b.free = true) (hhead : b.hdr = k.heap.freeHead)
    {size : Word} (hsize : 2 ^ 64 - 8 < size.toNat) :
    ∃ k' F', kmalloc k size = .ok (blockStartAddr (carveUsed b 0).hdr, k') ∧
      Rep k'.heap (A ++ (carveRest b 0 ++ carveUsed b 0 :: C)) F' := by
  have hmem := h.mem_free (by simp) hfree
  have h0 : size ≠ 0 := by
    rintro rfl
    exact absurd hsize (by decide)
  have hne : k.heap.freeHead ≠ null := freeHead_ne_null h.ring hmem
  -- the first block of the list is large enough for 0 bytes
  have hfirst : firstFit k.heap 0 F = k.heap.freeHead := by
    cases F with
    | nil => cases hmem
    | cons x F =>
        have hx : k.heap.freeHead = x := h.ring.head
        have hfits : (0 : Word) ≤ k.heap.get x .size := Nat.zero_le _
        unfold firstFit
        rw [hx, List.find?_cons_of_pos]
        · rfl
        · exact decide_eq_true hfits
  obtain ⟨s', F', htake, hrep, -⟩ := h.kmallocTake_spec hfree (n := 0) rfl (Nat.zero_le _)
  refine ⟨{ k with heap := s' }, F', ?_, hrep⟩
  rw [hhead] at htake
  rw [kmalloc, show 2 ^ 64 = (2 ^ 64 - 1) + 1 by norm_num, kmallocDepth, if_neg h0]
  simp only [alignUp_eight_wraps hsize, kmallocSearch_spec h.ring 0 (le_refl (2 ^ 64)), hfirst,
    if_pos hne, htake]

/-- With an empty free list the heap is grown, and the nested call is one for 0 bytes. -/
theorem kmalloc_wrapped_null {k k' : Kernel} {L : List Blk} {F : List Word}
    (h : Rep k.heap L F) (hhead : k.heap.freeHead = null) {size p : Word}
    (hsize : 2 ^ 64 - 8 < size.toNat) (hok : kmalloc k size = .ok (p, k')) : p = null := by
  have h0 : size ≠ 0 := by
    rintro rfl
    exact absurd hsize (by decide)
  have hF : F = [] := by
    cases F with
    | nil => rfl
    | cons x F => exact absurd hhead (freeHead_ne_null h.ring List.mem_cons_self)
  have hnone : firstFit k.heap 0 F = null := by
    rw [hF]
    rfl
  rw [kmalloc, show 2 ^ 64 = (2 ^ 64 - 2) + 1 + 1 by norm_num,
    kmallocDepth_none h.ring h0 (alignUp_eight_wraps hsize) hnone] at hok
  obtain ⟨k₁, -, hok⟩ := Res.bind_eq_ok.mp hok
  rw [kmallocDepth, if_pos rfl] at hok
  injection hok with hok
  injection hok with hp _
  exact hp.symm

/-- **When `kmalloc` returns a block at least as large as asked**: for all sizes but the last seven,
and for these only in the states that answer them with `NULL`. -/
theorem kmalloc_size_iff {k : Kernel} (h : MallocReach k) (size : Word) :
    (∀ p k', kmalloc k size = .ok (p, k') → p ≠ null →
      size ≤ k'.heap.get (p - hdrSize) .size) ↔
      size.toNat ≤ 2 ^ 64 - 8 ∨ AnswersNull k.heap := by
  obtain ⟨L, F, hrep, hroom⟩ := h.rep
  by_cases hwrap : size.toNat ≤ 2 ^ 64 - 8
  · refine iff_of_true ?_ (Or.inl hwrap)
    intro p k' hok hp
    obtain ⟨L', F', hans⟩ := kmallocDepth_answered _ hrep hroom hok
    rcases hans.block with ⟨hnull, -⟩ | ⟨u, hu, -, -, hptr, hfits, -⟩
    · exact absurd hnull hp
    · have hn := toNat_alignUp_eight (x := size) (by omega)
      rw [hptr, blockStartAddr_sub, hans.rep.get_size hu, BitVec.le_def]
      omega
  · have hsize : 2 ^ 64 - 8 < size.toNat := by omega
    rw [or_iff_right hwrap]
    unfold AnswersNull
    by_cases hhead : k.heap.freeHead = null
    · refine iff_of_true ?_ (Or.inl hhead)
      intro p k' hok hp
      exact absurd (kmalloc_wrapped_null hrep hhead hsize hok) hp
    · -- the block at the head of the free list is taken
      obtain ⟨b, hb, hfree, hbhead⟩ : ∃ b ∈ L, b.free = true ∧ b.hdr = k.heap.freeHead := by
        cases F with
        | nil => exact absurd hrep.ring.head hhead
        | cons x F =>
            have hx : k.heap.freeHead = x := hrep.ring.head
            rw [hx]
            exact (hrep.free x).mp List.mem_cons_self
      rw [or_iff_right hhead, ← hbhead, hrep.get_size hb]
      have hfit := hrep.tiled.fits hb
      have hpos := hrep.pos
      obtain ⟨A, C, rfl⟩ := List.append_of_mem hb
      obtain ⟨k', F', hok, hrep'⟩ := kmalloc_wrapped hrep hfree hbhead hsize
      rw [← carveUsed_zero_null_iff (by omega) hfit.2]
      constructor
      · intro hall
        by_contra hne
        have hle := hall _ _ hok hne
        have hu : carveUsed b 0 ∈ A ++ (carveRest b 0 ++ carveUsed b 0 :: C) := by simp
        have hufit := (hrep'.tiled.fits hu).2
        rw [blockStartAddr_sub, hrep'.get_size hu, BitVec.le_def] at hle
        omega
      · intro hnull p k'' hok' hp
        rw [hok] at hok'
        injection hok' with hok'
        injection hok' with hp' _
        exact absurd (hp'.symm.trans hnull) hp

/-- After 2048 bytes have been taken from the small heap, its last bytes are in use. -/
theorem kmalloc_size_small : ∃ k, MallocReach k ∧ ∀ p k', kmalloc k 100 = .ok (p, k') → p ≠ null →
    100 ≤ k'.heap.get (p - hdrSize) .size := by
  obtain ⟨k, p, k', hk, hp⟩ := smallMalloc_returns
  have hreach : MallocReach k' := .kmalloc (.init smallPmm_booted (by decide) hk) hp
  exact ⟨k', hreach, (kmalloc_size_iff hreach 100).mpr (Or.inl (by decide))⟩

/-- Then a request of 2^64 - 1 bytes is answered with a block of 0 bytes. -/
theorem kmalloc_size_wraps : ∃ k p k', MallocReach k ∧ kmalloc k (-1) = .ok (p, k') ∧ p ≠ null ∧
    k'.heap.get (p - hdrSize) .size = 0 := by
  have hok : (do
      let k ← kheapInit smallKernel smallHandover 1
      let first ← kmalloc k 2048
      let r ← kmalloc first.2 (-1)
      if r.1 ≠ null ∧ r.2.heap.get (r.1 - hdrSize) .size = 0 then .ok () else .error .fault :
        Res Unit).isOk = true := by
    decide +kernel
  obtain ⟨⟨⟩, hcall⟩ := Res.exists_of_isOk hok
  obtain ⟨k₀, hinit, hcall⟩ := Res.bind_eq_ok.mp hcall
  obtain ⟨⟨p₀, k⟩, hfirst, hcall⟩ := Res.bind_eq_ok.mp hcall
  obtain ⟨⟨p, k'⟩, hp, hcall⟩ := Res.bind_eq_ok.mp hcall
  dsimp only at hcall
  exact ⟨k, p, k', .kmalloc (.init smallPmm_booted (by decide) hinit) hfirst, hp, Res.of_check hcall⟩

end Cerberos
