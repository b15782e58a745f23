/-
# Cerberos.Mm.KheapBacking — every heap page has a frame of its own.

The heap grows downwards page by page: a frame from the frame allocator, mapped writable just below
the last one. `__paging_map` refuses a page that is mapped already and says so only in the log, so the
frame would be lost and the heap would lie on somebody else's memory. It does not come to that: the
pages `paging_init` mapped all lie below the heap, and between `kheap_init` and the last call nothing
is freed, so no frame is handed out twice. None of this depends on the block lists being intact.
-/
import Cerberos.Mm.PagingInit
import Cerberos.Mm.KheapInit

namespace Cerberos

open Cerberos.Base

/-! ## Frames along a run -/

theorem FrameSteps.taken {p p' : Pmm} (h : FrameSteps p p') (hz : ZonesOk p) {t : Word}
    (ht : Taken p t) : Taken p' t := by
  induction h with
  | refl => exact ht
  | tail hsteps hstep ih =>
      obtain ⟨addr, hstep⟩ := hstep
      exact ((pmmAlloc_taken (hz.same (FrameSteps.same hsteps)) hstep).2 t ih).1

/-- The frame was handed out between the allocator states `p₀` and `p`. -/
def Obtained (p₀ p : Pmm) (t : Word) : Prop :=
  ∃ p₁ p₂, FrameSteps p₀ p₁ ∧ pmmAlloc p₁ .normal 1 = .ok (t, p₂) ∧ FrameSteps p₂ p

theorem Obtained.later {p₀ p p' : Pmm} {t : Word} (h : Obtained p₀ p t) (hs : FrameSteps p p') :
    Obtained p₀ p' t := by
  obtain ⟨p₁, p₂, h1, h2, h3⟩ := h
  exact ⟨p₁, p₂, h1, h2, h3.trans hs⟩

/-- A walk makes no table of a frame that was taken before it. -/
theorem WalkSteps.not_taken {s s' : Mmu} (h : WalkSteps s s') (hz : ZonesOk s.pmm) {t : Word}
    (ht : Taken s.pmm t) (hold : ∀ f ∈ s.created, f.frame ≠ t) : ∀ f ∈ s'.created, f.frame ≠ t := by
  intro f hf
  rcases h.fresh f hf with hf | ⟨p, p', hsteps, halloc⟩
  · exact hold f hf
  · have hzp := hz.same hsteps.same
    exact ((pmmAlloc_taken hzp halloc).2 t (hsteps.taken hz ht)).2.symm

theorem kheapMapPages_walk :
    ∀ {n : ℕ} {s s' : Mmu} {page : Word}, kheapMapPages s page n = .ok s' →
      FrameSteps s.pmm s'.pmm ∧ s'.cr3 = s.cr3 ∧ s.created <:+ s'.created := by
  intro n
  induction n with
  | zero =>
      intro s s' page hok
      cases hok
      exact ⟨FrameSteps.refl _, rfl, List.suffix_refl _⟩
  | succ n ih =>
      intro s s' page hok
      obtain ⟨⟨frame, pmm⟩, halloc, hok⟩ := Res.bind_eq_ok.mp hok
      obtain ⟨s₁, hmap, hok⟩ := Res.bind_eq_ok.mp hok
      have hwalk := pagingMap_walk hmap
      obtain ⟨h1, h2, h3⟩ := ih hok
      exact ⟨(FrameSteps.single halloc).trans (hwalk.frames.trans h1), h2.trans hwalk.cr3,
        hwalk.history.trans h3⟩

/-! ## The pages of the heap -/

/-- The pages from `top` on are mapped writable, each to a frame of its own; all other pages are as
`M₀` says. -/
structure HeapMapped (s : Mmu) (root : Word) (M₀ : PageMap) (p₀ : Pmm) (top : ℕ) (G : Tree)
    (M : PageMap) : Prop where
  tables : PageTables s root G M
  steps : FrameSteps p₀ s.pmm
  pages : ∀ v : Word, top ≤ v.toNat → ∃ t, M (pageNo v) = some (t, pagePresent ||| pageWritable) ∧
    Taken s.pmm t ∧ Obtained p₀ s.pmm t ∧ ∀ f ∈ s.created, f.frame ≠ t
  apart : ∀ v w : Word, top ≤ v.toNat → top ≤ w.toNat → ∀ t f f', M (pageNo v) = some (t, f) →
    M (pageNo w) = some (t, f') → pageNo v = pageNo w
  rest : ∀ n, (∀ v : Word, top ≤ v.toNat → pageNo v ≠ n) → M n = M₀ n

/-- No page from `top` on is mapped in `M₀`. -/
def FreeAbove (M₀ : PageMap) (top : ℕ) : Prop :=
  ∀ v : Word, top ≤ v.toNat → M₀ (pageNo v) = none

/-- Page numbers in the upper half of the address space. -/
theorem pageNo_high {v : Word} (h : 2 ^ 64 - 2 ^ 47 ≤ v.toNat) :
    pageNo v + (2 ^ 52 - 2 ^ 36) = v.toNat / 4096 := by
  have hlt := v.isLt
  unfold pageNo
  omega

/-- Taking a frame leaves the tables as they are. -/
theorem PageTables.alloc {s : Mmu} {root frame : Word} {G : Tree} {M : PageMap} {pmm : Pmm}
    (h : PageTables s root G M) (halloc : pmmAlloc s.pmm .normal 1 = .ok (frame, pmm)) :
    PageTables { s with pmm := pmm } root G M := by
  obtain ⟨-, hkeep⟩ := pmmAlloc_taken h.zones halloc
  have hsame := (PmmStep.alloc halloc).same
  refine ⟨h.tables, h.zones.same hsame, ?_, h.known, ?_, h.once⟩
  · show pmm.memSize.toNat ≤ 2 ^ 52
    rw [hsame.memSize]
    exact h.small
  · exact fun f hf => (hkeep _ (h.taken f hf)).1

/-- A frame of the allocator can be mapped. -/
theorem Taken.mapArgs {p : Pmm} {t : Word} (h : Taken p t) (hsmall : p.memSize.toNat ≤ 2 ^ 52) :
    MapArgs t (pagePresent ||| pageWritable) := by
  refine ⟨?_, by decide, by decide⟩
  have := h.high
  omega

/-- **One page is added to the heap.** -/
theorem HeapMapped.push {s s₂ : Mmu} {root page frame : Word} {M₀ M : PageMap} {p₀ pmm : Pmm}
    {G : Tree} (h : HeapMapped s root M₀ p₀ (page.toNat + 4096) G M)
    (halign : page.toNat % 4096 = 0) (hhigh : 2 ^ 64 - 2 ^ 47 ≤ page.toNat)
    (hfree : M₀ (pageNo page) = none) (hcr3 : pagingCr3 s = root)
    (halloc : pmmAlloc s.pmm .normal 1 = .ok (frame, pmm))
    (hmap : pagingMap { s with pmm := pmm } page frame (pagePresent ||| pageWritable) = .ok s₂)
    (hclean : CleanTables s₂) : ∃ G' M', HeapMapped s₂ root M₀ p₀ page.toNat G' M' := by
  have htables₁ := h.tables.alloc halloc
  obtain ⟨s₁, hs₁⟩ : ∃ s₁ : Mmu, s₁ = { s with pmm := pmm } := ⟨_, rfl⟩
  have hpmm : pmm = s₁.pmm := by rw [hs₁]
  rw [← hs₁] at hmap htables₁
  rw [hpmm] at halloc
  obtain ⟨htaken, hkeep⟩ := pmmAlloc_taken h.tables.zones halloc
  have hwalk := pagingMap_walk hmap
  have hcreated : s₁.created = s.created := by rw [hs₁]
  have hroot : pagingCr3 s₁ = root := by
    rw [hs₁]
    exact hcr3
  have hz₁ : ZonesOk s₁.pmm := htables₁.zones
  -- the new page is not a page of the heap yet, so it is as before `kheap_init`
  have hpage : ∀ v : Word, page.toNat + 4096 ≤ v.toNat → pageNo v ≠ pageNo page := by
    intro v hv heq
    have h1 := pageNo_high hhigh
    have h2 := pageNo_high (show 2 ^ 64 - 2 ^ 47 ≤ v.toNat by omega)
    omega
  have hnone : M (pageNo page) = none := (h.rest _ hpage).trans hfree
  have hargs := htaken.mapArgs htables₁.small
  unfold pagingMap at hmap
  rw [hroot] at hmap
  obtain ⟨G', h'⟩ := pagingMapAt_spec htables₁ hargs hmap hclean
  have hM : mapPage M page frame (pagePresent ||| pageWritable) =
      Function.update M (pageNo page) (some (frame, pagePresent ||| pageWritable)) := by
    unfold mapPage
    rw [hnone, alignDown_page_of_mod htaken.align]
  rw [hM] at h'
  -- a page from `page` on is `page` itself or was in the heap
  have hcases : ∀ v : Word, page.toNat ≤ v.toNat →
      pageNo v = pageNo page ∨ page.toNat + 4096 ≤ v.toNat := by
    intro v hv
    by_cases hin : page.toNat + 4096 ≤ v.toNat
    · exact Or.inr hin
    · left
      unfold pageNo
      omega
  have hfresh : ∀ f ∈ s₁.created, f.frame ≠ frame := by
    rw [hcreated]
    exact fun f hf => (hkeep _ (h.tables.taken f hf)).2
  refine ⟨G', _, h', h.steps.trans ((FrameSteps.single halloc).trans hwalk.frames), ?_, ?_, ?_⟩
  · intro v hv
    rcases hcases v hv with heq | hold
    · rw [heq, Function.update_self]
      exact ⟨frame, rfl, hwalk.frames.taken hz₁ htaken, ⟨_, _, h.steps, halloc, hwalk.frames⟩,
        hwalk.not_taken hz₁ htaken hfresh⟩
    · obtain ⟨t, hMt, ht, hobt, hne⟩ := h.pages v hold
      rw [Function.update_of_ne (hpage v hold)]
      have ht₁ := (hkeep t ht).1
      refine ⟨t, hMt, hwalk.frames.taken hz₁ ht₁,
        hobt.later ((FrameSteps.single halloc).trans hwalk.frames), ?_⟩
      exact hwalk.not_taken hz₁ ht₁ (by rw [hcreated]; exact hne)
  · -- the frame of the new page is the frame of no other page
    have hother : ∀ v : Word, page.toNat + 4096 ≤ v.toNat → ∀ f, M (pageNo v) ≠ some (frame, f) := by
      intro v hv f hMv
      obtain ⟨t, hMt, ht, -, -⟩ := h.pages v hv
      rw [hMt] at hMv
      cases hMv
      exact (hkeep _ ht).2 rfl
    intro v w hv hw t f f' hMv hMw
    rcases hcases v hv with hv | hv <;> rcases hcases w hw with hw | hw
    · rw [hv, hw]
    · rw [hv, Function.update_self] at hMv
      cases hMv
      rw [Function.update_of_ne (hpage w hw)] at hMw
      exact absurd hMw (hother w hw f')
    · rw [hw, Function.update_self] at hMw
      cases hMw
      rw [Function.update_of_ne (hpage v hv)] at hMv
      exact absurd hMv (hother v hv f)
    · rw [Function.update_of_ne (hpage v hv)] at hMv
      rw [Function.update_of_ne (hpage w hw)] at hMw
      exact h.apart v w hv hw t f f' hMv hMw
  · intro n hn
    rw [Function.update_of_ne (fun heq => hn page (le_refl _) heq.symm)]
    exact h.rest n fun v hv => hn v (by omega)

/-- **The page loop of `kheap_init` and `kheap_expand`.** -/
theorem HeapMapped.pushes {root : Word} {M₀ : PageMap} {p₀ : Pmm} :
    ∀ {n : ℕ} {s s' : Mmu} {page : Word} {G : Tree} {M : PageMap} {top : ℕ},
      HeapMapped s root M₀ p₀ (top + 4096 * n) G M → page.toNat + 4096 = top + 4096 * n →
      top % 4096 = 0 → 2 ^ 64 - 2 ^ 47 ≤ top → FreeAbove M₀ top → pagingCr3 s = root →
      kheapMapPages s page n = .ok s' → CleanTables s' →
      ∃ G' M', HeapMapped s' root M₀ p₀ top G' M' := by
  intro n
  induction n with
  | zero =>
      intro s s' page G M top h hpage _ _ _ _ hok _
      cases hok
      exact ⟨G, M, h⟩
  | succ n ih =>
      intro s s' page G M top h hpage halign hhigh hfree hcr3 hok hclean
      obtain ⟨⟨frame, pmm⟩, halloc, hok⟩ := Res.bind_eq_ok.mp hok
      obtain ⟨s₂, hmap, hok⟩ := Res.bind_eq_ok.mp hok
      obtain ⟨-, hcr3', hsuffix⟩ := kheapMapPages_walk hok
      rw [← hpage] at h
      obtain ⟨G₂, M₂, h₂⟩ := h.push (by omega) (by omega) (hfree page (by omega)) hcr3 halloc hmap
        (hclean.of_suffix hsuffix)
      have hcr3₂ : pagingCr3 s₂ = root := by
        unfold pagingCr3
        rw [(pagingMap_walk hmap).cr3]
        exact hcr3
      cases n with
      | zero =>
          cases hok
          exact ⟨G₂, M₂, by rw [show top = page.toNat by omega]; exact h₂⟩
      | succ n =>
          have hprev : (page - pageSize).toNat = page.toNat - 4096 :=
            BitVec.toNat_sub_of_le (show 4096 ≤ page.toNat by omega)
          rw [show page.toNat = top + 4096 * (n + 1) by omega] at h₂
          exact ih h₂ (by omega) halign hhigh hfree hcr3₂ hok hclean

/-! ## The operations keep the place of the heap -/

/-- `s'` occupies the same addresses as `s`. -/
structure SamePlace (s s' : Kheap) : Prop where
  top : s'.kheapTop = s.kheapTop
  max : s'.kheapMax = s.kheapMax

theorem SamePlace.trans {s s' s'' : Kheap} (h : SamePlace s s') (h' : SamePlace s' s'') :
    SamePlace s s'' := ⟨h'.top.trans h.top, h'.max.trans h.max⟩

theorem freelistInsert_place (s : Kheap) (hdr : Word) : SamePlace s (freelistInsert s hdr) := by
  unfold freelistInsert
  split <;> exact ⟨rfl, rfl⟩

theorem freelistRemove_place (s : Kheap) (hdr : Word) : SamePlace s (freelistRemove s hdr) := by
  unfold freelistRemove
  dsimp only
  repeat' split
  all_goals exact ⟨rfl, rfl⟩

theorem mergeRight_place (s : Kheap) (hdr : Word) : SamePlace s (mergeRight s hdr).2 := by
  unfold mergeRight
  split
  · exact ⟨rfl, rfl⟩
  · dsimp only
    split
    · refine SamePlace.trans ?_ (freelistRemove_place _ _)
      split <;> exact ⟨rfl, rfl⟩
    · split <;> exact ⟨rfl, rfl⟩

theorem mergeLeft_place (s : Kheap) (hdr : Word) : SamePlace s (mergeLeft s hdr).2 := by
  unfold mergeLeft
  split
  · exact ⟨rfl, rfl⟩
  split
  · exact ⟨rfl, rfl⟩
  · dsimp only
    split
    · refine SamePlace.trans ?_ (freelistRemove_place _ _)
      split <;> exact ⟨rfl, rfl⟩
    · split
      · split <;> exact ⟨rfl, rfl⟩
      · exact ⟨rfl, rfl⟩

theorem split_place (s : Kheap) (hdr numBytes : Word) : SamePlace s (split s hdr numBytes).2 := by
  unfold Cerberos.split
  split
  · exact ⟨rfl, rfl⟩
  · dsimp only
    split
    · exact ⟨rfl, rfl⟩
    · refine SamePlace.trans ?_ (freelistInsert_place _ _)
      split <;> exact ⟨rfl, rfl⟩

theorem kmallocTake_place (s : Kheap) (size curr : Word) :
    SamePlace s (kmallocTake s size curr).2 := by
  unfold kmallocTake
  split
  · exact freelistRemove_place s curr
  · exact (split_place s curr size).trans (freelistRemove_place _ _)

theorem kheapPush_place (s : Kheap) : SamePlace s (kheapPush s) := by
  unfold kheapPush
  dsimp only
  refine SamePlace.trans ?_ (mergeRight_place _ _)
  refine SamePlace.trans ?_ (freelistInsert_place _ _)
  exact ⟨rfl, rfl⟩

theorem kfree_place (s : Kheap) (ptr : Word) : SamePlace s (kfree s ptr) := by
  unfold kfree
  dsimp only
  split
  · exact ⟨rfl, rfl⟩
  · unfold merge
    exact (freelistInsert_place s (ptr - hdrSize)).trans
      ((mergeRight_place _ _).trans (mergeLeft_place _ _))

/-! ## Whole calls -/

/-- What holds of the pages of the heap in every state after `s₀`. -/
structure Backed (s₀ : Mmu) (kmax : Word) (k : Kernel) : Prop where
  room : HeapRoom k
  max : k.heap.kheapMax = kmax
  bound : k.heap.kheapMax ≤ k.heap.kheapTop
  cr3 : k.mmu.cr3 = s₀.cr3
  history : s₀.created <:+ k.mmu.created
  mapped : CleanTables k.mmu → 2 ^ 64 - 2 ^ 47 ≤ k.heap.kheapTop.toNat →
    ∀ G₀ M₀, PageTables s₀ (pagingCr3 s₀) G₀ M₀ → FreeAbove M₀ k.heap.kheapTop.toNat →
    ∃ G M, HeapMapped k.mmu (pagingCr3 s₀) M₀ s₀.pmm k.heap.kheapTop.toNat G M

theorem Backed.same {s₀ : Mmu} {kmax : Word} {k k' : Kernel} (h : Backed s₀ kmax k)
    (hmmu : k'.mmu = k.mmu) (hplace : SamePlace k.heap k'.heap) : Backed s₀ kmax k' := by
  refine ⟨h.room.of_eq hmmu hplace.top, hplace.max.trans h.max, ?_, ?_, ?_, ?_⟩
  · rw [hplace.top, hplace.max]
    exact h.bound
  · rw [hmmu]
    exact h.cr3
  · rw [hmmu]
    exact h.history
  · rw [hmmu, hplace.top]
    exact h.mapped

theorem pagingCr3_eq {s s' : Mmu} (h : s'.cr3 = s.cr3) : pagingCr3 s' = pagingCr3 s := by
  unfold pagingCr3
  rw [h]

theorem Backed.expand {s₀ : Mmu} {kmax : Word} {k k' : Kernel} (h : Backed s₀ kmax k)
    {numPages : Word} (hok : kheapExpand k numPages = .ok k') : Backed s₀ kmax k' := by
  unfold kheapExpand at hok
  split at hok
  · cases hok
    exact h.same rfl ⟨rfl, rfl⟩
  rename_i h0
  obtain ⟨mmu, hmap, hok⟩ := Res.bind_eq_ok.mp hok
  obtain ⟨hpos, htop, hroom⟩ := h.room.grow h0 hmap
  obtain ⟨-, hcr3, hsuffix⟩ := kheapMapPages_walk hmap
  dsimp only at hok
  split at hok
  · cases hok
  rename_i hmax
  injection hok with hok
  subst hok
  have hplace := kheapPush_place { k.heap with kheapTop := k.heap.kheapTop - numPages * pageSize }
  have htop' : (kheapPush { k.heap with
      kheapTop := k.heap.kheapTop - numPages * pageSize }).kheapTop =
        k.heap.kheapTop - numPages * pageSize := hplace.top
  have halign := (hroom _ htop').align
  refine ⟨hroom _ htop', hplace.max.trans h.max, ?_, hcr3.trans h.cr3, h.history.trans hsuffix, ?_⟩
  · show (kheapPush _).kheapMax ≤ (kheapPush _).kheapTop
    rw [hplace.top, hplace.max]
    exact BitVec.not_lt.mp hmax
  · show CleanTables mmu → _ ≤ (kheapPush _).kheapTop.toNat → ∀ G₀ M₀, _ →
      FreeAbove M₀ (kheapPush _).kheapTop.toNat →
      ∃ G M, HeapMapped mmu _ M₀ _ (kheapPush _).kheapTop.toNat G M
    change (kheapPush _).kheapTop.toNat % 4096 = 0 at halign
    rw [htop'] at halign ⊢
    intro hclean hhigh G₀ M₀ h₀ hfree
    obtain ⟨G, M, hM⟩ := h.mapped (hclean.of_suffix hsuffix) (by omega) G₀ M₀ h₀
      fun v hv => hfree v (by omega)
    rw [← htop] at hM
    have hpage : (k.heap.kheapTop - pageSize).toNat = k.heap.kheapTop.toNat - 4096 :=
      BitVec.toNat_sub_of_le (show 4096 ≤ k.heap.kheapTop.toNat by omega)
    exact hM.pushes (by omega) halign hhigh hfree (pagingCr3_eq h.cr3) hmap hclean

theorem Backed.kmallocDepth {s₀ : Mmu} {kmax : Word} :
    ∀ {depth : ℕ} {k k' : Kernel} {size ptr : Word}, Backed s₀ kmax k →
      Cerberos.kmallocDepth depth k size = .ok (ptr, k') → Backed s₀ kmax k' := by
  intro depth
  induction depth with
  | zero =>
      intro k k' size ptr _ hok
      cases hok
  | succ depth ih =>
      intro k k' size ptr h hok
      unfold Cerberos.kmallocDepth at hok
      split at hok
      · cases hok
        exact h.same rfl ⟨rfl, rfl⟩
      dsimp only at hok
      split at hok
      · cases hok
      split at hok
      · cases hok
        exact h.same rfl (kmallocTake_place _ _ _)
      · obtain ⟨k₁, hexpand, hok⟩ := Res.bind_eq_ok.mp hok
        have hsay : Backed s₀ kmax { k with heap := k.heap.say (plainMsg
            "[kmalloc] expanding heap by %lu pages ...\n" [kmallocPages k.heap (alignUp size 8)]) } :=
          h.same rfl ⟨rfl, rfl⟩
        exact ih (hsay.expand hexpand) hok

/-- `kheap_init` and any calls of `kmalloc` and `kfree` that return. -/
inductive BackedRun (k₀ : Kernel) (handover : Handover) : Kernel → Prop
  | init {k : Kernel} {numPages : Word} :
      1 ≤ numPages.toNat → kheapInit k₀ handover numPages = .ok k → BackedRun k₀ handover k
  | kmalloc {k k' : Kernel} {size ptr : Word} :
      BackedRun k₀ handover k → kmalloc k size = .ok (ptr, k') → BackedRun k₀ handover k'
  | kfree {k : Kernel} (ptr : Word) :
      BackedRun k₀ handover k → BackedRun k₀ handover { k with heap := kfree k.heap ptr }

theorem cMax_foldl_le (pmrs : List Pmr) :
    ∀ m : Word, m.toNat ≤
        (pmrs.foldl (fun kmax entry => cMax kmax (entry.base + entry.length)) m).toNat ∧
      ∀ e ∈ pmrs, (e.base + e.length).toNat ≤
        (pmrs.foldl (fun kmax entry => cMax kmax (entry.base + entry.length)) m).toNat := by
  have hmax : ∀ a b : Word, a.toNat ≤ (cMax a b).toNat ∧ b.toNat ≤ (cMax a b).toNat := by
    intro a b
    unfold cMax
    split
    · rename_i hab
      exact ⟨le_refl _, Nat.le_of_lt hab⟩
    · rename_i hab
      exact ⟨BitVec.not_lt.mp hab, le_refl _⟩
  induction pmrs with
  | nil =>
      intro m
      simp
  | cons e pmrs ih =>
      intro m
      obtain ⟨h1, h2⟩ := ih (cMax m (e.base + e.length))
      obtain ⟨h3, h4⟩ := hmax m (e.base + e.length)
      refine ⟨h3.trans h1, ?_⟩
      rw [List.forall_mem_cons]
      exact ⟨h4.trans h1, h2⟩

theorem BackedRun.backed {k₀ k : Kernel} {handover : Handover} (hz : ZonesOk k₀.mmu.pmm)
    (h : BackedRun k₀ handover k) :
    ∃ kmax, Backed k₀.mmu kmax k ∧ ∀ pmrs, handover.pmrs = some pmrs → ∀ e ∈ pmrs,
      (e.base + e.length).toNat ≤ kmax.toNat := by
  induction h with
  | init hn hok =>
      rename_i k numPages
      have h0 : numPages ≠ 0 := by
        rintro rfl
        exact absurd hn (by decide)
      have spec := kheapInit_spec hz h0 hok
      obtain ⟨-, hcr3, hsuffix⟩ := kheapMapPages_walk spec.mmu
      have htop := spec.top
      refine ⟨_, ⟨spec.room, rfl, spec.bound, hcr3, hsuffix, ?_⟩, ?_⟩
      · intro hclean hhigh G M₀ h₀ hfree
        have hstart : HeapMapped k₀.mmu (pagingCr3 k₀.mmu) M₀ k₀.mmu.pmm
            (k.heap.kheapTop.toNat + 4096 * numPages.toNat) G M₀ := by
          rw [htop]
          refine ⟨h₀, FrameSteps.refl _, ?_, ?_, fun _ _ => rfl⟩
          · intro v hv
            exact absurd v.isLt (Nat.not_lt.mpr hv)
          · intro v w hv
            exact absurd v.isLt (Nat.not_lt.mpr hv)
        refine hstart.pushes ?_ spec.room.align hhigh hfree rfl spec.mmu hclean
        rw [htop]
        rfl
      · intro pmrs hpmrs e he
        obtain ⟨pmrs', hpmrs', hmax⟩ := spec.max
        cases hpmrs.symm.trans hpmrs'
        rw [hmax]
        exact (cMax_foldl_le pmrs _).2 e he
  | kmalloc _ hok ih =>
      obtain ⟨kmax, hbacked, hmax⟩ := ih
      exact ⟨kmax, hbacked.kmallocDepth hok, hmax⟩
  | kfree ptr _ ih =>
      obtain ⟨kmax, hbacked, hmax⟩ := ih
      exact ⟨kmax, hbacked.same rfl (kfree_place _ ptr), hmax⟩

theorem pagingInit_zones {s₀ s : Mmu} {handover : Handover} (hz : ZonesOk s₀.pmm)
    (h : pagingInit s₀ handover = .ok s) : ZonesOk s.pmm := by
  obtain ⟨kb, pmrs, memmap, memEnd, root, s₁, s₂, s₃, s₄, s₅, -, -, -, -, hcreate, hmapPmrs, hsay,
    hid, hhhdm, rfl⟩ := pagingInit_cases h
  have hsay' : WalkSteps s₂ s₃ := by
    rcases hsay with rfl | ⟨msg, rfl⟩
    · exact WalkSteps.refl _
    · exact WalkSteps.say _ _
  have hwalk := (pagingCreate_walk hcreate).trans ((pagingMapPmrs_walk hmapPmrs).trans
    (hsay'.trans ((pagingMaps_walk hid).trans (pagingMaps_walk hhhdm))))
  exact hz.same hwalk.frames.same

/-- **Heap pages are backed by their own frames.** After `paging_init` and `kheap_init` and any calls
of `kmalloc` and `kfree`: every page of the heap is present and writable at its leaf and goes to a
frame the allocator handed out since; the frames of distinct heap pages and of all page tables are
distinct; nothing that was translated before has changed; and the heap has not passed its limit. -/
theorem backedRun_pages {s₀ : Mmu} {k₀ k : Kernel} {handover : Handover} {kb : KernelBase}
    {pmrs : List Pmr} {memmap : List MmapEntry} {memEnd : Word} (hboot : PmmBooted s₀.pmm)
    (hsmall : s₀.pmm.memSize.toNat ≤ 2 ^ 52) (hnew : s₀.created = [])
    (hkb : handover.kernelBase = some kb) (hpmrs : handover.pmrs = some pmrs)
    (hmemmap : handover.memmap = some memmap) (hend : getMemSize memmap = .ok memEnd)
    (hinit : pagingInit s₀ handover = .ok k₀.mmu)
    (hargs : ∀ r ∈ initRegions kb pmrs memEnd, ∀ q ∈ r.reqs, MapArgs q.p q.flags)
    (hexact : ∀ v, Canonical v → v.toNat % 4096 = 0 →
      translate k₀.mmu.phys (pagingCr3 k₀.mmu) v ≠ none →
        (∃ e ∈ pmrs, e.Holds v) ∨ InIdentity memEnd v ∨ InHhdm memEnd v)
    (hwrap : ∀ e ∈ pmrs, e.base.toNat + e.length.toNat < 2 ^ 64)
    (h : BackedRun k₀ handover k) (hclean : CleanTables k.mmu)
    (hhhdm : vaHhdm.toNat + memEnd.toNat ≤ k.heap.kheapTop.toNat) :
    (∀ v : Word, k.heap.kheapTop.toNat ≤ v.toNat → ∃ t f,
      translate k.mmu.phys (pagingCr3 k.mmu) v = some (t, f) ∧
        f &&& (pagePresent ||| pageWritable) = pagePresent ||| pageWritable ∧
        Obtained k₀.mmu.pmm k.mmu.pmm t ∧ ∀ table ∈ k.mmu.created, table.frame ≠ t) ∧
    (∀ v w : Word, k.heap.kheapTop.toNat ≤ v.toNat → k.heap.kheapTop.toNat ≤ w.toNat →
      v.toNat / 4096 ≠ w.toNat / 4096 →
        (translate k.mmu.phys (pagingCr3 k.mmu) v).map Prod.fst ≠
          (translate k.mmu.phys (pagingCr3 k.mmu) w).map Prod.fst) ∧
    (k.mmu.created.map TableFrame.frame).Nodup ∧
    (∀ v, translate k₀.mmu.phys (pagingCr3 k₀.mmu) v ≠ none →
      translate k.mmu.phys (pagingCr3 k.mmu) v =
        translate k₀.mmu.phys (pagingCr3 k₀.mmu) v) ∧
    k.heap.kheapMax ≤ k.heap.kheapTop := by
  have hz := (pagingInit_zones hboot.zones hinit)
  obtain ⟨kmax, hbacked, hkmax⟩ := h.backed hz
  have hclean₀ : CleanTables k₀.mmu := hclean.of_suffix hbacked.history
  obtain ⟨G₀, h₀⟩ := pagingInit_tables hboot.zones hsmall hnew hkb hpmrs hmemmap hend hargs hinit
    hclean₀
  generalize mapAll (fun _ => none) ((initRegions kb pmrs memEnd).flatMap Region.reqs) = M₀ at h₀
  have hroot : pagingCr3 k₀.mmu = k₀.mmu.cr3 :=
    alignDown_page_of_mod (h₀.tables.frame h₀.tables.root_eq).align
  have hcr3 : pagingCr3 k.mmu = pagingCr3 k₀.mmu := pagingCr3_eq hbacked.cr3
  rw [← hroot] at h₀
  have hva : vaHhdm.toNat = 2 ^ 64 - 2 ^ 47 := by decide
  have halign := hbacked.room.align
  have hbound : kmax.toNat ≤ k.heap.kheapTop.toNat := by
    rw [← hbacked.max]
    exact hbacked.bound
  -- what `paging_init` mapped ends below the heap
  have hfree : FreeAbove M₀ k.heap.kheapTop.toNat := by
    intro v hv
    by_contra hne
    have hdown := toNat_alignDown_page v
    have hmod : (alignDown v pageSize).toNat % 4096 = 0 := by omega
    have hpage : pageNo (alignDown v pageSize) = pageNo v := by
      unfold pageNo
      omega
    rw [← hpage, ← h₀.tables.translate_eq] at hne
    have hcan : Canonical (alignDown v pageSize) := by
      unfold Canonical
      omega
    rcases hexact _ hcan hmod hne with ⟨e, he, hlow, hhigh⟩ | ⟨-, hhigh⟩ | ⟨-, hhigh⟩
    · have hsum : (e.base + e.length).toNat = e.base.toNat + e.length.toNat :=
        BitVec.toNat_add_of_lt (hwrap e he)
      have := hkmax pmrs hpmrs e he
      omega
    · have := memEnd.isLt
      omega
    · omega
  obtain ⟨G, M, hM⟩ := hbacked.mapped hclean (by omega) G₀ M₀ h₀ hfree
  rw [hcr3]
  have htr := hM.tables.tables.translate_eq
  refine ⟨?_, ?_, hM.tables.once, ?_, hbacked.bound⟩
  · intro v hv
    obtain ⟨t, hMt, -, hobt, hne⟩ := hM.pages v hv
    rw [htr, hMt]
    exact ⟨t, _, rfl, by decide, hobt, hne⟩
  · intro v w hv hw hvw heq
    obtain ⟨t, hMv, -⟩ := hM.pages v hv
    obtain ⟨t', hMw, -⟩ := hM.pages w hw
    rw [htr, htr, hMv, hMw] at heq
    cases heq
    have hpages := hM.apart v w hv hw t _ _ hMv hMw
    have h1 := pageNo_high (show 2 ^ 64 - 2 ^ 47 ≤ v.toNat by omega)
    have h2 := pageNo_high (show 2 ^ 64 - 2 ^ 47 ≤ w.toNat by omega)
    omega
  · intro v hv
    rw [h₀.tables.translate_eq] at hv ⊢
    rw [htr]
    apply hM.rest
    intro w hw heq
    rw [← heq, hfree w hw] at hv
    exact hv rfl

/-- The initialisers of `kheap.c` over zeroed memory. -/
def tinyStatic : Kheap where
  mem := fun _ => 0
  kheapTop := 0
  kheapMax := 0
  freeHead := null
  blockHead := null
  log := []

/-- The small machine with a heap of one page. -/
def tinyHeap : Res (Kernel × Kernel) := do
  let mmu ← pagingInit smallMmu tinyHandover
  let k ← kheapInit ⟨mmu, tinyStatic⟩ tinyHandover 1
  .ok (⟨mmu, tinyStatic⟩, k)

theorem backedRun_pages_tiny : ∃ k₀ k, BackedRun k₀ tinyHandover k ∧ CleanTables k.mmu ∧
    ∃ t f, translate k.mmu.phys (pagingCr3 k.mmu) 0xfffffffffffff000 = some (t, f) ∧
      Obtained k₀.mmu.pmm k.mmu.pmm t := by
  obtain ⟨⟨k₀, k⟩, hrun⟩ := Res.exists_of_isOk (x := tinyHeap) (by decide +kernel)
  obtain ⟨mmu, hinit, hrun⟩ := Res.bind_eq_ok.mp hrun
  obtain ⟨k', hheap, hrun⟩ := Res.bind_eq_ok.mp hrun
  cases hrun
  have hspace := tinyHandover_space
  have hzeroed := pagingInit_zeroed smallPmm_booted.zones smallPmm_small rfl smallMmu_zeroed rfl rfl
    rfl rfl hspace.regions_args hinit
  obtain ⟨G, hG⟩ := pagingInit_tables smallPmm_booted.zones smallPmm_small rfl rfl rfl rfl rfl
    hspace.regions_args hinit hzeroed.clean
  have hroot : pagingCr3 mmu = mmu.cr3 :=
    alignDown_page_of_mod (hG.tables.frame hG.tables.root_eq).align
  have hb := kheapInit_spec hG.zones (show (1 : Word) ≠ 0 by decide) hheap
  have htop := hb.top
  -- one frame for the page, and tables on the way to it
  have hclean : CleanTables k.mmu := by
    obtain ⟨⟨frame, pmm⟩, halloc, hmaps⟩ := Res.bind_eq_ok.mp hb.mmu
    obtain ⟨s₂, hmap, hmaps⟩ := Res.bind_eq_ok.mp hmaps
    have h₁ := hG.alloc halloc
    have htaken := (pmmAlloc_taken hG.zones halloc).1
    have hmap' : __pagingMap { mmu with pmm := pmm } mmu.cr3 (vaEnd - pageSize + 1) frame
        (pagePresent ||| pageWritable) = .ok s₂ := by
      unfold pagingMap at hmap
      rw [show pagingCr3 { mmu with pmm := pmm } = mmu.cr3 from hroot] at hmap
      exact hmap
    have hz₂ := pagingMapAt_zeroed h₁ (htaken.mapArgs h₁.small) (hzeroed.congr rfl rfl) hmap'
    injection hmaps with hmaps
    rw [← hmaps]
    exact hz₂.clean
  have hrun : BackedRun ⟨mmu, tinyStatic⟩ tinyHandover k := .init (by decide) hheap
  obtain ⟨hpages, -⟩ := backedRun_pages smallPmm_booted smallPmm_small rfl rfl rfl rfl rfl hinit
    hspace.regions_args
    (by
      intro v hv halign hmapped
      rw [hroot, hG.tables.translate_eq] at hmapped
      obtain ⟨r, hr, hholds⟩ := regions_none hspace.regions_ok hv halign hmapped
      rcases SpaceOk.mem_regions hr with ⟨e, he, rfl⟩ | rfl | rfl
      · exact Or.inl ⟨e, he, (hspace.pmr_holds he v).mp hholds⟩
      · exact Or.inr (Or.inl ((hspace.identity_holds v).mp hholds))
      · exact Or.inr (Or.inr ((hspace.hhdm_holds v).mp hholds)))
    (by simp) hrun hclean
    (by
      have h1 : vaHhdm.toNat + (0x3000 : Word).toNat ≤ 2 ^ 64 - 4096 := by decide
      have h2 : (1 : Word).toNat = 1 := rfl
      omega)
  obtain ⟨t, f, htr, -, hobt, -⟩ := hpages 0xfffffffffffff000 (by
    have h1 : (0xfffffffffffff000 : Word).toNat = 2 ^ 64 - 4096 := by decide
    have h2 : (1 : Word).toNat = 1 := rfl
    omega)
  exact ⟨_, k, hrun, hclean, t, f, htr, hobt⟩

end Cerberos
