/-
# Cerberos.Mm.PagingInit — the address space `paging_init` builds.

`paging_init` maps REGIONS: each protected memory range of the kernel, all of memory at its own
address, and all of memory once more at the higher half. A region is a loop of page mappings with a
virtual and a physical cursor. Since `__paging_map` skips a page that is mapped already, a request
is served by the FIRST region that asks for its page; when the regions are disjoint there is only one.
-/
import Cerberos.Mm.PagingRuns

namespace Cerberos

open Cerberos.Base

/-! ## Regions -/

/-- `num` pages from `v` on, mapped to the pages from `p` on with `flags`. -/
structure Region where
  v : Word
  p : Word
  flags : Word
  num : ℕ

/-- One call of `__paging_map`. -/
structure MapReq where
  v : Word
  p : Word
  flags : Word

/-- The calls of `__paging_maps`. -/
def pageReqs (v p flags : Word) : ℕ → List MapReq
  | 0 => []
  | n + 1 => ⟨v, p, flags⟩ :: pageReqs (v + pageSize) (p + pageSize) flags n

def Region.reqs (r : Region) : List MapReq := pageReqs r.v r.p r.flags r.num

/-- The abstract effect of a list of calls. -/
def mapAll (M : PageMap) (reqs : List MapReq) : PageMap :=
  reqs.foldl (fun M r => mapPage M r.v r.p r.flags) M

/-- The first request for a page decides. -/
theorem mapAll_get (M : PageMap) (reqs : List MapReq) (k : ℕ) :
    mapAll M reqs k = (M k).or ((reqs.find? fun r => pageNo r.v == k).map fun r =>
      (alignDown r.p pageSize, r.flags)) := by
  induction reqs generalizing M with
  | nil => simp [mapAll]
  | cons r reqs ih =>
      have hcons : mapAll M (r :: reqs) = mapAll (mapPage M r.v r.p r.flags) reqs := rfl
      rw [hcons, ih, List.find?_cons]
      unfold mapPage
      by_cases hk : pageNo r.v = k
      · subst hk
        cases hM : M (pageNo r.v) with
        | some e => simp [hM]
        | none => simp
      · have hbeq : (pageNo r.v == k) = false := beq_eq_false_iff_ne.mpr hk
        cases hM : M (pageNo r.v) with
        | some e => simp [hbeq]
        | none => simp [hbeq, Function.update_of_ne (Ne.symm hk)]

theorem mem_pageReqs {flags : Word} :
    ∀ {n : ℕ} {v p : Word} {r : MapReq}, r ∈ pageReqs v p flags n ↔
      ∃ i < n, r = ⟨v + BitVec.ofNat 64 (4096 * i), p + BitVec.ofNat 64 (4096 * i), flags⟩ := by
  intro n
  induction n with
  | zero => simp [pageReqs]
  | succ n ih =>
      intro v p r
      have hshift : ∀ (x : Word) (i : ℕ),
          x + pageSize + BitVec.ofNat 64 (4096 * i) = x + BitVec.ofNat 64 (4096 * (i + 1)) := by
        intro x i
        rw [BitVec.add_assoc, Nat.mul_add, BitVec.ofNat_add, BitVec.add_comm pageSize]
        rfl
      unfold pageReqs
      rw [List.mem_cons, ih]
      simp only [hshift]
      constructor
      · rintro (rfl | ⟨i, hi, rfl⟩)
        · exact ⟨0, by omega, by simp⟩
        · exact ⟨i + 1, by omega, rfl⟩
      · rintro ⟨i, hi, rfl⟩
        cases i with
        | zero => exact Or.inl (by simp)
        | succ i => exact Or.inr ⟨i, by omega, rfl⟩

/-- The page of `v` belongs to the region. -/
def Region.Holds (r : Region) (v : Word) : Prop :=
  r.v.toNat ≤ v.toNat ∧ v.toNat < r.v.toNat + 4096 * r.num

/-- A region of whole canonical pages. -/
structure Region.Ok (r : Region) : Prop where
  align : r.v.toNat % 4096 = 0
  canonical : r.v.toNat + 4096 * r.num ≤ 2 ^ 47 ∨
    2 ^ 64 - 2 ^ 47 ≤ r.v.toNat ∧ r.v.toNat + 4096 * r.num ≤ 2 ^ 64

theorem Region.Ok.holds_canonical {r : Region} (h : r.Ok) {v : Word} (hv : r.Holds v) :
    Canonical v := by
  have h2 := h.canonical
  obtain ⟨h3, h4⟩ := hv
  unfold Canonical
  omega

/-- A request of a region asks for one of its pages, at the same distance from its start on both
sides. -/
theorem Region.Ok.of_mem {r : Region} (h : r.Ok) {q : MapReq} (hq : q ∈ r.reqs) :
    r.Holds q.v ∧ q.v.toNat % 4096 = 0 ∧ q.p = r.p + (q.v - r.v) ∧ q.flags = r.flags := by
  obtain ⟨i, hi, rfl⟩ := mem_pageReqs.mp hq
  have h1 := h.align
  have h2 := h.canonical
  have hv : (r.v + BitVec.ofNat 64 (4096 * i)).toNat = r.v.toNat + 4096 * i := by
    rw [BitVec.toNat_add, BitVec.toNat_ofNat]
    omega
  refine ⟨⟨?_, ?_⟩, ?_, ?_, rfl⟩
  · show r.v.toNat ≤ (r.v + _).toNat
    omega
  · show (r.v + _).toNat < _
    omega
  · show (r.v + _).toNat % 4096 = 0
    omega
  · show r.p + _ = r.p + (r.v + _ - r.v)
    rw [BitVec.add_comm r.v, BitVec.add_sub_cancel]

/-- Every page of a region is asked for. -/
theorem Region.Ok.exists_mem {r : Region} (h : r.Ok) {v : Word} (hv : r.Holds v)
    (halign : v.toNat % 4096 = 0) : ∃ q ∈ r.reqs, q.v = v := by
  have h1 := h.align
  obtain ⟨h3, h4⟩ := hv
  refine ⟨_, mem_pageReqs.mpr ⟨(v.toNat - r.v.toNat) / 4096, by omega, rfl⟩, ?_⟩
  apply BitVec.eq_of_toNat_eq
  have hlt := v.isLt
  show (r.v + BitVec.ofNat 64 (4096 * ((v.toNat - r.v.toNat) / 4096))).toNat = v.toNat
  rw [BitVec.toNat_add, BitVec.toNat_ofNat]
  omega

/-- Regions with no page in common. -/
def RegionsDisjoint (r r' : Region) : Prop := ∀ v, r.Holds v → ¬ r'.Holds v

instance : Std.Symm RegionsDisjoint := ⟨fun _ _ h v h' h'' => h v h'' h'⟩

section Regions

variable {regions : List Region}

/-- Only pages of regions are mapped. -/
theorem regions_none (hok : ∀ r ∈ regions, r.Ok) {v : Word} (hv : Canonical v)
    (halign : v.toNat % 4096 = 0)
    (hmapped : mapAll (fun _ => none) (regions.flatMap Region.reqs) (pageNo v) ≠ none) :
    ∃ r ∈ regions, r.Holds v := by
  rw [mapAll_get] at hmapped
  cases hfind : (regions.flatMap Region.reqs).find? (fun r => pageNo r.v == pageNo v) with
  | none =>
      rw [hfind] at hmapped
      exact absurd rfl hmapped
  | some q =>
      have hpage : pageNo q.v = pageNo v := by simpa using List.find?_some hfind
      obtain ⟨r, hr, hq⟩ := List.mem_flatMap.mp (List.mem_of_find?_eq_some hfind)
      obtain ⟨hholds, hqa, -, -⟩ := (hok r hr).of_mem hq
      have heq := ((hok r hr).holds_canonical hholds).page_eq hv hpage
      rw [alignDown_page_of_mod hqa, alignDown_page_of_mod halign] at heq
      exact ⟨r, hr, heq ▸ hholds⟩

/-- **A page of a region is mapped as the region says.** -/
theorem regions_get (hok : ∀ r ∈ regions, r.Ok) (hdisj : regions.Pairwise RegionsDisjoint)
    {r : Region} (hr : r ∈ regions) {v : Word} (hv : r.Holds v) (halign : v.toNat % 4096 = 0) :
    mapAll (fun _ => none) (regions.flatMap Region.reqs) (pageNo v) =
      some (alignDown (r.p + (v - r.v)) pageSize, r.flags) := by
  obtain ⟨q₀, hq₀, hv₀⟩ := (hok r hr).exists_mem hv halign
  have hmem₀ : q₀ ∈ regions.flatMap Region.reqs := List.mem_flatMap.mpr ⟨r, hr, hq₀⟩
  rw [mapAll_get]
  cases hfind : (regions.flatMap Region.reqs).find? (fun r => pageNo r.v == pageNo v) with
  | none =>
      have := List.find?_eq_none.mp hfind q₀ hmem₀
      rw [hv₀] at this
      simp at this
  | some q =>
      have hpage : pageNo q.v = pageNo v := by simpa using List.find?_some hfind
      obtain ⟨r', hr', hq⟩ := List.mem_flatMap.mp (List.mem_of_find?_eq_some hfind)
      obtain ⟨hholds, hqa, hp, hf⟩ := (hok r' hr').of_mem hq
      have hcan := (hok r hr).holds_canonical hv
      have heq := ((hok r' hr').holds_canonical hholds).page_eq hcan hpage
      rw [alignDown_page_of_mod hqa, alignDown_page_of_mod halign] at heq
      -- the region of the request that was served first is `r`
      have hrr : r' = r := by
        by_contra hne
        exact hdisj.forall hr' hr hne v (heq ▸ hholds) hv
      subst hrr
      rw [heq] at hp
      simp [hp, hf]

end Regions

/-! ## The loops of `paging_init` -/

theorem mapAll_append (M : PageMap) (reqs reqs' : List MapReq) :
    mapAll M (reqs ++ reqs') = mapAll (mapAll M reqs) reqs' := List.foldl_append

theorem pagingMaps_walk {root flags : Word} :
    ∀ {n : ℕ} {s s' : Mmu} {v p : Word}, __pagingMaps s root v p flags n = .ok s' →
      WalkSteps s s' := by
  intro n
  induction n with
  | zero =>
      intro s s' v p hok
      cases hok
      exact WalkSteps.refl s
  | succ n ih =>
      intro s s' v p hok
      obtain ⟨s₁, hmap, hok⟩ := Res.bind_eq_ok.mp hok
      exact (pagingMapAt_walk hmap).trans (ih hok)

/-- `__paging_maps` serves its requests one after the other. -/
theorem pagingMaps_spec {root flags : Word} :
    ∀ {n : ℕ} {s s' : Mmu} {v p : Word} {G : Tree} {M : PageMap}, PageTables s root G M →
      (∀ q ∈ pageReqs v p flags n, MapArgs q.p q.flags) →
      __pagingMaps s root v p flags n = .ok s' → CleanTables s' →
      ∃ G', PageTables s' root G' (mapAll M (pageReqs v p flags n)) := by
  intro n
  induction n with
  | zero =>
      intro s s' v p G M h _ hok _
      cases hok
      exact ⟨G, h⟩
  | succ n ih =>
      intro s s' v p G M h hargs hok hclean
      obtain ⟨s₁, hmap, hok⟩ := Res.bind_eq_ok.mp hok
      have hclean₁ := hclean.of_suffix (pagingMaps_walk hok).history
      obtain ⟨G₁, h₁⟩ := pagingMapAt_spec h (hargs _ List.mem_cons_self) hmap hclean₁
      exact ih h₁ (fun q hq => hargs q (List.mem_cons_of_mem _ hq)) hok hclean

/-- Memory stays zero outside the tables. -/
theorem pagingMaps_zeroed {root flags : Word} :
    ∀ {n : ℕ} {s s' : Mmu} {v p : Word} {G : Tree} {M : PageMap}, PageTables s root G M →
      (∀ q ∈ pageReqs v p flags n, MapArgs q.p q.flags) → Zeroed s →
      __pagingMaps s root v p flags n = .ok s' → Zeroed s' := by
  intro n
  induction n with
  | zero =>
      intro s s' v p G M _ _ hz hok
      cases hok
      exact hz
  | succ n ih =>
      intro s s' v p G M h hargs hz hok
      obtain ⟨s₁, hmap, hok⟩ := Res.bind_eq_ok.mp hok
      have hz₁ := pagingMapAt_zeroed h (hargs _ List.mem_cons_self) hz hmap
      obtain ⟨G₁, h₁⟩ := pagingMapAt_spec h (hargs _ List.mem_cons_self) hmap hz₁.clean
      exact ih h₁ (fun q hq => hargs q (List.mem_cons_of_mem _ hq)) hz₁ hok

/-- The region of a protected memory range. -/
def Pmr.region (kernelBase : KernelBase) (e : Pmr) : Region where
  v := e.base
  p := kernelBase.physicalBaseAddress + (e.base - kernelBase.virtualBaseAddress)
  flags := if e.permissions &&& pmrWritable ≠ 0 then pagePresent ||| pageWritable else pagePresent
  num := (e.length / pageSize).toNat

/-- All of memory but its first page, at its own address. -/
def identityRegion (memEnd : Word) : Region where
  v := pageSize
  p := pageSize
  flags := pagePresent ||| pageWritable
  num := ((memEnd - pageSize) / pageSize).toNat

/-- All of memory but its first page, in the higher half. -/
def hhdmRegion (memEnd : Word) : Region where
  v := p2v pageSize
  p := pageSize
  flags := pagePresent ||| pageWritable
  num := ((memEnd - pageSize) / pageSize).toNat

@[simp] theorem identityRegion_flags (memEnd : Word) :
    (identityRegion memEnd).flags = pagePresent ||| pageWritable := rfl

@[simp] theorem hhdmRegion_flags (memEnd : Word) :
    (hhdmRegion memEnd).flags = pagePresent ||| pageWritable := rfl

/-- The regions of `paging_init`, in its order. -/
def initRegions (kernelBase : KernelBase) (pmrs : List Pmr) (memEnd : Word) : List Region :=
  pmrs.map (Pmr.region kernelBase) ++ [identityRegion memEnd, hhdmRegion memEnd]

theorem pagingMapPmrs_walk {root : Word} {kb : KernelBase} :
    ∀ {pmrs : List Pmr} {s s' : Mmu},
      pagingMapPmrs s root kb.physicalBaseAddress kb.virtualBaseAddress pmrs = .ok s' →
      WalkSteps s s' := by
  intro pmrs
  induction pmrs with
  | nil =>
      intro s s' hok
      cases hok
      exact WalkSteps.refl s
  | cons e pmrs ih =>
      intro s s' hok
      obtain ⟨s₁, hmaps, hok⟩ := Res.bind_eq_ok.mp hok
      refine WalkSteps.trans ?_ ((pagingMaps_walk hmaps).trans (ih hok))
      split
      · exact WalkSteps.say s _
      · exact WalkSteps.refl s

/-- The loop over the protected memory ranges. -/
theorem pagingMapPmrs_spec {root : Word} {kb : KernelBase} :
    ∀ {pmrs : List Pmr} {s s' : Mmu} {G : Tree} {M : PageMap}, PageTables s root G M →
      (∀ r ∈ pmrs.map (Pmr.region kb), ∀ q ∈ r.reqs, MapArgs q.p q.flags) →
      pagingMapPmrs s root kb.physicalBaseAddress kb.virtualBaseAddress pmrs = .ok s' →
      CleanTables s' →
      ∃ G', PageTables s' root G'
        (mapAll M ((pmrs.map (Pmr.region kb)).flatMap Region.reqs)) := by
  intro pmrs
  induction pmrs with
  | nil =>
      intro s s' G M h _ hok _
      cases hok
      exact ⟨G, h⟩
  | cons e pmrs ih =>
      intro s s' G M h hargs hok hclean
      obtain ⟨s₁, hmaps, hok⟩ := Res.bind_eq_ok.mp hok
      have hclean₁ := hclean.of_suffix (pagingMapPmrs_walk hok).history
      rw [List.map_cons, List.forall_mem_cons] at hargs
      obtain ⟨hargs₁, hargs⟩ := hargs
      rw [List.map_cons, List.flatMap_cons, mapAll_append]
      generalize hs₀ : (if e.length % pageSize ≠ 0 then _ else s) = s₀ at hmaps
      have h₀ : PageTables s₀ root G M := by
        rw [← hs₀]
        split
        · exact h.congr rfl rfl rfl
        · exact h
      obtain ⟨G₁, h₁⟩ := pagingMaps_spec h₀ hargs₁ hmaps hclean₁
      exact ih h₁ hargs hok hclean

theorem pagingMapPmrs_zeroed {root : Word} {kb : KernelBase} :
    ∀ {pmrs : List Pmr} {s s' : Mmu} {G : Tree} {M : PageMap}, PageTables s root G M →
      (∀ r ∈ pmrs.map (Pmr.region kb), ∀ q ∈ r.reqs, MapArgs q.p q.flags) → Zeroed s →
      pagingMapPmrs s root kb.physicalBaseAddress kb.virtualBaseAddress pmrs = .ok s' →
      Zeroed s' := by
  intro pmrs
  induction pmrs with
  | nil =>
      intro s s' G M _ _ hz hok
      cases hok
      exact hz
  | cons e pmrs ih =>
      intro s s' G M h hargs hz hok
      obtain ⟨s₁, hmaps, hok⟩ := Res.bind_eq_ok.mp hok
      rw [List.map_cons, List.forall_mem_cons] at hargs
      obtain ⟨hargs₁, hargs⟩ := hargs
      generalize hs₀ : (if e.length % pageSize ≠ 0 then _ else s) = s₀ at hmaps
      have h₀ : PageTables s₀ root G M ∧ Zeroed s₀ := by
        rw [← hs₀]
        split
        · exact ⟨h.congr rfl rfl rfl, hz.congr rfl rfl⟩
        · exact ⟨h, hz⟩
      have hz₁ := pagingMaps_zeroed h₀.1 hargs₁ h₀.2 hmaps
      obtain ⟨G₁, h₁⟩ := pagingMaps_spec h₀.1 hargs₁ hmaps hz₁.clean
      exact ih h₁ hargs hz₁ hok

/-- What a returning `paging_init` did. -/
theorem pagingInit_cases {s₀ s : Mmu} {handover : Handover} (h : pagingInit s₀ handover = .ok s) :
    ∃ kb pmrs memmap memEnd root s₁ s₂ s₃ s₄ s₅, handover.kernelBase = some kb ∧
      handover.pmrs = some pmrs ∧ handover.memmap = some memmap ∧ getMemSize memmap = .ok memEnd ∧
      pagingCreate s₀ = .ok (root, s₁) ∧
      pagingMapPmrs s₁ root kb.physicalBaseAddress kb.virtualBaseAddress pmrs = .ok s₂ ∧
      (s₃ = s₂ ∨ ∃ msg, s₃ = s₂.say msg) ∧
      __pagingMaps s₃ root pageSize pageSize (pagePresent ||| pageWritable)
        ((memEnd - pageSize) / pageSize).toNat = .ok s₄ ∧
      __pagingMaps s₄ root (p2v pageSize) pageSize (pagePresent ||| pageWritable)
        ((memEnd - pageSize) / pageSize).toNat = .ok s₅ ∧
      s = { s₅ with cr3 := root } := by
  unfold pagingInit at h
  split at h
  · cases h
  rename_i kb hkb
  split at h
  · cases h
  rename_i pmrs hpmrs
  split at h
  · cases h
  split at h
  · cases h
  rename_i memmap hmemmap
  obtain ⟨⟨root, s₁⟩, hcreate, h⟩ := Res.bind_eq_ok.mp h
  obtain ⟨s₂, hmapPmrs, h⟩ := Res.bind_eq_ok.mp h
  obtain ⟨memEnd, hend, h⟩ := Res.bind_eq_ok.mp h
  dsimp only at h
  obtain ⟨s₄, hid, h⟩ := Res.bind_eq_ok.mp h
  obtain ⟨s₅, hhhdm, h⟩ := Res.bind_eq_ok.mp h
  injection h with h
  refine ⟨kb, pmrs, memmap, memEnd, root, s₁, s₂, _, s₄, s₅, hkb, hpmrs, hmemmap, hend, hcreate,
    hmapPmrs, ?_, hid, hhhdm, h.symm⟩
  split
  · exact Or.inr ⟨_, rfl⟩
  · exact Or.inl rfl

/-! ## The address space -/

/-- `v` lies in the protected memory range. -/
def Pmr.Holds (e : Pmr) (v : Word) : Prop :=
  e.base.toNat ≤ v.toNat ∧ v.toNat < e.base.toNat + e.length.toNat

/-- `v` lies in `[PAGE_SIZE, mem_end)`. -/
def InIdentity (memEnd v : Word) : Prop := 4096 ≤ v.toNat ∧ v.toNat < memEnd.toNat

/-- `v` lies in `[P2V(PAGE_SIZE), P2V(mem_end))`. -/
def InHhdm (memEnd v : Word) : Prop :=
  vaHhdm.toNat + 4096 ≤ v.toNat ∧ v.toNat < vaHhdm.toNat + memEnd.toNat

/-- A handover `paging_init` can serve: page-aligned disjoint ranges of canonical addresses, mapped to
52-bit physical addresses. -/
structure SpaceOk (kb : KernelBase) (pmrs : List Pmr) (memEnd : Word) : Prop where
  pmr_align : ∀ e ∈ pmrs, e.base.toNat % 4096 = 0 ∧ e.length.toNat % 4096 = 0
  pmr_canonical : ∀ e ∈ pmrs, e.base.toNat + e.length.toNat ≤ 2 ^ 47 ∨
    2 ^ 64 - 2 ^ 47 ≤ e.base.toNat ∧ e.base.toNat + e.length.toNat ≤ 2 ^ 64
  pmr_phys : ∀ e ∈ pmrs, ∀ v, e.Holds v →
    (kb.physicalBaseAddress + (v - kb.virtualBaseAddress)).toNat < 2 ^ 52
  pmrs_disjoint : pmrs.Pairwise fun e e' => ∀ v, e.Holds v → ¬ e'.Holds v
  pmr_apart : ∀ e ∈ pmrs, ∀ v, e.Holds v → ¬ InIdentity memEnd v ∧ ¬ InHhdm memEnd v
  end_align : memEnd.toNat % 4096 = 0
  end_low : 4096 ≤ memEnd.toNat
  end_high : memEnd.toNat ≤ 2 ^ 47

namespace SpaceOk

variable {kb : KernelBase} {pmrs : List Pmr} {memEnd : Word}

theorem toNat_num (h : SpaceOk kb pmrs memEnd) :
    4096 * ((memEnd - pageSize) / pageSize).toNat = memEnd.toNat - 4096 := by
  have h1 := h.end_align
  have h2 := h.end_low
  rw [BitVec.toNat_udiv, BitVec.toNat_sub_of_le h2, show pageSize.toNat = 4096 from rfl]
  omega

theorem identity_holds (h : SpaceOk kb pmrs memEnd) (v : Word) :
    (identityRegion memEnd).Holds v ↔ InIdentity memEnd v := by
  have hnum := h.toNat_num
  have hlow := h.end_low
  unfold Region.Holds InIdentity identityRegion
  rw [show pageSize.toNat = 4096 from rfl, hnum]
  omega

theorem hhdm_holds (h : SpaceOk kb pmrs memEnd) (v : Word) :
    (hhdmRegion memEnd).Holds v ↔ InHhdm memEnd v := by
  have hnum := h.toNat_num
  have hlow := h.end_low
  unfold Region.Holds InHhdm hhdmRegion
  rw [show (p2v pageSize).toNat = vaHhdm.toNat + 4096 by decide, hnum]
  omega

theorem pmr_num (h : SpaceOk kb pmrs memEnd) {e : Pmr} (he : e ∈ pmrs) :
    4096 * (e.length / pageSize).toNat = e.length.toNat := by
  have h1 := (h.pmr_align e he).2
  rw [BitVec.toNat_udiv, show pageSize.toNat = 4096 from rfl]
  omega

theorem pmr_holds (h : SpaceOk kb pmrs memEnd) {e : Pmr} (he : e ∈ pmrs) (v : Word) :
    (e.region kb).Holds v ↔ e.Holds v := by
  have hnum := h.pmr_num he
  unfold Region.Holds Pmr.Holds Pmr.region
  rw [hnum]

theorem mem_regions {r : Region} (hr : r ∈ initRegions kb pmrs memEnd) :
    (∃ e ∈ pmrs, r = e.region kb) ∨ r = identityRegion memEnd ∨ r = hhdmRegion memEnd := by
  unfold initRegions at hr
  rcases List.mem_append.mp hr with hr | hr
  · obtain ⟨e, he, rfl⟩ := List.mem_map.mp hr
    exact Or.inl ⟨e, he, rfl⟩
  · simpa using Or.inr hr

theorem regions_ok (h : SpaceOk kb pmrs memEnd) : ∀ r ∈ initRegions kb pmrs memEnd, r.Ok := by
  have hnum := h.toNat_num
  have hlow := h.end_low
  have hhigh := h.end_high
  intro r hr
  rcases mem_regions hr with ⟨e, he, rfl⟩ | rfl | rfl
  · have hpmr := h.pmr_num he
    refine ⟨(h.pmr_align e he).1, ?_⟩
    show e.base.toNat + 4096 * (e.length / pageSize).toNat ≤ _ ∨ _ ∧
      e.base.toNat + 4096 * (e.length / pageSize).toNat ≤ _
    rw [hpmr]
    exact h.pmr_canonical e he
  · refine ⟨show pageSize.toNat % 4096 = 0 by decide, Or.inl ?_⟩
    show 4096 + 4096 * ((memEnd - pageSize) / pageSize).toNat ≤ _
    omega
  · refine ⟨show (p2v pageSize).toNat % 4096 = 0 by decide,
      Or.inr ⟨show 2 ^ 64 - 2 ^ 47 ≤ (p2v pageSize).toNat by decide, ?_⟩⟩
    show (p2v pageSize).toNat + 4096 * ((memEnd - pageSize) / pageSize).toNat ≤ _
    rw [show (p2v pageSize).toNat = 2 ^ 64 - 2 ^ 47 + 4096 by decide]
    omega

theorem regions_disjoint (h : SpaceOk kb pmrs memEnd) :
    (initRegions kb pmrs memEnd).Pairwise RegionsDisjoint := by
  unfold initRegions
  rw [List.pairwise_append, List.pairwise_map]
  refine ⟨?_, ?_, ?_⟩
  · refine h.pmrs_disjoint.imp_of_mem ?_
    intro e e' he he' hee v hv hv'
    exact hee v ((h.pmr_holds he v).mp hv) ((h.pmr_holds he' v).mp hv')
  · rw [List.pairwise_pair]
    intro v hv hv'
    have h1 := (h.identity_holds v).mp hv
    have h2 := (h.hhdm_holds v).mp hv'
    have hhigh := h.end_high
    unfold InIdentity at h1
    unfold InHhdm at h2
    rw [show vaHhdm.toNat = 2 ^ 64 - 2 ^ 47 by decide] at h2
    omega
  · intro r hr r' hr' v hv hv'
    obtain ⟨e, he, rfl⟩ := List.mem_map.mp hr
    obtain ⟨hid, hhhdm⟩ := h.pmr_apart e he v ((h.pmr_holds he v).mp hv)
    rcases List.mem_pair.mp hr' with rfl | rfl
    · exact hid ((h.identity_holds v).mp hv')
    · exact hhhdm ((h.hhdm_holds v).mp hv')

/-- A page of a protected memory range goes to its distance from the kernel's base. -/
theorem pmr_target (e : Pmr) (v : Word) : (e.region kb).p + (v - (e.region kb).v) =
    kb.physicalBaseAddress + (v - kb.virtualBaseAddress) := by
  show kb.physicalBaseAddress + (e.base - kb.virtualBaseAddress) + (v - e.base) = _
  ring

theorem identity_target (v : Word) :
    (identityRegion memEnd).p + (v - (identityRegion memEnd).v) = v := by
  show pageSize + (v - pageSize) = v
  ring

theorem hhdm_target (v : Word) : (hhdmRegion memEnd).p + (v - (hhdmRegion memEnd).v) = v2p v := by
  show pageSize + (v - (pageSize + vaHhdm)) = v - vaHhdm
  ring

theorem toNat_v2p {memEnd v : Word} (h : InHhdm memEnd v) :
    (v2p v).toNat = v.toNat - vaHhdm.toNat := by
  have hle : vaHhdm.toNat ≤ v.toNat := Nat.le_of_add_right_le h.1
  exact BitVec.toNat_sub_of_le hle

/-- Every request of `paging_init` can be stored. -/
theorem regions_args (h : SpaceOk kb pmrs memEnd) :
    ∀ r ∈ initRegions kb pmrs memEnd, ∀ q ∈ r.reqs, MapArgs q.p q.flags := by
  intro r hr q hq
  obtain ⟨hholds, -, hp, hf⟩ := (h.regions_ok r hr).of_mem hq
  have hhigh := h.end_high
  rw [hp, hf]
  rcases mem_regions hr with ⟨e, he, rfl⟩ | rfl | rfl
  · refine ⟨?_, ?_, ?_⟩
    · rw [pmr_target]
      exact h.pmr_phys e he q.v ((h.pmr_holds he q.v).mp hholds)
    · show (if e.permissions &&& pmrWritable ≠ 0 then _ else _) &&& pageAddr = 0
      split <;> decide
    · show (if e.permissions &&& pmrWritable ≠ 0 then _ else _) &&& pagePresent = pagePresent
      split <;> decide
  · have hin := (h.identity_holds q.v).mp hholds
    rw [identity_target, identityRegion_flags]
    refine ⟨?_, by decide, by decide⟩
    have := hin.2
    omega
  · have hin := (h.hhdm_holds q.v).mp hholds
    rw [hhdm_target, hhdmRegion_flags]
    refine ⟨?_, by decide, by decide⟩
    rw [toNat_v2p hin]
    have := hin.2
    omega

end SpaceOk

/-- The stages of `paging_init` when the tags of the handover are known. -/
theorem pagingInit_stages {s₀ s : Mmu} {handover : Handover} {kb : KernelBase} {pmrs : List Pmr}
    {memmap : List MmapEntry} {memEnd : Word} (hkb : handover.kernelBase = some kb)
    (hpmrs : handover.pmrs = some pmrs) (hmemmap : handover.memmap = some memmap)
    (hend : getMemSize memmap = .ok memEnd) (hinit : pagingInit s₀ handover = .ok s) :
    ∃ root s₁ s₂ s₃ s₄ s₅, pagingCreate s₀ = .ok (root, s₁) ∧
      pagingMapPmrs s₁ root kb.physicalBaseAddress kb.virtualBaseAddress pmrs = .ok s₂ ∧
      (s₃ = s₂ ∨ ∃ msg, s₃ = s₂.say msg) ∧
      __pagingMaps s₃ root pageSize pageSize (pagePresent ||| pageWritable)
        ((memEnd - pageSize) / pageSize).toNat = .ok s₄ ∧
      __pagingMaps s₄ root (p2v pageSize) pageSize (pagePresent ||| pageWritable)
        ((memEnd - pageSize) / pageSize).toNat = .ok s₅ ∧
      s = { s₅ with cr3 := root } := by
  obtain ⟨kb', pmrs', memmap', memEnd', root, s₁, s₂, s₃, s₄, s₅, hkb', hpmrs', hmemmap', hend',
    hstages⟩ := pagingInit_cases hinit
  cases hkb.symm.trans hkb'
  cases hpmrs.symm.trans hpmrs'
  cases hmemmap.symm.trans hmemmap'
  cases hend.symm.trans hend'
  exact ⟨root, s₁, s₂, s₃, s₄, s₅, hstages⟩

theorem initRegions_forall {kb : KernelBase} {pmrs : List Pmr} {memEnd : Word} {P : Region → Prop} :
    (∀ r ∈ initRegions kb pmrs memEnd, P r) ↔
      (∀ r ∈ pmrs.map (Pmr.region kb), P r) ∧ P (identityRegion memEnd) ∧ P (hhdmRegion memEnd) := by
  rw [initRegions, List.forall_mem_append]
  simp

/-- **`paging_init` leaves a tree with the mappings of its regions.** -/
theorem pagingInit_tables {s₀ s : Mmu} {handover : Handover} {kb : KernelBase} {pmrs : List Pmr}
    {memmap : List MmapEntry} {memEnd : Word} (hz : ZonesOk s₀.pmm)
    (hsmall : s₀.pmm.memSize.toNat ≤ 2 ^ 52) (hnew : s₀.created = [])
    (hkb : handover.kernelBase = some kb) (hpmrs : handover.pmrs = some pmrs)
    (hmemmap : handover.memmap = some memmap) (hend : getMemSize memmap = .ok memEnd)
    (hargs : ∀ r ∈ initRegions kb pmrs memEnd, ∀ q ∈ r.reqs, MapArgs q.p q.flags)
    (hinit : pagingInit s₀ handover = .ok s) (hclean : CleanTables s) :
    ∃ G, PageTables s s.cr3 G
      (mapAll (fun _ => none) ((initRegions kb pmrs memEnd).flatMap Region.reqs)) := by
  obtain ⟨root, s₁, s₂, s₃, s₄, s₅, hcreate, hmapPmrs, hsay, hid, hhhdm, rfl⟩ :=
    pagingInit_stages hkb hpmrs hmemmap hend hinit
  obtain ⟨hargsPmrs, hargsId, hargsHhdm⟩ := initRegions_forall.mp hargs
  -- the history only grows, so the frames of every stage were zeroed
  have hclean₅ : CleanTables s₅ := hclean
  have hclean₄ := hclean₅.of_suffix (pagingMaps_walk hhhdm).history
  have hclean₃ := hclean₄.of_suffix (pagingMaps_walk hid).history
  have hclean₂ : CleanTables s₂ := by
    rcases hsay with rfl | ⟨msg, rfl⟩
    · exact hclean₃
    · exact hclean₃
  have hclean₁ := hclean₂.of_suffix (pagingMapPmrs_walk hmapPmrs).history
  have h₁ := pagingCreate_tables hz hsmall hnew hcreate hclean₁
  obtain ⟨G₂, h₂⟩ := pagingMapPmrs_spec h₁ hargsPmrs hmapPmrs hclean₂
  have h₃ : PageTables s₃ root G₂
      (mapAll (fun _ => none) ((pmrs.map (Pmr.region kb)).flatMap Region.reqs)) := by
    rcases hsay with rfl | ⟨msg, rfl⟩
    · exact h₂
    · exact h₂.congr rfl rfl rfl
  obtain ⟨G₄, h₄⟩ := pagingMaps_spec h₃ hargsId hid hclean₄
  obtain ⟨G₅, h₅⟩ := pagingMaps_spec h₄ hargsHhdm hhhdm hclean₅
  refine ⟨G₅, ?_⟩
  have hreqs : (initRegions kb pmrs memEnd).flatMap Region.reqs =
      ((pmrs.map (Pmr.region kb)).flatMap Region.reqs ++ (identityRegion memEnd).reqs) ++
        (hhdmRegion memEnd).reqs := by
    simp [initRegions, List.flatMap_append]
  rw [hreqs, mapAll_append, mapAll_append]
  exact h₅.congr rfl rfl rfl

/-- On memory that is zero at boot `paging_init` finds only zeroed frames. -/
theorem pagingInit_zeroed {s₀ s : Mmu} {handover : Handover} {kb : KernelBase} {pmrs : List Pmr}
    {memmap : List MmapEntry} {memEnd : Word} (hz : ZonesOk s₀.pmm)
    (hsmall : s₀.pmm.memSize.toNat ≤ 2 ^ 52) (hnew : s₀.created = []) (hzeroed : Zeroed s₀)
    (hkb : handover.kernelBase = some kb) (hpmrs : handover.pmrs = some pmrs)
    (hmemmap : handover.memmap = some memmap) (hend : getMemSize memmap = .ok memEnd)
    (hargs : ∀ r ∈ initRegions kb pmrs memEnd, ∀ q ∈ r.reqs, MapArgs q.p q.flags)
    (hinit : pagingInit s₀ handover = .ok s) : Zeroed s := by
  obtain ⟨root, s₁, s₂, s₃, s₄, s₅, hcreate, hmapPmrs, hsay, hid, hhhdm, rfl⟩ :=
    pagingInit_stages hkb hpmrs hmemmap hend hinit
  obtain ⟨hargsPmrs, hargsId, hargsHhdm⟩ := initRegions_forall.mp hargs
  obtain ⟨hz₁, -⟩ := hzeroed.create hz (by rw [hnew]; simp) (pagingCreate_spec hcreate)
  have h₁ := pagingCreate_tables hz hsmall hnew hcreate hz₁.clean
  have hz₂ := pagingMapPmrs_zeroed h₁ hargsPmrs hz₁ hmapPmrs
  obtain ⟨G₂, h₂⟩ := pagingMapPmrs_spec h₁ hargsPmrs hmapPmrs hz₂.clean
  have h₃ : PageTables s₃ root G₂
      (mapAll (fun _ => none) ((pmrs.map (Pmr.region kb)).flatMap Region.reqs)) ∧ Zeroed s₃ := by
    rcases hsay with rfl | ⟨msg, rfl⟩
    · exact ⟨h₂, hz₂⟩
    · exact ⟨h₂.congr rfl rfl rfl, hz₂.congr rfl rfl⟩
  have hz₄ := pagingMaps_zeroed h₃.1 hargsId h₃.2 hid
  obtain ⟨G₄, h₄⟩ := pagingMaps_spec h₃.1 hargsId hid hz₄.clean
  exact (pagingMaps_zeroed h₄ hargsHhdm hz₄ hhhdm).congr rfl rfl

/-- **`paging_init` builds exactly the intended address space.** A canonical page is translated
exactly when it lies in a protected memory range, in the identity range or in the higher half; a page
of a protected memory range goes to its distance from the kernel's base (rounded down to its page, if
the two bases of the kernel differ within a page), identity pages to themselves, pages of the higher
half to `V2P(v)`. -/
theorem pagingInit_address_space {s₀ s : Mmu} {handover : Handover} {kb : KernelBase}
    {pmrs : List Pmr} {memmap : List MmapEntry} {memEnd : Word} (hboot : PmmBooted s₀.pmm)
    (hsmall : s₀.pmm.memSize.toNat ≤ 2 ^ 52) (hnew : s₀.created = [])
    (hkb : handover.kernelBase = some kb) (hpmrs : handover.pmrs = some pmrs)
    (hmemmap : handover.memmap = some memmap) (hend : getMemSize memmap = .ok memEnd)
    (hspace : SpaceOk kb pmrs memEnd) (hinit : pagingInit s₀ handover = .ok s)
    (hclean : CleanTables s) :
    ∀ v, Canonical v → v.toNat % 4096 = 0 →
      (translate s.phys s.cr3 v ≠ none ↔
        (∃ e ∈ pmrs, e.Holds v) ∨ InIdentity memEnd v ∨ InHhdm memEnd v) ∧
      (∀ e ∈ pmrs, e.Holds v → ∃ f, translate s.phys s.cr3 v =
          some (alignDown (kb.physicalBaseAddress + (v - kb.virtualBaseAddress)) pageSize, f) ∧
        (kb.physicalBaseAddress.toNat % 4096 = kb.virtualBaseAddress.toNat % 4096 →
          alignDown (kb.physicalBaseAddress + (v - kb.virtualBaseAddress)) pageSize =
            kb.physicalBaseAddress + (v - kb.virtualBaseAddress)) ∧
        (f &&& pageWritable = pageWritable ↔ e.permissions &&& pmrWritable ≠ 0)) ∧
      (InIdentity memEnd v → ∃ f, translate s.phys s.cr3 v = some (v, f) ∧
        f &&& pageWritable = pageWritable) ∧
      (InHhdm memEnd v → ∃ f, translate s.phys s.cr3 v = some (v2p v, f) ∧
        f &&& pageWritable = pageWritable) := by
  obtain ⟨G, hG⟩ := pagingInit_tables hboot.zones hsmall hnew hkb hpmrs hmemmap hend
    hspace.regions_args hinit hclean
  intro v hv halign
  rw [hG.tables.translate_eq v]
  have hget := fun {r} (hr : r ∈ initRegions kb pmrs memEnd) (hholds : r.Holds v) =>
    regions_get hspace.regions_ok hspace.regions_disjoint hr hholds halign
  have hid : identityRegion memEnd ∈ initRegions kb pmrs memEnd := by simp [initRegions]
  have hhhdm : hhdmRegion memEnd ∈ initRegions kb pmrs memEnd := by simp [initRegions]
  have hpmr : ∀ e ∈ pmrs, e.region kb ∈ initRegions kb pmrs memEnd :=
    fun e he => List.mem_append_left _ (List.mem_map_of_mem he)
  refine ⟨⟨?_, ?_⟩, ?_, ?_, ?_⟩
  · intro hmapped
    obtain ⟨r, hr, hholds⟩ := regions_none hspace.regions_ok hv halign hmapped
    rcases SpaceOk.mem_regions hr with ⟨e, he, rfl⟩ | rfl | rfl
    · exact Or.inl ⟨e, he, (hspace.pmr_holds he v).mp hholds⟩
    · exact Or.inr (Or.inl ((hspace.identity_holds v).mp hholds))
    · exact Or.inr (Or.inr ((hspace.hhdm_holds v).mp hholds))
  · rintro (⟨e, he, hin⟩ | hin | hin)
    · rw [hget (hpmr e he) ((hspace.pmr_holds he v).mpr hin)]
      simp
    · rw [hget hid ((hspace.identity_holds v).mpr hin)]
      simp
    · rw [hget hhhdm ((hspace.hhdm_holds v).mpr hin)]
      simp
  · intro e he hin
    rw [hget (hpmr e he) ((hspace.pmr_holds he v).mpr hin), SpaceOk.pmr_target]
    refine ⟨_, rfl, ?_, ?_⟩
    · intro hbases
      apply alignDown_page_of_mod
      rw [BitVec.toNat_add, BitVec.toNat_sub]
      have h1 := kb.virtualBaseAddress.isLt
      omega
    · show (if e.permissions &&& pmrWritable ≠ 0 then _ else _) &&& pageWritable = _ ↔ _
      split
      · rename_i hw
        exact iff_of_true (by decide) hw
      · rename_i hw
        exact iff_of_false (by decide) hw
  · intro hin
    rw [hget hid ((hspace.identity_holds v).mpr hin), SpaceOk.identity_target,
      alignDown_page_of_mod halign, identityRegion_flags]
    exact ⟨_, rfl, by decide⟩
  · intro hin
    rw [hget hhhdm ((hspace.hhdm_holds v).mpr hin), SpaceOk.hhdm_target, hhdmRegion_flags,
      alignDown_page_of_mod]
    · exact ⟨_, rfl, by decide⟩
    · rw [SpaceOk.toNat_v2p hin, show vaHhdm.toNat = 2 ^ 64 - 2 ^ 47 by decide]
      omega

/-! ### The small machine

A handover with two pages of memory beyond the first one, and one writable page of kernel. -/

def tinyHandover : Handover where
  memmap := some [⟨0, 0x3000, memUsable⟩]
  pmrs := some [⟨0xffffffff80000000, 0x1000, pmrWritable⟩]
  kernelBase := some ⟨0x200000, 0xffffffff80000000⟩
  hhdm := some vaHhdm

theorem tinyHandover_space :
    SpaceOk ⟨0x200000, 0xffffffff80000000⟩ [⟨0xffffffff80000000, 0x1000, pmrWritable⟩] 0x3000 := by
  have hholds : ∀ v, Pmr.Holds ⟨0xffffffff80000000, 0x1000, pmrWritable⟩ v →
      0xffffffff80000000 ≤ v.toNat ∧ v.toNat < 0xffffffff80001000 := fun v h => h
  refine ⟨?_, ?_, ?_, List.pairwise_singleton _ _, ?_, by decide, by decide, by decide⟩
  · simp
  · simp
  · intro e he v hv
    rw [List.mem_singleton.mp he] at hv
    have := hholds v hv
    rw [BitVec.toNat_add, BitVec.toNat_sub]
    show (0x200000 + (2 ^ 64 - 0xffffffff80000000 + v.toNat) % 2 ^ 64) % 2 ^ 64 < 2 ^ 52
    omega
  · intro e he v hv
    rw [List.mem_singleton.mp he] at hv
    have := hholds v hv
    refine ⟨?_, ?_⟩
    · rintro ⟨-, h2⟩
      have h2' : v.toNat < 0x3000 := h2
      omega
    · rintro ⟨-, h2⟩
      have h2' : v.toNat < 0xffff800000000000 + 0x3000 := h2
      omega

theorem tinyHandover_init : ∃ s, pagingInit smallMmu tinyHandover = .ok s ∧ Zeroed s := by
  obtain ⟨s, hinit⟩ := Res.exists_of_isOk (x := pagingInit smallMmu tinyHandover) (by decide +kernel)
  exact ⟨s, hinit, pagingInit_zeroed smallPmm_booted.zones smallPmm_small rfl smallMmu_zeroed rfl rfl
    rfl rfl tinyHandover_space.regions_args hinit⟩

/-- The last page of the higher half of the small machine. -/
theorem pagingInit_address_space_tiny : ∃ s, pagingInit smallMmu tinyHandover = .ok s ∧
    CleanTables s ∧ ∃ f, translate s.phys s.cr3 0xffff800000002000 = some (0x2000, f) := by
  obtain ⟨s, hinit, hzeroed⟩ := tinyHandover_init
  obtain ⟨-, -, -, hhhdm⟩ := pagingInit_address_space smallPmm_booted smallPmm_small rfl rfl rfl rfl
    rfl tinyHandover_space hinit hzeroed.clean 0xffff800000002000 (by unfold Canonical; decide)
    (by decide)
  obtain ⟨f, hf, -⟩ := hhhdm ⟨by decide, by decide⟩
  exact ⟨s, hinit, hzeroed.clean, f, hf⟩

end Cerberos
