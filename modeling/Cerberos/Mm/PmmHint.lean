/-
# Cerberos.Mm.PmmHint — what `first_free_idx` hides.

`pmm_alloc` searches a zone from its hint on and moves the hint behind the range it hands out.
`pmm_free` pulls the hint back. As long as every request is served from the LOWEST free page of its
zone, no free page is below the hint and the search is complete. A request for several pages that has
to skip a shorter run leaves that run below the hint, and a later call panics although a free page is
there.
-/
import Cerberos.Mm.PmmRuns

namespace Cerberos

open Cerberos.Base

/-! ## Complete searches -/

/-- `n` consecutive free pages of the zone. -/
def FreeRun (p : Pmm) (z : ZoneE) (n : ℕ) : Prop :=
  ∃ i, i + n ≤ p.pages z ∧ ∀ j, i ≤ j → j < i + n → p.bit z j = false

/-- No free page of the zone lies below the hint. -/
def HintLow (p : Pmm) (z : ZoneE) : Prop :=
  ∀ i < p.pages z, p.bit z i = false → (p.memZone z).firstFreeIdx.toNat ≤ i

/-- The request can be served from the lowest free page: that page starts `n` free ones. -/
def LowestServes (p : Pmm) (z : ZoneE) (n : ℕ) : Prop :=
  ∀ i < p.pages z, p.bit z i = false → (∀ j < i, p.bit z j = true) →
    i + n ≤ p.pages z ∧ ∀ j, i ≤ j → j < i + n → p.bit z j = false

/-- A request for one page is always served from the lowest free one. -/
theorem lowestServes_one (p : Pmm) (z : ZoneE) : LowestServes p z 1 := by
  intro i hi hclear _
  refine ⟨hi, ?_⟩
  intro j h1 h2
  rw [show j = i by omega]
  exact hclear

/-- **With the hint in place the search is complete.** -/
theorem HintLow.complete {p : Pmm} {z : ZoneE} (h : HintLow p z) {n : Word} (hn : 1 ≤ n.toNat) :
    (∃ r, pmmAlloc p z n = .ok r) ↔ FreeRun p z n.toNat := by
  constructor
  · rintro ⟨⟨addr, p'⟩, hok⟩
    obtain ⟨idx, spec⟩ := pmmAlloc_spec hn hok
    exact ⟨idx.toNat, spec.run.fits, spec.run.bits⟩
  · rintro ⟨i, hfits, hbits⟩
    have hlow := h i (by omega) (hbits i (le_refl i) (by omega))
    have hfound := (bitmapFindRange_le hn ⟨hlow, hfits, hbits⟩).1
    unfold pmmAlloc
    dsimp only
    rw [if_neg hfound]
    exact ⟨_, rfl⟩

/-! ## What the calls do to the hint -/

/-- **A request served from the lowest free page keeps the hint in place.** -/
theorem HintLow.alloc {memmap : List MmapEntry} {p p' : Pmm} {live : List Frames}
    (hframes : FramesOk memmap p live) (h : ∀ z, HintLow p z) {z : ZoneE} {n addr : Word}
    (hn : 1 ≤ n.toNat) (hserves : LowestServes p z n.toNat)
    (hok : pmmAlloc p z n = .ok (addr, p')) (z' : ZoneE) : HintLow p' z' := by
  have spec := pmmAlloc_found hn hok
  have hfirst : ∀ r, BitRun p.area (p.memZone z).bitmap false (p.memZone z).firstFreeIdx.toNat
      n.toNat r → _ ≤ r := fun r hr => (bitmapFindRange_le hn hr).2
  generalize bitmapFindRange p.area (p.memZone z).bitmap (p.memZone z).firstFreeIdx false n = idx
    at spec hfirst
  have hfits : idx.toNat + n.toNat ≤ p.pages z := spec.run.fits
  have hmarks := Marks.of_set hframes.zones hframes.apart spec.same hfits spec.area
  intro i hi hclear
  rw [spec.same.pages] at hi
  rw [hmarks.bits z' i hi] at hclear
  have hout : ¬ (z.firstPage + idx.toNat ≤ z'.firstPage + i ∧
      z'.firstPage + i < z.firstPage + idx.toNat + n.toNat) := by
    intro hin
    rw [if_pos hin] at hclear
    cases hclear
  rw [if_neg hout] at hclear
  by_cases hzz : z' = z
  · subst hzz
    have hsum : (idx + n).toNat = idx.toNat + n.toNat := by
      have := (p.memZone z').bitmap.size.isLt
      unfold Pmm.pages at hfits
      rw [BitVec.toNat_add]
      omega
    rw [spec.first, hsum]
    by_contra hlt
    -- the search stopped at the lowest free page, so no free page is before `idx`
    have hex : ∃ j, p.bit z' j = false := ⟨i, hclear⟩
    have hlow := Nat.find_spec hex
    have hle : Nat.find hex ≤ i := Nat.find_min' hex hclear
    have hmin : ∀ j < Nat.find hex, p.bit z' j = true := by
      intro j hj
      exact Bool.eq_true_of_not_eq_false (Nat.find_min hex hj)
    obtain ⟨hroom, hrun⟩ := hserves _ (by omega) hlow hmin
    have := hfirst _ ⟨h z' _ (by omega) hlow, hroom, hrun⟩
    omega
  · rw [spec.first_of_ne z' hzz]
    exact h z' i hi hclear

/-- `pmm_free` pulls the hint back to what it frees. -/
theorem HintLow.free {memmap : List MmapEntry} {p p' : Pmm} {live : List Frames}
    (hframes : FramesOk memmap p live) (h : ∀ z, HintLow p z) {r : Frames} (hr : r ∈ live)
    (hok : pmmFree p r.addr r.size = .ok p') (z' : ZoneE) : HintLow p' z' := by
  have hplaced := hframes.placed r hr
  obtain ⟨idx, spec, hidx⟩ := hplaced.freed hframes.zones hok
  have hhigh := hplaced.high
  have hmarks := Marks.of_clear hframes.zones hframes.apart spec.same (z := r.zone) (by omega)
    spec.area
  intro i hi hclear
  rw [spec.same.pages] at hi
  rw [hmarks.bits z' i hi] at hclear
  by_cases hzz : z' = r.zone
  · subst hzz
    rw [spec.first]
    by_cases hlt : idx < (p.memZone r.zone).firstFreeIdx
    · have hlt' : idx.toNat < (p.memZone r.zone).firstFreeIdx.toNat := hlt
      rw [if_pos hlt]
      split at hclear
      · omega
      · have := h r.zone i hi hclear
        omega
    · rw [if_neg hlt]
      rw [BitVec.not_lt, BitVec.le_def] at hlt
      split at hclear
      · omega
      · exact h r.zone i hi hclear
  · rw [spec.first_of_ne z' hzz]
    rw [if_neg] at hclear
    · exact h z' i hi hclear
    · rintro ⟨h1, h2⟩
      have heq : z'.firstPage + i = r.zone.firstPage + (z'.firstPage + i - r.zone.firstPage) := by
        omega
      exact hzz (hframes.zones.zone_eq hi (by omega) heq)

/-! ## Runs -/

/-- A run of `pmm_alloc` and `pmm_free` in which every request is served from the lowest free page of
its zone. -/
inductive HintRun (memmap : List MmapEntry) : Pmm → List Frames → Prop
  | init {area : Mem} {allocArea memSize : Word} {handover : Handover} {p : Pmm} :
      handover.memmap = some memmap → MemmapOk memmap → getMemSize memmap = .ok memSize →
      16 * 2 ^ 20 ≤ memSize.toNat → AreaFits allocArea memSize →
      pmmInit (Pmm.static area allocArea) handover = .ok p → HintRun memmap p []
  | alloc {p p' : Pmm} {live : List Frames} {z : ZoneE} {size addr : Word} :
      HintRun memmap p live → 1 ≤ size.toNat → LowestServes p z size.toNat →
      pmmAlloc p z size = .ok (addr, p') → HintRun memmap p' (⟨z, addr, size⟩ :: live)
  | free {p p' : Pmm} {live : List Frames} {r : Frames} :
      HintRun memmap p live → r ∈ live → pmmFree p r.addr r.size = .ok p' →
      HintRun memmap p' (live.erase r)

theorem HintRun.run {memmap : List MmapEntry} {p : Pmm} {live : List Frames}
    (h : HintRun memmap p live) : PmmRun memmap p live := by
  induction h with
  | init hhand hmap hsize hroom hfit hok => exact .init hhand hmap hsize hroom hfit hok
  | alloc _ hsize _ hok ih => exact .alloc ih hsize hok
  | free _ hr hok ih => exact .free ih hr hok

theorem HintRun.low {memmap : List MmapEntry} {p : Pmm} {live : List Frames}
    (h : HintRun memmap p live) : ∀ z, HintLow p z := by
  induction h with
  | init hhand hmap hsize hroom hfit hok =>
      obtain ⟨p', hok', -, -, -, -, htally⟩ := pmmInit_spec hhand hmap hsize hroom hfit
      rw [hok] at hok'
      cases hok'
      exact fun z => (htally z).first
  | alloc hrun hsize hserves hok ih => exact HintLow.alloc hrun.run.ok ih hsize hserves hok
  | free hrun hr hok ih => exact HintLow.free hrun.run.ok ih hr hok

/-- **`pmm_alloc` is complete in every state such a run reaches**: it returns exactly when the zone has
the run of free pages that was asked for. -/
theorem hintRun_complete {memmap : List MmapEntry} {p : Pmm} {live : List Frames}
    (h : HintRun memmap p live) (z : ZoneE) {n : Word} (hn : 1 ≤ n.toNat) :
    (∃ r, pmmAlloc p z n = .ok r) ↔ FreeRun p z n.toNat :=
  (h.low z).complete hn

/-- On a machine with a reserved page behind the first one above 16 MiB, the first two pages are handed
out one by one and the first is given back: a page is there again, and two in a row are not. -/
theorem hintRun_complete_border : ∃ p live, HintRun borderMap p live ∧
    (∃ r, pmmAlloc p .normal 1 = .ok r) ∧ ¬ FreeRun p .normal 2 := by
  have hok : (do
      let p ← pmmInit (Pmm.static (fun _ => 0) 0x2000) ⟨some borderMap, none, none, none⟩
      let first ← pmmAlloc p .normal 1
      let second ← pmmAlloc first.2 .normal 1
      let p ← pmmFree second.2 first.1 1
      if 0 < p.pages .normal ∧ p.bit .normal 0 = false ∧ ¬ (pmmAlloc p .normal 2).isOk then .ok ()
      else .error .fault : Res Unit).isOk = true := by
    decide +kernel
  obtain ⟨⟨⟩, hcall⟩ := Res.exists_of_isOk hok
  obtain ⟨p₀, hinit, hcall⟩ := Res.bind_eq_ok.mp hcall
  obtain ⟨⟨a, p₁⟩, halloc, hcall⟩ := Res.bind_eq_ok.mp hcall
  obtain ⟨⟨b, p₂⟩, halloc', hcall⟩ := Res.bind_eq_ok.mp hcall
  obtain ⟨p, hfree, hcall⟩ := Res.bind_eq_ok.mp hcall
  obtain ⟨hpages, hbit, hnone⟩ := Res.of_check hcall
  have hrun₀ : HintRun borderMap p₀ [] :=
    .init rfl borderMap_ok rfl (by decide) ⟨by decide, by decide⟩ hinit
  have hrun₁ := hrun₀.alloc (by decide) (lowestServes_one p₀ .normal) halloc
  have hrun₂ := hrun₁.alloc (by decide) (lowestServes_one p₁ .normal) halloc'
  have hrun := hrun₂.free (List.mem_cons_of_mem _ List.mem_cons_self) hfree
  refine ⟨p, _, hrun, (hintRun_complete hrun .normal (by decide)).mpr ⟨0, hpages, ?_⟩, ?_⟩
  · intro j _ hj
    have hj : j < 1 := by simpa using hj
    rw [show j = 0 by omega]
    exact hbit
  · intro htwo
    obtain ⟨r, hr⟩ := (hintRun_complete hrun .normal (show 1 ≤ (2 : Word).toNat by decide)).mpr htwo
    rw [hr] at hnone
    exact hnone rfl

/-- On that map two pages are served from beyond the reserved one; the first page of the zone is then
free, and a call for one page panics. -/
theorem pmmAlloc_hidden : ∃ p live, PmmRun borderMap p live ∧ FreeRun p .normal 1 ∧
    pmmAlloc p .normal 1 =
      .error (.panic "pmm_alloc could not find %lu of free pages." [1]) := by
  have hok : (do
      let p ← pmmInit (Pmm.static (fun _ => 0) 0x2000) ⟨some borderMap, none, none, none⟩
      let r ← pmmAlloc p .normal 2
      if 0 < r.2.pages .normal ∧ r.2.bit .normal 0 = false ∧
        bitmapFindRange r.2.area (r.2.memZone .normal).bitmap (r.2.memZone .normal).firstFreeIdx
          false 1 = -1 then .ok ()
      else .error .fault : Res Unit).isOk = true := by
    decide +kernel
  obtain ⟨⟨⟩, hcall⟩ := Res.exists_of_isOk hok
  obtain ⟨p, hinit, hcall⟩ := Res.bind_eq_ok.mp hcall
  obtain ⟨⟨addr, p'⟩, halloc, hcall⟩ := Res.bind_eq_ok.mp hcall
  have hrun : PmmRun borderMap p' [⟨.normal, addr, 2⟩] :=
    .alloc (.init rfl borderMap_ok rfl (by decide) ⟨by decide, by decide⟩ hinit) (by decide) halloc
  dsimp only at hcall
  obtain ⟨hpages, hbit, hfind⟩ := Res.of_check hcall
  refine ⟨p', _, hrun, ⟨0, hpages, ?_⟩, ?_⟩
  · intro j _ hj
    rw [show j = 0 by omega]
    exact hbit
  · unfold pmmAlloc
    dsimp only
    rw [if_pos hfind]

end Cerberos
