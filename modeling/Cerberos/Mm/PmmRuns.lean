/-
# Cerberos.Mm.PmmRuns — page frames are handed out once.

A run of the frame allocator carries the ranges that are LIVE as a ghost, each with the zone it was
asked for. The invariant `FramesOk` reads both bitmaps page by page: a bit is clear exactly when the
page is usable and in no live range. Everything a caller relies on follows from it, the zone search
of `pmm_free` included.
-/
import Cerberos.Mm.PmmInit

namespace Cerberos

open Cerberos.Base

/-! ## Live ranges -/

/-- A range of frames handed out: the zone asked for, the address and the number of pages. -/
structure Frames where
  zone : ZoneE
  addr : Word
  size : Word
  deriving DecidableEq, Repr

/-- The page is one of the range. -/
def Frames.Has (r : Frames) (page : ℕ) : Prop :=
  r.addr.toNat / 4096 ≤ page ∧ page < r.addr.toNat / 4096 + r.size.toNat

/-- The ranges share no page. -/
def FramesDisjoint (r r' : Frames) : Prop := ∀ page, r.Has page → ¬ r'.Has page

theorem FramesDisjoint.symm {r r' : Frames} (h : FramesDisjoint r r') : FramesDisjoint r' r :=
  fun page h' h'' => h page h'' h'

/-- A run of `pmm_alloc` and `pmm_free` after `pmm_init`, with the live ranges. -/
inductive PmmRun (memmap : List MmapEntry) : Pmm → List Frames → Prop
  | init {area : Mem} {allocArea memSize : Word} {handover : Handover} {p : Pmm} :
      handover.memmap = some memmap → MemmapOk memmap → getMemSize memmap = .ok memSize →
      16 * 2 ^ 20 ≤ memSize.toNat → AreaFits allocArea memSize →
      pmmInit (Pmm.static area allocArea) handover = .ok p → PmmRun memmap p []
  | alloc {p p' : Pmm} {live : List Frames} {z : ZoneE} {size addr : Word} :
      PmmRun memmap p live → 1 ≤ size.toNat → pmmAlloc p z size = .ok (addr, p') →
      PmmRun memmap p' (⟨z, addr, size⟩ :: live)
  | free {p p' : Pmm} {live : List Frames} {r : Frames} :
      PmmRun memmap p live → r ∈ live → pmmFree p r.addr r.size = .ok p' →
      PmmRun memmap p' (live.erase r)

/-! ## The invariant -/

/-- Where a live range lies: whole pages of its zone. -/
structure Frames.Placed (r : Frames) (p : Pmm) : Prop where
  align : r.addr.toNat % 4096 = 0
  size : 1 ≤ r.size.toNat
  low : r.zone.firstPage ≤ r.addr.toNat / 4096
  high : r.addr.toNat / 4096 + r.size.toNat ≤ r.zone.firstPage + p.pages r.zone

theorem Frames.Placed.same {r : Frames} {p p' : Pmm} (h : r.Placed p) (hs : SameZones p p') :
    r.Placed p' := ⟨h.align, h.size, h.low, by rw [hs.pages]; exact h.high⟩

/-- **What holds along every run of the frame allocator.** -/
structure FramesOk (memmap : List MmapEntry) (p : Pmm) (live : List Frames) : Prop where
  zones : ZonesOk p
  apart : BitmapsApart p
  placed : ∀ r ∈ live, r.Placed p
  usable : ∀ r ∈ live, ∀ page, r.Has page → UsablePage memmap page
  disjoint : live.Pairwise FramesDisjoint
  bits : ∀ z, ∀ i < p.pages z, p.bit z i = false ↔
    UsablePage memmap (z.firstPage + i) ∧ ∀ r ∈ live, ¬ r.Has (z.firstPage + i)

theorem ZonesOk.pages_lt {p : Pmm} (h : ZonesOk p) (z : ZoneE) :
    (z.firstPage + p.pages z) * 4096 < 2 ^ 64 := by
  have h1 := h.pages_dma
  have h2 := h.pages_normal
  have h3 := p.memSize.isLt
  have h4 := h.room
  cases z with
  | dma =>
      rw [h1]
      decide
  | normal =>
      rw [h2]
      simp only [ZoneE.firstPage]
      omega

theorem FramesOk.alloc {memmap : List MmapEntry} {p p' : Pmm} {live : List Frames}
    (h : FramesOk memmap p live) {z : ZoneE} {size addr : Word} (hsize : 1 ≤ size.toNat)
    (hok : pmmAlloc p z size = .ok (addr, p')) :
    FramesOk memmap p' (⟨z, addr, size⟩ :: live) := by
  obtain ⟨idx, spec⟩ := pmmAlloc_spec hsize hok
  have hfits : idx.toNat + size.toNat ≤ p.pages z := spec.run.fits
  have hmarks := Marks.of_set h.zones h.apart spec.same hfits spec.area
  have haddr : addr.toNat = (z.firstPage + idx.toNat) * 4096 := by
    have hoff := h.zones.offset z
    have hroom := h.zones.pages_lt z
    rw [spec.addr_eq, BitVec.toNat_add, BitVec.toNat_mul, hoff, show pageSize.toNat = 4096 from rfl]
    omega
  have hfirst : addr.toNat / 4096 = z.firstPage + idx.toNat := by omega
  -- the new range was clear: usable, and in no live range
  have hfresh : ∀ page, (⟨z, addr, size⟩ : Frames).Has page →
      UsablePage memmap page ∧ ∀ r ∈ live, ¬ r.Has page := by
    rintro page ⟨h1, h2⟩
    simp only [hfirst] at h1 h2
    obtain ⟨i, rfl⟩ := Nat.exists_eq_add_of_le (show z.firstPage ≤ page by omega)
    have hclear := spec.run.bits i (by omega) (by omega)
    exact (h.bits z i (by omega)).mp hclear
  refine ⟨h.zones.same spec.same, h.apart.same spec.same, ?_, ?_, ?_, ?_⟩
  · intro r hr
    rcases List.mem_cons.mp hr with rfl | hr
    · refine ⟨by rw [haddr]; omega, hsize, ?_, ?_⟩
      · show z.firstPage ≤ addr.toNat / 4096
        omega
      · show addr.toNat / 4096 + size.toNat ≤ z.firstPage + p'.pages z
        rw [spec.same.pages]
        omega
    · exact (h.placed r hr).same spec.same
  · intro r hr page hpage
    rcases List.mem_cons.mp hr with rfl | hr
    · exact (hfresh page hpage).1
    · exact h.usable r hr page hpage
  · refine List.pairwise_cons.mpr ⟨?_, h.disjoint⟩
    intro r hr page hpage
    exact (hfresh page hpage).2 r hr
  · intro z' i hi
    rw [spec.same.pages] at hi
    have hhas : (⟨z, addr, size⟩ : Frames).Has (z'.firstPage + i) ↔
        z.firstPage + idx.toNat ≤ z'.firstPage + i ∧
          z'.firstPage + i < z.firstPage + idx.toNat + size.toNat := by
      unfold Frames.Has
      rw [hfirst]
    rw [hmarks.bits z' i hi, List.forall_mem_cons, hhas]
    split
    · rename_i hin
      simp [hin]
    · rename_i hin
      rw [h.bits z' i hi]
      simp only [hin, not_false_eq_true, true_and]

/-- `pmm_free` finds the zone a live range came from. -/
theorem Frames.Placed.findZone {r : Frames} {p : Pmm} (h : r.Placed p) (hz : ZonesOk p) :
    pmmFindZone p r.addr ZoneE.all = some r.zone := by
  obtain ⟨h1, h2, h3, h4⟩ := h
  have hd := hz.pages_dma
  have hn := hz.pages_normal
  have hborder := hz.zoneEnd_dma
  have hoff := hz.offset
  have hroom := hz.room
  unfold ZoneE.all pmmFindZone
  cases hzone : r.zone with
  | dma =>
      rw [hzone] at h3 h4
      simp only [ZoneE.firstPage] at h3 h4
      rw [if_pos]
      refine ⟨?_, ?_⟩
      · rw [BitVec.le_def, hoff .dma]
        simp [ZoneE.firstPage]
      · rw [BitVec.lt_def, hborder]
        omega
  | normal =>
      rw [hzone, hn] at h4
      rw [hzone] at h3
      simp only [ZoneE.firstPage] at h3 h4
      rw [if_neg]
      · unfold pmmFindZone
        rw [if_pos]
        refine ⟨?_, ?_⟩
        · rw [BitVec.le_def, hoff .normal]
          simp only [ZoneE.firstPage]
          omega
        · show r.addr.toNat < p.memSize.toNat
          omega
      · rintro ⟨-, hlt⟩
        rw [BitVec.lt_def, hborder] at hlt
        omega

/-- `pmm_free` of a live range clears the bits of its pages. -/
theorem Frames.Placed.freed {r : Frames} {p p' : Pmm} (h : r.Placed p) (hz : ZonesOk p)
    (hok : pmmFree p r.addr r.size = .ok p') :
    ∃ idx, Freed p r.addr r.size p' r.zone idx ∧
      r.zone.firstPage + idx.toNat = r.addr.toNat / 4096 := by
  obtain ⟨z, idx, spec⟩ := pmmFree_spec hok
  have hzone : z = r.zone := by
    have := spec.zone
    rw [h.findZone hz] at this
    exact (Option.some.inj this).symm
  subst hzone
  refine ⟨idx, spec, ?_⟩
  have hlow := h.low
  have hoff := hz.offset r.zone
  rw [spec.idx_eq, BitVec.toNat_udiv, BitVec.toNat_sub_of_le (by rw [BitVec.le_def, hoff]; omega),
    hoff, show pageSize.toNat = 4096 from rfl]
  omega

theorem FramesOk.free {memmap : List MmapEntry} {p p' : Pmm} {live : List Frames}
    (h : FramesOk memmap p live) {r : Frames} (hr : r ∈ live)
    (hok : pmmFree p r.addr r.size = .ok p') : FramesOk memmap p' (live.erase r) := by
  have hplaced := h.placed r hr
  obtain ⟨idx, spec, hidx⟩ := hplaced.freed h.zones hok
  have hhigh := hplaced.high
  have hmarks := Marks.of_clear h.zones h.apart spec.same (z := r.zone) (by omega) spec.area
  rw [hidx] at hmarks
  have hperm := List.perm_cons_erase hr
  have hpair := (hperm.pairwise_iff fun hd => FramesDisjoint.symm hd).mp h.disjoint
  obtain ⟨hrest, hdisj⟩ := List.pairwise_cons.mp hpair
  refine ⟨h.zones.same spec.same, h.apart.same spec.same, ?_, ?_, hdisj, ?_⟩
  · exact fun r' hr' => (h.placed r' (List.mem_of_mem_erase hr')).same spec.same
  · exact fun r' hr' => h.usable r' (List.mem_of_mem_erase hr')
  · intro z i hi
    rw [spec.same.pages] at hi
    rw [hmarks.bits z i hi]
    split
    · -- a page of the freed range
      rename_i hin
      have hhas : r.Has (z.firstPage + i) := hin
      exact iff_of_true rfl ⟨h.usable r hr _ hhas, fun r' hr' => hrest r' hr' _ hhas⟩
    · rename_i hin
      have hhas : ¬ r.Has (z.firstPage + i) := hin
      rw [h.bits z i hi]
      refine and_congr_right fun _ => ?_
      constructor
      · exact fun hall r' hr' => hall r' (List.mem_of_mem_erase hr')
      · intro hall r' hr'
        rcases List.mem_cons.mp (hperm.mem_iff.mp hr') with rfl | hr'
        · exact hhas
        · exact hall r' hr'

theorem PmmRun.ok {memmap : List MmapEntry} {p : Pmm} {live : List Frames}
    (h : PmmRun memmap p live) : FramesOk memmap p live := by
  induction h with
  | init hhand hmap hsize hroom hfit hok =>
      obtain ⟨p', hok', -, hzones, hapart, hbits, -⟩ := pmmInit_spec hhand hmap hsize hroom hfit
      rw [hok] at hok'
      cases hok'
      refine ⟨hzones, hapart, by simp, by simp, List.Pairwise.nil, ?_⟩
      intro z i hi
      rw [hbits z i hi]
      simp
  | alloc _ hsize hok ih => exact ih.alloc hsize hok
  | free _ hr hok ih => exact ih.free hr hok

/-! ## The contract -/

/-- Where the address range of a zone ends. -/
def zoneLimit (p : Pmm) : ZoneE → ℕ
  | .dma => (p.memZone .normal).offset.toNat
  | .normal => p.memSize.toNat

/-- **Page frames are handed out once.** Live ranges share no page, lie in their zone and in usable
memory, and are freed into the zone they came from; a bit is clear exactly when its page is usable
and in no live range. -/
theorem pmmRun_frames {memmap : List MmapEntry} {p : Pmm} {live : List Frames}
    (h : PmmRun memmap p live) :
    live.Pairwise FramesDisjoint ∧
    (∀ r ∈ live, r.addr.toNat % 4096 = 0 ∧ (p.memZone r.zone).offset.toNat ≤ r.addr.toNat ∧
      r.addr.toNat + r.size.toNat * 4096 ≤ zoneLimit p r.zone ∧
      (∀ page, r.Has page → UsablePage memmap page) ∧
      pmmFindZone p r.addr ZoneE.all = some r.zone) ∧
    ∀ z (i : Word), i.toNat < p.pages z →
      (bitmapGet p.area (p.memZone z).bitmap i = false ↔
        UsablePage memmap (z.firstPage + i.toNat) ∧
          ∀ r ∈ live, ¬ r.Has (z.firstPage + i.toNat)) := by
  have hrun := h.ok
  refine ⟨hrun.disjoint, ?_, ?_⟩
  · intro r hr
    have hfind := (hrun.placed r hr).findZone hrun.zones
    obtain ⟨h1, h2, h3, h4⟩ := hrun.placed r hr
    refine ⟨h1, ?_, ?_, hrun.usable r hr, hfind⟩
    · rw [hrun.zones.offset]
      omega
    · have hd := hrun.zones.pages_dma
      have hn := hrun.zones.pages_normal
      have hoff := hrun.zones.offset .normal
      have hroom := hrun.zones.room
      unfold zoneLimit
      cases hzone : r.zone with
      | dma =>
          rw [hzone, hd] at h4
          simp only [ZoneE.firstPage] at h4 hoff ⊢
          omega
      | normal =>
          rw [hzone, hn] at h4
          simp only [ZoneE.firstPage] at h4 ⊢
          omega
  · intro z i hi
    rw [bitmapGet_eq]
    exact hrun.bits z i.toNat hi

/-- A machine with 16 MiB and 64 KiB of usable memory hands out two frames above 16 MiB, and three more:
they have no page in common with the first. -/
theorem pmmRun_frames_two : ∃ p a b,
    PmmRun [⟨0, 0x1010000, memUsable⟩] p [⟨.normal, b, 3⟩, ⟨.normal, a, 2⟩] ∧
      FramesDisjoint ⟨.normal, b, 3⟩ ⟨.normal, a, 2⟩ ∧
      pmmFindZone p a ZoneE.all = some .normal ∧ pmmFindZone p b ZoneE.all = some .normal := by
  have hok : (do
      let p ← pmmInit (Pmm.static (fun _ => 0) 0x2000)
        ⟨some [⟨0, 0x1010000, memUsable⟩], none, none, none⟩
      let first ← pmmAlloc p .normal 2
      pmmAlloc first.2 .normal 3).isOk = true := by
    decide +kernel
  obtain ⟨⟨b, p₂⟩, hcall⟩ := Res.exists_of_isOk hok
  obtain ⟨p, hinit, hcall⟩ := Res.bind_eq_ok.mp hcall
  obtain ⟨⟨a, p₁⟩, halloc, halloc'⟩ := Res.bind_eq_ok.mp hcall
  have hmap : MemmapOk [⟨0, 0x1010000, memUsable⟩] :=
    ⟨List.pairwise_singleton _ _, List.pairwise_singleton _ _, by decide, by decide⟩
  have hrun : PmmRun [⟨0, 0x1010000, memUsable⟩] p₁ [⟨.normal, a, 2⟩] :=
    .alloc (.init rfl hmap rfl (by decide) ⟨by decide, by decide⟩ hinit) (by decide) halloc
  have hrun' : PmmRun [⟨0, 0x1010000, memUsable⟩] p₂ [⟨.normal, b, 3⟩, ⟨.normal, a, 2⟩] :=
    .alloc hrun (by decide) halloc'
  obtain ⟨hapart, hplaced, -⟩ := pmmRun_frames hrun'
  have ha := hplaced ⟨.normal, a, 2⟩ (List.mem_cons_of_mem _ List.mem_cons_self)
  have hb := hplaced ⟨.normal, b, 3⟩ List.mem_cons_self
  refine ⟨p₂, a, b, hrun', ?_, ha.2.2.2.2, hb.2.2.2.2⟩
  exact (List.pairwise_cons.mp hapart).1 _ List.mem_cons_self

end Cerberos
