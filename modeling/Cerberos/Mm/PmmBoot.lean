/-
# Cerberos.Mm.PmmBoot — the frame allocator after `pmm_init`.

`pmm_init` fixes the two zones for good: the DMA zone is the first 16 MiB, the normal zone the rest
of memory, one bit for each page. Every later state of the allocator, after ANY calls of `pmm_alloc`
and `pmm_free`, has the same zones (`ZonesOk`).
-/
import Cerberos.Mm.PmmSpec

namespace Cerberos

open Cerberos.Base

/-! ## The loops of `pmm_init` -/

theorem pmmSetEntry_same {entryEnd : Word} :
    ∀ {zs zs' : List ZoneE} {p p' : Pmm} {entryStart : Word},
      pmmSetEntry p entryStart entryEnd zs = .ok (p', zs') → SameZones p p' := by
  intro zs
  induction zs with
  | nil =>
      intro zs' p p' entryStart h
      cases h
  | cons z rest ih =>
      intro zs' p p' entryStart h
      unfold pmmSetEntry at h
      dsimp only at h
      generalize hp₁ : (Pmm.setZone (pmmSetUnused p z _ _) z _) = p₁ at h
      have hsame : SameZones p p₁ := by
        rw [← hp₁]
        exact SameZones.setZone (SameZones.setArea p _) rfl rfl
      by_cases hlast : entryEnd ≤ zoneEnd p rest
      · rw [if_pos hlast] at h
        injection h with h
        injection h with h _
        exact h ▸ hsame
      · rw [if_neg hlast] at h
        exact hsame.trans (ih h)

theorem pmmSetEntries_same :
    ∀ {entries : List MmapEntry} {cursor cursor' : List ZoneE} {p p' : Pmm},
      pmmSetEntries p cursor entries = .ok (p', cursor') → SameZones p p' := by
  intro entries
  induction entries with
  | nil =>
      intro cursor cursor' p p' h
      injection h with h
      injection h with h _
      exact h ▸ SameZones.refl p
  | cons entry entries ih =>
      intro cursor cursor' p p' h
      unfold pmmSetEntries at h
      by_cases hu : entry.type = memUsable
      · rw [if_pos hu] at h
        obtain ⟨c₁, -, h⟩ := Res.bind_eq_ok.mp h
        obtain ⟨⟨p₁, c₂⟩, hset, h⟩ := Res.bind_eq_ok.mp h
        exact (pmmSetEntry_same hset).trans (ih h)
      · rw [if_neg hu] at h
        exact ih h

/-! ## Zones -/

/-- The zones `pmm_init` sets up. -/
structure ZonesOk (p : Pmm) : Prop where
  room : 16 * 2 ^ 20 ≤ p.memSize.toNat
  offset_dma : (p.memZone .dma).offset = 0
  offset_normal : (p.memZone .normal).offset = 16 * mib
  size_dma : (p.memZone .dma).bitmap.size.toNat = 4096
  size_normal : (p.memZone .normal).bitmap.size.toNat = (p.memSize.toNat - 16 * 2 ^ 20) / 4096

theorem ZonesOk.same {p p' : Pmm} (h : ZonesOk p) (hs : SameZones p p') : ZonesOk p' where
  room := by rw [hs.memSize]; exact h.room
  offset_dma := by rw [hs.offset]; exact h.offset_dma
  offset_normal := by rw [hs.offset]; exact h.offset_normal
  size_dma := by rw [hs.bitmap]; exact h.size_dma
  size_normal := by rw [hs.bitmap, hs.memSize]; exact h.size_normal

/-- A zone has fewer than `2 ^ 52` frames. -/
theorem ZonesOk.size_lt {p : Pmm} (h : ZonesOk p) :
    (p.memZone .normal).bitmap.size.toNat < 2 ^ 52 := by
  have h1 := h.size_normal
  have h2 := p.memSize.isLt
  omega

theorem pmmInitZones_zones (area : Mem) (allocArea memSize : Word)
    (hroom : ¬ memSize < 16 * mib) :
    ZonesOk (pmmInitZones { Pmm.static area allocArea with memSize := memSize } ZoneE.all) := by
  have hle : 16 * 2 ^ 20 ≤ memSize.toNat := by
    rw [BitVec.not_lt, BitVec.le_def] at hroom
    exact hroom
  constructor
  case room => exact hle
  case offset_dma => rfl
  case offset_normal => rfl
  case size_dma =>
    show ((16 * mib - 0) / pageSize : Word).toNat = 4096
    decide
  case size_normal =>
    show ((memSize - 16 * mib) / pageSize).toNat = _
    rw [BitVec.toNat_udiv, BitVec.toNat_sub_of_le hle]
    rfl

/-- What `pmm_init` returns has its zones. -/
theorem pmmInit_zones {area : Mem} {allocArea : Word} {handover : Handover} {p : Pmm}
    (h : pmmInit (Pmm.static area allocArea) handover = .ok p) : ZonesOk p := by
  unfold pmmInit at h
  cases hm : handover.memmap with
  | none =>
      rw [hm] at h
      cases h
  | some memmap =>
      rw [hm] at h
      obtain ⟨memSize, -, h⟩ := Res.bind_eq_ok.mp h
      by_cases hroom : memSize < 16 * mib
      · rw [if_pos hroom] at h
        cases h
      · rw [if_neg hroom] at h
        obtain ⟨⟨p₁, c⟩, hset, h⟩ := Res.bind_eq_ok.mp h
        injection h with h
        subst h
        exact (pmmInitZones_zones area allocArea memSize hroom).same (pmmSetEntries_same hset)

/-! ## Frames of the normal zone -/

/-- The frame `t` of the normal zone lies before the hint: no single-frame allocation returns it
again as long as nothing is freed. -/
structure Taken (p : Pmm) (t : Word) : Prop where
  align : t.toNat % 4096 = 0
  low : 16 * 2 ^ 20 ≤ t.toNat
  hint : t.toNat + 4096 ≤ 16 * 2 ^ 20 + 4096 * (p.memZone .normal).firstFreeIdx.toNat
  high : t.toNat + 4096 ≤ p.memSize.toNat

/-- **A single frame is taken afterwards, and it was not before.** -/
theorem pmmAlloc_taken {p p' : Pmm} {t : Word} (hz : ZonesOk p)
    (h : pmmAlloc p .normal 1 = .ok (t, p')) :
    Taken p' t ∧ ∀ t', Taken p t' → Taken p' t' ∧ t' ≠ t := by
  obtain ⟨idx, spec⟩ := pmmAlloc_spec (by decide) h
  have hlow := spec.run.low
  have hfits := spec.run.fits
  rw [show (1 : Word).toNat = 1 from rfl, hz.size_normal] at hfits
  have hsz := p.memSize.isLt
  have hroom := hz.room
  have hfirst : (p'.memZone .normal).firstFreeIdx.toNat = idx.toNat + 1 := by
    rw [spec.first]
    exact toNat_add_one (by omega)
  have haddr : t.toNat = 16 * 2 ^ 20 + 4096 * idx.toNat := by
    have hoff : (p.memZone .normal).offset.toNat = 16 * 2 ^ 20 := by
      rw [hz.offset_normal]
      rfl
    rw [spec.addr_eq, BitVec.toNat_add, BitVec.toNat_mul, hoff, show pageSize.toNat = 4096 from rfl]
    omega
  have hmem := spec.same.memSize
  refine ⟨⟨by omega, by omega, by omega, by rw [hmem]; omega⟩, ?_⟩
  rintro t' ⟨h1, h2, h3, h4⟩
  refine ⟨⟨h1, h2, by omega, by rw [hmem]; exact h4⟩, ?_⟩
  rintro rfl
  omega

/-! ## Later states -/

/-- One call of the frame allocator. -/
inductive PmmStep : Pmm → Pmm → Prop
  | alloc {p p' : Pmm} {z : ZoneE} {size addr : Word} :
      pmmAlloc p z size = .ok (addr, p') → PmmStep p p'
  | free {p p' : Pmm} {addr size : Word} : pmmFree p addr size = .ok p' → PmmStep p p'

/-- **The frame allocator has been initialised**, and used since. -/
def PmmBooted (p : Pmm) : Prop :=
  ∃ area allocArea handover p₀, pmmInit (Pmm.static area allocArea) handover = .ok p₀ ∧
    Relation.ReflTransGen PmmStep p₀ p

theorem PmmStep.same {p p' : Pmm} (h : PmmStep p p') : SameZones p p' := by
  cases h with
  | alloc h =>
      unfold pmmAlloc at h
      dsimp only at h
      split at h
      · cases h
      · injection h with h
        injection h with _ h
        rw [← h]
        exact SameZones.setZone (SameZones.setArea p _) rfl rfl
  | free h =>
      obtain ⟨z, idx, spec⟩ := pmmFree_spec h
      exact spec.same

theorem PmmBooted.zones {p : Pmm} (h : PmmBooted p) : ZonesOk p := by
  obtain ⟨area, allocArea, handover, p₀, hinit, hsteps⟩ := h
  induction hsteps with
  | refl => exact pmmInit_zones hinit
  | tail _ hstep ih => exact ih.same hstep.same

/-! ### A small machine

16 MiB and 64 KiB of memory, all of it usable. -/

def smallHandover : Handover where
  memmap := some [⟨0, 0x1010000, memUsable⟩]
  pmrs := some []
  kernelBase := some ⟨0x200000, 0xffffffff80000000⟩
  hhdm := some vaHhdm

/-- The frame allocator of the small machine after `pmm_init`. -/
def smallPmm : Pmm :=
  match pmmInit (Pmm.static (fun _ => 0) 0x2000) smallHandover with
  | .ok p => p
  | .error _ => Pmm.static (fun _ => 0) 0x2000

theorem smallPmm_booted : PmmBooted smallPmm := by
  obtain ⟨p, hp⟩ := Res.exists_of_isOk
    (x := pmmInit (Pmm.static (fun _ => 0) 0x2000) smallHandover) (by decide +kernel)
  refine ⟨_, _, smallHandover, p, hp, ?_⟩
  unfold smallPmm
  rw [hp]

end Cerberos
