/-
# Cerberos.Mm.PmmSpec — what one call of the frame allocator does.

`pmm_alloc` takes the first run of clear bits at or after the hint `first_free_idx`, sets it and
moves the hint behind it; `pmm_free` clears a run and moves the hint back. Neither touches the other
zone. Between two frees the hint of a zone therefore only GROWS: this bounds how many frames a run
of allocations can obtain, and with it how far the kernel heap can grow.
-/
import Cerberos.Mm.Pmm

namespace Cerberos

open Cerberos.Base

@[simp] theorem Pmm.setZone_self (p : Pmm) (z : ZoneE) (zone : Zone) :
    (p.setZone z zone).memZone z = zone := Function.update_self ..

theorem Pmm.setZone_of_ne (p : Pmm) {z z' : ZoneE} (zone : Zone) (h : z' ≠ z) :
    (p.setZone z zone).memZone z' = p.memZone z' := Function.update_of_ne h ..

@[simp] theorem Pmm.setZone_area (p : Pmm) (z : ZoneE) (zone : Zone) :
    (p.setZone z zone).area = p.area := rfl

@[simp] theorem Pmm.setZone_memSize (p : Pmm) (z : ZoneE) (zone : Zone) :
    (p.setZone z zone).memSize = p.memSize := rfl

/-- The zones of `p'` lie where those of `p` do, with their bitmaps at the same places. -/
structure SameZones (p p' : Pmm) : Prop where
  memSize : p'.memSize = p.memSize
  bitmap : ∀ z, (p'.memZone z).bitmap = (p.memZone z).bitmap
  offset : ∀ z, (p'.memZone z).offset = (p.memZone z).offset

theorem SameZones.refl (p : Pmm) : SameZones p p := ⟨rfl, fun _ => rfl, fun _ => rfl⟩

theorem SameZones.trans {p p' p'' : Pmm} (h : SameZones p p') (h' : SameZones p' p'') :
    SameZones p p'' :=
  ⟨h'.memSize.trans h.memSize, fun z => (h'.bitmap z).trans (h.bitmap z),
    fun z => (h'.offset z).trans (h.offset z)⟩

theorem SameZones.setArea (p : Pmm) (area : Mem) : SameZones p { p with area := area } :=
  ⟨rfl, fun _ => rfl, fun _ => rfl⟩

/-- Counters and hint of one zone may change. -/
theorem SameZones.setZone {p p' : Pmm} (h : SameZones p p') {z : ZoneE} {zone : Zone}
    (hb : zone.bitmap = (p.memZone z).bitmap) (ho : zone.offset = (p.memZone z).offset) :
    SameZones p (p'.setZone z zone) := by
  refine ⟨h.memSize, ?_, ?_⟩
  · intro z'
    by_cases hz : z' = z
    · subst hz
      rw [Pmm.setZone_self, hb]
    · rw [Pmm.setZone_of_ne _ _ hz, h.bitmap]
  · intro z'
    by_cases hz : z' = z
    · subst hz
      rw [Pmm.setZone_self, ho]
    · rw [Pmm.setZone_of_ne _ _ hz, h.offset]

/-! ## One call -/

/-- What a returning `pmm_alloc` did: the run at `idx` was clear and is set now. -/
structure Allocated (p : Pmm) (z : ZoneE) (size addr : Word) (p' : Pmm) (idx : Word) : Prop where
  run : BitRun p.area (p.memZone z).bitmap false (p.memZone z).firstFreeIdx.toNat size.toNat
    idx.toNat
  addr_eq : addr = (p.memZone z).offset + pageSize * idx
  area : p'.area = bitmapSetRange p.area (p.memZone z).bitmap idx size
  same : SameZones p p'
  first : (p'.memZone z).firstFreeIdx = idx + size
  first_of_ne : ∀ z', z' ≠ z → (p'.memZone z').firstFreeIdx = (p.memZone z').firstFreeIdx

/-- A returning `pmm_alloc` took the run that `bitmap_find_range` found. -/
theorem pmmAlloc_found {p p' : Pmm} {z : ZoneE} {size addr : Word} (hsize : 1 ≤ size.toNat)
    (h : pmmAlloc p z size = .ok (addr, p')) :
    Allocated p z size addr p' (bitmapFindRange p.area (p.memZone z).bitmap
      (p.memZone z).firstFreeIdx false size) := by
  unfold pmmAlloc at h
  dsimp only at h
  generalize hidx : bitmapFindRange p.area (p.memZone z).bitmap (p.memZone z).firstFreeIdx false
    size = idx at h ⊢
  by_cases hfail : idx = -1
  · rw [if_pos hfail] at h
    cases h
  · rw [if_neg hfail] at h
    injection h with h
    injection h with haddr hp
    have hrun := bitmapFindRange_spec hsize (hidx ▸ hfail)
    rw [hidx] at hrun
    subst hp
    refine ⟨hrun, haddr.symm, rfl, ?_, ?_, ?_⟩
    · exact SameZones.setZone (SameZones.setArea p _) rfl rfl
    · rw [Pmm.setZone_self]
    · intro z' hz
      rw [Pmm.setZone_of_ne _ _ hz]

theorem pmmAlloc_spec {p p' : Pmm} {z : ZoneE} {size addr : Word} (hsize : 1 ≤ size.toNat)
    (h : pmmAlloc p z size = .ok (addr, p')) : ∃ idx, Allocated p z size addr p' idx :=
  ⟨_, pmmAlloc_found hsize h⟩

theorem pmmAlloc_ends (p : Pmm) (z : ZoneE) (size : Word) : (pmmAlloc p z size).Ends := by
  unfold pmmAlloc
  dsimp only
  split
  · intro h
    cases h
  · exact Res.ends_ok _

/-- What a returning `pmm_free` did: the zone `z` of the address was found and the run at its index
is clear now. -/
structure Freed (p : Pmm) (addr size : Word) (p' : Pmm) (z : ZoneE) (idx : Word) : Prop where
  zone : pmmFindZone p addr ZoneE.all = some z
  idx_eq : idx = (addr - (p.memZone z).offset) / pageSize
  area : p'.area = bitmapClearRange p.area (p.memZone z).bitmap idx size
  same : SameZones p p'
  first : (p'.memZone z).firstFreeIdx =
    if idx < (p.memZone z).firstFreeIdx then idx else (p.memZone z).firstFreeIdx
  first_of_ne : ∀ z', z' ≠ z → (p'.memZone z').firstFreeIdx = (p.memZone z').firstFreeIdx

theorem pmmFree_spec {p p' : Pmm} {addr size : Word} (h : pmmFree p addr size = .ok p') :
    ∃ z idx, Freed p addr size p' z idx := by
  unfold pmmFree at h
  cases hz : pmmFindZone p addr ZoneE.all with
  | none =>
      rw [hz] at h
      cases h
  | some z =>
      rw [hz] at h
      injection h with h
      subst h
      refine ⟨z, _, hz, rfl, rfl, ?_, ?_, ?_⟩
      · exact SameZones.setZone (SameZones.setArea p _) rfl rfl
      · rw [Pmm.setZone_self]
      · intro z' hne
        rw [Pmm.setZone_of_ne _ _ hne]

/-! ## Runs of single-frame allocations -/

/-- `p'` comes from `p` by allocations of single frames from the normal zone. -/
def FrameSteps (p p' : Pmm) : Prop :=
  Relation.ReflTransGen (fun p p' => ∃ addr, pmmAlloc p .normal 1 = .ok (addr, p')) p p'

theorem FrameSteps.refl (p : Pmm) : FrameSteps p p := Relation.ReflTransGen.refl

theorem FrameSteps.trans {p p' p'' : Pmm} (h : FrameSteps p p') (h' : FrameSteps p' p'') :
    FrameSteps p p'' := Relation.ReflTransGen.trans h h'

theorem FrameSteps.single {p p' : Pmm} {addr : Word} (h : pmmAlloc p .normal 1 = .ok (addr, p')) :
    FrameSteps p p' := Relation.ReflTransGen.single ⟨addr, h⟩

/-- The hint of the normal zone moved by at least `n`, and not beyond the zone. -/
structure HintGrows (p p' : Pmm) (n : ℕ) : Prop where
  bitmap : (p'.memZone .normal).bitmap = (p.memZone .normal).bitmap
  first : (p.memZone .normal).firstFreeIdx.toNat + n ≤ (p'.memZone .normal).firstFreeIdx.toNat
  bound : (p'.memZone .normal).firstFreeIdx = (p.memZone .normal).firstFreeIdx ∨
    (p'.memZone .normal).firstFreeIdx.toNat ≤ (p.memZone .normal).bitmap.size.toNat

theorem HintGrows.refl (p : Pmm) : HintGrows p p 0 := ⟨rfl, le_refl _, Or.inl rfl⟩

theorem HintGrows.trans {p p' p'' : Pmm} {n n' : ℕ} (h : HintGrows p p' n)
    (h' : HintGrows p' p'' n') : HintGrows p p'' (n + n') := by
  have h1 := h.first
  have h2 := h'.first
  refine ⟨h'.bitmap.trans h.bitmap, by omega, ?_⟩
  rcases h'.bound with heq | hle
  · rw [heq]
    exact h.bound
  · rw [h.bitmap] at hle
    exact Or.inr hle

theorem HintGrows.single {p p' : Pmm} {addr : Word} (h : pmmAlloc p .normal 1 = .ok (addr, p')) :
    HintGrows p p' 1 := by
  obtain ⟨idx, spec⟩ := pmmAlloc_spec (by decide) h
  have hlow := spec.run.low
  have hfits := spec.run.fits
  rw [show (1 : Word).toNat = 1 from rfl] at hfits
  have hsz := (p.memZone .normal).bitmap.size.isLt
  have hfirst : (p'.memZone .normal).firstFreeIdx.toNat = idx.toNat + 1 := by
    rw [spec.first]
    exact toNat_add_one (by omega)
  exact ⟨spec.same.bitmap .normal, by omega, Or.inr (by omega)⟩

theorem FrameSteps.grows {p p' : Pmm} (h : FrameSteps p p') : HintGrows p p' 0 := by
  induction h with
  | refl => exact HintGrows.refl p
  | tail _ hstep ih =>
      obtain ⟨addr, hstep⟩ := hstep
      have := ih.trans (HintGrows.single hstep)
      exact ⟨this.bitmap, by have := this.first; omega, this.bound⟩

end Cerberos
