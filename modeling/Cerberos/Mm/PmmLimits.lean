/-
# Cerberos.Mm.PmmLimits — the arithmetic limits of `pmm_init`.

`pmm_init` rounds the start of a usable entry up and its end down, each modulo 2^64, and lets the
two words drive the zone cursor, a subtraction and the bounds of a bitmap loop; nothing compares
them first. It also carves both bitmaps from a static array without ever comparing their size with
it. This module says exactly which memory maps keep the ranges inside the bitmaps, and which memory
sizes keep the bitmaps inside the array.

The ranges are recorded by a second walk over the map (`setEntryRanges`, `setRanges`) that changes
nothing; `pmmInit_eq_ranges` says that `pmm_init` is the fold of its rounds over that record.
-/
import Cerberos.Mm.PmmInit

namespace Cerberos

open Cerberos.Base

/-! ## The ranges given to `pmm_set_unused` -/

/-- One round of the inner loop of `pmm_init`: the zone under the cursor, where it starts, and the
two operands of `MIN(entry_end, curr_zone_end) - entry_start`. -/
structure SetRange where
  zone : ZoneE
  currZoneStart : Word
  entryStart : Word
  stop : Word
  deriving DecidableEq, Repr

/-- `(entry_start - curr_zone_start) / PAGE_SIZE`. -/
def SetRange.idx (r : SetRange) : Word := (r.entryStart - r.currZoneStart) / pageSize

/-- `(MIN(entry_end, curr_zone_end) - entry_start) / PAGE_SIZE`. -/
def SetRange.size (r : SetRange) : Word := (r.stop - r.entryStart) / pageSize

/-- What the round does to the state. -/
def SetRange.apply (p : Pmm) (r : SetRange) : Pmm := pmmSetRound p r.zone r.idx r.size

/-- The rounds of one entry, and the cursor after them. -/
def setEntryRanges (p : Pmm) (entryStart entryEnd : Word) :
    List ZoneE → Res (List SetRange × List ZoneE)
  | [] => .error .fault
  | z :: rest =>
    let currZoneEnd := zoneEnd p rest
    let r : SetRange := ⟨z, (p.memZone z).offset, entryStart, cMin entryEnd currZoneEnd⟩
    if entryEnd ≤ currZoneEnd then .ok ([r], z :: rest)
    else do
      let (rs, cursor) ← setEntryRanges p (cMin currZoneEnd entryEnd) entryEnd rest
      .ok (r :: rs, cursor)

/-- The rounds of all entries; an error when `curr_zone` reaches `PMM_NUM_ZONES`. -/
def setRanges (p : Pmm) (cursor : List ZoneE) : List MmapEntry → Res (List SetRange × List ZoneE)
  | [] => .ok ([], cursor)
  | entry :: entries =>
    if entry.type = memUsable then do
      let entryStart := alignUp entry.base pageSize
      let entryEnd := alignDown (entry.base + entry.length) pageSize
      let cursor ← pmmSeekZone p entryStart cursor
      let (rs, cursor) ← setEntryRanges p entryStart entryEnd cursor
      let (rs', cursor) ← setRanges p cursor entries
      .ok (rs ++ rs', cursor)
    else
      setRanges p cursor entries

/-! ### The record is what `pmm_init` does

The record depends on the zones only, and these stay. -/

theorem zoneEnd_same {p p' : Pmm} (hs : SameZones p p') (rest : List ZoneE) :
    zoneEnd p' rest = zoneEnd p rest := by
  cases rest with
  | nil => exact hs.memSize
  | cons z _ => exact hs.offset z

theorem pmmSeekZone_same {p p' : Pmm} (hs : SameZones p p') (start : Word) (cursor : List ZoneE) :
    pmmSeekZone p' start cursor = pmmSeekZone p start cursor := by
  induction cursor with
  | nil => rfl
  | cons z rest ih =>
      unfold pmmSeekZone
      rw [zoneEnd_same hs, ih]

theorem setEntryRanges_same {p p' : Pmm} (hs : SameZones p p') (entryEnd : Word) :
    ∀ (cursor : List ZoneE) (start : Word),
      setEntryRanges p' start entryEnd cursor = setEntryRanges p start entryEnd cursor := by
  intro cursor
  induction cursor with
  | nil => exact fun _ => rfl
  | cons z rest ih =>
      intro start
      unfold setEntryRanges
      simp only [zoneEnd_same hs, hs.offset, ih]

theorem setRanges_same {p p' : Pmm} (hs : SameZones p p') :
    ∀ (entries : List MmapEntry) (cursor : List ZoneE),
      setRanges p' cursor entries = setRanges p cursor entries := by
  intro entries
  induction entries with
  | nil => exact fun _ => rfl
  | cons e entries ih =>
      intro cursor
      unfold setRanges
      simp only [pmmSeekZone_same hs, setEntryRanges_same hs, ih]

theorem SetRange.apply_same (p : Pmm) (r : SetRange) : SameZones p (r.apply p) :=
  SameZones.setZone (SameZones.setArea p _) rfl rfl

theorem foldl_apply_same (p : Pmm) (rs : List SetRange) :
    SameZones p (rs.foldl SetRange.apply p) := by
  induction rs generalizing p with
  | nil => exact SameZones.refl p
  | cons r rs ih => exact (r.apply_same p).trans (ih (r.apply p))

theorem pmmSetEntry_eq_ranges (entryEnd : Word) :
    ∀ (cursor : List ZoneE) (p : Pmm) (start : Word),
      pmmSetEntry p start entryEnd cursor = (do
        let (rs, cursor') ← setEntryRanges p start entryEnd cursor
        .ok (rs.foldl SetRange.apply p, cursor')) := by
  intro cursor
  induction cursor with
  | nil => exact fun _ _ => rfl
  | cons z rest ih =>
      intro p start
      rw [pmmSetEntry_cons]
      unfold setEntryRanges
      dsimp only
      by_cases hlast : entryEnd ≤ zoneEnd p rest
      · rw [if_pos hlast, if_pos hlast]
        rfl
      · rw [if_neg hlast, if_neg hlast, ih]
        have hsame := SetRange.apply_same p
          ⟨z, (p.memZone z).offset, start, cMin entryEnd (zoneEnd p rest)⟩
        unfold SetRange.apply SetRange.idx SetRange.size at hsame
        rw [setEntryRanges_same hsame]
        cases setEntryRanges p (cMin (zoneEnd p rest) entryEnd) entryEnd rest <;> rfl

/-- The walk over the memory map is the fold of its rounds. -/
theorem pmmSetEntries_eq_ranges :
    ∀ (entries : List MmapEntry) (p : Pmm) (cursor : List ZoneE),
      pmmSetEntries p cursor entries = (do
        let (rs, cursor') ← setRanges p cursor entries
        .ok (rs.foldl SetRange.apply p, cursor')) := by
  intro entries
  induction entries with
  | nil => exact fun _ _ => rfl
  | cons e entries ih =>
      intro p cursor
      unfold pmmSetEntries setRanges
      by_cases hu : e.type = memUsable
      · rw [if_pos hu, if_pos hu]
        dsimp only
        cases pmmSeekZone p (alignUp e.base pageSize) cursor with
        | error err => rfl
        | ok c₁ =>
            simp only [bind, Except.bind, pmmSetEntry_eq_ranges]
            cases setEntryRanges p (alignUp e.base pageSize)
              (alignDown (e.base + e.length) pageSize) c₁ with
            | error err => rfl
            | ok r =>
                obtain ⟨rs, c₂⟩ := r
                simp only [ih, bind, Except.bind, setRanges_same (foldl_apply_same p rs)]
                cases setRanges p c₂ entries with
                | error err => rfl
                | ok r' => simp only [List.foldl_append]
      · rw [if_neg hu, if_neg hu, ih]

/-- The state of `pmm_init` before the walk over the map. -/
def pmmZones (area : Mem) (allocArea memSize : Word) : Pmm :=
  pmmInitZones { Pmm.static area allocArea with memSize := memSize } ZoneE.all

/-- **`pmm_init` does the rounds of `setRanges`**, one after the other. -/
theorem pmmInit_eq_ranges (area : Mem) (allocArea : Word) {handover : Handover}
    {memmap : List MmapEntry} (hhand : handover.memmap = some memmap) {memSize : Word}
    (hsize : getMemSize memmap = .ok memSize) (hroom : 16 * 2 ^ 20 ≤ memSize.toNat) :
    pmmInit (Pmm.static area allocArea) handover = (do
      let (rs, _) ← setRanges (pmmZones area allocArea memSize) ZoneE.all memmap
      .ok (rs.foldl SetRange.apply (pmmZones area allocArea memSize))) := by
  have hroom' : ¬ memSize < 16 * mib := by
    rw [BitVec.not_lt]
    exact hroom
  unfold pmmInit
  rw [hhand]
  simp only [hsize, bind, Except.bind]
  rw [if_neg hroom', pmmSetEntries_eq_ranges]
  unfold pmmZones
  cases setRanges (pmmInitZones { Pmm.static area allocArea with memSize := memSize } ZoneE.all)
    ZoneE.all memmap <;> rfl

/-! ## When the ranges are safe -/

/-- The round does not underflow and stays inside the bitmap of its zone. -/
structure SetRange.Safe (p : Pmm) (r : SetRange) : Prop where
  ordered : r.entryStart.toNat ≤ r.stop.toNat
  inside : r.idx.toNat + r.size.toNat ≤ p.pages r.zone

/-- **The walk is safe**: `curr_zone` never reaches `PMM_NUM_ZONES`, and every round is safe. -/
def RangesSafe (p : Pmm) (cursor : List ZoneE) (entries : List MmapEntry) : Prop :=
  ∃ rs cursor', setRanges p cursor entries = .ok (rs, cursor') ∧ ∀ r ∈ rs, r.Safe p

/-- `entry_start`: the base, rounded up to a page. -/
def MmapEntry.pageStart (e : MmapEntry) : Word := alignUp e.base pageSize

/-- `entry_end`: the end, rounded down to a page. -/
def MmapEntry.pageEnd (e : MmapEntry) : Word := alignDown (e.base + e.length) pageSize

theorem MmapEntry.pageStart_mod (e : MmapEntry) : e.pageStart.toNat % 4096 = 0 := by
  have h : e.pageStart.toNat = (e.base + pageSize - 1).toNat / 4096 * 4096 :=
    toNat_and_not_low_ones (e.base + pageSize - 1) 12
  rw [h, Nat.mul_mod_left]

theorem MmapEntry.toNat_pageEnd (e : MmapEntry) :
    e.pageEnd.toNat = (e.base + e.length).toNat / 4096 * 4096 :=
  toNat_alignDown_page (e.base + e.length)

section Walk

variable {p : Pmm} {start stop : Word}

/-- In the normal zone a start below 16 MiB makes `idx` wrap far beyond the bitmap. -/
theorem safe_normal_iff (hz : ZonesOk p) (h1 : start.toNat % 4096 = 0)
    (hend : stop.toNat ≤ p.memSize.toNat) :
    (⟨.normal, (p.memZone .normal).offset, start, stop⟩ : SetRange).Safe p ↔
      start.toNat ≤ stop.toNat ∧ 16 * 2 ^ 20 ≤ start.toNat := by
  have hoff : (p.memZone .normal).offset.toNat = 16 * 2 ^ 20 := hz.offset .normal
  have hpages := hz.pages_normal
  have hroom := hz.room
  have hsz := p.memSize.isLt
  have hidx : ((start - (p.memZone .normal).offset) / pageSize).toNat =
      (2 ^ 64 - 16 * 2 ^ 20 + start.toNat) % 2 ^ 64 / 4096 := by
    rw [BitVec.toNat_udiv, BitVec.toNat_sub, hoff, show pageSize.toNat = 4096 from rfl]
  constructor
  · rintro ⟨hord, hin⟩
    change ((start - (p.memZone .normal).offset) / pageSize).toNat + _ ≤ p.pages .normal at hin
    rw [hidx, hpages] at hin
    change start.toNat ≤ stop.toNat at hord
    refine ⟨hord, ?_⟩
    by_contra hlow
    omega
  · rintro ⟨hord, hlow⟩
    refine ⟨hord, ?_⟩
    change ((start - (p.memZone .normal).offset) / pageSize).toNat +
      ((stop - start) / pageSize).toNat ≤ p.pages .normal
    rw [hidx, hpages, BitVec.toNat_udiv, BitVec.toNat_sub_of_le hord,
      show pageSize.toNat = 4096 from rfl]
    omega

theorem safe_dma_iff (hz : ZonesOk p) (hend : stop.toNat ≤ 16 * 2 ^ 20) :
    (⟨.dma, (p.memZone .dma).offset, start, stop⟩ : SetRange).Safe p ↔
      start.toNat ≤ stop.toNat := by
  have hpages := hz.pages_dma
  constructor
  · exact fun h => h.ordered
  · intro hord
    refine ⟨hord, ?_⟩
    change ((start - (p.memZone .dma).offset) / pageSize).toNat +
      ((stop - start) / pageSize).toNat ≤ p.pages .dma
    rw [hz.offset_dma, sub_zero, hpages, BitVec.toNat_udiv, BitVec.toNat_udiv,
      BitVec.toNat_sub_of_le hord, show pageSize.toNat = 4096 from rfl]
    omega

theorem setEntryRanges_normal (hend : stop.toNat ≤ p.memSize.toNat) :
    setEntryRanges p start stop [.normal] =
      .ok ([⟨.normal, (p.memZone .normal).offset, start, stop⟩], [.normal]) := by
  have hle : stop ≤ zoneEnd p [] := hend
  unfold setEntryRanges
  dsimp only
  rw [if_pos hle, cMin_of_le hle]

theorem setEntryRanges_dma (hle : stop ≤ zoneEnd p [.normal]) :
    setEntryRanges p start stop ZoneE.all =
      .ok ([⟨.dma, (p.memZone .dma).offset, start, stop⟩], ZoneE.all) := by
  unfold ZoneE.all setEntryRanges
  dsimp only
  rw [if_pos hle, cMin_of_le hle]

/-- An entry that bleeds into the normal zone. -/
theorem setEntryRanges_border (hend : stop.toNat ≤ p.memSize.toNat)
    (hlt : ¬ stop ≤ zoneEnd p [.normal]) :
    setEntryRanges p start stop ZoneE.all =
      .ok ([⟨.dma, (p.memZone .dma).offset, start, zoneEnd p [.normal]⟩,
        ⟨.normal, (p.memZone .normal).offset, zoneEnd p [.normal], stop⟩], [.normal]) := by
  have hlt' : (zoneEnd p [.normal]).toNat ≤ stop.toNat := by
    rw [BitVec.not_le] at hlt
    exact Nat.le_of_lt hlt
  unfold ZoneE.all setEntryRanges
  dsimp only
  rw [if_neg hlt, cMin_of_ge hlt', cMin_of_le hlt', setEntryRanges_normal hend]
  rfl

/-- The cursor after an entry that ends at `stop`. -/
def cursorAfter (cursor : List ZoneE) (stop : Word) : List ZoneE :=
  if cursor = [.normal] ∨ 16 * 2 ^ 20 < stop.toNat then [.normal] else ZoneE.all

/-- With the cursor on the normal zone. -/
theorem normal_rounds_iff (hz : ZonesOk p) (h1 : start.toNat % 4096 = 0)
    (hend : stop.toNat ≤ p.memSize.toNat) {Q : List ZoneE → Prop} :
    (∃ c₁ rs c₂, pmmSeekZone p start [.normal] = .ok c₁ ∧
        setEntryRanges p start stop c₁ = .ok (rs, c₂) ∧ (∀ r ∈ rs, r.Safe p) ∧ Q c₂) ↔
      (start.toNat ≤ stop.toNat ∧ 16 * 2 ^ 20 ≤ start.toNat) ∧ Q [.normal] := by
  constructor
  · rintro ⟨c₁, rs, c₂, hseek, hset, hsafe, hQ⟩
    unfold pmmSeekZone at hseek
    split at hseek
    · cases hseek
    · injection hseek with hseek
      subst hseek
      rw [setEntryRanges_normal hend] at hset
      injection hset with hset
      injection hset with hrs hc
      subst hrs hc
      exact ⟨(safe_normal_iff hz h1 hend).mp (hsafe _ List.mem_cons_self), hQ⟩
  · rintro ⟨hgood, hQ⟩
    have hle : ¬ zoneEnd p [] < start := by
      rw [BitVec.not_lt]
      exact Nat.le_trans hgood.1 hend
    refine ⟨[.normal], _, _, ?_, setEntryRanges_normal hend, ?_, hQ⟩
    · unfold pmmSeekZone
      rw [if_neg hle]
    · intro r hr
      rw [List.mem_singleton.mp hr]
      exact (safe_normal_iff hz h1 hend).mpr hgood

/-- **One entry is safe** exactly when it has not been rounded inside out and does not start before
the zone under the cursor. -/
theorem entry_rounds_iff (hz : ZonesOk p) (h1 : start.toNat % 4096 = 0)
    (hend : stop.toNat ≤ p.memSize.toNat) {cursor : List ZoneE}
    (hc : cursor = ZoneE.all ∨ cursor = [.normal]) {Q : List ZoneE → Prop} :
    (∃ c₁ rs c₂, pmmSeekZone p start cursor = .ok c₁ ∧
        setEntryRanges p start stop c₁ = .ok (rs, c₂) ∧ (∀ r ∈ rs, r.Safe p) ∧ Q c₂) ↔
      (start.toNat ≤ stop.toNat ∧ (cursor = [.normal] → 16 * 2 ^ 20 ≤ start.toNat)) ∧
        Q (cursorAfter cursor stop) := by
  have hborder := hz.zoneEnd_dma
  rcases hc with rfl | rfl
  · have hne : ¬ ZoneE.all = [.normal] := by decide
    by_cases hskip : zoneEnd p [.normal] < start
    · -- the cursor leaves the DMA zone before the first round
      have hskip' : 16 * 2 ^ 20 < start.toNat := hborder ▸ hskip
      have hseek : pmmSeekZone p start ZoneE.all = pmmSeekZone p start [.normal] := by
        unfold ZoneE.all
        rw [pmmSeekZone, if_pos hskip]
      rw [hseek, normal_rounds_iff hz h1 hend]
      constructor
      · rintro ⟨⟨hle, -⟩, hQ⟩
        refine ⟨⟨hle, fun h => absurd h hne⟩, ?_⟩
        unfold cursorAfter
        rwa [if_pos (Or.inr (by omega))]
      · rintro ⟨⟨hle, -⟩, hQ⟩
        unfold cursorAfter at hQ
        rw [if_pos (Or.inr (by omega))] at hQ
        exact ⟨⟨hle, by omega⟩, hQ⟩
    · have hseek : pmmSeekZone p start ZoneE.all = .ok ZoneE.all := by
        unfold ZoneE.all
        rw [pmmSeekZone, if_neg hskip]
      rw [BitVec.not_lt, BitVec.le_def, hborder] at hskip
      have hgo : (∃ c₁ rs c₂, pmmSeekZone p start ZoneE.all = .ok c₁ ∧
          setEntryRanges p start stop c₁ = .ok (rs, c₂) ∧ (∀ r ∈ rs, r.Safe p) ∧ Q c₂) ↔
          ∃ rs c₂, setEntryRanges p start stop ZoneE.all = .ok (rs, c₂) ∧
            (∀ r ∈ rs, r.Safe p) ∧ Q c₂ := by
        simp [hseek]
      rw [hgo]
      by_cases hlast : stop ≤ zoneEnd p [.normal]
      · have hlast' : stop.toNat ≤ 16 * 2 ^ 20 := hborder ▸ hlast
        have hafter : cursorAfter ZoneE.all stop = ZoneE.all := by
          unfold cursorAfter
          rw [if_neg]
          rintro (h | h)
          · exact hne h
          · omega
        simp [setEntryRanges_dma hlast, safe_dma_iff hz hlast', hne, hafter]
      · have hlast' : 16 * 2 ^ 20 < stop.toNat := by
          rw [BitVec.not_le] at hlast
          exact hborder ▸ hlast
        have hafter : cursorAfter ZoneE.all stop = [.normal] := by
          unfold cursorAfter
          rw [if_pos (Or.inr hlast')]
        have hfirst : (⟨.dma, (p.memZone .dma).offset, start, zoneEnd p [.normal]⟩ :
            SetRange).Safe p := (safe_dma_iff hz (by omega)).mpr (by omega)
        have hsecond : (⟨.normal, (p.memZone .normal).offset, zoneEnd p [.normal], stop⟩ :
            SetRange).Safe p := (safe_normal_iff hz (by omega) hend).mpr (by omega)
        have hord : start.toNat ≤ stop.toNat := by omega
        simp [setEntryRanges_border hend hlast, hfirst, hsecond, hne, hafter, hord]
  · rw [normal_rounds_iff hz h1 hend]
    simp [cursorAfter]

end Walk

/-! ## The memory map -/

/-- The entries come in order, without overlap and without wrapping around 2^64; their bases and
lengths need not be page aligned. -/
structure MapInOrder (memmap : List MmapEntry) : Prop where
  sorted : memmap.Pairwise fun a b => a.base.toNat ≤ b.base.toNat
  apart : memmap.Pairwise fun a b => a.base.toNat + a.length.toNat ≤ b.base.toNat
  inside : ∀ e ∈ memmap, e.base.toNat + e.length.toNat ≤ 2 ^ 64

/-- Every usable entry keeps its order when it is rounded to pages. -/
def RoundsInOrder (memmap : List MmapEntry) : Prop :=
  ∀ e ∈ memmap, e.type = memUsable → e.pageStart.toNat ≤ e.pageEnd.toNat

/-- Once a usable entry reaches beyond 16 MiB, no later one is rounded to a start below that:
`ALIGN_UP` takes a base in the last page of the address space to 0. -/
def NoWrapBack (memmap : List MmapEntry) : Prop :=
  memmap.Pairwise fun a b => a.type = memUsable → b.type = memUsable →
    16 * 2 ^ 20 < a.pageEnd.toNat → 16 * 2 ^ 20 ≤ b.pageStart.toNat

instance (memmap : List MmapEntry) : Decidable (RoundsInOrder memmap) :=
  inferInstanceAs (Decidable (∀ e ∈ memmap, _))

instance (memmap : List MmapEntry) : Decidable (NoWrapBack memmap) :=
  inferInstanceAs (Decidable (memmap.Pairwise _))

theorem rangesSafe_cons {p : Pmm} {cursor : List ZoneE} {e : MmapEntry} {entries : List MmapEntry}
    (hu : e.type = memUsable) :
    RangesSafe p cursor (e :: entries) ↔ ∃ c₁ rs c₂, pmmSeekZone p e.pageStart cursor = .ok c₁ ∧
      setEntryRanges p e.pageStart e.pageEnd c₁ = .ok (rs, c₂) ∧ (∀ r ∈ rs, r.Safe p) ∧
      RangesSafe p c₂ entries := by
  unfold RangesSafe
  rw [setRanges, if_pos hu]
  constructor
  · rintro ⟨all, c, hgo, hsafe⟩
    obtain ⟨c₁, hseek, hgo⟩ := Res.bind_eq_ok.mp hgo
    obtain ⟨⟨rs, c₂⟩, hset, hgo⟩ := Res.bind_eq_ok.mp hgo
    obtain ⟨⟨rs', c₃⟩, hrest, hgo⟩ := Res.bind_eq_ok.mp hgo
    injection hgo with hgo
    injection hgo with hall hc
    subst hall hc
    rw [List.forall_mem_append] at hsafe
    exact ⟨c₁, rs, c₂, hseek, hset, hsafe.1, rs', c₃, hrest, hsafe.2⟩
  · rintro ⟨c₁, rs, c₂, hseek, hset, hsafe, rs', c₃, hrest, hsafe'⟩
    refine ⟨rs ++ rs', c₃, ?_, List.forall_mem_append.mpr ⟨hsafe, hsafe'⟩⟩
    unfold MmapEntry.pageStart at hseek hset
    unfold MmapEntry.pageEnd at hset
    simp only [hseek, hset, hrest, bind, Except.bind]

/-- **The walk from a cursor is safe** exactly when every entry is and none starts before the zone
the cursor has reached. -/
theorem rangesSafe_iff {p : Pmm} (hz : ZonesOk p) :
    ∀ (entries : List MmapEntry) (cursor : List ZoneE),
      (cursor = ZoneE.all ∨ cursor = [.normal]) →
      (∀ e ∈ entries, e.type = memUsable → e.pageEnd.toNat ≤ p.memSize.toNat) →
      (RangesSafe p cursor entries ↔ RoundsInOrder entries ∧
        (cursor = [.normal] → ∀ e ∈ entries, e.type = memUsable →
          16 * 2 ^ 20 ≤ e.pageStart.toNat) ∧ NoWrapBack entries) := by
  intro entries
  induction entries with
  | nil =>
      intro cursor _ _
      have hsafe : RangesSafe p cursor [] := ⟨[], cursor, rfl, by simp⟩
      simp [hsafe, RoundsInOrder, NoWrapBack]
  | cons e entries ih =>
      intro cursor hc hend
      have hend' := fun x hx => hend x (List.mem_cons_of_mem e hx)
      unfold RoundsInOrder NoWrapBack
      rw [List.forall_mem_cons, List.pairwise_cons]
      by_cases hu : e.type = memUsable
      · have hafter : cursorAfter cursor e.pageEnd = ZoneE.all ∨
            cursorAfter cursor e.pageEnd = [.normal] := by
          unfold cursorAfter
          split <;> simp
        have hreach : cursorAfter cursor e.pageEnd = [.normal] ↔
            cursor = [.normal] ∨ 16 * 2 ^ 20 < e.pageEnd.toNat := by
          unfold cursorAfter
          split
          · simpa
          · rename_i h
            simp only [h, iff_false]
            decide
        rw [rangesSafe_cons hu, entry_rounds_iff hz e.pageStart_mod (hend e List.mem_cons_self hu) hc,
          ih _ hafter hend', hreach]
        unfold RoundsInOrder NoWrapBack
        constructor
        · rintro ⟨⟨hord, hlow⟩, hords, hlows, hpairs⟩
          refine ⟨⟨fun _ => hord, hords⟩, ?_, ?_, hpairs⟩
          · intro hn
            rw [List.forall_mem_cons]
            exact ⟨fun _ => hlow hn, hlows (Or.inl hn)⟩
          · intro b hb _ hub hhigh
            exact hlows (Or.inr hhigh) b hb hub
        · rintro ⟨⟨hord, hords⟩, hlows, hhead, hpairs⟩
          refine ⟨⟨hord hu, fun hn => hlows hn e List.mem_cons_self hu⟩, hords, ?_, hpairs⟩
          rintro (hn | hhigh) b hb hub
          · exact hlows hn b (List.mem_cons_of_mem e hb) hub
          · exact hhead b hb hu hub hhigh
      · have hskip : RangesSafe p cursor (e :: entries) ↔ RangesSafe p cursor entries := by
          unfold RangesSafe
          rw [setRanges, if_neg hu]
        rw [hskip, ih cursor hc hend']
        unfold RoundsInOrder NoWrapBack
        constructor
        · rintro ⟨hords, hlows, hpairs⟩
          refine ⟨⟨fun h => absurd h hu, hords⟩, ?_, fun _ _ h => absurd h hu, hpairs⟩
          intro hn
          rw [List.forall_mem_cons]
          exact ⟨fun h => absurd h hu, hlows hn⟩
        · rintro ⟨⟨-, hords⟩, hlows, -, hpairs⟩
          exact ⟨hords, fun hn b hb => hlows hn b (List.mem_cons_of_mem e hb), hpairs⟩

/-- No entry ends after the memory does. -/
theorem MapInOrder.end_le {memmap : List MmapEntry} (h : MapInOrder memmap) {memSize : Word}
    (hsize : getMemSize memmap = .ok memSize) (hroom : 16 * 2 ^ 20 ≤ memSize.toNat)
    {e : MmapEntry} (he : e ∈ memmap) : e.base.toNat + e.length.toNat ≤ memSize.toNat := by
  unfold getMemSize at hsize
  cases hlast : memmap.getLast? with
  | none =>
      rw [hlast] at hsize
      cases hsize
  | some last =>
      rw [hlast] at hsize
      injection hsize with hsize
      have hin := h.inside last (List.mem_of_getLast? hlast)
      -- the last entry does not end at 2^64, where the memory size would be 0
      have hmem : memSize.toNat = last.base.toNat + last.length.toNat := by
        rw [← hsize, BitVec.toNat_add] at hroom ⊢
        rcases Nat.lt_or_eq_of_le hin with hlt | heq
        · omega
        · rw [heq] at hroom
          omega
      obtain ⟨init, rfl⟩ := List.getLast?_eq_some_iff.mp hlast
      rcases List.mem_append.mp he with he | he
      · have := (List.pairwise_append.mp h.apart).2.2 e he last (by simp)
        omega
      · rw [List.mem_singleton.mp he, hmem]

theorem MapInOrder.pageEnd_le {memmap : List MmapEntry} (h : MapInOrder memmap) {memSize : Word}
    (hsize : getMemSize memmap = .ok memSize) (hroom : 16 * 2 ^ 20 ≤ memSize.toNat)
    {e : MmapEntry} (he : e ∈ memmap) : e.pageEnd.toNat ≤ memSize.toNat := by
  have hle := h.end_le hsize hroom he
  calc e.pageEnd.toNat = (e.base + e.length).toNat / 4096 * 4096 := e.toNat_pageEnd
    _ ≤ (e.base + e.length).toNat := Nat.div_mul_le_self _ _
    _ ≤ e.base.toNat + e.length.toNat := by
        rw [BitVec.toNat_add]
        exact Nat.mod_le _ _
    _ ≤ memSize.toNat := hle

/-- **The ranges of `pmm_init` on an unaligned map.** The cursor stays inside the zones, no
subtraction underflows and every range lies inside its bitmap exactly when rounding turns no usable
entry inside out and sends none back below 16 MiB. -/
theorem pmmInit_ranges_iff (area : Mem) (allocArea : Word) {memmap : List MmapEntry}
    (hmap : MapInOrder memmap) {memSize : Word} (hsize : getMemSize memmap = .ok memSize)
    (hroom : 16 * 2 ^ 20 ≤ memSize.toNat) :
    RangesSafe (pmmZones area allocArea memSize) ZoneE.all memmap ↔
      RoundsInOrder memmap ∧ NoWrapBack memmap := by
  have hroom' : ¬ memSize < 16 * mib := by
    rw [BitVec.not_lt]
    exact hroom
  have hz : ZonesOk (pmmZones area allocArea memSize) :=
    pmmInitZones_zones area allocArea memSize hroom'
  rw [rangesSafe_iff hz memmap ZoneE.all (Or.inl rfl)
    fun e he _ => hmap.pageEnd_le hsize hroom he]
  have hne : ¬ ZoneE.all = [.normal] := by decide
  simp [hne]

/-- 32 MiB of usable memory between two reserved pages, none of the borders page aligned. -/
def raggedMap : List MmapEntry :=
  [⟨0, 0x1234, 2⟩, ⟨0x1234, 0x1ffffff, memUsable⟩, ⟨0x2001233, 0x1000, 2⟩]

theorem raggedMap_inOrder : MapInOrder raggedMap := by
  constructor <;> decide

theorem pmmInit_ranges_ragged :
    RangesSafe (pmmZones (fun _ => 0) 0x2000 0x2002233) ZoneE.all raggedMap :=
  (pmmInit_ranges_iff (fun _ => 0) 0x2000 raggedMap_inOrder rfl (by decide)).mpr
    ⟨by decide, by decide⟩

/-- Sixteen usable bytes inside one page: the start is rounded up beyond the end. -/
def sliverMap : List MmapEntry := [⟨0x1001, 0x10, memUsable⟩, ⟨0x2000, 0x2000000, 2⟩]

/-- `pmm_init` subtracts 0x2000 from 0x1000 on that map and hands over a range of 2^52 - 1 pages. -/
theorem pmmInit_ranges_sliver :
    MapInOrder sliverMap ∧ getMemSize sliverMap = .ok 0x2002000 ∧
      setRanges (pmmZones (fun _ => 0) 0x2000 0x2002000) ZoneE.all sliverMap =
        .ok ([⟨.dma, 0, 0x2000, 0x1000⟩], ZoneE.all) ∧
      (⟨.dma, 0, 0x2000, 0x1000⟩ : SetRange).size.toNat = 2 ^ 52 - 1 ∧
      ¬ RangesSafe (pmmZones (fun _ => 0) 0x2000 0x2002000) ZoneE.all sliverMap := by
  have hmap : MapInOrder sliverMap := by constructor <;> decide
  refine ⟨hmap, rfl, rfl, rfl, ?_⟩
  rintro ⟨rs, c, hgo, hsafe⟩
  injection hgo with hgo
  injection hgo with hrs _
  subst hrs
  exact absurd (hsafe _ List.mem_cons_self).ordered (by decide)

/-! ## The arena of the bitmaps -/

/-- The byte lies in `alloc_area`. -/
def InArena (allocArea x : Word) : Prop :=
  allocArea.toNat ≤ x.toNat ∧ x.toNat < allocArea.toNat + 2 ^ 20

/-- **The bitmaps lie in `alloc_area`**: every byte `alloc` returned and zeroed for a zone, and
everything before the last bitmap, the padding of both alignments included. -/
structure BitmapsInArena (allocArea : Word) (p : Pmm) : Prop where
  zeroed : ∀ z, ∀ i < (bitmapSizeBytes (p.memZone z).bitmap).toNat,
    InArena allocArea ((p.memZone z).bitmap.data + BitVec.ofNat 64 i)
  before : ∀ x : Word, allocArea.toNat ≤ x.toNat →
    x.toNat < (p.memZone .normal).bitmap.data.toNat → InArena allocArea x

theorem bitmapsInArena_iff (area : Mem) {allocArea memSize : Word}
    (hA : allocArea.toNat + 2 ^ 20 ≤ 2 ^ 64) (hroom : 16 * 2 ^ 20 ≤ memSize.toNat) :
    BitmapsInArena allocArea (pmmZones area allocArea memSize) ↔ AreaFits allocArea memSize := by
  have hroom' : ¬ memSize < 16 * mib := by
    rw [BitVec.not_lt]
    exact hroom
  have hz : ZonesOk (pmmZones area allocArea memSize) :=
    pmmInitZones_zones area allocArea memSize hroom'
  clear hroom'
  obtain ⟨hdata, hdata'⟩ := pmmInitZones_data area memSize hA
  change ((pmmZones area allocArea memSize).memZone .dma).bitmap.data = _ at hdata
  change ((pmmZones area allocArea memSize).memZone .normal).bitmap.data = _ at hdata'
  have hbytes := toNat_bitmapSizeBytes ((pmmZones area allocArea memSize).memZone .dma).bitmap
  have hbytes' := toNat_bitmapSizeBytes ((pmmZones area allocArea memSize).memZone .normal).bitmap
  rw [hz.size_dma] at hbytes
  rw [hz.size_normal, show (pmmZones area allocArea memSize).memSize = memSize from rfl] at hbytes'
  generalize pmmZones area allocArea memSize = p at *
  have hd := toNat_alignUp_eight (x := allocArea) (by omega)
  have hstart : (p.memZone .dma).bitmap.data.toNat = (alignUp allocArea 8).toNat := by rw [hdata]
  have hstart' : (p.memZone .normal).bitmap.data.toNat = (alignUp allocArea 8).toNat + 512 := by
    rw [hdata', BitVec.toNat_add, show (512 : Word).toNat = 512 from rfl]
    omega
  constructor
  · intro h
    refine ⟨hA, ?_⟩
    by_contra hbig
    -- the first byte of the bitmap past the array, which may be address 0
    have hout := h.zeroed .normal
      (allocArea.toNat + 2 ^ 20 - (p.memZone .normal).bitmap.data.toNat) (by omega)
    unfold InArena at hout
    rw [BitVec.toNat_add, BitVec.toNat_ofNat, hstart'] at hout
    omega
  · rintro ⟨-, hfits⟩
    constructor
    · intro z i hi
      unfold InArena
      rw [BitVec.toNat_add, BitVec.toNat_ofNat]
      cases z <;> omega
    · intro x h1 h2
      exact ⟨h1, by omega⟩

/-- **The bitmaps fit their arena** exactly when the memory is small enough: `mem_size` is compared
with nothing but 16 MiB, so that every larger memory is accepted and zeroed over what follows the
array. The bitmaps stay where they are for the rest of `pmm_init`. -/
theorem pmmInit_arena_iff {area : Mem} {allocArea : Word} (hA : allocArea.toNat + 2 ^ 20 ≤ 2 ^ 64)
    {handover : Handover} {memmap : List MmapEntry} (hhand : handover.memmap = some memmap)
    {memSize : Word} (hsize : getMemSize memmap = .ok memSize)
    (hroom : 16 * 2 ^ 20 ≤ memSize.toNat) :
    (BitmapsInArena allocArea (pmmZones area allocArea memSize) ↔
      (alignUp allocArea 8).toNat + 4096 / 8 + ((memSize.toNat - 16 * 2 ^ 20) / 4096 + 7) / 8 ≤
        allocArea.toNat + 2 ^ 20) ∧
    ∀ p, pmmInit (Pmm.static area allocArea) handover = .ok p → ∀ z,
      (p.memZone z).bitmap = ((pmmZones area allocArea memSize).memZone z).bitmap := by
  refine ⟨?_, ?_⟩
  · rw [bitmapsInArena_iff area hA hroom]
    exact ⟨fun h => h.fits, fun h => ⟨hA, h⟩⟩
  · intro p hok z
    rw [pmmInit_eq_ranges area allocArea hhand hsize hroom] at hok
    obtain ⟨⟨rs, c⟩, -, hok⟩ := Res.bind_eq_ok.mp hok
    injection hok with hok
    rw [← hok]
    exact (foldl_apply_same _ rs).bitmap z

theorem pmmInit_arena_ragged :
    BitmapsInArena 0x2000 (pmmZones (fun _ => 0) 0x2000 0x2002233) :=
  (@pmmInit_arena_iff (fun _ => 0) 0x2000 (by decide) ⟨some raggedMap, none, none, none⟩ raggedMap
    rfl 0x2002233 rfl (by decide)).1.mpr (by decide)

/-- 32 MiB of usable memory and a reserved region that ends at 1 TiB. -/
def highMap : List MmapEntry := [⟨0, 0x2000000, memUsable⟩, ⟨0xfd00000000, 0x300000000, 2⟩]

/-- `pmm_init` accepts that map, whose second bitmap has 32 MiB. -/
theorem pmmInit_arena_high : ∃ p,
    pmmInit (Pmm.static (fun _ => 0) 0xffffffff80200000) ⟨some highMap, none, none, none⟩ = .ok p ∧
      ¬ BitmapsInArena 0xffffffff80200000
        (pmmZones (fun _ => 0) 0xffffffff80200000 0x10000000000) := by
  have hrounds : setRanges (pmmZones (fun _ => 0) 0xffffffff80200000 0x10000000000) ZoneE.all
      highMap = .ok ([⟨.dma, 0, 0, 0x1000000⟩, ⟨.normal, 0x1000000, 0x1000000, 0x2000000⟩],
        [.normal]) := rfl
  have hrun := @pmmInit_eq_ranges (fun _ => 0) 0xffffffff80200000 ⟨some highMap, none, none, none⟩
    highMap rfl 0x10000000000 rfl (by decide)
  rw [hrounds] at hrun
  refine ⟨_, hrun, ?_⟩
  rw [bitmapsInArena_iff (fun _ => 0) (by decide) (by decide)]
  intro h
  exact absurd h.fits (by decide)

end Cerberos
