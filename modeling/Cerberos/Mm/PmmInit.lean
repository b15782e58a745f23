/-
# Cerberos.Mm.PmmInit — the bitmaps `pmm_init` leaves behind.

`pmm_init` first sets every bit of both zones and then walks the memory map, clearing the bits of
usable memory zone by zone. Its zone cursor never moves back, so the walk is right only because the
entries come in order; and it never leaves the zone array only because no usable entry ends beyond
the last one. On a map as the boot protocol promises it, a bit is clear exactly when its page is
USABLE.
-/
import Cerberos.Mm.PmmBoot

namespace Cerberos

open Cerberos.Base

/-! ## Bits as pages -/

/-- The number of the first page of a zone. -/
def ZoneE.firstPage : ZoneE → ℕ
  | .dma => 0
  | .normal => 4096

/-- Bit `i` of zone `z`: set when the page is taken. -/
def Pmm.bit (p : Pmm) (z : ZoneE) (i : ℕ) : Bool := bitmapBit p.area (p.memZone z).bitmap i

/-- The number of bits of zone `z`. -/
def Pmm.pages (p : Pmm) (z : ZoneE) : ℕ := (p.memZone z).bitmap.size.toNat

/-- The two bitmaps share no byte. -/
def BitmapsApart (p : Pmm) : Prop :=
  ∀ z z', z ≠ z' → ∀ i < p.pages z, ∀ j < p.pages z',
    (p.memZone z).bitmap.byteAddr i ≠ (p.memZone z').bitmap.byteAddr j

theorem SameZones.pages {p p' : Pmm} (h : SameZones p p') (z : ZoneE) : p'.pages z = p.pages z := by
  unfold Pmm.pages
  rw [h.bitmap]

theorem BitmapsApart.same {p p' : Pmm} (h : BitmapsApart p) (hs : SameZones p p') :
    BitmapsApart p' := by
  intro z z' hne i hi j hj
  rw [hs.pages] at hi hj
  rw [hs.bitmap, hs.bitmap]
  exact h z z' hne i hi j hj

/-- Pages `[lo, hi)` now have the bit `v`, all others the bit they had. -/
structure Marks (p p' : Pmm) (lo hi : ℕ) (v : Bool) : Prop where
  same : SameZones p p'
  bits : ∀ z, ∀ i < p.pages z, p'.bit z i =
    if lo ≤ z.firstPage + i ∧ z.firstPage + i < hi then v else p.bit z i

theorem Marks.trans {p p₁ p' : Pmm} {lo mid hi : ℕ} {v : Bool} (h : Marks p p₁ lo mid v)
    (h' : Marks p₁ p' mid hi v) (h1 : lo ≤ mid) (h2 : mid ≤ hi) : Marks p p' lo hi v := by
  refine ⟨h.same.trans h'.same, ?_⟩
  intro z i hi'
  rw [h'.bits z i (by rw [h.same.pages]; exact hi'), h.bits z i hi']
  by_cases hlo : lo ≤ z.firstPage + i ∧ z.firstPage + i < mid
  · rw [if_pos hlo, ite_self, if_pos (by omega)]
  · rw [if_neg hlo]
    by_cases hmid : mid ≤ z.firstPage + i ∧ z.firstPage + i < hi
    · rw [if_pos hmid, if_pos (by omega)]
    · rw [if_neg hmid, if_neg (by omega)]

section Zones

variable {p p' : Pmm}

theorem ZonesOk.pages_dma (h : ZonesOk p) : p.pages .dma = 4096 := h.size_dma

theorem ZonesOk.pages_normal (h : ZonesOk p) :
    p.pages .normal = (p.memSize.toNat - 16 * 2 ^ 20) / 4096 := h.size_normal

theorem ZonesOk.offset (h : ZonesOk p) (z : ZoneE) :
    (p.memZone z).offset.toNat = z.firstPage * 4096 := by
  cases z with
  | dma => rw [h.offset_dma]; rfl
  | normal => rw [h.offset_normal]; rfl

/-- Zones do not share a page. -/
theorem ZonesOk.zone_eq (h : ZonesOk p) {z z' : ZoneE} {i j : ℕ} (hi : i < p.pages z)
    (hj : j < p.pages z') (heq : z.firstPage + i = z'.firstPage + j) : z = z' := by
  have h1 := h.pages_dma
  cases z <;> cases z' <;> simp only [ZoneE.firstPage] at heq <;> first | rfl | omega

/-- A range of pages of one zone has no page of another. -/
theorem ZonesOk.not_in_range (h : ZonesOk p) {z z' : ZoneE} (hne : z' ≠ z) {i idx n : ℕ}
    (hi : i < p.pages z') (hfits : idx + n ≤ p.pages z) :
    ¬ (z.firstPage + idx ≤ z'.firstPage + i ∧ z'.firstPage + i < z.firstPage + idx + n) := by
  rintro ⟨h1, h2⟩
  have heq : z'.firstPage + i = z.firstPage + (z'.firstPage + i - z.firstPage) := by omega
  exact hne (h.zone_eq hi (by omega) heq)

/-- The marks of a range of zone `z`, in that zone. -/
theorem Marks.own {z : ZoneE} {idx n : ℕ} {v : Bool}
    (h : Marks p p' (z.firstPage + idx) (z.firstPage + idx + n) v) {i : ℕ} (hi : i < p.pages z) :
    p'.bit z i = if idx ≤ i ∧ i < idx + n then v else p.bit z i := by
  rw [h.bits z i hi]
  by_cases hin : idx ≤ i ∧ i < idx + n
  · rw [if_pos hin, if_pos (by omega)]
  · rw [if_neg hin, if_neg (by omega)]

/-- In another zone they are nothing. -/
theorem Marks.other (hz : ZonesOk p) {z z' : ZoneE} (hne : z' ≠ z) {idx n : ℕ} {v : Bool}
    (hfits : idx + n ≤ p.pages z)
    (h : Marks p p' (z.firstPage + idx) (z.firstPage + idx + n) v) {i : ℕ} (hi : i < p.pages z') :
    p'.bit z' i = p.bit z' i := by
  rw [h.bits z' i hi, if_neg (hz.not_in_range hne hi hfits)]

/-- A range operation on one bitmap marks the pages of its range. -/
theorem Marks.of_range {op : Mem → Bitmap → Word → Mem} {v : Bool}
    (hbit : ∀ (m : Mem) (b : Bitmap) (bit : Word) (i : ℕ), i < 2 ^ 64 →
      bitmapBit (op m b bit) b i = if i = bit.toNat then v else bitmapBit m b i)
    (hframe : ∀ (m : Mem) (b : Bitmap) (bit x : Word), x ≠ b.byteAddr bit.toNat →
      op m b bit x = m x)
    (hz : ZonesOk p) (ha : BitmapsApart p) (hs : SameZones p p') {z : ZoneE} {idx : Word} {n : ℕ}
    (hfits : idx.toNat + n ≤ p.pages z)
    (harea : p'.area = bitmapRange op p.area (p.memZone z).bitmap idx n) :
    Marks p p' (z.firstPage + idx.toNat) (z.firstPage + idx.toNat + n) v := by
  refine ⟨hs, ?_⟩
  intro z' i hi
  have hlt : ∀ z, p.pages z ≤ 2 ^ 64 := fun z => Nat.le_of_lt (p.memZone z).bitmap.size.isLt
  have h1 := hlt z
  have h2 := hlt z'
  unfold Pmm.bit
  rw [hs.bitmap, harea]
  by_cases hzz : z' = z
  · subst hzz
    rw [bitmapBit_range (fun m bit i => hbit m _ bit i) _ (by omega) (by omega)]
    by_cases hin : idx.toNat ≤ i ∧ i < idx.toNat + n
    · rw [if_pos hin, if_pos (by omega)]
    · rw [if_neg hin, if_neg (by omega)]
  · -- the bytes of the other bitmap are not touched, and none of its pages is in the range
    rw [if_neg (hz.not_in_range hzz hi hfits)]
    unfold bitmapBit
    rw [bitmapRange_apply_of_outside (fun m bit x => hframe m _ bit x) _ (by omega)]
    intro j h3 h4
    exact ha z' z hzz i hi j (by omega)

theorem Marks.of_set (hz : ZonesOk p) (ha : BitmapsApart p) (hs : SameZones p p') {z : ZoneE}
    {idx n : Word} (hfits : idx.toNat + n.toNat ≤ p.pages z)
    (harea : p'.area = bitmapSetRange p.area (p.memZone z).bitmap idx n) :
    Marks p p' (z.firstPage + idx.toNat) (z.firstPage + idx.toNat + n.toNat) true :=
  Marks.of_range (fun m b bit _ hi => bitmapBit_set m b bit hi)
    (fun m b bit _ hx => bitmapSet_apply_of_ne m b bit hx) hz ha hs hfits harea

theorem Marks.of_clear (hz : ZonesOk p) (ha : BitmapsApart p) (hs : SameZones p p') {z : ZoneE}
    {idx n : Word} (hfits : idx.toNat + n.toNat ≤ p.pages z)
    (harea : p'.area = bitmapClearRange p.area (p.memZone z).bitmap idx n) :
    Marks p p' (z.firstPage + idx.toNat) (z.firstPage + idx.toNat + n.toNat) false :=
  Marks.of_range (fun m b bit _ hi => bitmapBit_clear m b bit hi)
    (fun m b bit _ hx => bitmapClear_apply_of_ne m b bit hx) hz ha hs hfits harea

end Zones

/-! ## The bookkeeping of a zone -/

/-- The number of free pages of a zone. -/
def Pmm.clearBits (p : Pmm) (z : ZoneE) : ℕ :=
  ((Finset.range (p.pages z)).filter fun i => p.bit z i = false).card

/-- The counters and the hint of a zone agree with its bitmap. -/
structure Tallied (p : Pmm) (z : ZoneE) : Prop where
  total : p.pages z * 4096 ≤ (p.memZone z).memTotal.toNat
  free : (p.memZone z).memFree.toNat = 4096 * p.clearBits z
  used : (p.memZone z).memFree.toNat + (p.memZone z).memUsed.toNat = (p.memZone z).memTotal.toNat
  first : ∀ i < p.pages z, p.bit z i = false → (p.memZone z).firstFreeIdx.toNat ≤ i

/-- Clearing `n` set bits makes `n` more clear bits. -/
theorem clearBits_add {p p' : Pmm} {z : ZoneE} (hpages : p'.pages z = p.pages z) {idx n : ℕ}
    (hfits : idx + n ≤ p.pages z) (hset : ∀ i, idx ≤ i → i < idx + n → p.bit z i = true)
    (hbits : ∀ i < p.pages z, p'.bit z i = if idx ≤ i ∧ i < idx + n then false else p.bit z i) :
    p'.clearBits z = p.clearBits z + n := by
  unfold Pmm.clearBits
  rw [hpages]
  have hunion : (Finset.range (p.pages z)).filter (fun i => p'.bit z i = false) =
      (Finset.range (p.pages z)).filter (fun i => p.bit z i = false) ∪ Finset.Ico idx (idx + n) := by
    ext i
    rw [Finset.mem_union, Finset.mem_filter, Finset.mem_filter, Finset.mem_Ico, Finset.mem_range]
    constructor
    · rintro ⟨hi, hclear⟩
      rw [hbits i hi] at hclear
      split at hclear
      · rename_i hin
        exact Or.inr hin
      · exact Or.inl ⟨hi, hclear⟩
    · rintro (⟨hi, hclear⟩ | hin)
      · rw [hbits i hi, hclear, ite_self]
        exact ⟨hi, rfl⟩
      · rw [hbits i (by omega), if_pos hin]
        exact ⟨by omega, rfl⟩
  have hdisj : Disjoint ((Finset.range (p.pages z)).filter fun i => p.bit z i = false)
      (Finset.Ico idx (idx + n)) := by
    rw [Finset.disjoint_left]
    intro i hi hin
    rw [Finset.mem_Ico] at hin
    rw [Finset.mem_filter, hset i hin.1 hin.2] at hi
    cases hi.2
  rw [hunion, Finset.card_union_of_disjoint hdisj, Nat.card_Ico, Nat.add_sub_cancel_left]

theorem Pmm.clearBits_le (p : Pmm) (z : ZoneE) : p.clearBits z ≤ p.pages z := by
  have h := Finset.card_filter_le (Finset.range (p.pages z)) fun i => p.bit z i = false
  rwa [Finset.card_range] at h

theorem clearBits_congr {p p' : Pmm} {z : ZoneE} (hpages : p'.pages z = p.pages z)
    (hbits : ∀ i < p.pages z, p'.bit z i = p.bit z i) : p'.clearBits z = p.clearBits z := by
  unfold Pmm.clearBits
  rw [hpages]
  congr 1
  apply Finset.filter_congr
  intro i hi
  rw [hbits i (Finset.mem_range.mp hi)]

/-- The counters of a zone agree with its bitmap. -/
structure Counted (p : Pmm) (z : ZoneE) : Prop where
  total : p.pages z * 4096 ≤ (p.memZone z).memTotal.toNat
  free : (p.memZone z).memFree.toNat = 4096 * p.clearBits z
  used : (p.memZone z).memFree.toNat + (p.memZone z).memUsed.toNat = (p.memZone z).memTotal.toNat

theorem Tallied.counted {p : Pmm} {z : ZoneE} (h : Tallied p z) : Counted p z :=
  ⟨h.total, h.free, h.used⟩

/-- What a call does to the records of the zones: `free` and `used` are the new counters of zone
`z`, and no other record changes. -/
structure Recounts (p p' : Pmm) (z : ZoneE) (free used : Word) : Prop where
  same : SameZones p p'
  total : (p'.memZone z).memTotal = (p.memZone z).memTotal
  free : (p'.memZone z).memFree = free
  used : (p'.memZone z).memUsed = used
  others : ∀ z', z' ≠ z → p'.memZone z' = p.memZone z'

theorem Recounts.setZone (p : Pmm) (area : Mem) {z : ZoneE} {zone : Zone}
    (hb : zone.bitmap = (p.memZone z).bitmap) (ho : zone.offset = (p.memZone z).offset)
    (ht : zone.memTotal = (p.memZone z).memTotal) :
    Recounts p ({ p with area := area }.setZone z zone) z zone.memFree zone.memUsed where
  same := SameZones.setZone (SameZones.setArea p area) hb ho
  total := by rw [Pmm.setZone_self, ht]
  free := by rw [Pmm.setZone_self]
  used := by rw [Pmm.setZone_self]
  others := fun _ hz => Pmm.setZone_of_ne _ _ hz

section Counting

variable {p p' : Pmm} {z : ZoneE} {idx size : Word}

theorem toNat_mul_pageSize (h : size.toNat * 4096 < 2 ^ 64) :
    (size * pageSize).toNat = size.toNat * 4096 := by
  rw [BitVec.toNat_mul, show pageSize.toNat = 4096 from rfl, Nat.mod_eq_of_lt h]

/-- Setting clear bits. -/
theorem Counted.set (h : Counted p z)
    (hrec : Recounts p p' z ((p.memZone z).memFree - size * pageSize)
      ((p.memZone z).memUsed + size * pageSize))
    (hcount : p.clearBits z = p'.clearBits z + size.toNat) : Counted p' z := by
  obtain ⟨htotal, hfree, hused⟩ := h
  have hle := p.clearBits_le z
  have htotal' := (p.memZone z).memTotal.isLt
  have hbytes := toNat_mul_pageSize (show size.toNat * 4096 < 2 ^ 64 by omega)
  have hge : size * pageSize ≤ (p.memZone z).memFree := by
    change (size * pageSize).toNat ≤ (p.memZone z).memFree.toNat
    omega
  constructor
  · rw [hrec.same.pages, hrec.total]
    exact htotal
  · rw [hrec.free, BitVec.toNat_sub_of_le hge]
    omega
  · rw [hrec.free, hrec.used, hrec.total, BitVec.toNat_sub_of_le hge, BitVec.toNat_add]
    omega

/-- Clearing set bits. -/
theorem Counted.clear (h : Counted p z)
    (hrec : Recounts p p' z ((p.memZone z).memFree + size * pageSize)
      ((p.memZone z).memUsed - size * pageSize))
    (hcount : p'.clearBits z = p.clearBits z + size.toNat) : Counted p' z := by
  obtain ⟨htotal, hfree, hused⟩ := h
  have hle := p'.clearBits_le z
  rw [hrec.same.pages] at hle
  have htotal' := (p.memZone z).memTotal.isLt
  have hbytes := toNat_mul_pageSize (show size.toNat * 4096 < 2 ^ 64 by omega)
  have hge : size * pageSize ≤ (p.memZone z).memUsed := by
    change (size * pageSize).toNat ≤ (p.memZone z).memUsed.toNat
    omega
  constructor
  · rw [hrec.same.pages, hrec.total]
    exact htotal
  · rw [hrec.free, BitVec.toNat_add]
    omega
  · rw [hrec.free, hrec.used, hrec.total, BitVec.toNat_sub_of_le hge, BitVec.toNat_add]
    omega

/-- A zone the call did not touch. -/
theorem Counted.of_eq (h : Counted p z) (hzone : p'.memZone z = p.memZone z)
    (hbits : ∀ i < p.pages z, p'.bit z i = p.bit z i) : Counted p' z := by
  have hpages : p'.pages z = p.pages z := by
    unfold Pmm.pages
    rw [hzone]
  have hcount := clearBits_congr hpages hbits
  obtain ⟨h1, h2, h3⟩ := h
  exact ⟨by rw [hpages, hzone]; exact h1, by rw [hcount, hzone]; exact h2, by rw [hzone]; exact h3⟩

end Counting

/-- A zone whose record and bits are the same has the same bookkeeping. -/
theorem Tallied.of_eq {p p' : Pmm} {z : ZoneE} (h : Tallied p z) (hzone : p'.memZone z = p.memZone z)
    (hbits : ∀ i < p.pages z, p'.bit z i = p.bit z i) : Tallied p' z := by
  obtain ⟨htotal, hfree, hused⟩ := h.counted.of_eq hzone hbits
  refine ⟨htotal, hfree, hused, ?_⟩
  intro i hi hclear
  rw [Pmm.pages, hzone] at hi
  rw [hbits i hi] at hclear
  rw [hzone]
  exact h.first i hi hclear

/-- Pages `[lo, hi)` are cleared, and the bookkeeping follows if they were set before. -/
structure Clears (p p' : Pmm) (lo hi : ℕ) : Prop extends Marks p p' lo hi false where
  tally : (∀ z, ∀ i < p.pages z, lo ≤ z.firstPage + i → z.firstPage + i < hi → p.bit z i = true) →
    (∀ z, Tallied p z) → ∀ z, Tallied p' z

theorem Clears.trans {p p₁ p' : Pmm} {lo mid hi : ℕ} (h : Clears p p₁ lo mid)
    (h' : Clears p₁ p' mid hi) (h1 : lo ≤ mid) (h2 : mid ≤ hi) : Clears p p' lo hi := by
  refine ⟨h.toMarks.trans h'.toMarks h1 h2, ?_⟩
  intro hset htally
  refine h'.tally ?_ (h.tally ?_ htally)
  · intro z i hi' h3 h4
    rw [h.same.pages] at hi'
    rw [h.bits z i hi', if_neg (by omega)]
    exact hset z i hi' (by omega) h4
  · intro z i hi' h3 h4
    exact hset z i hi' h3 (by omega)

/-! ## The memory map -/

/-- A memory map as the boot protocol promises it: sorted by base, usable entries page aligned and
overlapping no other entry, every entry inside the address space. -/
structure MemmapOk (memmap : List MmapEntry) : Prop where
  sorted : memmap.Pairwise fun a b => a.base.toNat ≤ b.base.toNat
  apart : memmap.Pairwise fun a b => a.type = memUsable ∨ b.type = memUsable →
    a.base.toNat + a.length.toNat ≤ b.base.toNat
  aligned : ∀ e ∈ memmap, e.type = memUsable → e.base.toNat % 4096 = 0 ∧ e.length.toNat % 4096 = 0
  inside : ∀ e ∈ memmap, e.base.toNat + e.length.toNat ≤ 2 ^ 64

/-- The page lies in the usable entry `e`. -/
def MmapEntry.Offers (e : MmapEntry) (page : ℕ) : Prop :=
  e.type = memUsable ∧ e.base.toNat ≤ page * 4096 ∧
    (page + 1) * 4096 ≤ e.base.toNat + e.length.toNat

/-- The page lies in usable memory. -/
def UsablePage (memmap : List MmapEntry) (page : ℕ) : Prop := ∃ e ∈ memmap, e.Offers page

theorem usablePage_cons {e : MmapEntry} {entries : List MmapEntry} {page : ℕ} :
    UsablePage (e :: entries) page ↔ e.Offers page ∨ UsablePage entries page := by
  simp [UsablePage]

/-- The pages of an aligned entry. -/
theorem MmapEntry.offers_iff {e : MmapEntry} (hu : e.type = memUsable)
    (hb : e.base.toNat % 4096 = 0) (hl : e.length.toNat % 4096 = 0) (page : ℕ) :
    e.Offers page ↔
      e.base.toNat / 4096 ≤ page ∧ page < (e.base.toNat + e.length.toNat) / 4096 := by
  constructor
  · rintro ⟨-, h1, h2⟩
    omega
  · rintro ⟨h1, h2⟩
    exact ⟨hu, by omega, by omega⟩

/-- Usable memory ends before the last entry does. -/
theorem MemmapOk.usable_le {memmap : List MmapEntry} (h : MemmapOk memmap) {last : MmapEntry}
    (hlast : memmap.getLast? = some last) {e : MmapEntry} (he : e ∈ memmap)
    (hu : e.type = memUsable) :
    e.base.toNat + e.length.toNat ≤ last.base.toNat + last.length.toNat := by
  obtain ⟨init, rfl⟩ := List.getLast?_eq_some_iff.mp hlast
  rcases List.mem_append.mp he with he | he
  · have := (List.pairwise_append.mp h.apart).2.2 e he last (by simp) (Or.inl hu)
    omega
  · rw [List.mem_singleton.mp he]

/-! ## The zone cursor -/

/-- The cursor of `pmm_init` stands at a zone that does not start after `start`. -/
def CursorOk (cursor : List ZoneE) (start : ℕ) : Prop :=
  cursor = [.dma, .normal] ∨ cursor = [.normal] ∧ 16 * 2 ^ 20 ≤ start

theorem CursorOk.mono {cursor : List ZoneE} {start start' : ℕ} (h : CursorOk cursor start)
    (hle : start ≤ start') : CursorOk cursor start' := by
  rcases h with h | ⟨h, hs⟩
  · exact Or.inl h
  · exact Or.inr ⟨h, by omega⟩

theorem ZonesOk.zoneEnd_dma {p : Pmm} (h : ZonesOk p) :
    (zoneEnd p [.normal]).toNat = 16 * 2 ^ 20 := by
  show (p.memZone .normal).offset.toNat = _
  rw [h.offset_normal]
  rfl

/-- The cursor is moved to the zone of the entry. -/
theorem pmmSeekZone_spec {p : Pmm} (hz : ZonesOk p) {start : Word} {cursor : List ZoneE}
    (hc : CursorOk cursor start.toNat) (hle : start.toNat ≤ p.memSize.toNat) :
    ∃ cursor', pmmSeekZone p start cursor = .ok cursor' ∧ CursorOk cursor' start.toNat ∧
      (cursor' = [.dma, .normal] → start.toNat ≤ 16 * 2 ^ 20) := by
  have hnormal : pmmSeekZone p start [.normal] = .ok [.normal] := by
    unfold pmmSeekZone
    rw [if_neg]
    rw [BitVec.not_lt]
    exact hle
  rcases hc with rfl | ⟨rfl, hs⟩
  · unfold pmmSeekZone
    by_cases hlt : zoneEnd p [.normal] < start
    · rw [if_pos hlt, hnormal]
      have hs : (zoneEnd p [.normal]).toNat < start.toNat := hlt
      rw [hz.zoneEnd_dma] at hs
      exact ⟨_, rfl, Or.inr ⟨rfl, by omega⟩, by simp⟩
    · rw [if_neg hlt]
      rw [BitVec.not_lt, BitVec.le_def, hz.zoneEnd_dma] at hlt
      exact ⟨_, rfl, Or.inl rfl, fun _ => hlt⟩
  · exact ⟨_, hnormal, Or.inr ⟨rfl, hs⟩, by simp⟩

/-! ## One entry -/

theorem toNat_cMin (a b : Word) : (cMin a b).toNat = min a.toNat b.toNat := by
  unfold cMin
  by_cases h : a < b
  · rw [if_pos h]
    have : a.toNat < b.toNat := h
    omega
  · rw [if_neg h]
    rw [BitVec.not_lt, BitVec.le_def] at h
    omega

/-- What one round of the inner loop does to the state. -/
def pmmSetRound (p : Pmm) (z : ZoneE) (idx size : Word) : Pmm :=
  (pmmSetUnused p z idx size).setZone z
    { (p.memZone z) with
      memUsed := (p.memZone z).memUsed - size * pageSize
      memFree := (p.memZone z).memFree + size * pageSize
      firstFreeIdx :=
        if idx < (p.memZone z).firstFreeIdx then idx else (p.memZone z).firstFreeIdx }

theorem pmmSetEntry_cons (p : Pmm) (entryStart entryEnd : Word) (z : ZoneE) (rest : List ZoneE) :
    pmmSetEntry p entryStart entryEnd (z :: rest) =
      (let p' := pmmSetRound p z ((entryStart - (p.memZone z).offset) / pageSize)
          ((cMin entryEnd (zoneEnd p rest) - entryStart) / pageSize)
        if entryEnd ≤ zoneEnd p rest then .ok (p', z :: rest)
        else pmmSetEntry p' (cMin (zoneEnd p rest) entryEnd) entryEnd rest) := rfl

theorem pmmSetRound_recounts (p : Pmm) (z : ZoneE) (idx size : Word) :
    Recounts p (pmmSetRound p z idx size) z ((p.memZone z).memFree + size * pageSize)
      ((p.memZone z).memUsed - size * pageSize) :=
  Recounts.setZone p _ rfl rfl rfl

/-- The bookkeeping of one round, for a range of pages that were set. -/
theorem pmmSetRound_tally {p : Pmm} {z : ZoneE} {idx size : Word}
    (hfits : idx.toNat + size.toNat ≤ p.pages z)
    (hset : ∀ i, idx.toNat ≤ i → i < idx.toNat + size.toNat → p.bit z i = true)
    (hbits : ∀ i < p.pages z, (pmmSetRound p z idx size).bit z i =
      if idx.toNat ≤ i ∧ i < idx.toNat + size.toNat then false else p.bit z i)
    (h : Tallied p z) : Tallied (pmmSetRound p z idx size) z := by
  have hrec := pmmSetRound_recounts p z idx size
  have hpages := hrec.same.pages z
  have hcount := clearBits_add hpages hfits hset hbits
  obtain ⟨htotal, hfree, hused⟩ := h.counted.clear hrec hcount
  refine ⟨htotal, hfree, hused, ?_⟩
  have hfirst : ((pmmSetRound p z idx size).memZone z).firstFreeIdx =
      if idx < (p.memZone z).firstFreeIdx then idx else (p.memZone z).firstFreeIdx := by
    unfold pmmSetRound
    rw [Pmm.setZone_self]
  intro i hi hclear
  rw [hpages] at hi
  rw [hbits i hi] at hclear
  rw [hfirst]
  by_cases hlt : idx < (p.memZone z).firstFreeIdx
  · have hlt' : idx.toNat < (p.memZone z).firstFreeIdx.toNat := hlt
    rw [if_pos hlt]
    split at hclear
    · omega
    · have := h.first i hi hclear
      omega
  · rw [if_neg hlt]
    rw [BitVec.not_lt, BitVec.le_def] at hlt
    split at hclear
    · omega
    · exact h.first i hi hclear

/-- A round clears the pages of `[start, stop)` in its zone. -/
theorem pmmSetRound_clears {p : Pmm} (hz : ZonesOk p) (ha : BitmapsApart p) {z : ZoneE}
    (start stop : Word) (hlow : z.firstPage * 4096 ≤ start.toNat) (hle : start.toNat ≤ stop.toNat)
    (hend : stop.toNat ≤ (z.firstPage + p.pages z) * 4096) (h1 : start.toNat % 4096 = 0)
    (h2 : stop.toNat % 4096 = 0) :
    Clears p (pmmSetRound p z ((start - (p.memZone z).offset) / pageSize)
      ((stop - start) / pageSize)) (start.toNat / 4096) (stop.toNat / 4096) := by
  have hoff := hz.offset z
  have hidx : ((start - (p.memZone z).offset) / pageSize).toNat =
      start.toNat / 4096 - z.firstPage := by
    rw [BitVec.toNat_udiv, BitVec.toNat_sub_of_le (by rw [BitVec.le_def, hoff]; exact hlow), hoff,
      show pageSize.toNat = 4096 from rfl]
    omega
  have hsize : ((stop - start) / pageSize).toNat = stop.toNat / 4096 - start.toNat / 4096 := by
    rw [BitVec.toNat_udiv, BitVec.toNat_sub_of_le hle, show pageSize.toNat = 4096 from rfl]
    omega
  generalize (start - (p.memZone z).offset) / pageSize = idx at hidx ⊢
  generalize (stop - start) / pageSize = size at hsize ⊢
  have hsame : SameZones p (pmmSetRound p z idx size) :=
    SameZones.setZone (SameZones.setArea p _) rfl rfl
  have hfits : idx.toNat + size.toNat ≤ p.pages z := by omega
  have harea : (pmmSetRound p z idx size).area =
      bitmapClearRange p.area (p.memZone z).bitmap idx size := Pmm.setZone_area _ _ _
  have hmarks := Marks.of_clear hz ha hsame hfits harea
  have hlo : z.firstPage + idx.toNat = start.toNat / 4096 := by omega
  have hhi : z.firstPage + idx.toNat + size.toNat = stop.toNat / 4096 := by omega
  refine ⟨hhi ▸ hlo ▸ hmarks, ?_⟩
  intro hset htally z'
  by_cases hzz : z' = z
  · subst hzz
    refine pmmSetRound_tally hfits ?_ (fun i hi => hmarks.own hi) (htally z')
    intro i h3 h4
    exact hset z' i (by omega) (by omega) (by omega)
  · exact (htally z').of_eq (Pmm.setZone_of_ne _ _ hzz) fun i hi => hmarks.other hz hzz hfits hi

theorem cMin_of_le {a b : Word} (h : a.toNat ≤ b.toNat) : cMin a b = a := by
  apply BitVec.eq_of_toNat_eq
  rw [toNat_cMin]
  omega

theorem cMin_of_ge {a b : Word} (h : b.toNat ≤ a.toNat) : cMin a b = b := by
  apply BitVec.eq_of_toNat_eq
  rw [toNat_cMin]
  omega

/-- An entry of the normal zone. -/
theorem pmmSetEntry_normal {p : Pmm} (hz : ZonesOk p) (ha : BitmapsApart p) (start stop : Word)
    (hlow : 16 * 2 ^ 20 ≤ start.toNat) (hle : start.toNat ≤ stop.toNat)
    (hend : stop.toNat ≤ p.memSize.toNat) (h1 : start.toNat % 4096 = 0)
    (h2 : stop.toNat % 4096 = 0) :
    ∃ p', pmmSetEntry p start stop [.normal] = .ok (p', [.normal]) ∧
      Clears p p' (start.toNat / 4096) (stop.toNat / 4096) := by
  have hpages := hz.pages_normal
  rw [pmmSetEntry_cons]
  have hle' : stop ≤ zoneEnd p [] := hend
  rw [if_pos hle', cMin_of_le hle']
  refine ⟨_, rfl, pmmSetRound_clears hz ha (z := .normal) start stop hlow hle ?_ h1 h2⟩
  rw [hpages]
  simp only [ZoneE.firstPage]
  omega

/-- **An entry of the memory map has its pages cleared**, across the border of the zones too. -/
theorem pmmSetEntry_spec {p : Pmm} (hz : ZonesOk p) (ha : BitmapsApart p) (start stop : Word)
    {cursor : List ZoneE} (hc : CursorOk cursor start.toNat)
    (hdma : cursor = [.dma, .normal] → start.toNat ≤ 16 * 2 ^ 20)
    (hle : start.toNat ≤ stop.toNat) (hend : stop.toNat ≤ p.memSize.toNat)
    (h1 : start.toNat % 4096 = 0) (h2 : stop.toNat % 4096 = 0) :
    ∃ p' cursor', pmmSetEntry p start stop cursor = .ok (p', cursor') ∧
      Clears p p' (start.toNat / 4096) (stop.toNat / 4096) ∧ CursorOk cursor' stop.toNat := by
  rcases hc with rfl | ⟨rfl, hs⟩
  · have hstart := hdma rfl
    have hborder := hz.zoneEnd_dma
    have hpages := hz.pages_dma
    rw [pmmSetEntry_cons]
    by_cases hlast : stop ≤ zoneEnd p [.normal]
    · have hlast' : stop.toNat ≤ 16 * 2 ^ 20 := hborder ▸ hlast
      rw [if_pos hlast, cMin_of_le hlast]
      refine ⟨_, _, rfl, pmmSetRound_clears hz ha (z := .dma) start stop (by simp [ZoneE.firstPage])
        hle ?_ h1 h2, Or.inl rfl⟩
      rw [hpages]
      simp only [ZoneE.firstPage]
      omega
    · -- the entry goes on in the normal zone
      have hlast' : 16 * 2 ^ 20 < stop.toNat := by
        rw [BitVec.not_le] at hlast
        exact hborder ▸ hlast
      rw [if_neg hlast, cMin_of_ge (by omega), cMin_of_le (by omega)]
      have hround := pmmSetRound_clears hz ha (z := .dma) start (zoneEnd p [.normal])
        (by simp [ZoneE.firstPage]) (by omega) (by rw [hpages]; simp only [ZoneE.firstPage]; omega) h1 (by omega)
      generalize pmmSetRound p .dma _ _ = p₁ at hround ⊢
      obtain ⟨p', hset, hmarks⟩ := pmmSetEntry_normal (hz.same hround.same) (ha.same hround.same)
        (zoneEnd p [.normal]) stop (by omega) (by omega)
        (by rw [hround.same.memSize]; exact hend) (by omega) h2
      exact ⟨p', _, hset, hround.trans hmarks (by omega) (by omega), Or.inr ⟨rfl, by omega⟩⟩
  · obtain ⟨p', hset, hmarks⟩ := pmmSetEntry_normal hz ha start stop hs hle hend h1 h2
    exact ⟨p', _, hset, hmarks, Or.inr ⟨rfl, by omega⟩⟩

/-! ## All entries -/

/-- **The walk over the memory map clears the usable pages** and no others. -/
theorem pmmSetEntries_spec :
    ∀ {entries : List MmapEntry} {p : Pmm} (cursor : List ZoneE), ZonesOk p → BitmapsApart p →
      MemmapOk entries →
      (∀ e ∈ entries, e.type = memUsable →
        CursorOk cursor e.base.toNat ∧ e.base.toNat + e.length.toNat ≤ p.memSize.toNat) →
      ∃ p' cursor', pmmSetEntries p cursor entries = .ok (p', cursor') ∧ SameZones p p' ∧
        (∀ z, ∀ i < p.pages z, p'.bit z i = false ↔
          UsablePage entries (z.firstPage + i) ∨ p.bit z i = false) ∧
        ((∀ z, ∀ i < p.pages z, UsablePage entries (z.firstPage + i) → p.bit z i = true) →
          (∀ z, Tallied p z) → ∀ z, Tallied p' z) := by
  intro entries
  induction entries with
  | nil =>
      intro p cursor _ _ _ _
      refine ⟨p, cursor, rfl, SameZones.refl p, ?_, fun _ htally => htally⟩
      intro z i _
      simp [UsablePage]
  | cons e entries ih =>
      intro p cursor hz ha hmap hcur
      have hmap' : MemmapOk entries :=
        ⟨(List.pairwise_cons.mp hmap.sorted).2, (List.pairwise_cons.mp hmap.apart).2,
          fun x hx => hmap.aligned x (List.mem_cons_of_mem e hx),
          fun x hx => hmap.inside x (List.mem_cons_of_mem e hx)⟩
      unfold pmmSetEntries
      by_cases hu : e.type = memUsable
      · rw [if_pos hu]
        obtain ⟨hc, hend⟩ := hcur e List.mem_cons_self hu
        obtain ⟨hb, hl⟩ := hmap.aligned e List.mem_cons_self hu
        have hstop : (e.base + e.length).toNat = e.base.toNat + e.length.toNat := by
          have := p.memSize.isLt
          rw [BitVec.toNat_add]
          omega
        rw [alignUp_page_of_mod hb, alignDown_page_of_mod (by omega)]
        obtain ⟨c₁, hseek, hc₁, hdma⟩ := pmmSeekZone_spec hz hc (by omega)
        obtain ⟨p₁, c₂, hset, hclears, hc₂⟩ := pmmSetEntry_spec hz ha e.base
          (e.base + e.length) hc₁ hdma (by omega) (by omega) hb (by omega)
        have hmarks := hclears.toMarks
        have hrest : ∀ x ∈ entries, x.type = memUsable →
            CursorOk c₂ x.base.toNat ∧ x.base.toNat + x.length.toNat ≤ p₁.memSize.toNat := by
          intro x hx hux
          have hafter := (List.pairwise_cons.mp hmap.apart).1 x hx (Or.inl hu)
          refine ⟨hc₂.mono (by omega), ?_⟩
          rw [hmarks.same.memSize]
          exact (hcur x (List.mem_cons_of_mem e hx) hux).2
        obtain ⟨p', c', hgo, hsame, hbits, htally⟩ := ih c₂ (hz.same hmarks.same)
          (ha.same hmarks.same) hmap' hrest
        refine ⟨p', c', ?_, hmarks.same.trans hsame, ?_, ?_⟩
        · simp only [hseek, hset, bind, Except.bind]
          exact hgo
        · intro z i hi
          rw [hbits z i (by rw [hmarks.same.pages]; exact hi), hmarks.bits z i hi, hstop]
          rw [usablePage_cons, e.offers_iff hu hb hl]
          split
          · rename_i hin
            exact ⟨fun _ => Or.inl (Or.inl hin), fun _ => Or.inr rfl⟩
          · rename_i hin
            rw [or_assoc, or_iff_right hin]
        · intro hset₀ htally₀
          refine htally ?_ (hclears.tally ?_ htally₀)
          · -- the entries that are left offer no page of this one
            intro z i hi hpage
            rw [hmarks.same.pages] at hi
            rw [hmarks.bits z i hi, if_neg]
            · exact hset₀ z i hi (usablePage_cons.mpr (Or.inr hpage))
            · rintro ⟨-, hlt⟩
              obtain ⟨x, hx, -, hbase, -⟩ := hpage
              have hafter := (List.pairwise_cons.mp hmap.apart).1 x hx (Or.inl hu)
              omega
          · intro z i hi h3 h4
            rw [hstop] at h4
            exact hset₀ z i hi (usablePage_cons.mpr (Or.inl ((e.offers_iff hu hb hl _).mpr ⟨h3, h4⟩)))
      · rw [if_neg hu]
        obtain ⟨p', c', hgo, hsame, hbits, htally⟩ := ih cursor hz ha hmap'
          fun x hx => hcur x (List.mem_cons_of_mem e hx)
        refine ⟨p', c', hgo, hsame, ?_, ?_⟩
        · intro z i hi
          have hoffers : ¬ e.Offers (z.firstPage + i) := fun h => hu h.1
          rw [hbits z i hi, usablePage_cons, or_iff_right hoffers]
        · intro hset₀
          exact htally fun z i hi hpage => hset₀ z i hi (usablePage_cons.mpr (Or.inr hpage))

/-! ## The bitmaps in `alloc_area` -/

theorem toNat_bitmapSizeBytes (b : Bitmap) :
    (bitmapSizeBytes b).toNat = (b.size.toNat + 7) / 8 := by
  have hlt := b.size.isLt
  have hmod : b.size % 8 ≠ 0 ↔ b.size.toNat % 8 ≠ 0 := by
    rw [ne_eq, ← BitVec.toNat_inj, BitVec.toNat_umod]
    rfl
  unfold bitmapSizeBytes
  by_cases h : b.size % 8 ≠ 0
  · rw [if_pos h, BitVec.toNat_add, BitVec.toNat_udiv, show (8 : Word).toNat = 8 from rfl,
      show (1 : Word).toNat = 1 from rfl]
    rw [hmod] at h
    omega
  · rw [if_neg h, BitVec.toNat_add, BitVec.toNat_udiv, show (8 : Word).toNat = 8 from rfl,
      show (0 : Word).toNat = 0 from rfl]
    rw [hmod] at h
    omega

/-- The bytes of a bitmap that does not wrap around. -/
theorem Bitmap.toNat_byteAddr {b : Bitmap} (hfit : b.data.toNat + (b.size.toNat + 7) / 8 ≤ 2 ^ 64)
    {i : ℕ} (hi : i < b.size.toNat) : (b.byteAddr i).toNat = b.data.toNat + i / 8 := by
  unfold Bitmap.byteAddr
  rw [BitVec.toNat_add, BitVec.toNat_ofNat]
  omega

/-- The round of `pmm_init` for one zone: its bits are all set, and no byte outside its bitmap is
touched. -/
theorem pmmInitZone_spec (p : Pmm) (z : ZoneE) (rest : List ZoneE) {b : Bitmap}
    (hb : b = ((pmmInitZone p z rest).memZone z).bitmap)
    (hfit : b.data.toNat + (b.size.toNat + 7) / 8 ≤ 2 ^ 64) :
    (∀ i < b.size.toNat, bitmapBit (pmmInitZone p z rest).area b i = true) ∧
      ∀ x : Word, (x.toNat < b.data.toNat ∨ b.data.toNat + (b.size.toNat + 7) / 8 ≤ x.toNat) →
        (pmmInitZone p z rest).area x = p.area x := by
  have hbytes := toNat_bitmapSizeBytes b
  have hsz := b.size.isLt
  have harea : (pmmInitZone p z rest).area =
      bitmapSetRange (memset p.area b.data 0 (bitmapSizeBytes b)) b 0 b.size := by
    rw [hb]
    unfold pmmInitZone
    rw [Pmm.setZone_self]
    rfl
  rw [harea]
  constructor
  · intro i hi
    rw [bitmapBit_setRange _ _ (by simp; omega) (by omega), if_pos]
    refine ⟨Nat.zero_le i, ?_⟩
    rw [show (0 : Word).toNat = 0 from rfl]
    omega
  · intro x hx
    unfold bitmapSetRange
    rw [bitmapRange_apply_of_outside (fun m bit x => bitmapSet_apply_of_ne m b bit)]
    · rcases Nat.eq_zero_or_pos (bitmapSizeBytes b).toNat with hz | hpos
      · unfold memset
        rw [hz]
        rfl
      · exact fillBytes_apply_of_outside (by omega) (by omega)
    · rw [show (0 : Word).toNat = 0 from rfl]
      omega
    · intro i _ hi
      rw [show (0 : Word).toNat = 0 from rfl] at hi
      have hi' : i < b.size.toNat := by omega
      have := Bitmap.toNat_byteAddr hfit hi'
      rintro rfl
      omega

/-- The bitmaps of a memory of `memSize` bytes fit into the megabyte of `alloc_area`. -/
structure AreaFits (allocArea memSize : Word) : Prop where
  area : allocArea.toNat + 2 ^ 20 ≤ 2 ^ 64
  fits : (alignUp allocArea 8).toNat + 4096 / 8 +
    ((memSize.toNat - 16 * 2 ^ 20) / 4096 + 7) / 8 ≤ allocArea.toNat + 2 ^ 20

/-- Where the two bitmaps lie: one after the other, from the first aligned byte of the array. -/
theorem pmmInitZones_data (area : Mem) {allocArea : Word} (memSize : Word)
    (hA : allocArea.toNat + 2 ^ 20 ≤ 2 ^ 64) :
    ((pmmInitZones { Pmm.static area allocArea with memSize := memSize } ZoneE.all).memZone
        .dma).bitmap.data = alignUp allocArea 8 ∧
      ((pmmInitZones { Pmm.static area allocArea with memSize := memSize } ZoneE.all).memZone
        .normal).bitmap.data = alignUp allocArea 8 + 512 := by
  have hd := toNat_alignUp_eight (x := allocArea) (by omega)
  refine ⟨rfl, ?_⟩
  -- the bitmap of the DMA zone has 512 bytes, so that nothing is lost to the second alignment
  have hnext : alignUp (alignUp allocArea 8 +
      bitmapSizeBytes ⟨(16 * mib - 0) / pageSize, null⟩) 8 = alignUp allocArea 8 + 512 := by
    rw [show bitmapSizeBytes ⟨(16 * mib - 0) / pageSize, null⟩ = 512 by decide]
    apply alignUp_eight_of_mod
    rw [BitVec.toNat_add, show (512 : Word).toNat = 512 from rfl]
    omega
  exact hnext

/-- **After the zones are set up, all pages are taken**, in two bitmaps side by side. -/
theorem pmmInitZones_bits (area : Mem) {allocArea memSize : Word} (hroom : ¬ memSize < 16 * mib)
    (hfit : AreaFits allocArea memSize) {p : Pmm}
    (hp : p = pmmInitZones { Pmm.static area allocArea with memSize := memSize } ZoneE.all) :
    BitmapsApart p ∧ ∀ z, ∀ i < p.pages z, p.bit z i = true := by
  have hzones : ZonesOk p := hp ▸ pmmInitZones_zones area allocArea memSize hroom
  obtain ⟨hA, hF⟩ := hfit
  obtain ⟨hdata, hdata'⟩ := pmmInitZones_data area memSize hA
  rw [← hp] at hdata hdata'
  generalize hp₀ : { Pmm.static area allocArea with memSize := memSize } = p₀ at hp
  have hp' : p = pmmInitZone (pmmInitZone p₀ .dma [.normal]) .normal [] := hp
  generalize hp₁ : pmmInitZone p₀ .dma [.normal] = p₁ at hp'
  have hb₁ : (p.memZone .dma).bitmap = (p₁.memZone .dma).bitmap := by
    have hne : ZoneE.dma ≠ .normal := by decide
    rw [hp']
    exact congrArg Zone.bitmap (Pmm.setZone_of_ne _ _ hne)
  have hd := toNat_alignUp_eight (x := allocArea) (by omega)
  have hnext : (alignUp allocArea 8 + 512).toNat = (alignUp allocArea 8).toNat + 512 := by
    rw [BitVec.toNat_add, show (512 : Word).toNat = 512 from rfl]
    omega
  have hsize := hzones.size_dma
  have hsize' := hzones.size_normal
  have hmem : p.memSize = memSize := by
    rw [hp', ← hp₁, ← hp₀]
    rfl
  rw [hmem] at hsize'
  have hfit₁ : (p.memZone .dma).bitmap.data.toNat + ((p.memZone .dma).bitmap.size.toNat + 7) / 8 ≤
      2 ^ 64 := by
    rw [hdata, hsize]
    omega
  have hfit₂ : (p.memZone .normal).bitmap.data.toNat +
      ((p.memZone .normal).bitmap.size.toNat + 7) / 8 ≤ 2 ^ 64 := by
    rw [hdata', hsize', hnext]
    omega
  have hspec₁ := pmmInitZone_spec p₀ .dma [.normal] (hb₁.trans (by rw [hp₁])) hfit₁
  have hspec₂ := pmmInitZone_spec p₁ .normal [] (b := (p.memZone .normal).bitmap) (by rw [hp'])
    hfit₂
  rw [hp₁] at hspec₁
  rw [← hp'] at hspec₂
  have hbyte : ∀ i < p.pages .dma, ∀ j < p.pages .normal,
      ((p.memZone .dma).bitmap.byteAddr i).toNat < (p.memZone .normal).bitmap.data.toNat ∧
      (p.memZone .normal).bitmap.data.toNat ≤ ((p.memZone .normal).bitmap.byteAddr j).toNat := by
    intro i hi j hj
    rw [Bitmap.toNat_byteAddr hfit₁ hi, Bitmap.toNat_byteAddr hfit₂ hj, hdata, hdata', hnext]
    unfold Pmm.pages at hi
    omega
  constructor
  · intro z z' hne i hi j hj heq
    cases z <;> cases z'
    · exact hne rfl
    · have := hbyte i hi j hj
      rw [heq] at this
      omega
    · have := hbyte j hj i hi
      rw [heq] at this
      omega
    · exact hne rfl
  · intro z i hi
    cases z with
    | normal => exact hspec₂.1 i hi
    | dma =>
        have hkeep := hspec₂.2 ((p.memZone .dma).bitmap.byteAddr i) (Or.inl ?_)
        · have hbit := hspec₁.1 i hi
          unfold Pmm.bit bitmapBit
          unfold bitmapBit at hbit
          unfold Bitmap.byteAddr at hkeep
          rw [hkeep]
          exact hbit
        · rw [Bitmap.toNat_byteAddr hfit₁ hi, hdata, hdata', hnext]
          unfold Pmm.pages at hi
          omega

/-- The counters and the hints before the walk over the memory map. -/
theorem pmmInitZones_tally (area : Mem) {allocArea memSize : Word} (hroom : ¬ memSize < 16 * mib)
    (htaken : ∀ z, ∀ i < (pmmInitZones { Pmm.static area allocArea with memSize := memSize }
      ZoneE.all).pages z, (pmmInitZones { Pmm.static area allocArea with memSize := memSize }
      ZoneE.all).bit z i = true) (z : ZoneE) :
    Tallied (pmmInitZones { Pmm.static area allocArea with memSize := memSize } ZoneE.all) z := by
  have hzones := pmmInitZones_zones area allocArea memSize hroom
  have hmem : (pmmInitZones { Pmm.static area allocArea with memSize := memSize }
      ZoneE.all).memSize = memSize := rfl
  have htotal : ((pmmInitZones { Pmm.static area allocArea with memSize := memSize }
      ZoneE.all).memZone z).memTotal = match z with
        | .dma => 16 * mib - 0
        | .normal => memSize - 16 * mib := by
    cases z <;> rfl
  have hfree : ((pmmInitZones { Pmm.static area allocArea with memSize := memSize }
      ZoneE.all).memZone z).memFree = 0 := by
    cases z <;> rfl
  have hused : ((pmmInitZones { Pmm.static area allocArea with memSize := memSize }
      ZoneE.all).memZone z).memUsed = ((pmmInitZones
        { Pmm.static area allocArea with memSize := memSize } ZoneE.all).memZone z).memTotal := by
    cases z <;> rfl
  generalize pmmInitZones { Pmm.static area allocArea with memSize := memSize } ZoneE.all = p at *
  have hnone : p.clearBits z = 0 := by
    unfold Pmm.clearBits
    rw [Finset.card_eq_zero, Finset.filter_eq_empty_iff]
    intro i hi hclear
    rw [htaken z i (Finset.mem_range.mp hi)] at hclear
    cases hclear
  constructor
  case total =>
    rw [htotal]
    cases z with
    | dma =>
        rw [hzones.pages_dma]
        change 4096 * 4096 ≤ (16 * mib - 0).toNat
        decide
    | normal =>
        rw [BitVec.not_lt] at hroom
        rw [hzones.pages_normal, hmem, BitVec.toNat_sub_of_le hroom]
        exact Nat.div_mul_le_self _ _
  case free =>
    rw [hfree, hnone]
    rfl
  case used =>
    rw [hfree, hused]
    exact Nat.zero_add _
  case first =>
    intro i hi hclear
    rw [htaken z i hi] at hclear
    cases hclear

/-- **After `pmm_init` a bit is clear exactly when its page is usable**, and the bookkeeping agrees. -/
theorem pmmInit_spec {area : Mem} {allocArea : Word} {handover : Handover}
    {memmap : List MmapEntry} (hhand : handover.memmap = some memmap) (hmap : MemmapOk memmap)
    {memSize : Word} (hsize : getMemSize memmap = .ok memSize) (hroom : 16 * 2 ^ 20 ≤ memSize.toNat)
    (hfit : AreaFits allocArea memSize) :
    ∃ p, pmmInit (Pmm.static area allocArea) handover = .ok p ∧ p.memSize = memSize ∧ ZonesOk p ∧
      BitmapsApart p ∧
      (∀ z, ∀ i < p.pages z, p.bit z i = false ↔ UsablePage memmap (z.firstPage + i)) ∧
      ∀ z, Tallied p z := by
  have hroom' : ¬ memSize < 16 * mib := by
    rw [BitVec.not_lt]
    exact hroom
  have hzones := pmmInitZones_zones area allocArea memSize hroom'
  obtain ⟨hapart, htaken⟩ := pmmInitZones_bits area hroom' hfit rfl
  have htally := pmmInitZones_tally area hroom' htaken
  have hmem : (pmmInitZones { Pmm.static area allocArea with memSize := memSize }
      ZoneE.all).memSize = memSize := rfl
  have hends : ∀ e ∈ memmap, e.type = memUsable →
      e.base.toNat + e.length.toNat ≤ memSize.toNat := by
    intro e he hu
    unfold getMemSize at hsize
    cases hlast : memmap.getLast? with
    | none =>
        rw [hlast] at hsize
        cases hsize
    | some last =>
        rw [hlast] at hsize
        injection hsize with hsize
        have hle := hmap.usable_le hlast he hu
        have hin := hmap.inside last (List.mem_of_getLast? hlast)
        rw [← hsize, BitVec.toNat_add] at hroom ⊢
        rcases Nat.lt_or_eq_of_le hin with hlt | heq
        · omega
        · rw [heq] at hroom
          omega
  unfold pmmInit
  rw [hhand]
  simp only [hsize, bind, Except.bind]
  rw [if_neg hroom']
  generalize pmmInitZones { Pmm.static area allocArea with memSize := memSize } ZoneE.all = p₀ at *
  obtain ⟨p, c, hgo, hsame, hbits, htally'⟩ := pmmSetEntries_spec ZoneE.all hzones hapart hmap
    fun e he hu => ⟨Or.inl rfl, by rw [hmem]; exact hends e he hu⟩
  rw [hgo]
  refine ⟨p, rfl, hsame.memSize.trans hmem, hzones.same hsame, hapart.same hsame, ?_,
    htally' (fun z i hi _ => htaken z i hi) htally⟩
  intro z i hi
  rw [hsame.pages] at hi
  rw [hbits z i hi, htaken z i hi]
  simp

/-- **`pmm_init` frees exactly the usable pages.** A bit is clear exactly when its page lies in a
usable entry, the counters of each zone are those of its bitmap, and no free page lies below the
hint. -/
theorem pmmInit_frees_usable {area : Mem} {allocArea : Word} {handover : Handover}
    {memmap : List MmapEntry} (hhand : handover.memmap = some memmap) (hmap : MemmapOk memmap)
    {memSize : Word} (hsize : getMemSize memmap = .ok memSize) (hroom : 16 * 2 ^ 20 ≤ memSize.toNat)
    (hfit : AreaFits allocArea memSize) :
    ∃ p, pmmInit (Pmm.static area allocArea) handover = .ok p ∧ ∀ z,
      (∀ i : Word, i.toNat < p.pages z → (bitmapGet p.area (p.memZone z).bitmap i = false ↔
        UsablePage memmap (z.firstPage + i.toNat))) ∧
      (p.memZone z).memFree.toNat =
        4096 * ((Finset.range (p.pages z)).filter fun i => p.bit z i = false).card ∧
      (p.memZone z).memFree.toNat + (p.memZone z).memUsed.toNat =
        (p.memZone z).memTotal.toNat ∧
      ∀ i < p.pages z, p.bit z i = false → (p.memZone z).firstFreeIdx.toNat ≤ i := by
  obtain ⟨p, hok, -, -, -, hbits, htally⟩ := @pmmInit_spec area allocArea handover memmap hhand
    hmap memSize hsize hroom hfit
  refine ⟨p, hok, ?_⟩
  intro z
  refine ⟨?_, (htally z).free, (htally z).used, (htally z).first⟩
  intro i hi
  rw [bitmapGet_eq]
  exact hbits z i.toNat hi

/-- A map whose first entry goes over the border of the zones and whose second one is reserved. -/
def borderMap : List MmapEntry :=
  [⟨0, 0x1001000, memUsable⟩, ⟨0x1001000, 0x1000, 2⟩, ⟨0x1002000, 0x2000, memUsable⟩]

theorem borderMap_ok : MemmapOk borderMap := by
  constructor <;> decide

theorem pmmInit_frees_border : ∃ p,
    pmmInit (Pmm.static (fun _ => 0) 0x2000) ⟨some borderMap, none, none, none⟩ = .ok p ∧
      ∀ i < p.pages .normal, p.bit .normal i = false →
        (p.memZone .normal).firstFreeIdx.toNat ≤ i := by
  obtain ⟨p, hok, hzones⟩ := @pmmInit_frees_usable (fun _ => 0) 0x2000
    ⟨some borderMap, none, none, none⟩ borderMap rfl borderMap_ok 0x1004000 rfl (by decide)
    ⟨by decide, by decide⟩
  exact ⟨p, hok, (hzones .normal).2.2.2⟩

end Cerberos
