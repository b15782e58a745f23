/-
# Cerberos.Mm.PmmTally — the frame counters are exact.

`mem_free` and `mem_used` of a zone are kept beside its bitmap, by three functions that never look
at the bits they count. Their agreement rests on one fact: what `pmm_alloc` sets was clear, and what
`pmm_free` clears was set. The first is the search of `pmm_alloc`; the second is the caller's
promise, and holds for EVERY part of a live range. A live range may therefore be given back piece by
piece, and the pieces that stay are live ranges of their own.
-/
import Cerberos.Mm.PmmRuns

namespace Cerberos

open Cerberos.Base

/-! ## Counters -/

theorem pmmAlloc_recounts {p p' : Pmm} {z : ZoneE} {size addr : Word}
    (h : pmmAlloc p z size = .ok (addr, p')) :
    Recounts p p' z ((p.memZone z).memFree - size * pageSize)
      ((p.memZone z).memUsed + size * pageSize) := by
  unfold pmmAlloc at h
  dsimp only at h
  split at h
  · cases h
  · injection h with h
    injection h with _ h
    rw [← h]
    exact Recounts.setZone p _ rfl rfl rfl

theorem pmmFree_recounts {p p' : Pmm} {addr size : Word} {z : ZoneE}
    (hz : pmmFindZone p addr ZoneE.all = some z) (h : pmmFree p addr size = .ok p') :
    Recounts p p' z ((p.memZone z).memFree + size * pageSize)
      ((p.memZone z).memUsed - size * pageSize) := by
  unfold pmmFree at h
  rw [hz] at h
  injection h with h
  rw [← h]
  exact Recounts.setZone p _ rfl rfl rfl

/-! ## Parts of a live range -/

/-- The `n` pages of the range from page `k` on. -/
def Frames.sub (r : Frames) (k n : ℕ) : Frames :=
  ⟨r.zone, r.addr + BitVec.ofNat 64 (4096 * k), BitVec.ofNat 64 n⟩

/-- What stays of the range when these pages are given back: the pages before and after them. -/
def Frames.without (r : Frames) (k n : ℕ) : List Frames :=
  (if k = 0 then [] else [r.sub 0 k]) ++
    if k + n = r.size.toNat then [] else [r.sub (k + n) (r.size.toNat - (k + n))]

section Parts

variable {p : Pmm} {r : Frames} {k n : ℕ}

theorem Frames.Placed.toNat_sub_addr (h : r.Placed p) (hz : ZonesOk p) (hn : 1 ≤ n)
    (hkn : k + n ≤ r.size.toNat) : (r.sub k n).addr.toNat = r.addr.toNat + 4096 * k := by
  have hlt := hz.pages_lt r.zone
  have hhigh := h.high
  show (r.addr + BitVec.ofNat 64 (4096 * k)).toNat = _
  rw [BitVec.toNat_add, BitVec.toNat_ofNat]
  omega

theorem Frames.toNat_sub_size (hkn : k + n ≤ r.size.toNat) : (r.sub k n).size.toNat = n := by
  have hlt := r.size.isLt
  show (BitVec.ofNat 64 n).toNat = n
  rw [BitVec.toNat_ofNat]
  omega

theorem Frames.Placed.sub (h : r.Placed p) (hz : ZonesOk p) (hn : 1 ≤ n)
    (hkn : k + n ≤ r.size.toNat) : (r.sub k n).Placed p := by
  have haddr := h.toNat_sub_addr hz hn hkn
  have hsize := Frames.toNat_sub_size hkn
  obtain ⟨h1, h2, h3, h4⟩ := h
  refine ⟨by omega, by omega, ?_, ?_⟩
  · show r.zone.firstPage ≤ _
    omega
  · show _ ≤ r.zone.firstPage + p.pages r.zone
    omega

theorem Frames.Placed.has_sub (h : r.Placed p) (hz : ZonesOk p) (hn : 1 ≤ n)
    (hkn : k + n ≤ r.size.toNat) (page : ℕ) :
    (r.sub k n).Has page ↔
      r.addr.toNat / 4096 + k ≤ page ∧ page < r.addr.toNat / 4096 + k + n := by
  have haddr := h.toNat_sub_addr hz hn hkn
  have hsize := Frames.toNat_sub_size hkn
  have hfirst : (r.sub k n).addr.toNat / 4096 = r.addr.toNat / 4096 + k := by omega
  unfold Frames.Has
  rw [hfirst, hsize]

theorem Frames.mem_without {s : Frames} (hs : s ∈ r.without k n) :
    (1 ≤ k ∧ s = r.sub 0 k) ∨
      (k + n ≠ r.size.toNat ∧ s = r.sub (k + n) (r.size.toNat - (k + n))) := by
  unfold Frames.without at hs
  rcases List.mem_append.mp hs with hs | hs
  · split at hs
    · cases hs
    · exact Or.inl ⟨by omega, List.mem_singleton.mp hs⟩
  · split at hs
    · cases hs
    · rename_i hne
      exact Or.inr ⟨hne, List.mem_singleton.mp hs⟩

/-- The parts cover the range, page by page. -/
theorem Frames.Placed.has_parts (h : r.Placed p) (hz : ZonesOk p) (hn : 1 ≤ n)
    (hkn : k + n ≤ r.size.toNat) (page : ℕ) :
    r.Has page ↔ ∃ s ∈ r.sub k n :: r.without k n, s.Has page := by
  have hmid := h.has_sub hz hn hkn page
  constructor
  · rintro ⟨h1, h2⟩
    by_cases hlow : page < r.addr.toNat / 4096 + k
    · have hk : ¬ k = 0 := by omega
      refine ⟨r.sub 0 k, ?_, (h.has_sub hz (by omega) (by omega) page).mpr ⟨by omega, by omega⟩⟩
      refine List.mem_cons_of_mem _ (List.mem_append_left _ ?_)
      rw [if_neg hk]
      exact List.mem_cons_self
    · by_cases hhigh : page < r.addr.toNat / 4096 + k + n
      · exact ⟨_, List.mem_cons_self, hmid.mpr ⟨by omega, hhigh⟩⟩
      · have hne : ¬ k + n = r.size.toNat := by omega
        refine ⟨r.sub (k + n) (r.size.toNat - (k + n)), ?_,
          (h.has_sub hz (by omega) (by omega) page).mpr ⟨by omega, by omega⟩⟩
        refine List.mem_cons_of_mem _ (List.mem_append_right _ ?_)
        rw [if_neg hne]
        exact List.mem_cons_self
  · rintro ⟨s, hs, hpage⟩
    rcases List.mem_cons.mp hs with rfl | hs
    · have := hmid.mp hpage
      exact ⟨by omega, by omega⟩
    · rcases Frames.mem_without hs with ⟨hk, rfl⟩ | ⟨hne, rfl⟩
      · have := (h.has_sub hz hk (by omega) page).mp hpage
        exact ⟨by omega, by omega⟩
      · have := (h.has_sub hz (by omega) (by omega) page).mp hpage
        exact ⟨by omega, by omega⟩

theorem Frames.Placed.parts_placed (h : r.Placed p) (hz : ZonesOk p) (hn : 1 ≤ n)
    (hkn : k + n ≤ r.size.toNat) : ∀ s ∈ r.sub k n :: r.without k n, s.Placed p := by
  intro s hs
  rcases List.mem_cons.mp hs with rfl | hs
  · exact h.sub hz hn hkn
  · rcases Frames.mem_without hs with ⟨hk, rfl⟩ | ⟨hne, rfl⟩
    · exact h.sub hz hk (by omega)
    · exact h.sub hz (by omega) (by omega)

theorem Frames.Placed.parts_disjoint (h : r.Placed p) (hz : ZonesOk p) (hn : 1 ≤ n)
    (hkn : k + n ≤ r.size.toNat) :
    (r.sub k n :: r.without k n).Pairwise FramesDisjoint := by
  have hsub : ∀ {a b c d : ℕ}, 1 ≤ b → 1 ≤ d → a + b ≤ r.size.toNat → c + d ≤ r.size.toNat →
      a + b ≤ c ∨ c + d ≤ a → FramesDisjoint (r.sub a b) (r.sub c d) := by
    intro a b c d hb hd hab hcd hsep page h1 h2
    rw [h.has_sub hz hb hab] at h1
    rw [h.has_sub hz hd hcd] at h2
    omega
  refine List.pairwise_cons.mpr ⟨?_, ?_⟩
  · intro s hs
    rcases Frames.mem_without hs with ⟨hk, rfl⟩ | ⟨hne, rfl⟩
    · exact hsub hn hk hkn (by omega) (Or.inr (by omega))
    · exact hsub hn (by omega) hkn (by omega) (Or.inl (by omega))
  · unfold Frames.without
    refine List.pairwise_append.mpr ⟨?_, ?_, ?_⟩
    · split <;> simp
    · split <;> simp
    · intro s hs s' hs'
      split at hs
      · cases hs
      · split at hs'
        · cases hs'
        · rw [List.mem_singleton.mp hs, List.mem_singleton.mp hs']
          exact hsub (by omega) (by omega) (by omega) (by omega) (Or.inl (by omega))

end Parts

/-- **A live range may be taken for its parts.** -/
theorem FramesOk.parts {memmap : List MmapEntry} {p : Pmm} {live : List Frames}
    (h : FramesOk memmap p live) {r : Frames} (hr : r ∈ live) {k n : ℕ} (hn : 1 ≤ n)
    (hkn : k + n ≤ r.size.toNat) :
    FramesOk memmap p (r.sub k n :: (r.without k n ++ live.erase r)) := by
  have hplaced := h.placed r hr
  have hhas := hplaced.has_parts h.zones hn hkn
  have hperm := List.perm_cons_erase hr
  have hpair := (hperm.pairwise_iff fun hd => FramesDisjoint.symm hd).mp h.disjoint
  obtain ⟨hrest, hdisj⟩ := List.pairwise_cons.mp hpair
  rw [← List.cons_append]
  refine ⟨h.zones, h.apart, ?_, ?_, ?_, ?_⟩
  · rw [List.forall_mem_append]
    exact ⟨hplaced.parts_placed h.zones hn hkn,
      fun s hs => h.placed s (List.mem_of_mem_erase hs)⟩
  · rw [List.forall_mem_append]
    exact ⟨fun s hs page hpage => h.usable r hr page ((hhas page).mpr ⟨s, hs, hpage⟩),
      fun s hs => h.usable s (List.mem_of_mem_erase hs)⟩
  · refine List.pairwise_append.mpr ⟨hplaced.parts_disjoint h.zones hn hkn, hdisj, ?_⟩
    intro s hs s' hs' page hpage
    exact hrest s' hs' page ((hhas page).mpr ⟨s, hs, hpage⟩)
  · intro z i hi
    rw [h.bits z i hi, List.forall_mem_append]
    refine and_congr_right fun _ => ?_
    constructor
    · intro hall
      refine ⟨fun s hs hpage => hall r hr ((hhas _).mpr ⟨s, hs, hpage⟩), ?_⟩
      exact fun s hs => hall s (List.mem_of_mem_erase hs)
    · rintro ⟨hparts, hother⟩ s hs
      rcases List.mem_cons.mp (hperm.mem_iff.mp hs) with rfl | hs
      · intro hpage
        obtain ⟨s', hs', hpage'⟩ := (hhas _).mp hpage
        exact hparts s' hs' hpage'
      · exact hother s hs

/-! ## Runs with partial frees -/

/-- A run of `pmm_alloc` and of `pmm_free` on live ranges or page-aligned parts of them, with the live
ranges. -/
inductive TallyRun (memmap : List MmapEntry) : Pmm → List Frames → Prop
  | init {area : Mem} {allocArea memSize : Word} {handover : Handover} {p : Pmm} :
      handover.memmap = some memmap → MemmapOk memmap → getMemSize memmap = .ok memSize →
      16 * 2 ^ 20 ≤ memSize.toNat → AreaFits allocArea memSize →
      pmmInit (Pmm.static area allocArea) handover = .ok p → TallyRun memmap p []
  | alloc {p p' : Pmm} {live : List Frames} {z : ZoneE} {size addr : Word} :
      TallyRun memmap p live → 1 ≤ size.toNat → pmmAlloc p z size = .ok (addr, p') →
      TallyRun memmap p' (⟨z, addr, size⟩ :: live)
  | free {p p' : Pmm} {live : List Frames} {r : Frames} {k n : ℕ} :
      TallyRun memmap p live → r ∈ live → 1 ≤ n → k + n ≤ r.size.toNat →
      pmmFree p (r.sub k n).addr (r.sub k n).size = .ok p' →
      TallyRun memmap p' (r.without k n ++ live.erase r)

/-- `pmm_alloc` sets clear bits, and counts them. -/
theorem FramesOk.counted_alloc {memmap : List MmapEntry} {p p' : Pmm} {live : List Frames}
    (hframes : FramesOk memmap p live) (h : ∀ z, Counted p z) {z : ZoneE} {size addr : Word}
    (hsize : 1 ≤ size.toNat) (hok : pmmAlloc p z size = .ok (addr, p')) (z' : ZoneE) :
    Counted p' z' := by
  obtain ⟨idx, spec⟩ := pmmAlloc_spec hsize hok
  have hfits : idx.toNat + size.toNat ≤ p.pages z := spec.run.fits
  have hmarks := Marks.of_set hframes.zones hframes.apart spec.same hfits spec.area
  have hrec := pmmAlloc_recounts hok
  by_cases hzz : z' = z
  · subst hzz
    -- read backwards, the call clears the bits it has set
    have hpages := spec.same.pages z'
    have hfits' : idx.toNat + size.toNat ≤ p'.pages z' := by omega
    refine (h z').set hrec (clearBits_add hpages.symm hfits' ?_ ?_)
    · intro i h1 h2
      rw [hmarks.own (by omega), if_pos ⟨h1, h2⟩]
    · intro i hi
      rw [hpages] at hi
      rw [hmarks.own hi]
      by_cases hin : idx.toNat ≤ i ∧ i < idx.toNat + size.toNat
      · rw [if_pos hin]
        exact spec.run.bits i hin.1 hin.2
      · rw [if_neg hin, if_neg hin]
  · exact (h z').of_eq (hrec.others z' hzz)
      fun i hi => hmarks.other hframes.zones hzz hfits hi

/-- `pmm_free` of a live range clears set bits, and counts them. -/
theorem FramesOk.counted_free {memmap : List MmapEntry} {p p' : Pmm} {live : List Frames}
    (hframes : FramesOk memmap p live) (h : ∀ z, Counted p z) {r : Frames} (hr : r ∈ live)
    (hok : pmmFree p r.addr r.size = .ok p') (z' : ZoneE) : Counted p' z' := by
  have hplaced := hframes.placed r hr
  obtain ⟨idx, spec, hidx⟩ := hplaced.freed hframes.zones hok
  have hhigh := hplaced.high
  have hfits : idx.toNat + r.size.toNat ≤ p.pages r.zone := by omega
  have hmarks := Marks.of_clear hframes.zones hframes.apart spec.same hfits spec.area
  have hrec := pmmFree_recounts spec.zone hok
  by_cases hzz : z' = r.zone
  · subst hzz
    refine (h r.zone).clear hrec (clearBits_add (spec.same.pages r.zone) hfits ?_
      fun i hi => hmarks.own hi)
    -- the page is in a live range, so its bit is not clear
    intro i h1 h2
    have hbit := hframes.bits r.zone i (by omega)
    by_contra hclear
    exact (hbit.mp (Bool.eq_false_of_not_eq_true hclear)).2 r hr ⟨by omega, by omega⟩
  · exact (h z').of_eq (hrec.others z' hzz)
      fun i hi => hmarks.other hframes.zones hzz hfits hi

/-- **What holds along every run**: the live ranges are what the bitmaps say, and the counters too. -/
theorem TallyRun.ok {memmap : List MmapEntry} {p : Pmm} {live : List Frames}
    (h : TallyRun memmap p live) : FramesOk memmap p live ∧ ∀ z, Counted p z := by
  induction h with
  | init hhand hmap hsize hroom hfit hok =>
      obtain ⟨p', hok', -, -, -, -, htally⟩ := pmmInit_spec hhand hmap hsize hroom hfit
      have hframes := (PmmRun.init hhand hmap hsize hroom hfit hok).ok
      rw [hok] at hok'
      cases hok'
      exact ⟨hframes, fun z => (htally z).counted⟩
  | alloc _ hsize hok ih =>
      obtain ⟨hframes, hcounted⟩ := ih
      exact ⟨hframes.alloc hsize hok, hframes.counted_alloc hcounted hsize hok⟩
  | free _ hr hn hkn hok ih =>
      obtain ⟨hframes, hcounted⟩ := ih
      have hparts := hframes.parts hr hn hkn
      refine ⟨?_, hparts.counted_free hcounted List.mem_cons_self hok⟩
      have hfree := hparts.free List.mem_cons_self hok
      rwa [List.erase_cons_head] at hfree

/-- **Frame accounting is exact.** In every state of every run, `mem_free` is the size of the clear
pages of the zone and `mem_free + mem_used = mem_total`, with no counter wrapped; and a call changes
the record of no zone but the one it allocates from or frees into. -/
theorem tallyRun_exact {memmap : List MmapEntry} {p : Pmm} {live : List Frames}
    (h : TallyRun memmap p live) :
    (∀ z, (p.memZone z).memFree.toNat =
        4096 * ((Finset.range (p.pages z)).filter fun i => p.bit z i = false).card ∧
      (p.memZone z).memFree.toNat + (p.memZone z).memUsed.toNat =
        (p.memZone z).memTotal.toNat) ∧
    (∀ z size addr p', pmmAlloc p z size = .ok (addr, p') →
      ∀ z', z' ≠ z → p'.memZone z' = p.memZone z') ∧
    ∀ r ∈ live, ∀ k n p', 1 ≤ n → k + n ≤ r.size.toNat →
      pmmFree p (r.sub k n).addr (r.sub k n).size = .ok p' →
      ∀ z', z' ≠ r.zone → p'.memZone z' = p.memZone z' := by
  obtain ⟨hframes, hcounted⟩ := h.ok
  refine ⟨fun z => ⟨(hcounted z).free, (hcounted z).used⟩, ?_, ?_⟩
  · intro z size addr p' hok
    exact (pmmAlloc_recounts hok).others
  · intro r hr k n p' hn hkn hok
    have hplaced := (hframes.placed r hr).sub hframes.zones hn hkn
    exact (pmmFree_recounts (hplaced.findZone hframes.zones) hok).others

/-- Two pages above 16 MiB, of which the second one is given back. -/
theorem tallyRun_exact_border : ∃ p live, TallyRun borderMap p live ∧ live ≠ [] ∧
    (p.memZone .normal).memFree.toNat + (p.memZone .normal).memUsed.toNat =
      (p.memZone .normal).memTotal.toNat := by
  have hok : (do
      let p ← pmmInit (Pmm.static (fun _ => 0) 0x2000) ⟨some borderMap, none, none, none⟩
      let r ← pmmAlloc p .normal 2
      pmmFree r.2 ((⟨.normal, r.1, 2⟩ : Frames).sub 1 1).addr
        ((⟨.normal, r.1, 2⟩ : Frames).sub 1 1).size).isOk = true := by
    decide +kernel
  obtain ⟨p', hcall⟩ := Res.exists_of_isOk hok
  obtain ⟨p, hinit, hcall⟩ := Res.bind_eq_ok.mp hcall
  obtain ⟨⟨addr, p₁⟩, halloc, hfree⟩ := Res.bind_eq_ok.mp hcall
  have hrun : TallyRun borderMap p₁ [⟨.normal, addr, 2⟩] :=
    .alloc (.init rfl borderMap_ok rfl (by decide) ⟨by decide, by decide⟩ hinit) (by decide) halloc
  have hrun' := TallyRun.free hrun List.mem_cons_self (by decide) (Nat.le_refl 2) hfree
  refine ⟨p', _, hrun', ?_, ((tallyRun_exact hrun').1 .normal).2⟩
  simp [Frames.without]

end Cerberos
