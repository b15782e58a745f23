/-
# Cerberos.Mm.PagingRuns — page tables over whole runs.

`MapRun` is a run of `__paging_map` and `__paging_unmap` from a fresh root, with the map of pages it
should stand for. Under zeroed table frames the tables implement exactly that map. The rights a page
EFFECTIVELY has are another matter: the walk gives the entries above level 0 no flag but the present
bit, so the processor grants neither writing nor user access, whatever was asked for. And a table is
empty only if its frame was: `paging_create` clears eight bytes of it.
-/
import Cerberos.Mm.PagingMap

namespace Cerberos

open Cerberos.Base

/-! ## Runs from a fresh root -/

/-- A run of `__paging_map` and `__paging_unmap` from a fresh root, with the abstract map. The history
of created tables starts with the run. -/
inductive MapRun (root : Word) : Mmu → PageMap → Prop
  | create {s₀ s : Mmu} :
      PmmBooted s₀.pmm → s₀.pmm.memSize.toNat ≤ 2 ^ 52 → s₀.created = [] →
      pagingCreate s₀ = .ok (root, s) → MapRun root s fun _ => none
  | map {s s' : Mmu} {M : PageMap} {v p f : Word} :
      MapRun root s M → MapArgs p f → __pagingMap s root v p f = .ok s' →
      MapRun root s' (mapPage M v p f)
  | unmap {s s' : Mmu} {M : PageMap} {v : Word} :
      MapRun root s M → tableWalk s.phys v 3 root ≠ none → __pagingUnmap s root v = .ok s' →
      MapRun root s' (unmapPage M v)

theorem pagingUnmapAt_walk {s s' : Mmu} {root v : Word} (h : __pagingUnmap s root v = .ok s') :
    WalkSteps s s' := by
  unfold __pagingUnmap at h
  split at h
  · cases h
    exact WalkSteps.say s _
  · dsimp only at h
    obtain ⟨⟨pentry, s₁⟩, hwalk, h⟩ := Res.bind_eq_ok.mp h
    have h₁ := (pagingAlign_same s "[__paging_unmap] vaddr is not 4 KiB aligned, vaddr: %lx\n"
      v).walk.trans (pagingWalk_walk hwalk)
    dsimp only at h
    split at h
    · cases h
    · cases h
      exact h₁.trans (SameFrames.walk ⟨rfl, rfl, rfl⟩)

/-- A fresh root in a zeroed frame is an empty tree. -/
theorem pagingCreate_tables {s₀ s : Mmu} {root : Word} (hz : ZonesOk s₀.pmm)
    (hsmall : s₀.pmm.memSize.toNat ≤ 2 ^ 52) (hnew : s₀.created = [])
    (hok : pagingCreate s₀ = .ok (root, s)) (hclean : CleanTables s) :
    PageTables s root (fun l q => if l = 3 ∧ q = 0 then some root else none) fun _ => none := by
  have hc := pagingCreate_spec hok
  obtain ⟨htaken, -⟩ := pmmAlloc_taken hz hc.alloc
  obtain ⟨idx, spec⟩ := pmmAlloc_spec (by decide) hc.alloc
  have hsmall' : s.pmm.memSize.toNat ≤ 2 ^ 52 := by
    rw [spec.same.memSize]
    exact hsmall
  have hcreated : s.created = [⟨root, s₀.phys⟩] := by rw [hc.created, hnew]
  have hzero : ZeroFrame s₀.phys root := hclean ⟨root, s₀.phys⟩ (by rw [hcreated]; simp)
  have hphys : s.phys = s₀.phys := hc.phys.trans (memset_zeroFrame hzero)
  have hG : ∀ {l q : ℕ} {t : Word}, (if l = 3 ∧ q = 0 then some root else none) = some t →
      l = 3 ∧ q = 0 ∧ root = t := by
    intro l q t h
    split at h
    · rename_i hlq
      exact ⟨hlq.1, hlq.2, Option.some.inj h⟩
    · cases h
  refine ⟨⟨if_pos ⟨rfl, rfl⟩, ?_, ?_, ?_, ?_, ?_, ?_⟩, hz.same spec.same, hsmall', ?_, ?_, ?_⟩
  · intro l q t h hl
    have := (hG h).1
    omega
  · intro k e h
    cases h
  · intro l q t h
    obtain ⟨-, -, rfl⟩ := hG h
    exact htaken.tableAddr hsmall'
  · intro l q l' q' t h h'
    obtain ⟨rfl, rfl, -⟩ := hG h
    obtain ⟨rfl, rfl, -⟩ := hG h'
    exact ⟨rfl, rfl⟩
  · intro l k t h
    obtain ⟨rfl, -, rfl⟩ := hG h
    rw [hphys, hzero.slot, slotVal_no_table (if_neg (by omega))]
  · intro k p f h
    cases h
  · intro l q t h
    obtain ⟨-, -, rfl⟩ := hG h
    exact ⟨_, by rw [hcreated]; exact List.mem_cons_self, rfl⟩
  · rw [hcreated]
    intro f hf
    rw [List.mem_singleton.mp hf]
    exact htaken
  · rw [hcreated]
    simp

/-- **In every run the tables are a tree with the abstract map.** -/
theorem MapRun.tables {root : Word} {s : Mmu} {M : PageMap} (h : MapRun root s M)
    (hclean : CleanTables s) : ∃ G, PageTables s root G M := by
  induction h with
  | create hboot hsmall hnew hok =>
      exact ⟨_, pagingCreate_tables hboot.zones hsmall hnew hok hclean⟩
  | map _ hargs hok ih =>
      obtain ⟨G, hG⟩ := ih (hclean.of_suffix (pagingMapAt_walk hok).history)
      exact pagingMapAt_spec hG hargs hok hclean
  | unmap _ hlevels hok ih =>
      obtain ⟨G, hG⟩ := ih (hclean.of_suffix (pagingUnmapAt_walk hok).history)
      obtain ⟨s', hok', hG'⟩ := pagingUnmapAt_spec hG hlevels
      rw [hok] at hok'
      cases hok'
      exact ⟨G, hG'⟩

/-- **The page tables implement a finite map.** In every run from a fresh root, with zeroed table
frames, translation is the abstract map; mapping a mapped page changes nothing at all, and unmapping
returns whenever the upper three levels exist. -/
theorem mapRun_translate {root : Word} {s : Mmu} {M : PageMap} (h : MapRun root s M)
    (hclean : CleanTables s) :
    (∀ v, translate s.phys root v = M (pageNo v)) ∧
    (∀ v p f s', M (pageNo v) ≠ none → __pagingMap s root v p f = .ok s' →
      s'.phys = s.phys ∧ s'.pmm = s.pmm ∧ s'.cr3 = s.cr3 ∧ s'.created = s.created) ∧
    ∀ v, tableWalk s.phys v 3 root ≠ none → ∃ s', __pagingUnmap s root v = .ok s' := by
  obtain ⟨G, hG⟩ := h.tables hclean
  refine ⟨hG.tables.translate_eq, ?_, ?_⟩
  · intro v p f s' hmapped hok
    obtain ⟨e, he⟩ := Option.ne_none_iff_exists'.mp hmapped
    obtain ⟨hphys, hframes⟩ := pagingMapAt_mapped hG he hok
    exact ⟨hphys, hframes.pmm, hframes.cr3, hframes.created⟩
  · intro v hlevels
    obtain ⟨s', hok, -⟩ := pagingUnmapAt_spec hG hlevels
    exact ⟨s', hok⟩

/-- The small machine before its first table. -/
def smallMmu : Mmu where
  pmm := smallPmm
  phys := fun _ => 0
  cr3 := 0
  log := []
  created := []

/-- A fresh root, and one mapping asked for at unaligned addresses. -/
def smallMapped : Res (Word × Mmu) := do
  let (root, s) ← pagingCreate smallMmu
  let s ← __pagingMap s root 0xffff800000001234 0x5678 (pagePresent ||| pageWritable)
  .ok (root, s)

theorem smallMmu_zeroed : Zeroed smallMmu :=
  ⟨fun _ hf => absurd hf List.not_mem_nil, fun _ _ => rfl⟩

theorem smallPmm_small : smallPmm.memSize.toNat ≤ 2 ^ 52 := by decide +kernel

theorem smallMmu_created : ∃ root s, pagingCreate smallMmu = .ok (root, s) := by
  obtain ⟨⟨root, s⟩, hcreate⟩ := Res.exists_of_isOk (x := pagingCreate smallMmu) (by decide +kernel)
  exact ⟨root, s, hcreate⟩

/-- A fresh root of the small machine lies in zeroed memory. -/
theorem smallMmu_create {root : Word} {s : Mmu} (h : pagingCreate smallMmu = .ok (root, s)) :
    MapRun root s (fun _ => none) ∧ Zeroed s := by
  refine ⟨.create smallPmm_booted smallPmm_small rfl h, ?_⟩
  exact (smallMmu_zeroed.create smallPmm_booted.zones (fun _ hf => absurd hf List.not_mem_nil)
    (pagingCreate_spec h)).1

theorem MapRun.map_zeroed {root v p f : Word} {s s' : Mmu} {M : PageMap} (h : MapRun root s M)
    (hz : Zeroed s) (hargs : MapArgs p f) (hok : __pagingMap s root v p f = .ok s') :
    Zeroed s' := by
  obtain ⟨G, hG⟩ := h.tables hz.clean
  exact pagingMapAt_zeroed hG hargs hz hok

theorem smallMapped_run : ∃ root s, smallMapped = .ok (root, s) ∧ CleanTables s ∧
    MapRun root s (mapPage (fun _ => none) 0xffff800000001234 0x5678
      (pagePresent ||| pageWritable)) := by
  obtain ⟨⟨root, s⟩, hmapped⟩ := Res.exists_of_isOk (x := smallMapped) (by decide +kernel)
  refine ⟨root, s, hmapped, ?_⟩
  obtain ⟨⟨root', s₁⟩, hcreate, h⟩ := Res.bind_eq_ok.mp hmapped
  obtain ⟨s₂, hmap, h⟩ := Res.bind_eq_ok.mp h
  cases h
  obtain ⟨hrun, hzeroed⟩ := smallMmu_create hcreate
  have hargs : MapArgs 0x5678 (pagePresent ||| pageWritable) := ⟨by decide, by decide, by decide⟩
  exact ⟨(hrun.map_zeroed hzeroed hargs hmap).clean, .map hrun hargs hmap⟩

/-- The page of the small machine's mapping is translated, rounded down. -/
theorem mapRun_translate_small : ∃ root s M, MapRun root s M ∧ CleanTables s ∧
    translate s.phys root 0xffff800000001000 = some (0x5000, pagePresent ||| pageWritable) := by
  obtain ⟨root, s, -, hclean, hrun⟩ := smallMapped_run
  refine ⟨root, s, _, hrun, hclean, ?_⟩
  rw [(mapRun_translate hrun hclean).1]
  decide

/-! ## Effective rights -/

/-- The right `bit` along the four-level walk: the conjunction of the bit over the entries of all
levels, `none` for a page that is not translated. -/
def rightWalk (phys : Mem) (v bit : Word) : ℕ → Word → Option Bool
  | 0, table =>
    let e := read64 phys (pagingEntryPtr table v 0)
    if e &&& pagePresent = pagePresent then some (e &&& bit == bit) else none
  | l + 1, table =>
    let e := read64 phys (pagingEntryPtr table v (l + 1))
    if e &&& pagePresent = pagePresent then
      (rightWalk phys v bit l (e &&& pageAddr)).map fun below => (e &&& bit == bit) && below
    else none

/-- The effective right of the processor on the page of `v`. -/
def effectiveRight (phys : Mem) (root v bit : Word) : Option Bool := rightWalk phys v bit 3 root

/-- A mapped page has a right on the way down from any level above 0 only if the present bit is it. -/
theorem Tables.rightWalk_false {phys : Mem} {root : Word} {G : Tree} {M : PageMap}
    (h : Tables phys root G M) {v bit : Word} {e : Word × Word} (he : M (pageNo v) = some e)
    (haddr : pageAddr &&& bit = 0) (hbit : pagePresent &&& bit ≠ bit) :
    ∀ {l : ℕ} {table : Word}, l ≤ 3 → G l (pageNo v / 512 ^ (l + 1)) = some table →
      ∃ r, rightWalk phys v bit l table = some r ∧ (0 < l → r = false) := by
  obtain ⟨t₀, hleaf⟩ := h.page_parent he
  intro l
  induction l with
  | zero =>
      intro table hl ht
      rw [zero_add, pow_one] at ht
      unfold rightWalk
      dsimp only
      rw [pagingEntryPtr_eq _ _ hl, pow_zero, Nat.div_one,
        if_pos ((h.page_present ht).mpr ⟨e, he⟩)]
      exact ⟨_, rfl, fun hl => absurd hl (Nat.lt_irrefl 0)⟩
  | succ l ih =>
      intro table hl ht
      rw [div_pow_succ] at ht
      obtain ⟨t', ht'⟩ := h.skeleton.above hleaf (show l ≤ 3 by omega)
      obtain ⟨r, hr, -⟩ := ih (by omega) ht'
      -- the entry of a table has no flag but the present bit
      have hflag : (read64 phys (slotAddr table (pageNo v / 512 ^ (l + 1))) &&& bit == bit) =
          false := by
        rw [h.slots ht, slotVal_table ht', entry_flags (h.frame ht').and_pageAddr haddr]
        exact beq_eq_false_iff_ne.mpr hbit
      unfold rightWalk
      dsimp only
      rw [pagingEntryPtr_eq _ _ hl, if_pos ((h.skeleton.slot_present ht).mpr ⟨t', ht'⟩),
        h.skeleton.slot_addr ht ht', hr, hflag]
      exact ⟨false, rfl, fun _ => rfl⟩

/-- **The rights asked for are the effective ones only when none is asked for.** In every run, for
every mapped page with flags `F`: the effective rights are the bits of `F` exactly when `F` has neither
the writable nor the user bit. -/
theorem mapRun_rights_iff {root : Word} {s : Mmu} {M : PageMap} (h : MapRun root s M)
    (hclean : CleanTables s) {v p F : Word} (hpage : M (pageNo v) = some (p, F)) :
    (effectiveRight s.phys root v pageWritable = some (F &&& pageWritable == pageWritable) ∧
      effectiveRight s.phys root v pageUser = some (F &&& pageUser == pageUser)) ↔
      F &&& (pageWritable ||| pageUser) = 0 := by
  obtain ⟨G, hG⟩ := h.tables hclean
  have heff : ∀ bit : Word, pageAddr &&& bit = 0 → pagePresent &&& bit ≠ bit →
      effectiveRight s.phys root v bit = some false := by
    intro bit h1 h2
    obtain ⟨r, hr, hfalse⟩ := hG.tables.rightWalk_false hpage h1 h2 (le_refl 3)
      (hG.tables.skeleton.root_slot v)
    rw [effectiveRight, hr, hfalse (by omega)]
  have hnone : ∀ bit : Word, F &&& bit = 0 → bit ≠ 0 → (F &&& bit == bit) = false := by
    intro bit h1 h2
    rw [h1]
    exact beq_eq_false_iff_ne.mpr (Ne.symm h2)
  rw [heff pageWritable (by decide) (by decide), heff pageUser (by decide) (by decide)]
  have hbit : ∀ i : ℕ, (F &&& BitVec.twoPow 64 i == BitVec.twoPow 64 i) = false →
      F &&& BitVec.twoPow 64 i = 0 := by
    intro i hi
    rw [BitVec.and_twoPow] at hi ⊢
    split
    · rename_i hset
      rw [if_pos hset] at hi
      simp at hi
    · rfl
  constructor
  · rintro ⟨hw, hu⟩
    have hw' := hbit 1 (Option.some.inj hw).symm
    have hu' := hbit 2 (Option.some.inj hu).symm
    rw [BitVec.and_or_distrib_left]
    rw [show pageWritable = BitVec.twoPow 64 1 by decide,
      show pageUser = BitVec.twoPow 64 2 by decide, hw', hu']
    decide
  · intro h0
    have hw : F &&& pageWritable = 0 := by
      rw [show pageWritable = (pageWritable ||| pageUser) &&& pageWritable by decide,
        ← BitVec.and_assoc, h0]
      decide
    have hu : F &&& pageUser = 0 := by
      rw [show pageUser = (pageWritable ||| pageUser) &&& pageUser by decide,
        ← BitVec.and_assoc, h0]
      decide
    rw [hnone _ hw (by decide), hnone _ hu (by decide)]
    exact ⟨rfl, rfl⟩

/-- A read-only kernel page of the small machine. -/
theorem mapRun_rights_iff_small : ∃ root s M, MapRun root s M ∧ CleanTables s ∧
    M (pageNo 0x1000) = some (0x5000, pagePresent) ∧
    effectiveRight s.phys root 0x1000 pageWritable = some false := by
  obtain ⟨root, s₁, hcreate⟩ := smallMmu_created
  obtain ⟨hrun, hzeroed⟩ := smallMmu_create hcreate
  have hok : (do
      let (root, s) ← pagingCreate smallMmu
      __pagingMap s root 0x1000 0x5000 pagePresent : Res Mmu).isOk = true := by
    decide +kernel
  rw [hcreate] at hok
  obtain ⟨s, hmap⟩ := Res.exists_of_isOk
    (x := __pagingMap s₁ root 0x1000 0x5000 pagePresent) hok
  have hargs : MapArgs 0x5000 pagePresent := ⟨by decide, by decide, by decide⟩
  have hclean := (hrun.map_zeroed hzeroed hargs hmap).clean
  have hpage : mapPage (fun _ => none) 0x1000 0x5000 pagePresent (pageNo 0x1000) =
      some (0x5000, pagePresent) := by decide
  refine ⟨root, s, _, .map hrun hargs hmap, hclean, hpage, ?_⟩
  exact ((mapRun_rights_iff (.map hrun hargs hmap) hclean hpage).mpr (by decide)).1

/-- **A page mapped writable cannot be written.** -/
theorem mapRun_not_writable : ∃ root s M, MapRun root s M ∧ CleanTables s ∧
    M (pageNo 0xffff800000001000) = some (0x5000, pagePresent ||| pageWritable) ∧
    effectiveRight s.phys root 0xffff800000001000 pageWritable ≠
      some ((pagePresent ||| pageWritable) &&& pageWritable == pageWritable) := by
  obtain ⟨root, s, hmapped, hclean, hrun⟩ := smallMapped_run
  refine ⟨root, s, _, hrun, hclean, by decide, ?_⟩
  have heff : (smallMapped.toOption.map fun r =>
      effectiveRight r.2.phys r.1 0xffff800000001000 pageWritable) = some (some false) := by
    decide +kernel
  rw [hmapped] at heff
  have hfalse : effectiveRight s.phys root 0xffff800000001000 pageWritable = some false :=
    Option.some.inj heff
  rw [hfalse]
  decide

/-! ## Empty tables -/

/-- The states of physical memory and its allocator after any calls, from any content of memory; the
owner of a frame may store into it. -/
inductive FrameRun : Mmu → Prop
  | boot {s : Mmu} : PmmBooted s.pmm → FrameRun s
  | alloc {s : Mmu} {z : ZoneE} {size addr : Word} {pmm : Pmm} :
      FrameRun s → pmmAlloc s.pmm z size = .ok (addr, pmm) → FrameRun { s with pmm := pmm }
  | free {s : Mmu} {addr size : Word} {pmm : Pmm} :
      FrameRun s → pmmFree s.pmm addr size = .ok pmm → FrameRun { s with pmm := pmm }
  | create {s s' : Mmu} {ptable : Word} :
      FrameRun s → pagingCreate s = .ok (ptable, s') → FrameRun s'
  | destroy {s s' : Mmu} {ptable : Word} :
      FrameRun s → pagingDestroy s ptable = .ok s' → FrameRun s'
  | map {s s' : Mmu} {root v p f : Word} :
      FrameRun s → __pagingMap s root v p f = .ok s' → FrameRun s'
  | unmap {s s' : Mmu} {root v : Word} :
      FrameRun s → __pagingUnmap s root v = .ok s' → FrameRun s'
  | store {s : Mmu} (x : Word) (b : Byte) :
      FrameRun s → FrameRun { s with phys := Function.update s.phys x b }

theorem FrameSteps.same {p p' : Pmm} (h : FrameSteps p p') : SameZones p p' := by
  induction h with
  | refl => exact SameZones.refl p
  | tail _ hstep ih =>
      obtain ⟨addr, hstep⟩ := hstep
      exact ih.trans (PmmStep.alloc hstep).same

/-- `paging_destroy` gives one frame back. -/
theorem pagingDestroy_frees {s s' : Mmu} {ptable : Word} (h : pagingDestroy s ptable = .ok s') :
    ∃ addr, pmmFree s.pmm addr 1 = .ok s'.pmm := by
  unfold pagingDestroy at h
  by_cases halign : ptable % pageSize ≠ 0
  · rw [if_pos halign] at h
    obtain ⟨pmm, hfree, h⟩ := Res.bind_eq_ok.mp h
    cases h
    exact ⟨_, hfree⟩
  · rw [if_neg halign] at h
    obtain ⟨pmm, hfree, h⟩ := Res.bind_eq_ok.mp h
    cases h
    exact ⟨_, hfree⟩

theorem FrameRun.zones {s : Mmu} (h : FrameRun s) : ZonesOk s.pmm := by
  induction h with
  | boot hboot => exact hboot.zones
  | alloc _ hok ih => exact ih.same (PmmStep.alloc hok).same
  | free _ hok ih => exact ih.same (PmmStep.free hok).same
  | create _ hok ih => exact ih.same (pagingCreate_walk hok).frames.same
  | destroy _ hok ih =>
      obtain ⟨addr, hfree⟩ := pagingDestroy_frees hok
      exact ih.same (PmmStep.free hfree).same
  | map _ hok ih => exact ih.same (pagingMapAt_walk hok).frames.same
  | unmap _ hok ih => exact ih.same (pagingUnmapAt_walk hok).frames.same
  | store _ _ _ ih => exact ih

/-- A table that translates nothing: none of its 512 entries is present. -/
def EmptyTable (phys : Mem) (t : Word) : Prop :=
  (∀ i < 512, read64 phys (slotAddr t i) &&& pagePresent ≠ pagePresent) ∧
    ∀ v, translate phys t v = none

/-- The frame the next single-frame allocation hands out: the first free one from the hint on. -/
def nextFrame (p : Pmm) : Word :=
  (p.memZone .normal).offset + pageSize * bitmapFindRange p.area (p.memZone .normal).bitmap
    (p.memZone .normal).firstFreeIdx false 1

theorem pmmAlloc_nextFrame {p p' : Pmm} {t : Word} (h : pmmAlloc p .normal 1 = .ok (t, p')) :
    t = nextFrame p := by
  unfold pmmAlloc at h
  dsimp only at h
  split at h
  · cases h
  · cases h
    rfl

theorem translate_eq_none {phys : Mem} {t : Word}
    (h : ∀ i < 512, read64 phys (slotAddr t i) &&& pagePresent ≠ pagePresent) (v : Word) :
    translate phys t v = none := by
  have hslot := h (pageNo v / 512 ^ 3) (by unfold pageNo; omega)
  unfold translate tableWalk
  dsimp only
  rw [pagingEntryPtr_eq _ _ (le_refl 3), if_neg hslot]

/-- **A new table is empty exactly when its frame was, beyond the first entry.** -/
theorem pagingCreate_empty_iff {s s' : Mmu} {t : Word} (h : FrameRun s)
    (hok : pagingCreate s = .ok (t, s')) :
    EmptyTable s'.phys t ↔ ∀ i, 1 ≤ i → i < 512 →
      read64 s.phys (slotAddr (nextFrame s.pmm) i) &&& pagePresent ≠ pagePresent := by
  have hc := pagingCreate_spec hok
  obtain ⟨htaken, -⟩ := pmmAlloc_taken h.zones hc.alloc
  have hhigh := htaken.high
  have hmem := s'.pmm.memSize.isLt
  rw [← pmmAlloc_nextFrame hc.alloc]
  -- the memset reaches the first entry only
  have hrest : ∀ i, 1 ≤ i → i < 512 →
      read64 s'.phys (slotAddr t i) = read64 s.phys (slotAddr t i) := by
    intro i h1 h2
    rw [hc.phys]
    apply read64_congr
    intro k hk
    apply fillBytes_apply_of_outside
    · show t.toNat + 8 ≤ 2 ^ 64
      omega
    · right
      show t.toNat + 8 ≤ _
      unfold slotAddr
      rw [BitVec.toNat_add, BitVec.toNat_add, BitVec.toNat_ofNat, BitVec.toNat_ofNat]
      omega
  have hfirst : read64 s'.phys (slotAddr t 0) = 0 := by
    apply BitVec.eq_of_getLsbD_eq
    intro j hj
    rw [read64_getLsbD _ _ hj, hc.phys]
    have haddr : slotAddr t 0 + BitVec.ofNat 64 (j / 8) = t + BitVec.ofNat 64 (j / 8) := by
      unfold slotAddr
      simp
    unfold memset
    rw [haddr, fillBytes_apply_add _ _ _ (by decide) (by show j / 8 < 8; omega)]
    simp
  constructor
  · rintro ⟨hall, -⟩ i h1 h2
    rw [← hrest i h1 h2]
    exact hall i h2
  · intro hall
    have hslots : ∀ i < 512, read64 s'.phys (slotAddr t i) &&& pagePresent ≠ pagePresent := by
      intro i hi
      rcases Nat.eq_zero_or_pos i with rfl | hpos
      · rw [hfirst]
        decide
      · rw [hrest i hpos hi]
        exact hall i hpos hi
    exact ⟨hslots, translate_eq_none hslots⟩

/-- In zeroed memory the first table is empty. -/
theorem pagingCreate_empty_iff_small : ∃ t s', pagingCreate smallMmu = .ok (t, s') ∧
    EmptyTable s'.phys t := by
  obtain ⟨t, s', hcreate⟩ := smallMmu_created
  refine ⟨t, s', hcreate, ?_⟩
  refine (pagingCreate_empty_iff (.boot smallPmm_booted) hcreate).mpr ?_
  intro i _ _
  show read64 (fun _ => 0) _ &&& pagePresent ≠ pagePresent
  have hzero : ZeroFrame (fun _ => 0) (nextFrame smallPmm) := fun _ _ => rfl
  rw [show smallMmu.pmm = smallPmm from rfl, hzero.slot]
  decide

/-- A root with one mapping is destroyed, and the next table is created. -/
def smallRecycled : Res (Mmu × Word × Mmu) := do
  let (root, s) ← smallMapped
  let s ← pagingDestroy s root
  let (t, s') ← pagingCreate s
  .ok (s, t, s')

/-- **A table in a recycled frame exposes the entries of its previous owner.** -/
theorem pagingCreate_recycled : ∃ s t s', FrameRun s ∧ pagingCreate s = .ok (t, s') ∧
    ¬ EmptyTable s'.phys t := by
  have hok : (do
      let (s, t, s') ← smallRecycled
      if translate s'.phys t 0xffff800000001000 = some (0x5000, pagePresent ||| pageWritable) then
        .ok (s, t, s')
      else .error .fault : Res (Mmu × Word × Mmu)).isOk = true := by
    decide +kernel
  obtain ⟨_, hcall⟩ := Res.exists_of_isOk hok
  obtain ⟨⟨s, t, s'⟩, hrec, hcall⟩ := Res.bind_eq_ok.mp hcall
  have hsome := Res.of_check hcall
  obtain ⟨⟨root, s₁⟩, hmapped, h⟩ := Res.bind_eq_ok.mp hrec
  obtain ⟨s₂, hdestroy, h⟩ := Res.bind_eq_ok.mp h
  obtain ⟨⟨t', s₃⟩, hcreate, h⟩ := Res.bind_eq_ok.mp h
  cases h
  obtain ⟨⟨root', s₀⟩, hroot, h⟩ := Res.bind_eq_ok.mp hmapped
  obtain ⟨s₄, hmap, h⟩ := Res.bind_eq_ok.mp h
  cases h
  refine ⟨s, t, s', .destroy (.map (.create (.boot smallPmm_booted) hroot) hmap) hdestroy, hcreate,
    ?_⟩
  rintro ⟨-, hnone⟩
  rw [hnone] at hsome
  cases hsome

end Cerberos
