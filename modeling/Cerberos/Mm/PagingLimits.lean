/-
# Cerberos.Mm.PagingLimits — page tables at the edge of their contract.

Two calls on pages that are not as expected. `__paging_unmap` asks the walk for an entry without
creating tables and stores through whatever it gets, so that a page whose tables were never created
makes it store through `NULL`. `__paging_map` takes an entry without the present bit for an EMPTY one
and ORs the flags into it: what was left in the entry stays.
-/
import Cerberos.Mm.PagingRuns

namespace Cerberos

open Cerberos.Base

/-! ## Runs with any arguments -/

/-- The states after any calls of `__paging_map` and `__paging_unmap` from a fresh root, with any
addresses and flags. -/
inductive TableRun (root : Word) : Mmu → Prop
  | create {s₀ s : Mmu} :
      PmmBooted s₀.pmm → s₀.pmm.memSize.toNat ≤ 2 ^ 52 → s₀.created = [] →
      pagingCreate s₀ = .ok (root, s) → TableRun root s
  | map {s s' : Mmu} {v p f : Word} :
      TableRun root s → __pagingMap s root v p f = .ok s' → TableRun root s'
  | unmap {s s' : Mmu} {v : Word} :
      TableRun root s → __pagingUnmap s root v = .ok s' → TableRun root s'

section Tree

variable {s : Mmu} {root : Word} {G : Tree}

/-- The stores of a mapping go to one slot of level 0. -/
theorem TableTree.setFlags (h : TableTree s root G) {k : ℕ} {t : Word}
    (ht : G 0 (k / 512) = some t) (flags : Word) :
    TableTree (pagingSetFlags s (slotAddr t k) flags) root G := by
  unfold pagingSetFlags
  split
  · exact h.congr rfl rfl rfl
  · exact h.setLeaf ht _

theorem TableTree.setPaddr (h : TableTree s root G) {k : ℕ} {t : Word}
    (ht : G 0 (k / 512) = some t) (paddr : Word) :
    TableTree (pagingSetPaddr s (slotAddr t k) paddr) root G := by
  unfold pagingSetPaddr
  by_cases hmod : paddr % pageSize ≠ 0
  · rw [if_pos hmod]
    have h₁ : TableTree (s.say (warningMsg
        "[paging_set_addr] paddr is not 4 KiB aligned, paddr: %lx\n" [paddr])) root G :=
      h.congr rfl rfl rfl
    exact (h₁.setLeaf ht _).setLeaf ht _
  · rw [if_neg hmod]
    exact (h.setLeaf ht _).setLeaf ht _

/-- `__paging_unmap` returns exactly when the tables exist, and stores one zero word. -/
theorem TableTree.unmap (h : TableTree s root G) {v t : Word}
    (ht : G 0 (pageNo v / 512) = some t) :
    ∃ s', __pagingUnmap s root v = .ok s' ∧ SameFrames s s' ∧
      s'.phys = write64 s.phys (slotAddr t (pageNo v)) 0 := by
  obtain ⟨s₁, hphys, hframes, hok⟩ := pagingUnmapAt_found h.root_ne
    ((h.skeleton.tableWalk_root v).trans ht) (h.skeleton.slotAddr_ne ht _)
  refine ⟨_, hok, hframes.trans ⟨rfl, rfl, rfl⟩, ?_⟩
  show write64 s₁.phys _ _ = _
  rw [hphys]

theorem TableTree.unmap_missing (h : TableTree s root G) {v : Word}
    (hnone : G 0 (pageNo v / 512) = none) : __pagingUnmap s root v = .error .fault :=
  pagingUnmapAt_missing h.root_ne ((h.skeleton.tableWalk_root v).trans hnone)

theorem TableTree.of_write (h : TableTree s root G) {s' : Mmu} {k : ℕ} {t w : Word}
    (ht : G 0 (k / 512) = some t) (hframes : SameFrames s s')
    (hphys : s'.phys = write64 s.phys (slotAddr t k) w) : TableTree s' root G :=
  TableTree.congr (h.setLeaf ht w) hphys hframes.pmm hframes.created

end Tree

/-- **In every run the tables are a tree**, whatever the entries of level 0 are. -/
theorem TableRun.tree {root : Word} {s : Mmu} (h : TableRun root s) (hclean : CleanTables s) :
    ∃ G, TableTree s root G := by
  induction h with
  | create hboot hsmall hnew hok =>
      exact ⟨_, (pagingCreate_tables hboot.zones hsmall hnew hok hclean).tree⟩
  | map _ hok ih =>
      obtain ⟨G, hG⟩ := ih (hclean.of_suffix (pagingMapAt_walk hok).history)
      obtain ⟨s₁, G', t₀, h₁, hleaf, hcase⟩ :=
        pagingMapAt_cases (TableTree.inv root) hG hok (hclean.newZeroed _)
      refine ⟨G', ?_⟩
      rcases hcase with ⟨-, hphys, hframes⟩ | ⟨-, rfl⟩
      · exact h₁.congr hphys hframes.pmm hframes.created
      · exact (h₁.setFlags hleaf _).setPaddr hleaf _
  | @unmap s s' v _ hok ih =>
      obtain ⟨G, hG⟩ := ih (hclean.of_suffix (pagingUnmapAt_walk hok).history)
      refine ⟨G, ?_⟩
      cases hleaf : G 0 (pageNo v / 512) with
      | none =>
          rw [hG.unmap_missing hleaf] at hok
          cases hok
      | some t₀ =>
          obtain ⟨s'', hok', hframes, hphys⟩ := hG.unmap hleaf
          rw [hok] at hok'
          cases hok'
          exact hG.of_write hleaf hframes hphys

/-! ## Unmapping -/

/-- Page `i` of a range. -/
def pageAt (v : Word) (i : ℕ) : Word := v + BitVec.ofNat 64 (4096 * i)

/-- **What unmapping `n` pages from `v` on is to do**: the pages are not translated, the others are as
before, and no byte has changed but those of the entries of the pages. -/
structure Unmapped (root : Word) (s s' : Mmu) (v : Word) (n : ℕ) : Prop where
  pages : ∀ i < n, translate s'.phys root (pageAt v i) = none
  others : ∀ w, (∀ i < n, pageNo w ≠ pageNo (pageAt v i)) →
    translate s'.phys root w = translate s.phys root w
  memory : ∀ x : Word, (∀ i < n, ∀ t, tableWalk s.phys (pageAt v i) 3 root = some t →
    8 ≤ (x - pagingEntryPtr t (pageAt v i) 0).toNat) → s'.phys x = s.phys x
  frames : SameFrames s s'

/-- The same over the tree: the entries of the pages are zero, all other entries and bytes as before. -/
structure Cleared (G : Tree) (s s' : Mmu) (v : Word) (n : ℕ) : Prop where
  pages : ∀ i < n, ∀ t, G 0 (pageNo (pageAt v i) / 512) = some t →
    read64 s'.phys (slotAddr t (pageNo (pageAt v i))) = 0
  others : ∀ k t, G 0 (k / 512) = some t → (∀ i < n, k ≠ pageNo (pageAt v i)) →
    read64 s'.phys (slotAddr t k) = read64 s.phys (slotAddr t k)
  memory : ∀ x : Word, (∀ i < n, ∀ t, G 0 (pageNo (pageAt v i) / 512) = some t →
    8 ≤ (x - slotAddr t (pageNo (pageAt v i))).toNat) → s'.phys x = s.phys x
  frames : SameFrames s s'

theorem pageAt_zero (v : Word) : pageAt v 0 = v := by simp [pageAt]

theorem pageAt_succ (v : Word) (i : ℕ) : pageAt v (i + 1) = pageAt (v + pageSize) i := by
  unfold pageAt
  rw [Nat.mul_succ, Nat.add_comm, BitVec.ofNat_add, ← BitVec.add_assoc]
  rfl

/-- Translation is read off the slot of the page, if there is a table for it. -/
theorem Skeleton.translate_congr {phys phys' : Mem} {root : Word} {G : Tree}
    (h : Skeleton phys root G) (h' : Skeleton phys' root G) {w : Word}
    (hread : ∀ t, G 0 (pageNo w / 512) = some t →
      read64 phys' (slotAddr t (pageNo w)) = read64 phys (slotAddr t (pageNo w))) :
    translate phys' root w = translate phys root w := by
  unfold translate
  rw [h.tableWalk_root, h'.tableWalk_root]
  cases hleaf : G 0 (pageNo w / 512) with
  | none => rfl
  | some t =>
      dsimp only
      rw [pagingEntryPtr_eq _ _ (Nat.zero_le 3), pow_zero, Nat.div_one, hread t hleaf]

theorem Skeleton.translate_none {phys : Mem} {root : Word} {G : Tree} (h : Skeleton phys root G)
    {w : Word} (hread : ∀ t, G 0 (pageNo w / 512) = some t →
      read64 phys (slotAddr t (pageNo w)) = 0) : translate phys root w = none := by
  unfold translate
  rw [h.tableWalk_root]
  cases hleaf : G 0 (pageNo w / 512) with
  | none => rfl
  | some t =>
      dsimp only
      rw [pagingEntryPtr_eq _ _ (Nat.zero_le 3), pow_zero, Nat.div_one, hread t hleaf]
      rfl

section Range

variable {root v : Word} {s s₁ s' : Mmu} {G : Tree} {n : ℕ}

/-- The first page of a range, then the rest. -/
theorem Cleared.cons (h : Skeleton s.phys root G) {t : Word} (ht : G 0 (pageNo v / 512) = some t)
    (hphys : s₁.phys = write64 s.phys (slotAddr t (pageNo v)) 0) (hframes : SameFrames s s₁)
    (hrest : Cleared G s₁ s' (v + pageSize) n) : Cleared G s s' v (n + 1) := by
  constructor
  case pages =>
    intro i hi t' ht'
    cases i with
    | succ i =>
        rw [pageAt_succ] at ht' ⊢
        exact hrest.pages i (by omega) t' ht'
    | zero =>
        rw [pageAt_zero] at ht' ⊢
        rw [ht] at ht'
        cases ht'
        -- a range of 2^36 pages comes around to its first page
        by_cases hagain : ∃ j < n, pageNo (pageAt (v + pageSize) j) = pageNo v
        · obtain ⟨j, hj, heq⟩ := hagain
          have hzero := hrest.pages j hj t (by rw [heq]; exact ht)
          rwa [heq] at hzero
        · have hne : ∀ j < n, pageNo v ≠ pageNo (pageAt (v + pageSize) j) :=
            fun j hj heq => hagain ⟨j, hj, heq.symm⟩
          rw [hrest.others _ t ht hne, hphys, read64_write64_self]
  case others =>
    intro k t' ht' hne
    have hfirst : k ≠ pageNo v := by
      have := hne 0 (by omega)
      rwa [pageAt_zero] at this
    have hlater : ∀ i < n, k ≠ pageNo (pageAt (v + pageSize) i) := by
      intro i hi
      have := hne (i + 1) (by omega)
      rwa [pageAt_succ] at this
    rw [hrest.others k t' ht' hlater, hphys, h.read_other ht ht' (Or.inr (Ne.symm hfirst))]
  case memory =>
    intro x hx
    have hfirst := hx 0 (by omega) t (by rw [pageAt_zero]; exact ht)
    rw [pageAt_zero] at hfirst
    have hlater : s'.phys x = s₁.phys x := by
      refine hrest.memory x fun i hi t' ht' => ?_
      have := hx (i + 1) (by omega) t' (by rw [pageAt_succ]; exact ht')
      rwa [pageAt_succ] at this
    rw [hlater, hphys, write64, if_neg (by omega)]
  case frames => exact hframes.trans hrest.frames

/-- **`__paging_unmaps` clears the entries of its range** when all their tables exist. -/
theorem pagingUnmaps_cleared (h : TableTree s root G)
    (hlevels : ∀ i < n, ∃ t, G 0 (pageNo (pageAt v i) / 512) = some t) :
    ∃ s', __pagingUnmaps s root v n = .ok s' ∧ TableTree s' root G ∧ Cleared G s s' v n := by
  induction n generalizing s v with
  | zero =>
      refine ⟨s, rfl, h, ?_, fun _ _ _ _ => rfl, fun _ _ => rfl, rfl, rfl, rfl⟩
      intro i hi
      omega
  | succ n ih =>
      obtain ⟨t, ht⟩ := hlevels 0 (by omega)
      rw [pageAt_zero] at ht
      obtain ⟨s₁, hok, hframes, hphys⟩ := h.unmap ht
      have hrest : ∀ i < n, ∃ t, G 0 (pageNo (pageAt (v + pageSize) i) / 512) = some t := by
        intro i hi
        have := hlevels (i + 1) (by omega)
        rwa [pageAt_succ] at this
      obtain ⟨s', hoks, htree, hcleared⟩ := ih (h.of_write ht hframes hphys) hrest
      refine ⟨s', ?_, htree, hcleared.cons h.skeleton ht hphys hframes⟩
      unfold __pagingUnmaps
      rw [hok]
      exact hoks

/-- A page of the range without tables stops it. -/
theorem pagingUnmaps_missing (h : TableTree s root G) {i : ℕ} (hi : i < n)
    (hnone : G 0 (pageNo (pageAt v i) / 512) = none) :
    __pagingUnmaps s root v n = .error .fault := by
  induction n generalizing s v i with
  | zero => omega
  | succ n ih =>
      unfold __pagingUnmaps
      cases hfirst : G 0 (pageNo v / 512) with
      | none =>
          rw [h.unmap_missing hfirst]
          rfl
      | some t =>
          obtain ⟨s₁, hok, hframes, hphys⟩ := h.unmap hfirst
          rw [hok]
          cases i with
          | zero =>
              rw [pageAt_zero, hfirst] at hnone
              cases hnone
          | succ i =>
              rw [pageAt_succ] at hnone
              exact ih (h.of_write hfirst hframes hphys) (by omega) hnone

theorem Cleared.unmapped (h : Skeleton s.phys root G) (h' : Skeleton s'.phys root G)
    (hc : Cleared G s s' v n) : Unmapped root s s' v n where
  pages := fun i hi => h'.translate_none (hc.pages i hi)
  others := fun w hw => h.translate_congr h' fun t ht => hc.others _ t ht hw
  memory := fun x hx => by
    refine hc.memory x fun i hi t ht => ?_
    have := hx i hi t ((h.tableWalk_root _).trans ht)
    rwa [pagingEntryPtr_eq _ _ (Nat.zero_le 3), pow_zero, Nat.div_one] at this
  frames := hc.frames

/-- `__paging_unmaps` does its work exactly when all pages of the range have tables. -/
theorem pagingUnmaps_iff (h : TableTree s root G) :
    (∃ s', __pagingUnmaps s root v n = .ok s' ∧ Unmapped root s s' v n) ↔
      ∀ i < n, tableWalk s.phys (pageAt v i) 3 root ≠ none := by
  constructor
  · rintro ⟨s', hok, -⟩ i hi hnone
    rw [h.skeleton.tableWalk_root] at hnone
    rw [pagingUnmaps_missing h hi hnone] at hok
    cases hok
  · intro hlevels
    have htables : ∀ i < n, ∃ t, G 0 (pageNo (pageAt v i) / 512) = some t := by
      intro i hi
      have := hlevels i hi
      rw [h.skeleton.tableWalk_root] at this
      exact Option.ne_none_iff_exists'.mp this
    obtain ⟨s', hok, htree, hcleared⟩ := pagingUnmaps_cleared h htables
    exact ⟨s', hok, hcleared.unmapped h.skeleton htree.skeleton⟩

end Range

/-- **Unmapping works exactly when the tables above the pages exist.** In every state after any calls
from a fresh root with zeroed table frames, for one page and for every range. -/
theorem tableRun_unmap_iff {root : Word} {s : Mmu} (h : TableRun root s) (hclean : CleanTables s) :
    (∀ v, (∃ s', __pagingUnmap s root v = .ok s' ∧ Unmapped root s s' v 1) ↔
      tableWalk s.phys v 3 root ≠ none) ∧
    ∀ v n, (∃ s', __pagingUnmaps s root v n = .ok s' ∧ Unmapped root s s' v n) ↔
      ∀ i < n, tableWalk s.phys (pageAt v i) 3 root ≠ none := by
  obtain ⟨G, hG⟩ := h.tree hclean
  refine ⟨?_, fun v n => pagingUnmaps_iff hG⟩
  intro v
  have hone : __pagingUnmaps s root v 1 = __pagingUnmap s root v := by
    unfold __pagingUnmaps
    cases __pagingUnmap s root v <;> rfl
  have hiff := pagingUnmaps_iff (v := v) (n := 1) hG
  rw [hone] at hiff
  rw [hiff]
  constructor
  · intro hall
    have := hall 0 (by omega)
    rwa [pageAt_zero] at this
  · intro hv i hi
    obtain rfl : i = 0 := by omega
    rw [pageAt_zero]
    exact hv

/-- The mapped page of the small machine is unmapped. -/
theorem tableRun_unmap_small : ∃ root s s', TableRun root s ∧ CleanTables s ∧
    __pagingUnmap s root 0xffff800000001000 = .ok s' ∧
    translate s'.phys root 0xffff800000001000 = none := by
  obtain ⟨root, s, hmapped, hclean, hrun⟩ := smallMapped_run
  have htable : TableRun root s := by
    obtain ⟨⟨root', s₁⟩, hcreate, h⟩ := Res.bind_eq_ok.mp hmapped
    obtain ⟨s₂, hmap, h⟩ := Res.bind_eq_ok.mp h
    cases h
    exact .map (.create smallPmm_booted smallPmm_small rfl hcreate) hmap
  obtain ⟨G, hG⟩ := hrun.tables hclean
  have hwalk : tableWalk s.phys 0xffff800000001000 3 root ≠ none := by
    rw [hG.tables.skeleton.tableWalk_root, Option.ne_none_iff_exists']
    exact hG.tables.page_parent (e := (0x5000, pagePresent ||| pageWritable)) (by decide)
  obtain ⟨s', hok, hun⟩ := ((tableRun_unmap_iff htable hclean).1 _).mpr hwalk
  have hpage := hun.pages 0 (by decide)
  rw [pageAt_zero] at hpage
  exact ⟨root, s, s', htable, hclean, hok, hpage⟩

/-- **Unmapping a page of a fresh root stores through `NULL`.** -/
theorem tableRun_unmap_fault : ∃ root s, TableRun root s ∧ CleanTables s ∧ Canonical 0x1000 ∧
    __pagingUnmap s root 0x1000 = .error .fault := by
  have hok : (do
      let r ← pagingCreate smallMmu
      match __pagingUnmap r.2 r.1 0x1000 with
      | .error .fault => .ok ()
      | _ => .error .hang : Res Unit).isOk = true := by
    decide +kernel
  obtain ⟨⟨⟩, hcall⟩ := Res.exists_of_isOk hok
  obtain ⟨⟨root, s⟩, hcreate, hcall⟩ := Res.bind_eq_ok.mp hcall
  dsimp only at hcall
  split at hcall
  case h_2 => cases hcall
  rename_i hfault
  exact ⟨root, s, .create smallPmm_booted smallPmm_small rfl hcreate,
    (smallMmu_create hcreate).2.clean, Or.inl (by decide), hfault⟩

/-! ## What a mapping leaves in the entry -/

/-- The walk for `v` reaches the entry `e` of level 0 without creating a table. -/
def EntryAt (s : Mmu) (root v e : Word) : Prop :=
  root ≠ null ∧ e ≠ null ∧ ∃ t, tableWalk s.phys v 3 root = some t ∧ pagingEntryPtr t v 0 = e

/-- The word a mapping stores over the word `old`. -/
theorem leaf_over {old p f : Word} (hp : p &&& pageAddr = p) (hf : f &&& pageAddr = 0) :
    (old ||| f) &&& ~~~pageAddr ||| p = p ||| f ↔ old &&& ~~~pageAddr &&& ~~~f = 0 := by
  have hbit : ∀ o f p a : Bool, (p && a) = p → (f && a) = false →
      ((((o || f) && !a) || p) = (p || f) ↔ (o && !a && !f) = false) := by decide
  rw [BitVec.eq_of_getLsbD_eq_iff, BitVec.eq_of_getLsbD_eq_iff]
  refine forall_congr' fun i => forall_congr' fun hi => ?_
  have hzero : BitVec.getLsbD (0 : Word) i = false := BitVec.getLsbD_zero
  have hpi := congrArg (BitVec.getLsbD · i) hp
  have hfi := congrArg (BitVec.getLsbD · i) hf
  simp only [BitVec.getLsbD_and, BitVec.getLsbD_or, BitVec.getLsbD_not, hzero, hi,
    decide_true, Bool.true_and] at hpi hfi ⊢
  exact hbit _ _ _ _ hpi hfi

/-- **A mapping writes exactly the requested leaf when the entry holds no other flag.** For every
content of memory in which the walk reaches an entry that is not present. -/
theorem pagingMapAt_leaf_iff {s : Mmu} {root v e p f : Word} (hat : EntryAt s root v e)
    (habsent : s.entry e &&& pagePresent ≠ pagePresent) (hp : p.toNat < 2 ^ 52)
    (hf : f &&& pageAddr = 0) :
    ∃ s', __pagingMap s root v p f = .ok s' ∧
      (s'.entry e = alignDown p pageSize ||| f ↔ s.entry e &&& ~~~pageAddr &&& ~~~f = 0) := by
  obtain ⟨hroot, hnull, t, hwalk, rfl⟩ := hat
  rw [pagingEntryPtr_eq _ _ (Nat.zero_le 3), pow_zero, Nat.div_one] at *
  obtain ⟨s₁, hphys, -, heq⟩ := pagingMapAt_found s p f hroot hwalk hnull
  rw [if_neg habsent] at heq
  refine ⟨_, heq, ?_⟩
  have hdown := toNat_alignDown_page p
  have haddr : alignDown p pageSize &&& pageAddr = alignDown p pageSize :=
    and_pageAddr_of_aligned (by omega) (by omega)
  rw [pagingSetFlags_legal _ _ hf, pagingSetPaddr_aligned _ _ (by omega), haddr,
    ← leaf_over haddr hf]
  unfold Mmu.setEntry Mmu.entry
  simp only [read64_write64_self, hphys]

instance (s : Mmu) (root v e : Word) : Decidable (EntryAt s root v e) :=
  decidable_of_iff (root ≠ null ∧ e ≠ null ∧
      (tableWalk s.phys v 3 root).map (pagingEntryPtr · v 0) = some e)
    (by simp only [EntryAt, Option.map_eq_some_iff])

/-- A page of the small machine is unmapped, and its entry is used for another mapping. -/
theorem pagingMapAt_leaf_small : ∃ s root e s', EntryAt s root 0x7000 e ∧
    __pagingMap s root 0x7000 0x9000 pagePresent = .ok s' ∧
    s'.entry e = 0x9000 ||| pagePresent := by
  have hok : (do
      let r ← pagingCreate smallMmu
      let s ← __pagingMap r.2 r.1 0x7000 0x8000 (pagePresent ||| pageWritable)
      let s ← __pagingUnmap s r.1 0x7000
      let e := pagingEntryPtr ((tableWalk s.phys 0x7000 3 r.1).getD null) 0x7000 0
      if EntryAt s r.1 0x7000 e ∧ s.entry e = 0 then .ok () else .error .fault :
        Res Unit).isOk = true := by
    decide +kernel
  obtain ⟨⟨⟩, hcall⟩ := Res.exists_of_isOk hok
  obtain ⟨⟨root, s₁⟩, -, hcall⟩ := Res.bind_eq_ok.mp hcall
  obtain ⟨s₂, -, hcall⟩ := Res.bind_eq_ok.mp hcall
  obtain ⟨s, -, hcall⟩ := Res.bind_eq_ok.mp hcall
  dsimp only at hcall
  obtain ⟨hat, hzero⟩ := Res.of_check hcall
  obtain ⟨s', hmap, hiff⟩ := pagingMapAt_leaf_iff (p := 0x9000) (f := pagePresent) hat
    (by rw [hzero]; decide) (by decide) (by decide)
  exact ⟨s, root, _, s', hat, hmap, hiff.mpr (by rw [hzero]; decide)⟩

/-- **A read-only mapping comes out writable**: the page was mapped without the present bit before, and
its writable bit is still in the entry. -/
theorem pagingMapAt_leftover : ∃ s root e s', EntryAt s root 0x7000 e ∧
    s.entry e &&& pagePresent ≠ pagePresent ∧
    __pagingMap s root 0x7000 0x9000 pagePresent = .ok s' ∧
    s'.entry e = 0x9000 ||| pagePresent ||| pageWritable := by
  have hok : (do
      let r ← pagingCreate smallMmu
      let s ← __pagingMap r.2 r.1 0x7000 0x8000 pageWritable
      let s' ← __pagingMap s r.1 0x7000 0x9000 pagePresent
      let e := pagingEntryPtr ((tableWalk s.phys 0x7000 3 r.1).getD null) 0x7000 0
      if EntryAt s r.1 0x7000 e ∧ s.entry e &&& pagePresent ≠ pagePresent ∧
        s'.entry e = 0x9000 ||| pagePresent ||| pageWritable then .ok () else .error .fault :
        Res Unit).isOk = true := by
    decide +kernel
  obtain ⟨⟨⟩, hcall⟩ := Res.exists_of_isOk hok
  obtain ⟨⟨root, s₁⟩, -, hcall⟩ := Res.bind_eq_ok.mp hcall
  obtain ⟨s, -, hcall⟩ := Res.bind_eq_ok.mp hcall
  obtain ⟨s', hmap, hcall⟩ := Res.bind_eq_ok.mp hcall
  dsimp only at hcall
  have hfields := Res.of_check hcall
  exact ⟨s, root, _, s', hfields.1, hfields.2.1, hmap, hfields.2.2⟩

end Cerberos
