/-
# Cerberos.Mm.PagingMap — what `__paging_map` and `__paging_unmap` do to the tree of tables.

The walk of `__paging_map` hangs missing tables into the tree on its way down and stores the mapping
into a slot of level 0 that was empty; when the slot holds a mapping already, it changes nothing but
the log. Both facts need the frames that become tables to be zeroed (`CleanTables`): `paging_create`
clears only the first of the 512 entries itself.
-/
import Cerberos.Mm.PagingTables
import Cerberos.Mm.PmmBoot

namespace Cerberos

open Cerberos.Base

/-! ## Frames -/

/-- Every frame that became a table was zeroed. -/
def CleanTables (s : Mmu) : Prop := ∀ f ∈ s.created, ZeroFrame f.before f.frame

instance (s : Mmu) : Decidable (CleanTables s) :=
  inferInstanceAs (Decidable (∀ f ∈ s.created, ZeroFrame f.before f.frame))

theorem CleanTables.of_suffix {s s' : Mmu} (h : CleanTables s') (hs : s.created <:+ s'.created) :
    CleanTables s := fun f hf => h f (hs.subset hf)

theorem Taken.tableAddr {p : Pmm} {t : Word} (h : Taken p t) (hsmall : p.memSize.toNat ≤ 2 ^ 52) :
    TableAddr t := by
  have h1 := h.low
  have h2 := h.high
  exact ⟨h.align, by omega, by omega⟩

theorem memset_zeroFrame {phys : Mem} {t : Word} (h : ZeroFrame phys t) : memset phys t 0 8 = phys := by
  funext x
  unfold memset
  rw [fillBytes_apply _ _ _ _ (by decide)]
  split
  · rename_i hx
    have hx' : (x - t).toNat < 8 := hx
    have haddr : t + BitVec.ofNat 64 (x - t).toNat = x := by
      rw [BitVec.ofNat_toNat, BitVec.setWidth_eq]
      ring
    rw [← haddr, h _ (by omega)]
  · rfl

/-! ## Entries -/

theorem pagingCheckFlags_present (s : Mmu) (pentry : Word) :
    pagingCheckFlags s pentry pagePresent =
      (s.entry pentry &&& pagePresent == pagePresent, s) := by
  unfold pagingCheckFlags
  rw [if_neg (by decide)]

theorem mod_pageSize_eq_zero {x : Word} (h : x.toNat % 4096 = 0) : ¬ x % pageSize ≠ 0 := by
  rw [not_not]
  apply BitVec.eq_of_toNat_eq
  rw [BitVec.toNat_umod]
  exact h

theorem pagingSetPaddr_aligned (s : Mmu) (pentry : Word) {paddr : Word}
    (h : paddr.toNat % 4096 = 0) : pagingSetPaddr s pentry paddr =
      (s.setEntry pentry (s.entry pentry &&& ~~~pageAddr ||| (paddr &&& pageAddr))) := by
  unfold pagingSetPaddr
  rw [if_neg (mod_pageSize_eq_zero h)]
  dsimp only
  unfold Mmu.setEntry Mmu.entry
  simp only [read64_write64_self, write64_write64_self]

theorem pagingSetFlags_legal (s : Mmu) (pentry : Word) {flags : Word} (h : flags &&& pageAddr = 0) :
    pagingSetFlags s pentry flags = s.setEntry pentry (s.entry pentry ||| flags) := by
  unfold pagingSetFlags
  rw [if_neg (not_not.mpr h)]

/-- Hanging a table into an empty entry. -/
theorem pagingLink_eq (s : Mmu) {pentry child : Word} (h0 : s.entry pentry = 0)
    (hc : TableAddr child) :
    pagingSetFlags (pagingSetPaddr s pentry child) pentry pagePresent =
      s.setEntry pentry (child ||| pagePresent) := by
  rw [pagingSetPaddr_aligned _ _ hc.align, pagingSetFlags_legal _ _ (by decide), h0,
    hc.and_pageAddr]
  unfold Mmu.setEntry Mmu.entry
  simp only [read64_write64_self, write64_write64_self]
  rw [show (0 : Word) &&& ~~~pageAddr = 0 by decide, show (0 : Word) ||| child = child from
    BitVec.zero_or]

/-- Storing a mapping into an empty entry. -/
theorem pagingLeaf_eq (s : Mmu) {pentry paddr flags : Word} (h0 : s.entry pentry = 0)
    (hp : paddr.toNat % 4096 = 0) (hpa : paddr &&& pageAddr = paddr)
    (hf : flags &&& pageAddr = 0) :
    pagingSetPaddr (pagingSetFlags s pentry flags) pentry paddr =
      s.setEntry pentry (paddr ||| flags) := by
  rw [pagingSetFlags_legal _ _ hf, pagingSetPaddr_aligned _ _ hp, h0, hpa]
  unfold Mmu.setEntry Mmu.entry
  simp only [read64_write64_self, write64_write64_self]
  rw [show (0 : Word) ||| flags = flags from BitVec.zero_or, and_not_pageAddr hf, BitVec.or_comm]

/-! ## The tree and the frame allocator -/

/-- **The tables under `root` are the tree `G`**, in frames the allocator will not hand out again. -/
structure PageTables (s : Mmu) (root : Word) (G : Tree) (M : PageMap) : Prop where
  tables : Tables s.phys root G M
  zones : ZonesOk s.pmm
  small : s.pmm.memSize.toNat ≤ 2 ^ 52
  known : ∀ {l q t}, G l q = some t → ∃ f ∈ s.created, f.frame = t
  taken : ∀ f ∈ s.created, Taken s.pmm f.frame
  once : (s.created.map TableFrame.frame).Nodup

/-- The same of the tables alone, whatever the slots of level 0 hold. -/
structure TableTree (s : Mmu) (root : Word) (G : Tree) : Prop where
  skeleton : Skeleton s.phys root G
  zones : ZonesOk s.pmm
  small : s.pmm.memSize.toNat ≤ 2 ^ 52
  known : ∀ {l q t}, G l q = some t → ∃ f ∈ s.created, f.frame = t
  taken : ∀ f ∈ s.created, Taken s.pmm f.frame
  once : (s.created.map TableFrame.frame).Nodup

theorem PageTables.tree {s : Mmu} {root : Word} {G : Tree} {M : PageMap}
    (h : PageTables s root G M) : TableTree s root G :=
  ⟨h.tables.skeleton, h.zones, h.small, h.known, h.taken, h.once⟩

theorem TableTree.pages {s : Mmu} {root : Word} {G : Tree} {M : PageMap} (h : TableTree s root G)
    (htables : Tables s.phys root G M) : PageTables s root G M :=
  ⟨htables, h.zones, h.small, h.known, h.taken, h.once⟩

theorem TableTree.congr {s s' : Mmu} {root : Word} {G : Tree} (h : TableTree s root G)
    (hphys : s'.phys = s.phys) (hpmm : s'.pmm = s.pmm) (hcreated : s'.created = s.created) :
    TableTree s' root G := by
  refine ⟨?_, ?_, ?_, ?_, ?_, ?_⟩
  · rw [hphys]; exact h.skeleton
  · rw [hpmm]; exact h.zones
  · rw [hpmm]; exact h.small
  · rw [hcreated]; exact h.known
  · rw [hcreated, hpmm]; exact h.taken
  · rw [hcreated]; exact h.once

theorem PageTables.congr {s s' : Mmu} {root : Word} {G : Tree} {M : PageMap}
    (h : PageTables s root G M) (hphys : s'.phys = s.phys) (hpmm : s'.pmm = s.pmm)
    (hcreated : s'.created = s.created) : PageTables s' root G M := by
  refine (h.tree.congr hphys hpmm hcreated).pages ?_
  rw [hphys]
  exact h.tables

/-- What a returning `paging_create` did. -/
structure Created (s : Mmu) (t : Word) (s' : Mmu) : Prop where
  alloc : pmmAlloc s.pmm .normal 1 = .ok (t, s'.pmm)
  phys : s'.phys = memset s.phys t 0 8
  created : s'.created = ⟨t, s.phys⟩ :: s.created
  cr3 : s'.cr3 = s.cr3

theorem pagingCreate_spec {s s' : Mmu} {t : Word} (h : pagingCreate s = .ok (t, s')) :
    Created s t s' := by
  obtain ⟨⟨frame, pmm⟩, halloc, h⟩ := Res.bind_eq_ok.mp h
  cases h
  exact ⟨halloc, rfl, rfl, rfl⟩

/-- The frame of a new table is none of those of the tree. -/
theorem TableTree.fresh {s s₁ : Mmu} {root : Word} {G : Tree} (h : TableTree s root G) {t' : Word}
    (hc : Created s t' s₁) : TableAddr t' ∧ ∀ {l q}, G l q ≠ some t' := by
  obtain ⟨htaken, hkeep⟩ := pmmAlloc_taken h.zones hc.alloc
  obtain ⟨idx, spec⟩ := pmmAlloc_spec (by decide) hc.alloc
  refine ⟨htaken.tableAddr ?_, ?_⟩
  · rw [spec.same.memSize]
    exact h.small
  · intro l q hq
    obtain ⟨f, hf, hft⟩ := h.known hq
    exact (hkeep _ (h.taken f hf)).2 hft

/-- A table is created and hung into the empty slot `k` of the table `t`. -/
theorem TableTree.grow {s s₁ : Mmu} {root : Word} {G : Tree} (h : TableTree s root G) {l k : ℕ}
    {t t' : Word} (hl : l < 3) (ht : G (l + 1) (k / 512) = some t) (hnone : G l k = none)
    (hc : Created s t' s₁) (hzero : ZeroFrame s.phys t') :
    TableTree (s₁.setEntry (slotAddr t k) (t' ||| pagePresent)) root
      (fun l₂ q₂ => if l₂ = l ∧ q₂ = k then some t' else G l₂ q₂) := by
  obtain ⟨haddr, hfresh⟩ := h.fresh hc
  obtain ⟨htaken, hkeep⟩ := pmmAlloc_taken h.zones hc.alloc
  obtain ⟨idx, spec⟩ := pmmAlloc_spec (by decide) hc.alloc
  have hphys : s₁.phys = s.phys := hc.phys.trans (memset_zeroFrame hzero)
  refine ⟨?_, h.zones.same spec.same, ?_, ?_, ?_, ?_⟩
  · show Skeleton (write64 s₁.phys _ _) root _
    rw [hphys]
    exact h.skeleton.link hl ht hnone haddr hfresh hzero
  · show s₁.pmm.memSize.toNat ≤ 2 ^ 52
    rw [spec.same.memSize]
    exact h.small
  · intro l₂ q₂ t₂ h₂
    show ∃ f ∈ s₁.created, f.frame = t₂
    rw [hc.created]
    split at h₂
    · exact ⟨_, List.mem_cons_self, Option.some.inj h₂⟩
    · obtain ⟨f, hf, hft⟩ := h.known h₂
      exact ⟨f, List.mem_cons_of_mem _ hf, hft⟩
  · show ∀ f ∈ s₁.created, Taken s₁.pmm f.frame
    rw [hc.created, List.forall_mem_cons]
    exact ⟨htaken, fun f hf => (hkeep _ (h.taken f hf)).1⟩
  · show (s₁.created.map TableFrame.frame).Nodup
    rw [hc.created, List.map_cons, List.nodup_cons]
    refine ⟨?_, h.once⟩
    intro hmem
    obtain ⟨f, hf, hft⟩ := List.mem_map.mp hmem
    exact (hkeep _ (h.taken f hf)).2 hft

theorem PageTables.grow {s s₁ : Mmu} {root : Word} {G : Tree} {M : PageMap}
    (h : PageTables s root G M) {l k : ℕ} {t t' : Word} (hl : l < 3)
    (ht : G (l + 1) (k / 512) = some t) (hnone : G l k = none) (hc : Created s t' s₁)
    (hzero : ZeroFrame s.phys t') :
    PageTables (s₁.setEntry (slotAddr t k) (t' ||| pagePresent)) root
      (fun l₂ q₂ => if l₂ = l ∧ q₂ = k then some t' else G l₂ q₂) M := by
  obtain ⟨haddr, hfresh⟩ := h.tree.fresh hc
  refine (h.tree.grow hl ht hnone hc hzero).pages ?_
  show Tables (write64 s₁.phys _ _) root _ M
  rw [hc.phys.trans (memset_zeroFrame hzero)]
  exact h.tables.link hl ht hnone haddr hfresh hzero

/-- A mapping is stored into, or removed from, a slot of level 0. -/
theorem PageTables.setLeaf {s : Mmu} {root : Word} {G : Tree} {M : PageMap}
    (h : PageTables s root G M) {k : ℕ} {t w : Word} (ht : G 0 (k / 512) = some t)
    {e : Option (Word × Word)} (he : ∀ {p f}, e = some (p, f) → LeafOk p f)
    (hw : w = slotVal G (Function.update M k e) 0 k) :
    PageTables (s.setEntry (slotAddr t k) w) root G (Function.update M k e) :=
  ⟨h.tables.store ht he hw, h.zones, h.small, h.known, h.taken, h.once⟩

theorem TableTree.setLeaf {s : Mmu} {root : Word} {G : Tree} (h : TableTree s root G) {k : ℕ}
    {t : Word} (ht : G 0 (k / 512) = some t) (w : Word) :
    TableTree (s.setEntry (slotAddr t k) w) root G :=
  ⟨h.skeleton.setLeaf ht w, h.zones, h.small, h.known, h.taken, h.once⟩

theorem TableTree.root_ne {s : Mmu} {root : Word} {G : Tree} (h : TableTree s root G) :
    root ≠ null := by
  have hpos := (h.skeleton.frame h.skeleton.root_eq).pos
  rintro rfl
  exact absurd hpos (by decide)

/-! ## The walk -/

theorem pagingAlign_snd (s : Mmu) (warn : String) (addr : Word) :
    (pagingAlign s warn addr).2 = alignDown addr pageSize := by
  unfold pagingAlign
  split
  · rfl
  · rename_i h
    rw [not_not] at h
    have hmod := congrArg BitVec.toNat h
    rw [BitVec.toNat_umod] at hmod
    exact (alignDown_page_of_mod hmod).symm

theorem pagingAlign_phys (s : Mmu) (warn : String) (addr : Word) :
    (pagingAlign s warn addr).1.phys = s.phys := by
  unfold pagingAlign
  split <;> rfl

theorem div_pow_succ (n l : ℕ) : n / 512 ^ (l + 1) = n / 512 ^ l / 512 := by
  rw [Nat.div_div_eq_div_mul, ← Nat.pow_succ]

/-- **The walk finds an existing entry** and changes nothing, asked to create tables or not. -/
theorem pagingWalkLoop_found {s : Mmu} {v t₀ : Word} (create : Bool) :
    ∀ {l : ℕ} {table : Word}, tableWalk s.phys v l table = some t₀ →
      pagingWalkLoop v 0 create l s table = .ok (pagingEntryPtr t₀ v 0, s) := by
  intro l
  induction l with
  | zero =>
      intro table hwalk
      cases hwalk
      rfl
  | succ l ih =>
      intro table hwalk
      unfold tableWalk at hwalk
      dsimp only at hwalk
      split at hwalk
      case isFalse => cases hwalk
      rename_i hpresent
      have hpresent' : s.entry (pagingEntryPtr table v (l + 1)) &&& pagePresent = pagePresent :=
        hpresent
      unfold pagingWalkLoop
      rw [if_neg (by omega), if_neg (by omega)]
      dsimp only
      rw [pagingCheckFlags_present, hpresent']
      simp only [beq_self_eq_true, if_true]
      exact ih hwalk

/-- Without `create`, a missing table ends the walk with `NULL`. -/
theorem pagingWalkLoop_missing {s : Mmu} {v : Word} :
    ∀ {l : ℕ} {table : Word}, tableWalk s.phys v l table = none →
      ∃ s', pagingWalkLoop v 0 false l s table = .ok (null, s') := by
  intro l
  induction l with
  | zero =>
      intro table hwalk
      cases hwalk
  | succ l ih =>
      intro table hwalk
      unfold tableWalk at hwalk
      dsimp only at hwalk
      unfold pagingWalkLoop
      rw [if_neg (by omega), if_neg (by omega)]
      dsimp only
      rw [pagingCheckFlags_present]
      split at hwalk
      case isTrue hpresent =>
        have hpresent' : s.entry (pagingEntryPtr table v (l + 1)) &&& pagePresent = pagePresent :=
          hpresent
        simp only [hpresent', beq_self_eq_true, if_true]
        exact ih hwalk
      case isFalse habsent =>
        have habsent' : ¬ s.entry (pagingEntryPtr table v (l + 1)) &&& pagePresent = pagePresent :=
          habsent
        simp only [beq_iff_eq, habsent', Bool.false_eq_true, if_false]
        exact ⟨_, rfl⟩

/-- What the walk and the final stores of a mapping preserve: a property of the state and its tree that
hanging a zeroed table into an empty slot keeps. -/
structure TreeInv (root : Word) (I : Mmu → Tree → Prop) : Prop where
  tree : ∀ {s G}, I s G → TableTree s root G
  congr : ∀ {s s' G}, I s G → s'.phys = s.phys → SameFrames s s' → I s' G
  grow : ∀ {s s₁ G l k t t'}, I s G → l < 3 → G (l + 1) (k / 512) = some t → G l k = none →
    Created s t' s₁ → ZeroFrame s.phys t' →
    I (s₁.setEntry (slotAddr t k) (t' ||| pagePresent))
      (fun l₂ q₂ => if l₂ = l ∧ q₂ = k then some t' else G l₂ q₂)

theorem TableTree.inv (root : Word) : TreeInv root fun s G => TableTree s root G :=
  ⟨id, fun h hphys hsame => h.congr hphys hsame.pmm hsame.created, fun h => h.grow⟩

theorem PageTables.inv (root : Word) (M : PageMap) : TreeInv root fun s G => PageTables s root G M :=
  ⟨PageTables.tree, fun h hphys hsame => h.congr hphys hsame.pmm hsame.created, fun h => h.grow⟩

/-- The frames that become tables on the way to a state with the history `created` are zeroed. -/
def NewZeroed (I : Mmu → Tree → Prop) (created : List TableFrame) : Prop :=
  ∀ s s₁ G t', I s G → Created s t' s₁ → s₁.created <:+ created → ZeroFrame s.phys t'

theorem CleanTables.newZeroed {s' : Mmu} (h : CleanTables s') (I : Mmu → Tree → Prop) :
    NewZeroed I s'.created := by
  intro s s₁ G t' _ hc hsuffix
  rw [hc.created] at hsuffix
  exact h _ (hsuffix.subset List.mem_cons_self)

section Walk

variable {root : Word} {I : Mmu → Tree → Prop}

theorem TreeInv.align (hI : TreeInv root I) {s : Mmu} {G : Tree} (h : I s G) (warn : String)
    (addr : Word) : I (pagingAlign s warn addr).1 G :=
  hI.congr h (pagingAlign_phys s warn addr) (pagingAlign_same s warn addr)

/-- **The walk creates what is missing**: it ends at a slot of level 0 of a larger tree. The induction
is on the level; a missing table is created, hung into the empty slot, and entered. -/
theorem pagingWalkLoop_create (hI : TreeInv root I) (v : Word) :
    ∀ {l : ℕ} {s s' : Mmu} {table pentry : Word} {G : Tree}, l ≤ 3 → I s G →
      G l (pageNo v / 512 ^ (l + 1)) = some table →
      pagingWalkLoop v 0 true l s table = .ok (pentry, s') → NewZeroed I s'.created →
      ∃ G' t₀, I s' G' ∧ G' 0 (pageNo v / 512) = some t₀ ∧ pentry = slotAddr t₀ (pageNo v) := by
  intro l
  induction l with
  | zero =>
      intro s s' table pentry G hl h ht hok _
      rw [zero_add, pow_one] at ht
      unfold pagingWalkLoop at hok
      rw [if_pos rfl, pagingEntryPtr_eq _ _ hl, pow_zero, Nat.div_one] at hok
      cases hok
      exact ⟨G, table, h, ht, rfl⟩
  | succ l ih =>
      intro s s' table pentry G hl h ht hok hnew
      have hskel := (hI.tree h).skeleton
      rw [div_pow_succ] at ht
      unfold pagingWalkLoop at hok
      rw [if_neg (by omega), if_neg (by omega)] at hok
      dsimp only at hok
      rw [pagingCheckFlags_present, pagingEntryPtr_eq _ _ hl] at hok
      dsimp only at hok
      cases hchild : G l (pageNo v / 512 ^ (l + 1)) with
      | some t' =>
          have hpresent : s.entry (slotAddr table (pageNo v / 512 ^ (l + 1))) &&& pagePresent =
              pagePresent := (hskel.slot_present ht).mpr ⟨t', hchild⟩
          have hnext : pagingGetPaddr s (slotAddr table (pageNo v / 512 ^ (l + 1))) = t' :=
            hskel.slot_addr ht hchild
          rw [hpresent, hnext, beq_self_eq_true, if_pos rfl] at hok
          exact ih (by omega) h hchild hok hnew
      | none =>
          have hzero : s.entry (slotAddr table (pageNo v / 512 ^ (l + 1))) = 0 := by
            show read64 _ _ = 0
            rw [hskel.slots ht, slotVal_no_table hchild]
          rw [hzero, if_neg (by decide), if_pos rfl] at hok
          obtain ⟨⟨t', s₁⟩, hcreate, hok⟩ := Res.bind_eq_ok.mp hok
          have hc := pagingCreate_spec hcreate
          dsimp only at hok
          -- the frame is in the history of the final state
          have hsuffix := (pagingWalkLoop_walk hok).history
          rw [(pagingSetFlags_same _ _ _).created, (pagingSetPaddr_same _ _ _).created] at hsuffix
          have hframe : ZeroFrame s.phys t' := hnew _ _ _ _ h hc hsuffix
          have hgrown := hI.grow h (by omega) ht hchild hc hframe
          have hzero₁ : s₁.entry (slotAddr table (pageNo v / 512 ^ (l + 1))) = 0 := by
            unfold Mmu.entry
            rw [hc.phys, memset_zeroFrame hframe]
            exact hzero
          rw [pagingLink_eq _ hzero₁ ((hI.tree h).fresh hc).1] at hok
          exact ih (by omega) hgrown (if_pos ⟨rfl, rfl⟩) hok hnew

/-- `paging_walk` with `create`. -/
theorem pagingWalk_create (hI : TreeInv root I) {s s' : Mmu} {pentry : Word} {G : Tree} (h : I s G)
    (v : Word) (hok : pagingWalk s root v pml1 true = .ok (pentry, s'))
    (hnew : NewZeroed I s'.created) :
    ∃ G' t₀, I s' G' ∧ G' 0 (pageNo v / 512) = some t₀ ∧ pentry = slotAddr t₀ (pageNo v) := by
  unfold pagingWalk at hok
  rw [if_neg (hI.tree h).root_ne] at hok
  dsimp only at hok
  rw [pagingAlign_snd] at hok
  have halign := hI.align h "[paging_walk] vaddr is not 4 KiB aligned, vaddr: %lx\n" v
  have hcreate := pagingWalkLoop_create hI (alignDown v pageSize) (le_refl 3) halign
    ((hI.tree halign).skeleton.root_slot _) hok hnew
  rw [pageNo_alignDown] at hcreate
  exact hcreate

end Walk

/-- `paging_walk` towards an existing slot. -/
theorem pagingWalk_found {s : Mmu} {root v t₀ : Word} (hroot : root ≠ null) (create : Bool)
    (hwalk : tableWalk s.phys v 3 root = some t₀) :
    ∃ s', pagingWalk s root v pml1 create = .ok (slotAddr t₀ (pageNo v), s') ∧
      s'.phys = s.phys ∧ SameFrames s s' := by
  unfold pagingWalk
  rw [if_neg hroot]
  dsimp only
  rw [pagingAlign_snd]
  rw [← tableWalk_alignDown s.phys v (le_refl 3), ← pagingAlign_phys s
    "[paging_walk] vaddr is not 4 KiB aligned, vaddr: %lx\n" v] at hwalk
  have hfound := pagingWalkLoop_found create hwalk
  rw [pagingEntryPtr_eq _ _ (Nat.zero_le 3), pow_zero, Nat.div_one, pageNo_alignDown] at hfound
  exact ⟨_, hfound, pagingAlign_phys _ _ _, pagingAlign_same _ _ _⟩

/-- `paging_walk` without `create` towards a missing table. -/
theorem pagingWalk_missing {s : Mmu} {root v : Word} (hroot : root ≠ null)
    (hwalk : tableWalk s.phys v 3 root = none) :
    ∃ s', pagingWalk s root v pml1 false = .ok (null, s') := by
  unfold pagingWalk
  rw [if_neg hroot]
  dsimp only
  rw [pagingAlign_snd]
  rw [← tableWalk_alignDown s.phys v (le_refl 3), ← pagingAlign_phys s
    "[paging_walk] vaddr is not 4 KiB aligned, vaddr: %lx\n" v] at hwalk
  exact pagingWalkLoop_missing hwalk

/-! ## Mapping -/

/-- The abstract effect of `__paging_map`: a page that is mapped stays as it is. -/
def mapPage (M : PageMap) (v p f : Word) : PageMap :=
  match M (pageNo v) with
  | some _ => M
  | none => Function.update M (pageNo v) (some (alignDown p pageSize, f))

/-- The abstract effect of `__paging_unmap`. -/
def unmapPage (M : PageMap) (v : Word) : PageMap := Function.update M (pageNo v) none

/-- A request `__paging_map` can store: a 52-bit address, and flags with the present bit and without
address bits. -/
structure MapArgs (p f : Word) : Prop where
  addr : p.toNat < 2 ^ 52
  flags : f &&& pageAddr = 0
  present : f &&& pagePresent = pagePresent

theorem MapArgs.leafOk {p f : Word} (h : MapArgs p f) : LeafOk (alignDown p pageSize) f := by
  have hp := toNat_alignDown_page p
  have hlt := h.addr
  exact ⟨and_pageAddr_of_aligned (by omega) (by omega), h.flags, h.present⟩

/-- `__paging_map` behind its two alignment warnings: the walk starts from the same memory. -/
theorem pagingMapAt_eq (s : Mmu) {root : Word} (v p f : Word) (hroot : root ≠ null) :
    ∃ s₀, s₀.phys = s.phys ∧ SameFrames s s₀ ∧
      __pagingMap s root v p f = (do
        let (pentry, s) ← pagingWalk s₀ root (alignDown v pageSize) pml1 true
        if pentry = null then .error .fault
        else if s.entry pentry &&& pagePresent = pagePresent then
          .ok (s.say (errorMsg
            "[__paging_map] request to map vaddr 0x%lx to paddr 0x%lx but vaddr was already mapped to %0xlx.\n"
            [alignDown v pageSize, alignDown p pageSize, pagingGetPaddr s pentry]))
        else .ok (pagingSetPaddr (pagingSetFlags s pentry f) pentry (alignDown p pageSize))) := by
  refine ⟨(pagingAlign (pagingAlign s
    "[__paging_map] vaddr is not 4 KiB aligned, vaddr: %lx\n" v).1
    "[__paging_map] paddr is not 4 KiB aligned, paddr: %lx\n" p).1, ?_, ?_, ?_⟩
  · rw [pagingAlign_phys, pagingAlign_phys]
  · exact (pagingAlign_same _ _ _).trans (pagingAlign_same _ _ _)
  · unfold __pagingMap
    rw [if_neg hroot]
    dsimp only
    rw [pagingAlign_snd, pagingAlign_snd]
    simp only [pagingCheckFlags_present, beq_iff_eq]

/-- **What a returning `__paging_map` did.** Its walk ended at a slot of level 0; the slot was present
and only a line was logged, or flags and address were stored into it. -/
theorem pagingMapAt_cases {root : Word} {I : Mmu → Tree → Prop} (hI : TreeInv root I) {s s' : Mmu}
    {v p f : Word} {G : Tree} (h : I s G) (hok : __pagingMap s root v p f = .ok s')
    (hnew : NewZeroed I s'.created) :
    ∃ s₁ G' t₀, I s₁ G' ∧ G' 0 (pageNo v / 512) = some t₀ ∧
      ((s₁.entry (slotAddr t₀ (pageNo v)) &&& pagePresent = pagePresent ∧
          s'.phys = s₁.phys ∧ SameFrames s₁ s') ∨
        (¬ s₁.entry (slotAddr t₀ (pageNo v)) &&& pagePresent = pagePresent ∧
          s' = pagingSetPaddr (pagingSetFlags s₁ (slotAddr t₀ (pageNo v)) f)
            (slotAddr t₀ (pageNo v)) (alignDown p pageSize))) := by
  obtain ⟨s₀, hphys, hframes, heq⟩ := pagingMapAt_eq s v p f (hI.tree h).root_ne
  rw [heq] at hok
  obtain ⟨⟨pentry, s₁⟩, hwalk, hok⟩ := Res.bind_eq_ok.mp hok
  dsimp only at hok
  have h₀ := hI.congr h hphys hframes
  by_cases hnull : pentry = null
  · rw [if_pos hnull] at hok
    cases hok
  rw [if_neg hnull] at hok
  by_cases hpresent : s₁.entry pentry &&& pagePresent = pagePresent
  · rw [if_pos hpresent] at hok
    cases hok
    obtain ⟨G', t₀, h', hleaf, rfl⟩ := pagingWalk_create hI h₀ _ hwalk hnew
    rw [pageNo_alignDown] at hleaf hpresent
    exact ⟨s₁, G', t₀, h', hleaf, Or.inl ⟨hpresent, rfl, rfl, rfl, rfl⟩⟩
  · rw [if_neg hpresent] at hok
    cases hok
    rw [(pagingSetPaddr_same _ _ _).created, (pagingSetFlags_same _ _ _).created] at hnew
    obtain ⟨G', t₀, h', hleaf, rfl⟩ := pagingWalk_create hI h₀ _ hwalk hnew
    rw [pageNo_alignDown] at hleaf hpresent ⊢
    exact ⟨s₁, G', t₀, h', hleaf, Or.inr ⟨hpresent, rfl⟩⟩

/-- Flags and address stored into an empty slot of level 0. -/
theorem PageTables.storePage {s : Mmu} {root v p f : Word} {G : Tree} {M : PageMap} {t₀ : Word}
    (h : PageTables s root G M) (hargs : MapArgs p f) (hleaf : G 0 (pageNo v / 512) = some t₀)
    (hpresent : ¬ s.entry (slotAddr t₀ (pageNo v)) &&& pagePresent = pagePresent) :
    M (pageNo v) = none ∧
      pagingSetPaddr (pagingSetFlags s (slotAddr t₀ (pageNo v)) f) (slotAddr t₀ (pageNo v))
          (alignDown p pageSize) =
        s.setEntry (slotAddr t₀ (pageNo v)) (alignDown p pageSize ||| f) := by
  have hnone : M (pageNo v) = none := by
    cases hpage : M (pageNo v) with
    | none => rfl
    | some e => exact absurd ((h.tables.page_present hleaf).mpr ⟨e, hpage⟩) hpresent
  have hzero : s.entry (slotAddr t₀ (pageNo v)) = 0 := by
    show read64 _ _ = 0
    rw [h.tables.slots hleaf, slotVal_no_page hnone]
  refine ⟨hnone, ?_⟩
  exact pagingLeaf_eq _ hzero (by rw [toNat_alignDown_page]; omega) hargs.leafOk.addr hargs.flags

/-- **`__paging_map` inserts the page when it is absent.** -/
theorem pagingMapAt_spec {s s' : Mmu} {root v p f : Word} {G : Tree} {M : PageMap}
    (h : PageTables s root G M) (hargs : MapArgs p f)
    (hok : __pagingMap s root v p f = .ok s') (hclean : CleanTables s') :
    ∃ G', PageTables s' root G' (mapPage M v p f) := by
  obtain ⟨s₁, G', t₀, h', hleaf, hcase⟩ :=
    pagingMapAt_cases (PageTables.inv root M) h hok (hclean.newZeroed _)
  refine ⟨G', ?_⟩
  unfold mapPage
  rcases hcase with ⟨hpresent, hphys, hframes⟩ | ⟨hpresent, rfl⟩
  · -- mapped already
    obtain ⟨e, he⟩ := (h'.tables.page_present hleaf).mp hpresent
    rw [he]
    exact h'.congr hphys hframes.pmm hframes.created
  · obtain ⟨hnone, hstore⟩ := h'.storePage hargs hleaf hpresent
    rw [hstore, hnone]
    refine h'.setLeaf hleaf ?_ ?_
    · intro p' f' he
      cases he
      exact hargs.leafOk
    · rw [slotVal_page (Function.update_self ..)]

/-- `__paging_map` towards an existing slot. -/
theorem pagingMapAt_found (s : Mmu) {root v t₀ : Word} (p f : Word) (hroot : root ≠ null)
    (hwalk : tableWalk s.phys v 3 root = some t₀) (hslot : slotAddr t₀ (pageNo v) ≠ null) :
    ∃ s₁, s₁.phys = s.phys ∧ SameFrames s s₁ ∧
      __pagingMap s root v p f =
        if s.entry (slotAddr t₀ (pageNo v)) &&& pagePresent = pagePresent then
          .ok (s₁.say (errorMsg
            "[__paging_map] request to map vaddr 0x%lx to paddr 0x%lx but vaddr was already mapped to %0xlx.\n"
            [alignDown v pageSize, alignDown p pageSize,
              pagingGetPaddr s₁ (slotAddr t₀ (pageNo v))]))
        else .ok (pagingSetPaddr (pagingSetFlags s₁ (slotAddr t₀ (pageNo v)) f)
          (slotAddr t₀ (pageNo v)) (alignDown p pageSize)) := by
  obtain ⟨s₀, hphys, hframes, heq⟩ := pagingMapAt_eq s v p f hroot
  rw [← tableWalk_alignDown s.phys v (le_refl 3), ← hphys] at hwalk
  obtain ⟨s₁, hfound, hphys₁, hframes₁⟩ := pagingWalk_found hroot true hwalk
  rw [pageNo_alignDown] at hfound
  have hentry : s.entry (slotAddr t₀ (pageNo v)) = s₁.entry (slotAddr t₀ (pageNo v)) := by
    unfold Mmu.entry
    rw [hphys₁, hphys]
  refine ⟨s₁, hphys₁.trans hphys, hframes.trans hframes₁, ?_⟩
  rw [heq, hfound, hentry]
  simp only [bind, Except.bind]
  rw [if_neg hslot]

/-- **`__paging_map` of a mapped page changes nothing** but the log. -/
theorem pagingMapAt_mapped {s s' : Mmu} {root v p f : Word} {G : Tree} {M : PageMap}
    (h : PageTables s root G M) {e : Word × Word} (he : M (pageNo v) = some e)
    (hok : __pagingMap s root v p f = .ok s') : s'.phys = s.phys ∧ SameFrames s s' := by
  obtain ⟨t₀, hleaf⟩ := h.tables.page_parent he
  have hskel := h.tables.skeleton
  obtain ⟨s₁, hphys, hframes, heq⟩ := pagingMapAt_found s p f h.tree.root_ne
    ((hskel.tableWalk_root v).trans hleaf) (hskel.slotAddr_ne hleaf _)
  have hpresent : s.entry (slotAddr t₀ (pageNo v)) &&& pagePresent = pagePresent :=
    (h.tables.page_present hleaf).mpr ⟨e, he⟩
  rw [heq, if_pos hpresent] at hok
  cases hok
  exact ⟨hphys, hframes.trans ⟨rfl, rfl, rfl⟩⟩

/-- `__paging_unmap` towards an existing slot stores one zero word. -/
theorem pagingUnmapAt_found {s : Mmu} {root v t₀ : Word} (hroot : root ≠ null)
    (hwalk : tableWalk s.phys v 3 root = some t₀) (hslot : slotAddr t₀ (pageNo v) ≠ null) :
    ∃ s₁, s₁.phys = s.phys ∧ SameFrames s s₁ ∧
      __pagingUnmap s root v = .ok (s₁.setEntry (slotAddr t₀ (pageNo v)) 0) := by
  unfold __pagingUnmap
  rw [if_neg hroot]
  dsimp only
  rw [pagingAlign_snd]
  rw [← tableWalk_alignDown s.phys v (le_refl 3), ← pagingAlign_phys s
    "[__paging_unmap] vaddr is not 4 KiB aligned, vaddr: %lx\n" v] at hwalk
  obtain ⟨s₁, hfound, hphys, hframes⟩ := pagingWalk_found hroot false hwalk
  rw [pageNo_alignDown] at hfound
  refine ⟨s₁, hphys.trans (pagingAlign_phys _ _ _), (pagingAlign_same _ _ _).trans hframes, ?_⟩
  rw [hfound]
  simp only [bind, Except.bind]
  rw [if_neg hslot]

/-- Towards a missing table it stores through `NULL`. -/
theorem pagingUnmapAt_missing {s : Mmu} {root v : Word} (hroot : root ≠ null)
    (hwalk : tableWalk s.phys v 3 root = none) : __pagingUnmap s root v = .error .fault := by
  unfold __pagingUnmap
  rw [if_neg hroot]
  dsimp only
  rw [pagingAlign_snd]
  rw [← tableWalk_alignDown s.phys v (le_refl 3), ← pagingAlign_phys s
    "[__paging_unmap] vaddr is not 4 KiB aligned, vaddr: %lx\n" v] at hwalk
  obtain ⟨s₁, hmissing⟩ := pagingWalk_missing hroot hwalk
  rw [hmissing]
  rfl

/-- **`__paging_unmap` deletes the page** when the tables above it exist. -/
theorem pagingUnmapAt_spec {s : Mmu} {root v : Word} {G : Tree} {M : PageMap}
    (h : PageTables s root G M) (hlevels : tableWalk s.phys v 3 root ≠ none) :
    ∃ s', __pagingUnmap s root v = .ok s' ∧ PageTables s' root G (unmapPage M v) := by
  have hskel := h.tables.skeleton
  obtain ⟨t₀, hwalk⟩ := Option.ne_none_iff_exists'.mp hlevels
  have hleaf := (hskel.tableWalk_root v).symm.trans hwalk
  obtain ⟨s₁, hphys, hframes, hok⟩ := pagingUnmapAt_found h.tree.root_ne hwalk
    (hskel.slotAddr_ne hleaf _)
  have h₁ := h.congr hphys hframes.pmm hframes.created
  refine ⟨_, hok, h₁.setLeaf hleaf (by simp) ?_⟩
  rw [slotVal_no_page (Function.update_self ..)]

/-! ## Memory that is zero at boot

When physical memory is zero before the first table and nothing is freed, every frame that becomes a
table is zeroed: only tables are ever written. -/

/-- The frames that became tables were zeroed, and memory outside them still is zero. -/
structure Zeroed (s : Mmu) : Prop where
  clean : CleanTables s
  outside : ∀ x : Word, (∀ f ∈ s.created,
    ¬ (f.frame.toNat ≤ x.toNat ∧ x.toNat < f.frame.toNat + 4096)) → s.phys x = 0

theorem Zeroed.congr {s s' : Mmu} (h : Zeroed s) (hphys : s'.phys = s.phys)
    (hcreated : s'.created = s.created) : Zeroed s' := by
  refine ⟨?_, ?_⟩
  · unfold CleanTables
    rw [hcreated]
    exact h.clean
  · rw [hphys, hcreated]
    exact h.outside

/-- A new table lies in zeroed memory. -/
theorem Zeroed.create {s s' : Mmu} (h : Zeroed s) (hz : ZonesOk s.pmm)
    (htaken : ∀ f ∈ s.created, Taken s.pmm f.frame) {t : Word} (hc : Created s t s') :
    Zeroed s' ∧ ZeroFrame s.phys t := by
  obtain ⟨ht, hkeep⟩ := pmmAlloc_taken hz hc.alloc
  have hmem := s'.pmm.memSize.isLt
  have hhigh := ht.high
  have hzero : ZeroFrame s.phys t := by
    intro i hi
    apply h.outside
    intro f hf
    obtain ⟨hfk, hne⟩ := hkeep _ (htaken f hf)
    have h1 := hfk.align
    have h2 := ht.align
    have hne' : f.frame.toNat ≠ t.toNat := fun he => hne (BitVec.eq_of_toNat_eq he)
    rw [BitVec.toNat_add, BitVec.toNat_ofNat]
    omega
  refine ⟨⟨?_, ?_⟩, hzero⟩
  · unfold CleanTables
    rw [hc.created, List.forall_mem_cons]
    exact ⟨hzero, h.clean⟩
  · intro x hx
    rw [hc.phys, memset_zeroFrame hzero]
    rw [hc.created, List.forall_mem_cons] at hx
    exact h.outside x hx.2

/-- A store into a slot of a table. -/
theorem Zeroed.setEntry {s : Mmu} (h : Zeroed s) {t : Word} (haddr : TableAddr t)
    (hknown : ∃ f ∈ s.created, f.frame = t) (k : ℕ) (w : Word) :
    Zeroed (s.setEntry (slotAddr t k) w) := by
  refine ⟨h.clean, ?_⟩
  intro x hx
  obtain ⟨f, hf, rfl⟩ := hknown
  have hlt := haddr.lt
  have hslot := toNat_slotAddr haddr.lt k
  have hxf := hx f hf
  show write64 s.phys _ _ x = 0
  rw [write64_apply_of_outside (by omega) (by omega)]
  exact h.outside x hx

/-- Zeroed memory outside the tables, along with the tables. -/
theorem Zeroed.inv (root : Word) (M : PageMap) :
    TreeInv root fun s G => PageTables s root G M ∧ Zeroed s where
  tree := fun h => h.1.tree
  congr := fun h hphys hframes => ⟨h.1.congr hphys hframes.pmm hframes.created, h.2.congr hphys hframes.created⟩
  grow := fun {s s₁ G l k t t'} h hl ht hnone hc hzero => by
    refine ⟨h.1.grow hl ht hnone hc hzero, ?_⟩
    have hzeroed := (h.2.create h.1.zones h.1.taken hc).1
    refine hzeroed.setEntry (h.1.tables.frame ht) ?_ _ _
    obtain ⟨f, hf, hft⟩ := h.1.known ht
    rw [hc.created]
    exact ⟨f, List.mem_cons_of_mem _ hf, hft⟩

/-- **A mapping keeps memory zero outside the tables.** -/
theorem pagingMapAt_zeroed {s s' : Mmu} {root v p f : Word} {G : Tree} {M : PageMap}
    (h : PageTables s root G M) (hargs : MapArgs p f) (hzeroed : Zeroed s)
    (hok : __pagingMap s root v p f = .ok s') : Zeroed s' := by
  obtain ⟨s₁, G', t₀, ⟨h', hzeroed'⟩, hleaf, hcase⟩ :=
    pagingMapAt_cases (Zeroed.inv root M) ⟨h, hzeroed⟩ hok
      fun _ _ _ _ hinv hc _ => (hinv.2.create hinv.1.zones hinv.1.taken hc).2
  rcases hcase with ⟨-, hphys, hframes⟩ | ⟨hpresent, rfl⟩
  · exact hzeroed'.congr hphys hframes.created
  · rw [(h'.storePage hargs hleaf hpresent).2]
    exact hzeroed'.setEntry (h'.tables.frame hleaf) (h'.known hleaf) _ _

end Cerberos
