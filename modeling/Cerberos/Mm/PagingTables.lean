/-
# Cerberos.Mm.PagingTables — a tree of page tables in physical memory, and the map it stands for.

`translate` is what the processor does with a root table: it follows present entries through four
levels and returns the address and the flags of the last one. The tables under a root are described
by a ghost `G`: the table of level `l` under the prefix `q` of the page numbers, if there is one. The
slot `k` of level `l` lies in the table `G l (k / 512)` at index `k % 512`; above level 0 it points to
the table `G (l - 1) k`, at level 0 it holds the mapping of page `k`.

`Tables` says that memory holds such a tree and that no two tables SHARE a frame. Both edits of the
walk keep it: hanging a zeroed table into an empty slot (`Tables.link`), and storing a mapping into a
slot of level 0 (`Tables.store`).
-/
import Cerberos.Mm.PagingFrames

namespace Cerberos

open Cerberos.Base

/-! ## Address bits and flag bits -/

theorem getLsbD_pageAddr {i : ℕ} (hi : i < 64) :
    pageAddr.getLsbD i = decide (12 ≤ i ∧ i < 52) := by
  have hall : ∀ i < 64, pageAddr.getLsbD i = decide (12 ≤ i ∧ i < 52) := by decide
  exact hall i hi

/-- A page-aligned physical address consists of address bits. -/
theorem and_pageAddr_of_aligned {t : Word} (halign : t.toNat % 4096 = 0) (hlt : t.toNat < 2 ^ 52) :
    t &&& pageAddr = t := by
  apply BitVec.eq_of_getLsbD_eq
  intro i hi
  rw [BitVec.getLsbD_and, getLsbD_pageAddr hi]
  by_cases hin : 12 ≤ i ∧ i < 52
  · simp [hin]
  · suffices h : t.getLsbD i = false by simp [h]
    rcases Nat.lt_or_ge i 12 with hlow | hhigh
    · have hmod := Nat.testBit_mod_two_pow t.toNat 12 i
      rw [show (2 : ℕ) ^ 12 = 4096 from rfl, halign, Nat.zero_testBit] at hmod
      show t.toNat.testBit i = false
      simpa [hlow] using hmod.symm
    · have hbig : 52 ≤ i := by omega
      refine Nat.testBit_lt_two_pow (lt_of_lt_of_le hlt ?_)
      exact Nat.pow_le_pow_right (by omega) hbig

section Bits

variable {t f m : Word}

/-- Address bits and flags of an entry do not mix: the address of an entry. -/
theorem entry_addr (ht : t &&& pageAddr = t) (hf : f &&& pageAddr = 0) :
    (t ||| f) &&& pageAddr = t := by
  rw [BitVec.and_or_distrib_right, ht, hf]
  simp

/-- The flags of an entry that lie outside the address bits. -/
theorem entry_flags (ht : t &&& pageAddr = t) (hm : pageAddr &&& m = 0) :
    (t ||| f) &&& m = f &&& m := by
  have h0 : t &&& m = 0 := by
    rw [← ht, BitVec.and_assoc, hm]
    simp
  rw [BitVec.and_or_distrib_right, h0]
  simp

theorem and_not_pageAddr (hf : f &&& pageAddr = 0) : f &&& ~~~pageAddr = f := by
  have hsplit : f &&& (pageAddr ||| ~~~pageAddr) = f := by
    rw [BitVec.or_not_self, BitVec.and_allOnes]
  rw [BitVec.and_or_distrib_left, hf] at hsplit
  simpa using hsplit

end Bits

/-! ## Page numbers -/

/-- The number of the page of `v` among the `2 ^ 36` pages four levels can address. -/
def pageNo (v : Word) : ℕ := v.toNat / 4096 % 2 ^ 36

/-- The upper 17 bits are equal. -/
def Canonical (v : Word) : Prop := v.toNat < 2 ^ 47 ∨ 2 ^ 64 - 2 ^ 47 ≤ v.toNat

/-- Canonical addresses with one page number lie in one page. -/
theorem Canonical.page_eq {v w : Word} (hv : Canonical v) (hw : Canonical w)
    (h : pageNo v = pageNo w) : alignDown v pageSize = alignDown w pageSize := by
  apply BitVec.eq_of_toNat_eq
  rw [toNat_alignDown_page, toNat_alignDown_page]
  unfold Canonical at hv hw
  unfold pageNo at h
  omega

theorem pageNo_alignDown (v : Word) : pageNo (alignDown v pageSize) = pageNo v := by
  unfold pageNo
  rw [toNat_alignDown_page, Nat.mul_div_cancel _ (by omega)]

/-- The address of slot `k` in its table. -/
def slotAddr (table : Word) (k : ℕ) : Word := table + BitVec.ofNat 64 (8 * (k % 512))

theorem toNat_pagingVaddrIdx (v : Word) (l : ℕ) :
    (pagingVaddrIdx v l).toNat = v.toNat / 2 ^ (9 * l + 12) % 512 := by
  unfold pagingVaddrIdx
  rw [BitVec.toNat_and, BitVec.toNat_ushiftRight, Nat.shiftRight_eq_div_pow]
  exact Nat.and_two_pow_sub_one_eq_mod _ 9

/-- The entry the walk looks at on level `l`. -/
theorem pagingEntryPtr_eq (table v : Word) {l : ℕ} (hl : l ≤ 3) :
    pagingEntryPtr table v l = slotAddr table (pageNo v / 512 ^ l) := by
  unfold pagingEntryPtr slotAddr
  congr 1
  apply BitVec.eq_of_toNat_eq
  rw [BitVec.toNat_mul, toNat_pagingVaddrIdx, BitVec.toNat_ofNat, show (8 : Word).toNat = 8 from rfl]
  unfold pageNo
  have hv := v.isLt
  interval_cases l <;> simp only [Nat.reducePow, Nat.reduceMul, Nat.reduceAdd] <;> omega

/-! ## Slots -/

theorem toNat_slotAddr {t : Word} (hlt : t.toNat < 2 ^ 52) (k : ℕ) :
    (slotAddr t k).toNat = t.toNat + 8 * (k % 512) := by
  unfold slotAddr
  rw [BitVec.toNat_add, BitVec.toNat_ofNat]
  omega

/-- A store to one slot is not seen by the slots of other tables, nor by other slots of its table. -/
theorem read64_write64_slot {phys : Mem} {t t' w : Word} {k k' : ℕ} (h1 : t.toNat % 4096 = 0)
    (h2 : t.toNat < 2 ^ 52) (h1' : t'.toNat % 4096 = 0) (h2' : t'.toNat < 2 ^ 52)
    (hne : t ≠ t' ∨ k % 512 ≠ k' % 512) :
    read64 (write64 phys (slotAddr t k) w) (slotAddr t' k') = read64 phys (slotAddr t' k') := by
  have ha := toNat_slotAddr h2 k
  have ha' := toNat_slotAddr h2' k'
  apply read64_write64_of_disjoint (by omega) (by omega)
  rcases hne with hne | hne
  · have : t.toNat ≠ t'.toNat := fun h => hne (BitVec.eq_of_toNat_eq h)
    omega
  · by_cases htt : t.toNat = t'.toNat
    · omega
    · omega

/-- All bytes of the frame are zero. -/
def ZeroFrame (phys : Mem) (frame : Word) : Prop :=
  ∀ i < 4096, phys (frame + BitVec.ofNat 64 i) = 0

instance (phys : Mem) (frame : Word) : Decidable (ZeroFrame phys frame) :=
  decidable_of_iff ((List.range 4096).all fun i => phys (frame + BitVec.ofNat 64 i) == 0)
    (by simp only [List.all_eq_true, List.mem_range, beq_iff_eq, ZeroFrame])

theorem ZeroFrame.slot {phys : Mem} {t : Word} (h : ZeroFrame phys t) (k : ℕ) :
    read64 phys (slotAddr t k) = 0 := by
  apply BitVec.eq_of_getLsbD_eq
  intro i hi
  rw [read64_getLsbD _ _ hi]
  have haddr : slotAddr t k + BitVec.ofNat 64 (i / 8) =
      t + BitVec.ofNat 64 (8 * (k % 512) + i / 8) := by
    unfold slotAddr
    rw [BitVec.add_assoc, ← BitVec.ofNat_add]
  rw [haddr, h _ (by omega)]
  simp

/-! ## Translation -/

/-- The table of level 0 for `v`: present entries are followed from level `l` and `table` down. -/
def tableWalk (phys : Mem) (v : Word) : ℕ → Word → Option Word
  | 0, table => some table
  | l + 1, table =>
    let e := read64 phys (pagingEntryPtr table v (l + 1))
    if e &&& pagePresent = pagePresent then tableWalk phys v l (e &&& pageAddr) else none

theorem tableWalk_alignDown (phys : Mem) (v : Word) :
    ∀ {l : ℕ} {table : Word}, l ≤ 3 →
      tableWalk phys (alignDown v pageSize) l table = tableWalk phys v l table := by
  intro l
  induction l with
  | zero => exact fun _ => rfl
  | succ l ih =>
      intro table hl
      unfold tableWalk
      rw [pagingEntryPtr_eq _ _ hl, pagingEntryPtr_eq _ _ hl, pageNo_alignDown]
      simp only [ih (show l ≤ 3 by omega)]

/-- **The four-level walk**: the address and the flags of the page of `v`. -/
def translate (phys : Mem) (root v : Word) : Option (Word × Word) :=
  match tableWalk phys v 3 root with
  | none => none
  | some table =>
    let e := read64 phys (pagingEntryPtr table v 0)
    if e &&& pagePresent = pagePresent then some (e &&& pageAddr, e &&& ~~~pageAddr) else none

/-! ## The tree -/

/-- Tables by level and prefix. -/
abbrev Tree := ℕ → ℕ → Option Word

/-- Mapped pages, with address and flags. -/
abbrev PageMap := ℕ → Option (Word × Word)

/-- What slot `k` of level `l` holds. -/
def slotVal (G : Tree) (M : PageMap) : ℕ → ℕ → Word
  | 0, k =>
    match M k with
    | some (p, f) => p ||| f
    | none => 0
  | l + 1, k =>
    match G l k with
    | some t => t ||| pagePresent
    | none => 0

section SlotVal

variable {G : Tree} {M : PageMap} {l k : ℕ}

theorem slotVal_table {t : Word} (h : G l k = some t) : slotVal G M (l + 1) k = t ||| pagePresent := by
  simp [slotVal, h]

theorem slotVal_no_table (h : G l k = none) : slotVal G M (l + 1) k = 0 := by
  simp [slotVal, h]

theorem slotVal_page {p f : Word} (h : M k = some (p, f)) : slotVal G M 0 k = p ||| f := by
  simp [slotVal, h]

theorem slotVal_no_page (h : M k = none) : slotVal G M 0 k = 0 := by
  simp [slotVal, h]

end SlotVal

/-- A frame a table can live in. -/
structure TableAddr (t : Word) : Prop where
  align : t.toNat % 4096 = 0
  lt : t.toNat < 2 ^ 52
  pos : 0 < t.toNat

theorem TableAddr.and_pageAddr {t : Word} (h : TableAddr t) : t &&& pageAddr = t :=
  and_pageAddr_of_aligned h.align h.lt

/-- A mapping an entry can hold. -/
structure LeafOk (p f : Word) : Prop where
  addr : p &&& pageAddr = p
  flags : f &&& pageAddr = 0
  present : f &&& pagePresent = pagePresent

/-- **Physical memory holds the tree `G` under `root`**, whatever the slots of level 0 hold. -/
structure Skeleton (phys : Mem) (root : Word) (G : Tree) : Prop where
  root_eq : G 3 0 = some root
  parent : ∀ {l q t}, G l q = some t → l < 3 → ∃ t', G (l + 1) (q / 512) = some t'
  frame : ∀ {l q t}, G l q = some t → TableAddr t
  inj : ∀ {l q l' q' t}, G l q = some t → G l' q' = some t → l = l' ∧ q = q'
  slots : ∀ {l k t}, G (l + 1) (k / 512) = some t →
    read64 phys (slotAddr t k) = slotVal G (fun _ => none) (l + 1) k

/-- **Physical memory holds the tree `G` under `root`, with the mappings `M`.** -/
structure Tables (phys : Mem) (root : Word) (G : Tree) (M : PageMap) : Prop where
  root_eq : G 3 0 = some root
  parent : ∀ {l q t}, G l q = some t → l < 3 → ∃ t', G (l + 1) (q / 512) = some t'
  page_parent : ∀ {k e}, M k = some e → ∃ t, G 0 (k / 512) = some t
  frame : ∀ {l q t}, G l q = some t → TableAddr t
  inj : ∀ {l q l' q' t}, G l q = some t → G l' q' = some t → l = l' ∧ q = q'
  slots : ∀ {l k t}, G l (k / 512) = some t → read64 phys (slotAddr t k) = slotVal G M l k
  leaf : ∀ {k p f}, M k = some (p, f) → LeafOk p f

/-! ### Tables -/

namespace Skeleton

variable {phys : Mem} {root : Word} {G : Tree}

/-- A table is present exactly when its slot has the present bit. -/
theorem slot_present (h : Skeleton phys root G) {l k : ℕ} {t : Word}
    (ht : G (l + 1) (k / 512) = some t) :
    read64 phys (slotAddr t k) &&& pagePresent = pagePresent ↔ ∃ t', G l k = some t' := by
  rw [h.slots ht]
  cases hchild : G l k with
  | none =>
      rw [slotVal_no_table hchild]
      simp
  | some t' =>
      rw [slotVal_table hchild, entry_flags (h.frame hchild).and_pageAddr (by decide)]
      simp

theorem slot_addr (h : Skeleton phys root G) {l k : ℕ} {t t' : Word}
    (ht : G (l + 1) (k / 512) = some t) (hchild : G l k = some t') :
    read64 phys (slotAddr t k) &&& pageAddr = t' := by
  rw [h.slots ht, slotVal_table hchild]
  exact entry_addr (h.frame hchild).and_pageAddr (by decide)

/-- The tables above a table of level 0. -/
theorem above (h : Skeleton phys root G) {n : ℕ} {t : Word} (ht : G 0 (n / 512) = some t) :
    ∀ {l : ℕ}, l ≤ 3 → ∃ t', G l (n / 512 ^ (l + 1)) = some t' := by
  intro l
  induction l with
  | zero => exact fun _ => ⟨t, by simpa using ht⟩
  | succ l ih =>
      intro hl
      obtain ⟨t', ht'⟩ := ih (by omega)
      obtain ⟨t'', ht''⟩ := h.parent ht' (by omega)
      rw [Nat.div_div_eq_div_mul, ← Nat.pow_succ] at ht''
      exact ⟨t'', ht''⟩

/-- **The walk finds the table of level 0** if the tree has it. -/
theorem tableWalk_eq (h : Skeleton phys root G) (v : Word) :
    ∀ {l : ℕ} {table : Word}, l ≤ 3 → G l (pageNo v / 512 ^ (l + 1)) = some table →
      tableWalk phys v l table = G 0 (pageNo v / 512) := by
  intro l
  induction l with
  | zero =>
      intro table _ ht
      rw [zero_add, pow_one] at ht
      rw [ht]
      rfl
  | succ l ih =>
      intro table hl ht
      have hdiv : pageNo v / 512 ^ (l + 1 + 1) = pageNo v / 512 ^ (l + 1) / 512 := by
        rw [Nat.div_div_eq_div_mul, ← Nat.pow_succ]
      rw [hdiv] at ht
      unfold tableWalk
      dsimp only
      rw [pagingEntryPtr_eq _ _ hl]
      split
      · rename_i hp
        obtain ⟨t', ht'⟩ := (h.slot_present ht).mp hp
        rw [h.slot_addr ht ht']
        exact ih (by omega) ht'
      · rename_i hp
        cases hleaf : G 0 (pageNo v / 512) with
        | none => rfl
        | some t₀ => exact absurd ((h.slot_present ht).mpr (h.above hleaf (by omega))) hp

/-- A store to one slot leaves all other slots of the tree alone. -/
theorem read_other (h : Skeleton phys root G) {l k l' k' : ℕ} {t t' : Word}
    (ht : G l (k / 512) = some t) (ht' : G l' (k' / 512) = some t') (hne : l ≠ l' ∨ k ≠ k')
    (w : Word) :
    read64 (write64 phys (slotAddr t k) w) (slotAddr t' k') = read64 phys (slotAddr t' k') := by
  have hf := h.frame ht
  have hf' := h.frame ht'
  apply read64_write64_slot hf.align hf.lt hf'.align hf'.lt
  by_cases heq : t = t'
  · subst heq
    obtain ⟨hl, hq⟩ := h.inj ht ht'
    exact Or.inr (by omega)
  · exact Or.inl heq

/-- The tables of the tree with `t'` hung into slot `k` of level `l + 1`. -/
theorem hang_cases {t' : Word} {l k : ℕ} {l₂ q₂ : ℕ} {t₂ : Word}
    (h : (if l₂ = l ∧ q₂ = k then some t' else G l₂ q₂) = some t₂) :
    (l₂ = l ∧ q₂ = k ∧ t₂ = t') ∨ (¬ (l₂ = l ∧ q₂ = k) ∧ G l₂ q₂ = some t₂) := by
  split at h
  · rename_i hlk
    exact Or.inl ⟨hlk.1, hlk.2, (Option.some.inj h).symm⟩
  · rename_i hlk
    exact Or.inr ⟨hlk, h⟩

theorem hang_old {t' : Word} {l k : ℕ} (hnone : G l k = none) {l₂ q₂ : ℕ} {t₂ : Word}
    (h : G l₂ q₂ = some t₂) : (if l₂ = l ∧ q₂ = k then some t' else G l₂ q₂) = some t₂ := by
  rw [if_neg, h]
  rintro ⟨rfl, rfl⟩
  rw [hnone] at h
  cases h

/-- The slots of a fresh zeroed table stay empty when it is hung into the tree. -/
theorem read_fresh (h : Skeleton phys root G) {l k : ℕ} {t t' : Word} (ht : G l (k / 512) = some t)
    (haddr : TableAddr t') (hfresh : ∀ {l q}, G l q ≠ some t') (hzero : ZeroFrame phys t')
    (w : Word) (k₂ : ℕ) : read64 (write64 phys (slotAddr t k) w) (slotAddr t' k₂) = 0 := by
  have hf := h.frame ht
  rw [read64_write64_slot hf.align hf.lt haddr.align haddr.lt
    (Or.inl fun he => hfresh (he ▸ ht)), hzero.slot]

/-- **Hang a zeroed table into an empty slot.** -/
theorem link (h : Skeleton phys root G) {l k : ℕ} {t t' : Word} (hl : l < 3)
    (ht : G (l + 1) (k / 512) = some t) (hnone : G l k = none) (haddr : TableAddr t')
    (hfresh : ∀ {l q}, G l q ≠ some t') (hzero : ZeroFrame phys t') :
    Skeleton (write64 phys (slotAddr t k) (t' ||| pagePresent)) root
      (fun l₂ q₂ => if l₂ = l ∧ q₂ = k then some t' else G l₂ q₂) := by
  constructor
  case root_eq => exact hang_old hnone h.root_eq
  case parent =>
    intro l₂ q₂ t₂ h₂ hl₂
    rcases hang_cases h₂ with ⟨rfl, rfl, -⟩ | ⟨-, h₂⟩
    · exact ⟨t, hang_old hnone ht⟩
    · obtain ⟨t₃, h₃⟩ := h.parent h₂ hl₂
      exact ⟨t₃, hang_old hnone h₃⟩
  case frame =>
    intro l₂ q₂ t₂ h₂
    rcases hang_cases h₂ with ⟨-, -, rfl⟩ | ⟨-, h₂⟩
    · exact haddr
    · exact h.frame h₂
  case inj =>
    intro l₂ q₂ l₃ q₃ t₂ h₂ h₃
    rcases hang_cases h₂ with ⟨hl₂, hq₂, ht₂⟩ | ⟨-, hG₂⟩ <;>
      rcases hang_cases h₃ with ⟨hl₃, hq₃, ht₃⟩ | ⟨-, hG₃⟩
    · exact ⟨hl₂.trans hl₃.symm, hq₂.trans hq₃.symm⟩
    · exact absurd (ht₂ ▸ hG₃) hfresh
    · exact absurd (ht₃ ▸ hG₂) hfresh
    · exact h.inj hG₂ hG₃
  case slots =>
    intro l₂ k₂ t₂ h₂
    rcases hang_cases h₂ with ⟨hl₂, hk₂, rfl⟩ | ⟨-, hG⟩
    · -- the slots of the new table are empty, and nothing hung below it
      rw [h.read_fresh ht haddr hfresh hzero]
      symm
      refine slotVal_no_table ?_
      rw [if_neg (by omega)]
      cases hchild : G l₂ k₂ with
      | none => rfl
      | some t₃ =>
          obtain ⟨t₄, h₄⟩ := h.parent hchild (by omega)
          rw [hl₂, hk₂, hnone] at h₄
          cases h₄
    · by_cases hslot : l₂ = l ∧ k₂ = k
      · obtain ⟨rfl, rfl⟩ := hslot
        have htt : t₂ = t := Option.some.inj (hG.symm.trans ht)
        rw [htt, read64_write64_self, slotVal_table (if_pos ⟨rfl, rfl⟩)]
      · rw [h.read_other ht hG (by omega), h.slots hG]
        have hchild : (if l₂ = l ∧ k₂ = k then some t' else G l₂ k₂) = G l₂ k₂ := if_neg hslot
        simp only [slotVal, hchild]

/-- A store into a slot of level 0 leaves the tree alone. -/
theorem setLeaf (h : Skeleton phys root G) {k : ℕ} {t : Word} (ht : G 0 (k / 512) = some t)
    (w : Word) : Skeleton (write64 phys (slotAddr t k) w) root G := by
  refine ⟨h.root_eq, h.parent, h.frame, h.inj, ?_⟩
  intro l₂ k₂ t₂ h₂
  rw [h.read_other ht h₂ (by omega), h.slots h₂]

theorem root_slot (h : Skeleton phys root G) (v : Word) :
    G 3 (pageNo v / 512 ^ (3 + 1)) = some root := by
  rw [← h.root_eq]
  congr 1
  unfold pageNo
  omega

/-- The page table of `v`, found from the root. -/
theorem tableWalk_root (h : Skeleton phys root G) (v : Word) :
    tableWalk phys v 3 root = G 0 (pageNo v / 512) :=
  h.tableWalk_eq v (le_refl 3) (h.root_slot v)

theorem slotAddr_ne (h : Skeleton phys root G) {l q : ℕ} {t : Word} (ht : G l q = some t) (k : ℕ) :
    slotAddr t k ≠ null := by
  have hf := h.frame ht
  have hpos := hf.pos
  intro h0
  have haddr := toNat_slotAddr hf.lt k
  rw [h0] at haddr
  exact absurd haddr (by show ¬ (0 : ℕ) = _; omega)

end Skeleton

/-! ### Pages -/

namespace Tables

variable {phys : Mem} {root : Word} {G : Tree} {M : PageMap}

theorem skeleton (h : Tables phys root G M) : Skeleton phys root G :=
  ⟨h.root_eq, h.parent, h.frame, h.inj, fun ht => h.slots ht⟩

theorem page_present (h : Tables phys root G M) {k : ℕ} {t : Word} (ht : G 0 (k / 512) = some t) :
    read64 phys (slotAddr t k) &&& pagePresent = pagePresent ↔ ∃ e, M k = some e := by
  rw [h.slots ht]
  cases hpage : M k with
  | none =>
      rw [slotVal_no_page hpage]
      simp
  | some e =>
      obtain ⟨p, f⟩ := e
      have hleaf := h.leaf hpage
      rw [slotVal_page hpage, entry_flags hleaf.addr (by decide), hleaf.present]
      simp

/-- **The tree translates as its map says.** -/
theorem translate_eq (h : Tables phys root G M) (v : Word) :
    translate phys root v = M (pageNo v) := by
  unfold translate
  rw [h.skeleton.tableWalk_root v]
  cases hleaf : G 0 (pageNo v / 512) with
  | none =>
      cases hpage : M (pageNo v) with
      | none => rfl
      | some e =>
          obtain ⟨t, ht⟩ := h.page_parent hpage
          rw [hleaf] at ht
          cases ht
  | some t =>
      dsimp only
      rw [pagingEntryPtr_eq _ _ (Nat.zero_le 3), pow_zero, Nat.div_one]
      split
      · rename_i hp
        obtain ⟨⟨p, f⟩, hpage⟩ := (h.page_present hleaf).mp hp
        have hok := h.leaf hpage
        rw [h.slots hleaf, slotVal_page hpage, hpage, entry_addr hok.addr hok.flags,
          entry_flags hok.addr (by decide), and_not_pageAddr hok.flags]
      · rename_i hp
        cases hpage : M (pageNo v) with
        | none => rfl
        | some e => exact absurd ((h.page_present hleaf).mpr ⟨e, hpage⟩) hp

/-- **Hang a zeroed table into an empty slot.** -/
theorem link (h : Tables phys root G M) {l k : ℕ} {t t' : Word} (hl : l < 3)
    (ht : G (l + 1) (k / 512) = some t) (hnone : G l k = none) (haddr : TableAddr t')
    (hfresh : ∀ {l q}, G l q ≠ some t') (hzero : ZeroFrame phys t') :
    Tables (write64 phys (slotAddr t k) (t' ||| pagePresent)) root
      (fun l₂ q₂ => if l₂ = l ∧ q₂ = k then some t' else G l₂ q₂) M := by
  have hs := h.skeleton.link hl ht hnone haddr hfresh hzero
  refine ⟨hs.root_eq, hs.parent, ?_, hs.frame, hs.inj, ?_, h.leaf⟩
  · intro k₂ e h₂
    obtain ⟨t₃, h₃⟩ := h.page_parent h₂
    exact ⟨t₃, Skeleton.hang_old hnone h₃⟩
  · intro l₂ k₂ t₂ h₂
    cases l₂ with
    | succ l₂ => exact hs.slots h₂
    | zero =>
        rcases Skeleton.hang_cases h₂ with ⟨rfl, hk₂, rfl⟩ | ⟨-, hG⟩
        · -- no page hung below the new table
          rw [h.skeleton.read_fresh ht haddr hfresh hzero]
          symm
          cases hpage : M k₂ with
          | none => exact slotVal_no_page hpage
          | some e =>
              obtain ⟨t₃, h₃⟩ := h.page_parent hpage
              rw [hk₂, hnone] at h₃
              cases h₃
        · rw [h.skeleton.read_other ht hG (by omega), h.slots hG]
          rfl

/-- **Store into a slot of level 0.** -/
theorem store (h : Tables phys root G M) {k : ℕ} {t : Word} (ht : G 0 (k / 512) = some t)
    {e : Option (Word × Word)} {w : Word} (he : ∀ {p f}, e = some (p, f) → LeafOk p f)
    (hw : w = slotVal G (Function.update M k e) 0 k) :
    Tables (write64 phys (slotAddr t k) w) root G (Function.update M k e) := by
  have hupd : ∀ {k₂ e₂}, Function.update M k e k₂ = some e₂ →
      (k₂ = k ∧ e = some e₂) ∨ (k₂ ≠ k ∧ M k₂ = some e₂) := by
    intro k₂ e₂ h₂
    by_cases hk : k₂ = k
    · subst hk
      rw [Function.update_self] at h₂
      exact Or.inl ⟨rfl, h₂⟩
    · rw [Function.update_of_ne hk] at h₂
      exact Or.inr ⟨hk, h₂⟩
  refine ⟨h.root_eq, h.parent, ?_, h.frame, h.inj, ?_, ?_⟩
  · intro k₂ e₂ h₂
    rcases hupd h₂ with ⟨rfl, -⟩ | ⟨-, h₂⟩
    · exact ⟨t, ht⟩
    · exact h.page_parent h₂
  · intro l₂ k₂ t₂ h₂
    by_cases hslot : l₂ = 0 ∧ k₂ = k
    · obtain ⟨rfl, rfl⟩ := hslot
      rw [ht] at h₂
      cases h₂
      rw [read64_write64_self, hw]
    · rw [h.skeleton.read_other ht h₂ (by omega), h.slots h₂]
      cases l₂ with
      | zero =>
          have hpage : Function.update M k e k₂ = M k₂ :=
            Function.update_of_ne (fun hk => hslot ⟨rfl, hk⟩) _ _
          simp only [slotVal, hpage]
      | succ l₂ => rfl
  · intro k₂ p f h₂
    rcases hupd h₂ with ⟨-, h₂⟩ | ⟨-, h₂⟩
    · exact he h₂
    · exact h.leaf h₂

end Tables

end Cerberos
