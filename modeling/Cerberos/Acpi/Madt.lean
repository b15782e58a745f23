/-
# Cerberos.Acpi.Madt — the walk over the MADT (`acpi/madt.c`).

`parse_madt` goes over the table twice: it counts the entries of each type, allocates an array for each
type that occurs, and fills the arrays with pointers to the entries. The cursor of both walks is a
`uint8_t` that each entry's own length byte advances, while the end of the table is a 32-bit number: a
table with 256 or more bytes of entries is never left.

The pointer arrays are lists; a slot that was not stored yet is `none`.
-/
import Cerberos.Base.Tiling
import Cerberos.Lib.Sys

namespace Cerberos

open Cerberos.Base

/-! ## The table -/

/-- The entry types `parse_madt` collects. -/
inductive MadtKind where
  | lapic | ioapic | intrSrcOverride | apicNmiSrc | lapicNmi | lx2apic
  deriving DecidableEq, Repr

/-- `MADT_LAPIC`, `MADT_IOAPIC`, `MADT_INTR_SRC_OVERRIDE`, `MADT_APIC_NMI_SRC`, `MADT_LAPIC_NMI` and
`MADT_LX2APIC`. -/
def MadtKind.code : MadtKind → Byte
  | .lapic => 0
  | .ioapic => 1
  | .intrSrcOverride => 2
  | .apicNmiSrc => 3
  | .lapicNmi => 4
  | .lx2apic => 9

/-- `MADT_LAPIC_ADDR_OVERRIDE`. -/
abbrev madtLapicAddrOverride : Byte := 5

/-- `MADT_OFFSET`, where `data` starts. -/
abbrev madtOffset : Word := 0x2c

/-- The `case` of an entry type. -/
def MadtKind.ofType (entryType : Byte) : Option MadtKind :=
  [lapic, ioapic, intrSrcOverride, apicNmiSrc, lapicNmi, lx2apic].find? fun k => k.code = entryType

section Table

variable (mem : Mem) (madt : Word)

/-- `madt->sdt_hdr.length`. -/
def madtLength : BitVec 32 := read32 mem (madt + 4)

/-- `madt->lapic_addr`. -/
def madtLapicAddr : BitVec 32 := read32 mem (madt + 36)

/-- `&madt->data[i]`. -/
def madtData (i : ℕ) : Word := madt + madtOffset + BitVec.ofNat 64 i

/-- `entry_hdr->entry_type`. -/
def entryType (entry : Word) : Byte := mem entry

/-- `entry_hdr->length`. -/
def entryLength (entry : Word) : Byte := mem (entry + 1)

/-- `madt_lapic_addr_override_t.lapic_paddr`. -/
def overridePaddr (entry : Word) : Word := read64 mem (entry + 4)

end Table

/-- `madt_info_t`. -/
structure MadtInfo where
  num : MadtKind → ℕ
  list : MadtKind → List (Option Word)
  lapicAddrOverride : Word
  lapicPaddr : Word

/-- `reset_madt_info()`. -/
def resetMadtInfo : MadtInfo where
  num := fun _ => 0
  list := fun _ => []
  lapicAddrOverride := null
  lapicPaddr := 0

/-- The log line of an entry. -/
def MadtKind.msg (mem : Mem) (entry : Word) : MadtKind → LogMsg
  | .lapic => plainMsg "[parse_madt] MADT_LAPIC:\nacpi_processor_id: %u, apic_id: %u\n"
      [(mem (entry + 2)).setWidth 64, (mem (entry + 3)).setWidth 64]
  | .ioapic => plainMsg "[parse_madt] MADT_IOAPIC:\nio_apic_id: %u, io_apic_addr: 0x%x, gsi_base: %u\n"
      [(mem (entry + 2)).setWidth 64, (read32 mem (entry + 4)).setWidth 64,
        (read32 mem (entry + 8)).setWidth 64]
  | .intrSrcOverride => plainMsg
      "[parse_madt] MADT_INTR_SRC_OVERRIDE:\nbus_src: %u, irq_src: %u, gsi: %u, flags: 0x%x\n"
      [(mem (entry + 2)).setWidth 64, (mem (entry + 3)).setWidth 64,
        (read32 mem (entry + 4)).setWidth 64, (read16 mem (entry + 8)).setWidth 64]
  | .apicNmiSrc => plainMsg "[parse_madt] MADT_APIC_NMI_SRC:\nnmi_src: %u, flags: %u, gsi: %u\n"
      [(mem (entry + 2)).setWidth 64, (read16 mem (entry + 4)).setWidth 64,
        (read32 mem (entry + 6)).setWidth 64]
  | .lapicNmi => plainMsg
      "[parse_madt] MADT_LAPIC_NMI:\nacpi_processor_id: 0x%x, flags: %u, lint: %u\n"
      [(mem (entry + 2)).setWidth 64, (read16 mem (entry + 3)).setWidth 64,
        (mem (entry + 5)).setWidth 64]
  | .lx2apic => plainMsg "[parse_madt] MADT_LX2APIC:\nlx2apic_id: %u, flags: %u, acpi_id: %u\n"
      [(read32 mem (entry + 4)).setWidth 64, (read32 mem (entry + 8)).setWidth 64,
        (read32 mem (entry + 12)).setWidth 64]

def madtSeparator : LogMsg := plainMsg "---------------------------\n"

def madtUnknown (entryType : Byte) : LogMsg :=
  warningMsg "[parse_madt] unknown entry type was detected: %u\n" [entryType.setWidth 64]

/-! ## The two walks -/

/-- The `switch` of the first walk. -/
def madtCountEntry (mem : Mem) (entry : Word) (info : MadtInfo) (log : List LogMsg) :
    Res (MadtInfo × List LogMsg) :=
  match MadtKind.ofType (entryType mem entry) with
  | some k => .ok ({ info with num := Function.update info.num k (info.num k + 1) },
      log ++ [k.msg mem entry])
  | none =>
    if entryType mem entry = madtLapicAddrOverride then
      if info.lapicAddrOverride ≠ null then
        .error (.panic "MADT contains more than one lapic address override entry.\n" [])
      else .ok ({ info with lapicAddrOverride := entry },
        log ++ [plainMsg "[parse_madt] MADT_LAPIC_ADDR_OVERRIDE:\nlapic_paddr: 0x%lx\n"
          [overridePaddr mem entry]])
    else .ok (info, log ++ [madtUnknown (entryType mem entry)])

/-- The first walk, with at most `fuel` tests of its condition. -/
def madtCount (mem : Mem) (madt : Word) :
    ℕ → Byte → MadtInfo → List LogMsg → Res (MadtInfo × List LogMsg)
  | 0, _, _, _ => .error .hang
  | fuel + 1, i, info, log =>
    if i.toNat < (madtLength mem madt - madtOffset.setWidth 32).toNat then do
      let entry := madtData madt i.toNat
      let (info, log) ← madtCountEntry mem entry info log
      -- `i` is a `uint8_t`: the addition wraps
      madtCount mem madt fuel (i + entryLength mem entry) info (log ++ [madtSeparator])
    else .ok (info, log)

/-- The arrays of the types that occur. -/
def madtAlloc (info : MadtInfo) : MadtInfo :=
  { info with list := fun k => List.replicate (info.num k) none }

/-- The `switch` of the second walk; `counters` is `entry_counters`. -/
def madtFillEntry (mem : Mem) (entry : Word) (info : MadtInfo) (counters : MadtKind → ℕ)
    (log : List LogMsg) : Res (MadtInfo × (MadtKind → ℕ) × List LogMsg) :=
  match MadtKind.ofType (entryType mem entry) with
  | some k =>
    if counters k < (info.list k).length then
      .ok ({ info with
          list := Function.update info.list k ((info.list k).set (counters k) (some entry)) },
        Function.update counters k (counters k + 1), log)
    else .error .fault
  | none =>
    if entryType mem entry = madtLapicAddrOverride then
      if info.lapicAddrOverride = null then .error .fault
      else .ok ({ info with lapicPaddr := overridePaddr mem info.lapicAddrOverride }, counters, log)
    else .ok (info, counters, log ++ [madtUnknown (entryType mem entry)])

/-- The second walk. -/
def madtFill (mem : Mem) (madt : Word) :
    ℕ → Byte → MadtInfo → (MadtKind → ℕ) → List LogMsg → Res (MadtInfo × List LogMsg)
  | 0, _, _, _, _ => .error .hang
  | fuel + 1, i, info, counters, log =>
    if i.toNat < (madtLength mem madt - madtOffset.setWidth 32).toNat then do
      let entry := madtData madt i.toNat
      let (info, counters, log) ← madtFillEntry mem entry info counters log
      madtFill mem madt fuel (i + entryLength mem entry) info counters log
    else .ok (info, log)

/-- `parse_madt(madt_hdr)`, with at most `fuel` tests of each loop condition. -/
def parseMadt (fuel : ℕ) (mem : Mem) (madt : Word) : Res (MadtInfo × List LogMsg) := do
  let log := [infoMsg "[parse_madt] MADT information:\n", madtSeparator,
    plainMsg "[parse_madt] lapic address: 0x%lx\n" [(madtLapicAddr mem madt).setWidth 64],
    plainMsg "[parse_madt] madt length: %u\n" [(madtLength mem madt).setWidth 64]]
  let info := { resetMadtInfo with lapicPaddr := (madtLapicAddr mem madt).setWidth 64 }
  let (info, log) ← madtCount mem madt fuel 0 info (log ++ [madtSeparator])
  madtFill mem madt fuel 0 (madtAlloc info) (fun _ => 0) log

/-! ## Well-formed tables -/

/-- The offsets of the entries of type `entryType` among `offs`. -/
def entriesOf (mem : Mem) (madt : Word) (ty : Byte) (offs : List ℕ) : List ℕ :=
  offs.filter fun o => entryType mem (madtData madt o) = ty

/-- The data area is the concatenation of entries at `offs`, with at most one address override. -/
structure MadtOk (mem : Mem) (madt : Word) (offs : List ℕ) : Prop where
  length : 0x2c ≤ (madtLength mem madt).toNat
  fits : madt.toNat + (madtLength mem madt).toNat ≤ 2 ^ 64
  entries : Tiles id (fun o => (entryLength mem (madtData madt o)).toNat) 0 offs
    ((madtLength mem madt).toNat - 0x2c)
  sizes : ∀ o ∈ offs, 2 ≤ (entryLength mem (madtData madt o)).toNat
  one : (entriesOf mem madt madtLapicAddrOverride offs).length ≤ 1

/-- Every entry is recorded once, in table order. -/
structure Recorded (mem : Mem) (madt : Word) (offs : List ℕ) (info : MadtInfo) : Prop where
  num : ∀ k, info.num k = (entriesOf mem madt k.code offs).length
  list : ∀ k, info.list k = (entriesOf mem madt k.code offs).map fun o => some (madtData madt o)
  paddr : info.lapicPaddr = match entriesOf mem madt madtLapicAddrOverride offs with
    | [] => (madtLapicAddr mem madt).setWidth 64
    | o :: _ => overridePaddr mem (madtData madt o)

theorem MadtKind.ofType_code (k : MadtKind) : MadtKind.ofType k.code = some k := by
  cases k <;> rfl

theorem MadtKind.code_of_ofType {t : Byte} {k : MadtKind} (h : MadtKind.ofType t = some k) :
    k.code = t := by
  simpa using List.find?_some h

theorem MadtKind.code_ne_override (k : MadtKind) : k.code ≠ madtLapicAddrOverride := by
  cases k <;> decide

section Walks

variable {mem : Mem} {madt : Word}

theorem MadtKind.code_inj {k k' : MadtKind} (h : k.code = k'.code) : k = k' := by
  have h1 := k.ofType_code
  rw [h, k'.ofType_code] at h1
  exact (Option.some.inj h1).symm

theorem entriesOf_cons (ty : Byte) (o : ℕ) (offs : List ℕ) :
    entriesOf mem madt ty (o :: offs) = if entryType mem (madtData madt o) = ty then
      o :: entriesOf mem madt ty offs else entriesOf mem madt ty offs := by
  unfold entriesOf
  rw [List.filter_cons]
  simp

theorem length_entriesOf_cons (ty : Byte) (o : ℕ) (offs : List ℕ) :
    (entriesOf mem madt ty (o :: offs)).length = (entriesOf mem madt ty offs).length +
      if entryType mem (madtData madt o) = ty then 1 else 0 := by
  rw [entriesOf_cons]
  split
  · rw [List.length_cons]
  · rfl

/-- The condition of both loops, for a table that is long enough. -/
theorem toNat_madtEnd (h : 0x2c ≤ (madtLength mem madt).toNat) :
    (madtLength mem madt - madtOffset.setWidth 32).toNat = (madtLength mem madt).toNat - 0x2c :=
  BitVec.toNat_sub_of_le h

/-- **A long table is never left**: the cursor is always below its end. -/
theorem madtCount_long (h : 256 ≤ (madtLength mem madt - madtOffset.setWidth 32).toNat) :
    ∀ (fuel : ℕ) (i : Byte) (info : MadtInfo) (log : List LogMsg) r,
      madtCount mem madt fuel i info log ≠ .ok r := by
  intro fuel
  induction fuel with
  | zero =>
      intro i info log r hok
      cases hok
  | succ fuel ih =>
      intro i info log r hok
      unfold madtCount at hok
      have hi : i.toNat < (madtLength mem madt - madtOffset.setWidth 32).toNat := by
        have := i.isLt
        omega
      rw [if_pos hi] at hok
      obtain ⟨⟨info', log'⟩, -, hok⟩ := Res.bind_eq_ok.mp hok
      exact ih _ _ _ r hok

/-- The override of a list of entries, `ptr` if there is none. -/
def overrideOr (mem : Mem) (madt ptr : Word) (offs : List ℕ) : Word :=
  match entriesOf mem madt madtLapicAddrOverride offs with
  | [] => ptr
  | o :: _ => madtData madt o

/-- What one entry does to the counts. -/
theorem madtCountEntry_spec {entry : Word} {info : MadtInfo} (log : List LogMsg)
    (hone : entryType mem entry = madtLapicAddrOverride → info.lapicAddrOverride = null) :
    ∃ info' log', madtCountEntry mem entry info log = .ok (info', log') ∧
      (∀ k, info'.num k = info.num k + if entryType mem entry = k.code then 1 else 0) ∧
      (info'.lapicAddrOverride = if entryType mem entry = madtLapicAddrOverride then entry
        else info.lapicAddrOverride) ∧ info'.lapicPaddr = info.lapicPaddr := by
  unfold madtCountEntry
  cases hk : MadtKind.ofType (entryType mem entry) with
  | some k =>
      have hcode := MadtKind.code_of_ofType hk
      refine ⟨_, _, rfl, ?_, ?_, rfl⟩
      · intro k'
        dsimp only
        by_cases hkk : k' = k
        · rw [hkk, Function.update_self, if_pos hcode.symm]
        · rw [Function.update_of_ne hkk, if_neg, Nat.add_zero]
          exact fun heq => hkk (MadtKind.code_inj (heq.symm.trans hcode.symm))
      · rw [if_neg (hcode ▸ k.code_ne_override)]
  | none =>
      have hno : ∀ k : MadtKind, entryType mem entry ≠ k.code := by
        intro k heq
        rw [heq, k.ofType_code] at hk
        cases hk
      by_cases hty : entryType mem entry = madtLapicAddrOverride
      · dsimp only
        rw [if_pos hty, if_neg (not_not.mpr (hone hty)), if_pos hty]
        exact ⟨_, _, rfl, fun k => by rw [if_neg (hno k)]; rfl, rfl, rfl⟩
      · dsimp only
        rw [if_neg hty, if_neg hty]
        exact ⟨_, _, rfl, fun k => by rw [if_neg (hno k)]; rfl, rfl, rfl⟩

/-- The cursor on an entry of a short table: the entry is inside, and the next one starts where it ends
without a wrap. -/
theorem cursor_step {o a : ℕ} {offs : List ℕ} {i : Byte} {e : ℕ} (hend : e ≤ 255)
    (htiles : Tiles id (fun o => (entryLength mem (madtData madt o)).toNat) a (o :: offs) e)
    (hsize : 2 ≤ (entryLength mem (madtData madt o)).toNat) (hi : i.toNat = a) :
    i.toNat = o ∧ i.toNat < e ∧
      Tiles id (fun o => (entryLength mem (madtData madt o)).toNat)
        (i + entryLength mem (madtData madt i.toNat)).toNat offs e := by
  obtain ⟨hoa, htail⟩ := htiles
  have hio : i.toNat = o := hi.trans (Eq.symm hoa)
  have hbound := htail.le
  dsimp only at hbound
  have hnext : (i + entryLength mem (madtData madt o)).toNat =
      a + (entryLength mem (madtData madt o)).toNat := by
    rw [BitVec.toNat_add, hi]
    omega
  refine ⟨hio, by omega, ?_⟩
  rw [hio, hnext]
  exact htail

/-- **The first walk counts the entries.** By induction over the entries that are left. -/
theorem madtCount_spec (hend : (madtLength mem madt - madtOffset.setWidth 32).toNat ≤ 255) :
    ∀ {offs : List ℕ} {a fuel : ℕ} {i : Byte} (info : MadtInfo) (log : List LogMsg),
      Tiles id (fun o => (entryLength mem (madtData madt o)).toNat) a offs
        (madtLength mem madt - madtOffset.setWidth 32).toNat →
      (∀ o ∈ offs, 2 ≤ (entryLength mem (madtData madt o)).toNat) → i.toNat = a →
      offs.length < fuel → (entriesOf mem madt madtLapicAddrOverride offs).length ≤ 1 →
      (info.lapicAddrOverride ≠ null → entriesOf mem madt madtLapicAddrOverride offs = []) →
      ∃ info' log', madtCount mem madt fuel i info log = .ok (info', log') ∧
        (∀ k, info'.num k = info.num k + (entriesOf mem madt k.code offs).length) ∧
        info'.lapicAddrOverride = overrideOr mem madt info.lapicAddrOverride offs ∧
        info'.lapicPaddr = info.lapicPaddr := by
  intro offs
  induction offs with
  | nil =>
      intro a fuel i info log htiles _ hi hfuel _ _
      obtain ⟨fuel, rfl⟩ := Nat.exists_eq_add_one_of_ne_zero (Nat.ne_of_gt hfuel)
      have hae : a = (madtLength mem madt - madtOffset.setWidth 32).toNat := htiles
      unfold madtCount
      rw [if_neg (by omega)]
      exact ⟨info, log, rfl, fun _ => rfl, rfl, rfl⟩
  | cons o offs ih =>
      intro a fuel i info log htiles hsizes hi hfuel hone hnone
      obtain ⟨fuel, rfl⟩ := Nat.exists_eq_add_one_of_ne_zero (show fuel ≠ 0 by omega)
      rw [List.forall_mem_cons] at hsizes
      rw [List.length_cons] at hfuel
      obtain ⟨hio, hlt, htail⟩ := cursor_step hend htiles hsizes.1 hi
      have hover : entryType mem (madtData madt o) = madtLapicAddrOverride →
          info.lapicAddrOverride = null := by
        intro hty
        by_contra hne
        have := hnone hne
        rw [entriesOf_cons, if_pos hty] at this
        cases this
      obtain ⟨info₁, log₁, hentry, hnum, hptr, hpaddr⟩ := madtCountEntry_spec log hover
      rw [length_entriesOf_cons] at hone
      rw [entriesOf_cons] at hnone
      -- an override is the only one
      have hnil : entryType mem (madtData madt o) = madtLapicAddrOverride →
          entriesOf mem madt madtLapicAddrOverride offs = [] := by
        intro hty
        rw [if_pos hty] at hone
        exact List.length_eq_zero_iff.mp (by omega)
      have hrest : info₁.lapicAddrOverride ≠ null →
          entriesOf mem madt madtLapicAddrOverride offs = [] := by
        rw [hptr]
        by_cases hty : entryType mem (madtData madt o) = madtLapicAddrOverride
        · exact fun _ => hnil hty
        · rw [if_neg hty]
          rw [if_neg hty] at hnone
          exact hnone
      have hone' := Nat.le_trans (Nat.le_add_right _ _) hone
      obtain ⟨info₂, log₂, hok, hnum₂, hptr₂, hpaddr₂⟩ := ih info₁
        (log₁ ++ [madtSeparator]) htail hsizes.2 rfl (Nat.lt_of_succ_lt_succ hfuel) hone' hrest
      refine ⟨info₂, log₂, ?_, ?_, ?_, hpaddr₂.trans hpaddr⟩
      · unfold madtCount
        rw [if_pos hlt]
        rw [hio] at hok ⊢
        exact Res.bind_eq_ok.mpr ⟨_, hentry, hok⟩
      · intro k
        rw [hnum₂, hnum, length_entriesOf_cons]
        omega
      · rw [hptr₂, hptr]
        unfold overrideOr
        rw [entriesOf_cons]
        by_cases hty : entryType mem (madtData madt o) = madtLapicAddrOverride
        · rw [if_pos hty, if_pos hty, hnil hty]
        · rw [if_neg hty, if_neg hty]

/-- What one entry does to the arrays: `done` is what each array holds already, and `rest` slots of it
are for the entries after this one. -/
theorem madtFillEntry_spec {entry : Word} {info : MadtInfo} {counters : MadtKind → ℕ}
    (log : List LogMsg) {done : MadtKind → List (Option Word)} {rest : MadtKind → ℕ}
    (hlist : ∀ k, info.list k = done k ++
      List.replicate (rest k + if entryType mem entry = k.code then 1 else 0) none)
    (hcounters : ∀ k, counters k = (done k).length)
    (hptr : entryType mem entry = madtLapicAddrOverride → info.lapicAddrOverride ≠ null) :
    ∃ info' counters' log', madtFillEntry mem entry info counters log = .ok (info', counters', log') ∧
      (∀ k, info'.list k = (done k ++ if entryType mem entry = k.code then [some entry] else []) ++
        List.replicate (rest k) none) ∧
      (∀ k, counters' k =
        (done k ++ if entryType mem entry = k.code then [some entry] else []).length) ∧
      info'.num = info.num ∧ info'.lapicAddrOverride = info.lapicAddrOverride ∧
      info'.lapicPaddr = if entryType mem entry = madtLapicAddrOverride then
        overridePaddr mem info.lapicAddrOverride else info.lapicPaddr := by
  unfold madtFillEntry
  cases hk : MadtKind.ofType (entryType mem entry) with
  | some k =>
      have hcode := MadtKind.code_of_ofType hk
      have hslots := hlist k
      rw [if_pos hcode.symm, List.replicate_succ] at hslots
      have hlt : counters k < (info.list k).length := by
        rw [hslots, hcounters, List.length_append, List.length_cons]
        omega
      dsimp only
      rw [if_pos hlt]
      refine ⟨_, _, _, rfl, ?_, ?_, rfl, rfl, ?_⟩
      · intro k'
        dsimp only
        by_cases hkk : k' = k
        · subst hkk
          rw [Function.update_self, if_pos hcode.symm, hslots, hcounters,
            List.set_append_right _ _ (Nat.le_refl _), Nat.sub_self, List.set_cons_zero,
            List.append_assoc]
          rfl
        · have hne : entryType mem entry ≠ k'.code := fun heq =>
            hkk (MadtKind.code_inj (heq.symm.trans hcode.symm))
          rw [Function.update_of_ne hkk, hlist, if_neg hne, if_neg hne, List.append_nil, Nat.add_zero]
      · intro k'
        by_cases hkk : k' = k
        · subst hkk
          rw [Function.update_self, if_pos hcode.symm, hcounters, List.length_append]
          rfl
        · have hne : entryType mem entry ≠ k'.code := fun heq =>
            hkk (MadtKind.code_inj (heq.symm.trans hcode.symm))
          rw [Function.update_of_ne hkk, hcounters, if_neg hne, List.append_nil]
      · rw [if_neg (hcode ▸ k.code_ne_override)]
  | none =>
      have hno : ∀ k : MadtKind, entryType mem entry ≠ k.code := by
        intro k heq
        rw [heq, k.ofType_code] at hk
        cases hk
      have hsame : ∀ k, info.list k =
          (done k ++ if entryType mem entry = k.code then [some entry] else []) ++
            List.replicate (rest k) none := by
        intro k
        rw [hlist, if_neg (hno k), if_neg (hno k), List.append_nil, Nat.add_zero]
      have hcount : ∀ k, counters k =
          (done k ++ if entryType mem entry = k.code then [some entry] else []).length := by
        intro k
        rw [hcounters, if_neg (hno k), List.append_nil]
      dsimp only
      by_cases hty : entryType mem entry = madtLapicAddrOverride
      · rw [if_pos hty, if_neg (hptr hty), if_pos hty]
        exact ⟨_, _, _, rfl, hsame, hcount, rfl, rfl, rfl⟩
      · rw [if_neg hty, if_neg hty]
        exact ⟨_, _, _, rfl, hsame, hcount, rfl, rfl, rfl⟩

/-- **The second walk fills the arrays**, in table order. -/
theorem madtFill_spec (hend : (madtLength mem madt - madtOffset.setWidth 32).toNat ≤ 255) :
    ∀ {offs : List ℕ} {a fuel : ℕ} {i : Byte} (info : MadtInfo) (counters : MadtKind → ℕ)
      (log : List LogMsg) (done : MadtKind → List (Option Word)),
      Tiles id (fun o => (entryLength mem (madtData madt o)).toNat) a offs
        (madtLength mem madt - madtOffset.setWidth 32).toNat →
      (∀ o ∈ offs, 2 ≤ (entryLength mem (madtData madt o)).toNat) → i.toNat = a →
      offs.length < fuel →
      (∀ k, info.list k = done k ++
        List.replicate (entriesOf mem madt k.code offs).length none) →
      (∀ k, counters k = (done k).length) →
      (entriesOf mem madt madtLapicAddrOverride offs ≠ [] → info.lapicAddrOverride ≠ null) →
      ∃ info' log', madtFill mem madt fuel i info counters log = .ok (info', log') ∧
        (∀ k, info'.list k =
          done k ++ (entriesOf mem madt k.code offs).map fun o => some (madtData madt o)) ∧
        info'.num = info.num ∧
        info'.lapicPaddr = if entriesOf mem madt madtLapicAddrOverride offs = [] then info.lapicPaddr
          else overridePaddr mem info.lapicAddrOverride := by
  intro offs
  induction offs with
  | nil =>
      intro a fuel i info counters log done htiles _ hi hfuel hlist _ _
      obtain ⟨fuel, rfl⟩ := Nat.exists_eq_add_one_of_ne_zero (Nat.ne_of_gt hfuel)
      have hae : a = (madtLength mem madt - madtOffset.setWidth 32).toNat := htiles
      unfold madtFill
      rw [if_neg (by omega)]
      exact ⟨info, log, rfl, hlist, rfl, rfl⟩
  | cons o offs ih =>
      intro a fuel i info counters log done htiles hsizes hi hfuel hlist hcounters hptr
      obtain ⟨fuel, rfl⟩ := Nat.exists_eq_add_one_of_ne_zero (show fuel ≠ 0 by omega)
      rw [List.forall_mem_cons] at hsizes
      rw [List.length_cons] at hfuel
      obtain ⟨hio, hlt, htail⟩ := cursor_step hend htiles hsizes.1 hi
      have hslots : ∀ k, info.list k = done k ++
          List.replicate ((entriesOf mem madt k.code offs).length +
            if entryType mem (madtData madt o) = k.code then 1 else 0) none := by
        intro k
        rw [hlist, length_entriesOf_cons]
      have hptr₁ : entryType mem (madtData madt o) = madtLapicAddrOverride →
          info.lapicAddrOverride ≠ null := by
        intro hty
        apply hptr
        rw [entriesOf_cons, if_pos hty]
        exact List.cons_ne_nil _ _
      obtain ⟨info₁, counters₁, log₁, hentry, hlist₁, hcounters₁, hnum₁, hover₁, hpaddr₁⟩ :=
        madtFillEntry_spec log hslots hcounters hptr₁
      have hptr₂ : entriesOf mem madt madtLapicAddrOverride offs ≠ [] →
          info₁.lapicAddrOverride ≠ null := by
        intro hne
        rw [hover₁]
        apply hptr
        rw [entriesOf_cons]
        split
        · exact List.cons_ne_nil _ _
        · exact hne
      obtain ⟨info₂, log₂, hok, hlist₂, hnum₂, hpaddr₂⟩ := ih info₁ counters₁ log₁ _ htail hsizes.2
        rfl (Nat.lt_of_succ_lt_succ hfuel) hlist₁ hcounters₁ hptr₂
      refine ⟨info₂, log₂, ?_, ?_, hnum₂.trans hnum₁, ?_⟩
      · unfold madtFill
        rw [if_pos hlt]
        rw [hio] at hok ⊢
        exact Res.bind_eq_ok.mpr ⟨_, hentry, hok⟩
      · intro k
        rw [hlist₂, entriesOf_cons, List.append_assoc]
        split
        · rfl
        · rfl
      · rw [hpaddr₂, hover₁, hpaddr₁, entriesOf_cons]
        by_cases hty : entryType mem (madtData madt o) = madtLapicAddrOverride
        · rw [if_pos hty, if_pos hty, if_neg (List.cons_ne_nil _ _), ite_self]
        · rw [if_neg hty, if_neg hty]

/-- An entry of a table is not at address 0. -/
theorem MadtOk.ne_null {offs : List ℕ} (h : MadtOk mem madt offs) {o : ℕ} (ho : o ∈ offs) :
    madtData madt o ≠ null := by
  have hbounds := h.entries.bounds ho
  have hsize := h.sizes o ho
  have hlength := h.length
  have hfits := h.fits
  dsimp only [id] at hbounds
  intro heq
  have hnat := congrArg BitVec.toNat heq
  unfold madtData at hnat
  rw [BitVec.toNat_add, BitVec.toNat_add, BitVec.toNat_ofNat] at hnat
  change ((madt.toNat + 0x2c) % 2 ^ 64 + o % 2 ^ 64) % 2 ^ 64 = 0 at hnat
  omega

/-- A long table is never left. -/
theorem parseMadt_long {offs : List ℕ} (h : MadtOk mem madt offs)
    (hlong : 0x2c + 255 < (madtLength mem madt).toNat) (fuel : ℕ) (r : MadtInfo × List LogMsg) :
    parseMadt fuel mem madt ≠ .ok r := by
  intro hok
  unfold parseMadt at hok
  obtain ⟨r', hcount, -⟩ := Res.bind_eq_ok.mp hok
  refine madtCount_long ?_ _ _ _ _ _ hcount
  rw [toNat_madtEnd h.length]
  omega

/-- A short table is recorded. -/
theorem parseMadt_short {offs : List ℕ} (h : MadtOk mem madt offs)
    (hshort : (madtLength mem madt).toNat ≤ 0x2c + 255) :
    ∃ info log, parseMadt (offs.length + 1) mem madt = .ok (info, log) ∧
      Recorded mem madt offs info := by
  have hend : (madtLength mem madt - madtOffset.setWidth 32).toNat ≤ 255 := by
    rw [toNat_madtEnd h.length]
    omega
  have htiles := h.entries
  rw [← toNat_madtEnd h.length] at htiles
  unfold parseMadt
  dsimp only
  obtain ⟨info₁, log₁, hcount, hnum₁, hptr₁, hpaddr₁⟩ := madtCount_spec hend
    { resetMadtInfo with lapicPaddr := (madtLapicAddr mem madt).setWidth 64 } _ htiles h.sizes
    (show (0 : Byte).toNat = 0 from rfl) (Nat.lt_succ_self _) h.one (fun hne => absurd rfl hne)
  have hslots : ∀ k, (madtAlloc info₁).list k =
      [] ++ List.replicate (entriesOf mem madt k.code offs).length none := by
    intro k
    change List.replicate (info₁.num k) none = _
    rw [hnum₁]
    exact congrArg (List.replicate · none) (Nat.zero_add _)
  have hptr : entriesOf mem madt madtLapicAddrOverride offs ≠ [] →
      (madtAlloc info₁).lapicAddrOverride ≠ null := by
    intro hne
    change info₁.lapicAddrOverride ≠ null
    rw [hptr₁]
    unfold overrideOr
    cases hover : entriesOf mem madt madtLapicAddrOverride offs with
    | nil => exact absurd hover hne
    | cons o t =>
        refine h.ne_null (List.mem_of_mem_filter (p := fun o =>
          entryType mem (madtData madt o) = madtLapicAddrOverride) ?_)
        have hmem : o ∈ entriesOf mem madt madtLapicAddrOverride offs := by
          rw [hover]
          exact List.mem_cons_self
        exact hmem
  obtain ⟨info₂, log₂, hfill, hlist₂, hnum₂, hpaddr₂⟩ := madtFill_spec hend (madtAlloc info₁)
    (fun _ => 0) log₁ (fun _ => []) htiles h.sizes (show (0 : Byte).toNat = 0 from rfl)
    (Nat.lt_succ_self _) hslots (fun _ => rfl) hptr
  refine ⟨info₂, log₂, Res.bind_eq_ok.mpr ⟨_, hcount, hfill⟩, ?_, ?_, ?_⟩
  · intro k
    rw [hnum₂]
    exact (hnum₁ k).trans (Nat.zero_add _)
  · exact hlist₂
  · rw [hpaddr₂]
    change (if _ then info₁.lapicPaddr else overridePaddr mem info₁.lapicAddrOverride) = _
    rw [hpaddr₁, hptr₁]
    unfold overrideOr
    cases entriesOf mem madt madtLapicAddrOverride offs with
    | nil => rfl
    | cons o t => rfl

/-- **A well-formed table is recorded exactly when the 8-bit cursor can leave it**: when its entries
take at most 255 bytes. -/
theorem parseMadt_records_iff {offs : List ℕ} (h : MadtOk mem madt offs) :
    (∃ fuel info log, parseMadt fuel mem madt = .ok (info, log) ∧ Recorded mem madt offs info) ↔
      (madtLength mem madt).toNat ≤ 0x2c + 255 := by
  constructor
  · rintro ⟨fuel, info, log, hok, -⟩
    by_contra hlong
    exact parseMadt_long h (Nat.lt_of_not_le hlong) fuel _ hok
  · intro hshort
    obtain ⟨info, log, hok, hrec⟩ := parseMadt_short h hshort
    exact ⟨_, info, log, hok, hrec⟩

end Walks

/-! ## Two tables -/

/-- A table at `0x1000` with one local APIC entry for each of `n` processors. -/
def processorTable (n : ℕ) : Mem := fun a =>
  if a = 0x1004 then BitVec.ofNat 8 (0x2c + 8 * n)
  else if a = 0x1005 then BitVec.ofNat 8 ((0x2c + 8 * n) / 256)
  else if 0x102c ≤ a.toNat ∧ (a.toNat - 0x102c) % 8 = 1 then 8
  else 0

/-- The offsets of its entries. -/
def processorEntries (n : ℕ) : List ℕ := (List.range n).map (8 * ·)

theorem parseMadt_records_two : MadtOk (processorTable 2) 0x1000 (processorEntries 2) ∧
    ∃ fuel info log, parseMadt fuel (processorTable 2) 0x1000 = .ok (info, log) ∧
      Recorded (processorTable 2) 0x1000 (processorEntries 2) info := by
  have h : MadtOk (processorTable 2) 0x1000 (processorEntries 2) :=
    ⟨by decide, by decide, by decide +kernel, by decide +kernel, by decide +kernel⟩
  exact ⟨h, (parseMadt_records_iff h).mpr (by decide +kernel)⟩

/-- The table of a machine with 32 processors is well formed and `parse_madt` does not come back. -/
theorem parseMadt_processors : MadtOk (processorTable 32) 0x1000 (processorEntries 32) ∧
    ¬ ∃ fuel info log, parseMadt fuel (processorTable 32) 0x1000 = .ok (info, log) ∧
      Recorded (processorTable 32) 0x1000 (processorEntries 32) info := by
  have h : MadtOk (processorTable 32) 0x1000 (processorEntries 32) :=
    ⟨by decide, by decide, by decide +kernel, by decide +kernel, by decide +kernel⟩
  refine ⟨h, ?_⟩
  rintro ⟨fuel, info, log, hok, -⟩
  exact parseMadt_long h (by decide +kernel) fuel _ hok

end Cerberos
