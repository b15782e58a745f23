/-
# Cerberos.Intr.Lapic — the local APIC of a processor (`intr/lapic.c`).

`lapic_enable` runs on every processor and gives its LINT0 and LINT1 pins the entries of the MADT's
local APIC NMI structures. These name a processor by its ACPI id; which processor that is, the local
APIC structures of the same table say, by pairing ACPI ids with APIC ids. `configure_nmi` compares the
ACPI id with the APIC id DIRECTLY, so an entry reaches the processor whose APIC id happens to be equal.

The registers are those of the processor the code runs on, by their offsets. The list of the applied
entries is a ghost.
-/
import Cerberos.Acpi.Madt

namespace Cerberos

open Cerberos.Base

/-! ## Registers -/

/-- The registers of a local APIC, by offset. -/
abbrev LapicRegs := BitVec 32 → BitVec 32

/-- `LAPIC_ID_REG`. -/
abbrev lapicIdReg : BitVec 32 := 0x20

/-- `LAPIC_SPR_INTR_VEC_REG`. -/
abbrev lapicSprIntrVecReg : BitVec 32 := 0xf0

/-- `LAPIC_LVT_LINT0_REG`. -/
abbrev lapicLvtLint0Reg : BitVec 32 := 0x350

/-- `LAPIC_LVT_LINT1_REG`. -/
abbrev lapicLvtLint1Reg : BitVec 32 := 0x360

/-- `lapic_read(reg)`. -/
def lapicRead (regs : LapicRegs) (reg : BitVec 32) : BitVec 32 := regs reg

/-- `lapic_write(reg, val)`. -/
def lapicWrite (regs : LapicRegs) (reg val : BitVec 32) : LapicRegs := Function.update regs reg val

/-- `lapic_id()`. -/
def lapicId (regs : LapicRegs) : Byte := (lapicRead regs lapicIdReg >>> 24).setWidth 8

/-- `lvt_entry_t`. -/
structure LvtEntry where
  vector : Byte
  deliveryMode : BitVec 3
  reserved0 : BitVec 1 := 0
  deliverStatus : BitVec 1 := 0
  pinPolarity : BitVec 1
  remoteIrr : BitVec 1 := 0
  triggerLevel : BitVec 1
  mask : BitVec 1
  reserved1 : BitVec 15 := 0
  deriving DecidableEq, Repr

/-- `lvt_entry_t.raw`: the fields from bit 0 up. -/
def LvtEntry.raw (e : LvtEntry) : BitVec 32 :=
  e.reserved1 ++ e.mask ++ e.triggerLevel ++ e.remoteIrr ++ e.pinPolarity ++ e.deliverStatus ++
    e.reserved0 ++ e.deliveryMode ++ e.vector

/-- `LAPIC_ALL`. -/
abbrev lapicAll : Byte := 0xff

/-! ## The entries -/

section Entries

variable (mem : Mem)

/-- `madt_lapic_t.acpi_processor_id`. -/
def lapicProcessorId (lapic : Word) : Byte := mem (lapic + 2)

/-- `madt_lapic_t.apic_id`. -/
def lapicApicId (lapic : Word) : Byte := mem (lapic + 3)

/-- `madt_lapic_nmi_t.acpi_processor_id`. -/
def nmiProcessorId (nmi : Word) : Byte := mem (nmi + 2)

/-- `madt_lapic_nmi_t.flags`. -/
def nmiFlags (nmi : Word) : BitVec 16 := read16 mem (nmi + 3)

/-- `madt_lapic_nmi_t.lint`. -/
def nmiLint (nmi : Word) : Byte := mem (nmi + 5)

/-- `lvt_nmi`: vector 2, delivery mode `LVT_NMI`, unmasked. -/
def lvtNmi (nmi : Word) : LvtEntry where
  vector := 2
  deliveryMode := 0b100
  pinPolarity := if nmiFlags mem nmi &&& 2 ≠ 0 then 1 else 0
  triggerLevel := if nmiFlags mem nmi &&& 8 ≠ 0 then 1 else 0
  mask := 0

/-! ## The code -/

/-- `madt_info.lapic_nmis[i]`. -/
def nmiSlot (info : MadtInfo) (i : ℕ) : Res Word :=
  match (info.list .lapicNmi)[i]? with
  | some (some nmi) => .ok nmi
  | _ => .error .fault

/-- The body of the loop of `configure_nmi`, and whether the entry was applied. -/
def configureNmiEntry (nmi : Word) (regs : LapicRegs) : Res (LapicRegs × Bool) :=
  if lapicId regs = nmiProcessorId mem nmi ∨ nmiProcessorId mem nmi = lapicAll then
    if nmiLint mem nmi = 0 then .ok (lapicWrite regs lapicLvtLint0Reg (lvtNmi mem nmi).raw, true)
    else if nmiLint mem nmi = 1 then
      .ok (lapicWrite regs lapicLvtLint1Reg (lvtNmi mem nmi).raw, true)
    else .error (.panic "[lapic_enable] illegal lint value was detected: %u\n"
      [(nmiLint mem nmi).setWidth 64])
  else .ok (regs, false)

/-- The loop of `configure_nmi` from `i` on, with `n` entries left. -/
def configureNmiLoop (info : MadtInfo) : ℕ → ℕ → LapicRegs → Res (LapicRegs × List Word)
  | 0, _, regs => .ok (regs, [])
  | n + 1, i, regs => do
    let nmi ← nmiSlot info i
    let (regs, applied) ← configureNmiEntry mem nmi regs
    let (regs, rest) ← configureNmiLoop info n (i + 1) regs
    .ok (regs, if applied then nmi :: rest else rest)

/-- `configure_nmi()`. -/
def configureNmi (info : MadtInfo) (regs : LapicRegs) : Res (LapicRegs × List Word) :=
  configureNmiLoop mem info (info.num .lapicNmi) 0 regs

/-- `lapic_enable()`. -/
def lapicEnable (info : MadtInfo) (regs : LapicRegs) : Res (LapicRegs × List Word) := do
  let (regs, applied) ← configureNmi mem info regs
  let val := lapicRead regs lapicSprIntrVecReg ||| (1 <<< 8)
  .ok (lapicWrite regs lapicSprIntrVecReg val, applied)

/-! ## The specification -/

/-- The ACPI id that the local APIC entries pair with an APIC id. -/
def processorOf (lapics : List Word) (apicId : Byte) : Option Byte :=
  (lapics.find? fun lapic => lapicApicId mem lapic = apicId).map (lapicProcessorId mem)

/-- The local APIC entries pair distinct ACPI ids with distinct APIC ids. -/
structure Pairing (lapics : List Word) : Prop where
  processors : (lapics.map (lapicProcessorId mem)).Nodup
  apics : (lapics.map (lapicApicId mem)).Nodup

/-- The entry names the processor with the APIC id `apicId`, or all of them. -/
def NamesProcessor (lapics : List Word) (apicId : Byte) (nmi : Word) : Prop :=
  nmiProcessorId mem nmi = lapicAll ∨ processorOf mem lapics apicId = some (nmiProcessorId mem nmi)

instance (lapics : List Word) (apicId : Byte) (nmi : Word) :
    Decidable (NamesProcessor mem lapics apicId nmi) := inferInstanceAs (Decidable (_ ∨ _))

/-- The register of the pin an entry names. -/
def nmiPin (nmi : Word) : BitVec 32 :=
  if nmiLint mem nmi = 0 then lapicLvtLint0Reg else lapicLvtLint1Reg

/-- The registers after entries were applied in order. -/
def applyNmis (regs : LapicRegs) (nmis : List Word) : LapicRegs :=
  nmis.foldl (fun regs nmi => lapicWrite regs (nmiPin mem nmi) (lvtNmi mem nmi).raw) regs

/-- A parsed MADT with these local APIC and NMI entries. -/
structure MadtLists (info : MadtInfo) (lapics nmis : List Word) : Prop where
  numNmi : info.num .lapicNmi = nmis.length
  nmiList : info.list .lapicNmi = nmis.map some
  numLapic : info.num .lapic = lapics.length
  lapicList : info.list .lapic = lapics.map some
  pairing : Pairing mem lapics
  lints : ∀ nmi ∈ nmis, nmiLint mem nmi = 0 ∨ nmiLint mem nmi = 1

/-- **The NMI entries reach the processor they name**: those are applied, the others are not, and a
pin that none of them names keeps its register. -/
def NmisReach (info : MadtInfo) (lapics nmis : List Word) (regs : LapicRegs) : Prop :=
  ∃ regs' applied, configureNmi mem info regs = .ok (regs', applied) ∧
    applied = nmis.filter (fun nmi => NamesProcessor mem lapics (lapicId regs) nmi) ∧
    regs' = applyNmis mem regs applied ∧
    ∀ pin, (∀ nmi ∈ nmis, NamesProcessor mem lapics (lapicId regs) nmi → nmiPin mem nmi ≠ pin) →
      regs' pin = regs pin

end Entries

/-! ## One entry -/

variable {mem : Mem} {info : MadtInfo} {regs : LapicRegs} {lapics nmis : List Word}

/-- What the code compares. -/
def NmiSelected (mem : Mem) (apicId : Byte) (nmi : Word) : Prop :=
  apicId = nmiProcessorId mem nmi ∨ nmiProcessorId mem nmi = lapicAll

instance (apicId : Byte) (nmi : Word) : Decidable (NmiSelected mem apicId nmi) :=
  inferInstanceAs (Decidable (_ ∨ _))

theorem nmiPin_ne_id (nmi : Word) : lapicIdReg ≠ nmiPin mem nmi := by
  unfold nmiPin
  split
  · decide
  · decide

/-- Applying an entry does not change the id of the processor. -/
theorem lapicId_write (regs : LapicRegs) (nmi : Word) (val : BitVec 32) :
    lapicId (lapicWrite regs (nmiPin mem nmi) val) = lapicId regs := by
  unfold lapicId lapicRead lapicWrite
  rw [Function.update_of_ne (nmiPin_ne_id nmi)]

theorem configureNmiEntry_eq {nmi : Word} (hlint : nmiLint mem nmi = 0 ∨ nmiLint mem nmi = 1) :
    configureNmiEntry mem nmi regs = .ok (if NmiSelected mem (lapicId regs) nmi then
      (lapicWrite regs (nmiPin mem nmi) (lvtNmi mem nmi).raw, true) else (regs, false)) := by
  unfold configureNmiEntry nmiPin
  by_cases hsel : NmiSelected mem (lapicId regs) nmi
  · have hcmp : lapicId regs = nmiProcessorId mem nmi ∨ nmiProcessorId mem nmi = lapicAll := hsel
    rw [if_pos hsel, if_pos hcmp]
    by_cases h0 : nmiLint mem nmi = 0
    · rw [if_pos h0, if_pos h0]
    · rw [if_neg h0, if_neg h0, if_pos (hlint.resolve_left h0)]
  · have hcmp : ¬(lapicId regs = nmiProcessorId mem nmi ∨ nmiProcessorId mem nmi = lapicAll) := hsel
    rw [if_neg hsel, if_neg hcmp]

/-! ## The loop -/

/-- **The loop applies the selected entries in order**, by induction on the entries that are left;
the id register stays what it is. -/
theorem configureNmiLoop_eq (hlist : info.list .lapicNmi = nmis.map some)
    (hlints : ∀ nmi ∈ nmis, nmiLint mem nmi = 0 ∨ nmiLint mem nmi = 1) :
    ∀ (n i : ℕ) (regs : LapicRegs), i + n = nmis.length →
      configureNmiLoop mem info n i regs =
        .ok (applyNmis mem regs ((nmis.drop i).filter fun nmi => NmiSelected mem (lapicId regs) nmi),
          (nmis.drop i).filter fun nmi => NmiSelected mem (lapicId regs) nmi) := by
  intro n
  induction n with
  | zero =>
      intro i regs hi
      rw [List.drop_of_length_le (by omega)]
      rfl
  | succ n ih =>
      intro i regs hi
      have hlt : i < nmis.length := by omega
      have hslot : nmiSlot info i = .ok nmis[i] := by
        unfold nmiSlot
        rw [hlist, List.getElem?_map, List.getElem?_eq_getElem hlt]
        rfl
      rw [List.drop_eq_getElem_cons hlt, List.filter_cons, configureNmiLoop, hslot]
      show (configureNmiEntry mem nmis[i] regs >>= _) = _
      rw [configureNmiEntry_eq (hlints _ (List.getElem_mem hlt))]
      by_cases hsel : NmiSelected mem (lapicId regs) nmis[i]
      · rw [if_pos hsel, if_pos (decide_eq_true hsel)]
        show (configureNmiLoop mem info n (i + 1) _ >>= _) = _
        rw [ih (i + 1) _ (by omega), lapicId_write]
        rfl
      · rw [if_neg hsel, if_neg (by rw [decide_eq_true_iff]; exact hsel)]
        show (configureNmiLoop mem info n (i + 1) _ >>= _) = _
        rw [ih (i + 1) _ (by omega)]
        rfl

theorem MadtLists.configureNmi_eq (h : MadtLists mem info lapics nmis) (regs : LapicRegs) :
    configureNmi mem info regs =
      .ok (applyNmis mem regs (nmis.filter fun nmi => NmiSelected mem (lapicId regs) nmi),
        nmis.filter fun nmi => NmiSelected mem (lapicId regs) nmi) := by
  unfold configureNmi
  rw [h.numNmi, configureNmiLoop_eq h.nmiList h.lints _ 0 regs (Nat.zero_add _), List.drop_zero]

/-- Entries leave alone the registers that none of them names. -/
theorem applyNmis_of_ne {pin : BitVec 32} :
    ∀ {nmis : List Word} {regs : LapicRegs}, (∀ nmi ∈ nmis, nmiPin mem nmi ≠ pin) →
      applyNmis mem regs nmis pin = regs pin := by
  intro nmis
  induction nmis with
  | nil => exact fun _ => rfl
  | cons nmi nmis ih =>
      intro regs h
      rw [List.forall_mem_cons] at h
      show applyNmis mem (lapicWrite regs (nmiPin mem nmi) _) nmis pin = _
      rw [ih h.2]
      exact Function.update_of_ne (Ne.symm h.1) _ _

/-- Two filters of one list agree when they do on its members. -/
theorem filter_eq_filter_iff {α : Type} {p q : α → Bool} {l : List α} :
    l.filter p = l.filter q ↔ ∀ x ∈ l, p x = q x := by
  constructor
  · intro h x hx
    rw [Bool.eq_iff_iff]
    have hmem : x ∈ l.filter p ↔ x ∈ l.filter q := by rw [h]
    rw [List.mem_filter, List.mem_filter] at hmem
    exact ⟨fun hp => (hmem.mp ⟨hx, hp⟩).2, fun hq => (hmem.mpr ⟨hx, hq⟩).2⟩
  · exact List.filter_congr

/-- **The entries reach the processors they name exactly where the two ids of the processor cannot be
told apart**: where an entry has the processor's APIC id as its ACPI id if and only if that is the
processor's own. -/
theorem nmis_reach_iff (h : MadtLists mem info lapics nmis) :
    NmisReach mem info lapics nmis regs ↔
      ∀ nmi ∈ nmis, nmiProcessorId mem nmi ≠ lapicAll →
        (nmiProcessorId mem nmi = lapicId regs ↔
          processorOf mem lapics (lapicId regs) = some (nmiProcessorId mem nmi)) := by
  have hsame : (nmis.filter fun nmi => decide (NmiSelected mem (lapicId regs) nmi)) =
        (nmis.filter fun nmi => decide (NamesProcessor mem lapics (lapicId regs) nmi)) ↔
      ∀ nmi ∈ nmis, nmiProcessorId mem nmi ≠ lapicAll →
        (nmiProcessorId mem nmi = lapicId regs ↔
          processorOf mem lapics (lapicId regs) = some (nmiProcessorId mem nmi)) := by
    rw [filter_eq_filter_iff]
    apply forall_congr'
    intro nmi
    apply imp_congr_right
    intro _
    rw [decide_eq_decide]
    unfold NmiSelected NamesProcessor
    constructor
    · intro hiff hall
      rw [or_iff_left hall, or_iff_right hall] at hiff
      rw [← hiff, eq_comm]
    · intro hcond
      by_cases hall : nmiProcessorId mem nmi = lapicAll
      · exact ⟨fun _ => .inl hall, fun _ => .inr hall⟩
      · rw [or_iff_left hall, or_iff_right hall, ← hcond hall, eq_comm]
  rw [← hsame]
  constructor
  · rintro ⟨regs', applied, hok, happlied, -, -⟩
    rw [h.configureNmi_eq] at hok
    obtain ⟨-, hlist⟩ := Prod.mk.inj (Except.ok.inj hok)
    exact hlist.trans happlied
  · intro heq
    refine ⟨_, _, h.configureNmi_eq regs, heq, rfl, ?_⟩
    intro pin hpin
    rw [heq]
    apply applyNmis_of_ne
    intro nmi hnmi
    obtain ⟨hmem, hnames⟩ := List.mem_filter.mp hnmi
    exact hpin nmi hmem (of_decide_eq_true hnames)

/-! ## Two processors -/

/-- Processor 0 has the APIC id `swap`, processor 1 the other one of 0 and 1; one NMI entry is for
processor 0, on LINT1. -/
def nmiTable (swap : Byte) : Mem := fun a =>
  if a = 0x103 then swap
  else if a = 0x10a then 1
  else if a = 0x10b then 1 - swap
  else if a = 0x115 then 1
  else 0

/-- What `parse_madt` collects of it. -/
def nmiInfo : MadtInfo where
  num := fun k => match k with
    | .lapic => 2
    | .lapicNmi => 1
    | _ => 0
  list := fun k => match k with
    | .lapic => [some 0x100, some 0x108]
    | .lapicNmi => [some 0x110]
    | _ => []
  lapicAddrOverride := null
  lapicPaddr := 0

/-- The registers of the processor with APIC id 0 before `lapic_enable`. -/
def bootRegs : LapicRegs := fun _ => 0

theorem nmiTable_lists {swap : Byte} (h : swap = 0 ∨ swap = 1) :
    MadtLists (nmiTable swap) nmiInfo [0x100, 0x108] [0x110] := by
  refine ⟨rfl, rfl, rfl, rfl, ?_, ?_⟩
  · rcases h with rfl | rfl
    · exact ⟨by decide, by decide⟩
    · exact ⟨by decide, by decide⟩
  · rw [List.forall_mem_singleton]
    right
    rfl

theorem nmis_reach_straight :
    NmisReach (nmiTable 0) nmiInfo [0x100, 0x108] [0x110] bootRegs :=
  (nmis_reach_iff (nmiTable_lists (.inl rfl))).mpr (by
    rw [List.forall_mem_singleton]
    decide)

/-- With the ids swapped, the NMI of processor 0 is applied on processor 1, whose APIC id is 0. -/
theorem nmis_reach_other_processor :
    MadtLists (nmiTable 1) nmiInfo [0x100, 0x108] [0x110] ∧
    processorOf (nmiTable 1) [0x100, 0x108] (lapicId bootRegs) = some 1 ∧
    nmiProcessorId (nmiTable 1) 0x110 = 0 ∧
    (∃ regs', configureNmi (nmiTable 1) nmiInfo bootRegs = .ok (regs', [0x110])) ∧
    ¬NmisReach (nmiTable 1) nmiInfo [0x100, 0x108] [0x110] bootRegs := by
  have hlists := @nmiTable_lists 1 (.inr rfl)
  refine ⟨hlists, by decide, by decide, ⟨_, hlists.configureNmi_eq bootRegs⟩, ?_⟩
  rintro ⟨regs', applied, hok, happlied, -, -⟩
  rw [hlists.configureNmi_eq] at hok
  have hlist := (Prod.mk.inj (Except.ok.inj hok)).2.trans happlied
  exact absurd hlist (by decide)

end Cerberos
