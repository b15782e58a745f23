/-
# Cerberos.Acpi.AcpiSearch — the two searches of `acpi_find_table` against one specification.

`acpi_find_table` holds two loops, one over 32-bit and one over 64-bit entries. `firstTable` says what
both are for: the first listed table with the signature. A root table that lists the same tables in
either width leads to the SAME result, also when the two root tables are in different memories that
agree on the string and on the signatures.
-/
import Cerberos.Acpi.Acpi
import Mathlib.Data.List.Find

namespace Cerberos

open Cerberos.Base

/-! ## The specification -/

section Spec

variable (mem : Mem)

/-- A string of `n` characters. -/
def IsString (str : Word) (n : ℕ) : Prop := bytesAt mem str n = 0 ∧ ∀ i < n, bytesAt mem str i ≠ 0

instance (sig table : Word) : Decidable (HasSignature mem sig table) :=
  inferInstanceAs (Decidable (∀ i < 4, _ = _))

/-- **The first of the tables with the signature**, and `NULL` if there is none. -/
def firstTable (sig : Word) (tables : List Word) : Word :=
  (tables.find? fun table => decide (HasSignature mem sig table)).getD null

/-- A root table that is there, with its entries right behind its header. -/
structure RootAt (rsdt : Rsdt) : Prop where
  hdr : rsdt.sdtHdr ≠ null
  ptr : rsdt.tablePtr ≠ null
  behind : rsdt.tablePtr = rsdt.sdtHdr + sdtHeaderSize

/-- The root table lists `tables` as 32-bit entries, for `ACPI_V1`. -/
structure ListsRsdt (rsdt : Rsdt) (tables : List Word) : Prop extends RootAt rsdt where
  version : rsdt.acpiVersion = acpiV1
  length : (sdtLength mem rsdt.sdtHdr).toNat = 36 + 4 * tables.length
  entry : ∀ i (hi : i < tables.length),
    read32 mem (rsdt.tablePtr + BitVec.ofNat 64 (4 * i)) = tables[i].setWidth 32

/-- The root table lists `tables` as 64-bit entries, for `ACPI_V2`. -/
structure ListsXsdt (rsdt : Rsdt) (tables : List Word) : Prop extends RootAt rsdt where
  version : rsdt.acpiVersion = acpiV2
  length : (sdtLength mem rsdt.sdtHdr).toNat = 36 + 8 * tables.length
  entry : ∀ i (hi : i < tables.length),
    read64 mem (rsdt.tablePtr + BitVec.ofNat 64 (8 * i)) = tables[i]

end Spec

/-- A list of addresses a root table can hold in either width. -/
def TableAddresses (tables : List Word) : Prop := ∀ t ∈ tables, t ≠ null ∧ t.toNat < 2 ^ 32

/-! ## What the loops go over -/

variable {mem mem' : Mem} {rsdt rsdt' : Rsdt} {tables : List Word} {sig sig' : Word}

theorem ListsRsdt.headers (h : ListsRsdt mem rsdt tables) (htables : TableAddresses tables) :
    acpiHeaders mem rsdt = tables := by
  unfold acpiHeaders
  have hcount : sdtEntries mem rsdt.sdtHdr 4 = tables.length := by
    rw [sdtEntries_eq (by rw [h.length]; omega), h.length]
    show (36 + 4 * tables.length - 36) / 4 = _
    omega
  rw [if_pos h.version, hcount]
  apply List.ext_getElem
  · rw [List.length_map, List.length_range]
  · intro i hi hi'
    rw [List.getElem_map, List.getElem_range, h.entry i hi']
    have hlt := (htables tables[i] (List.getElem_mem hi')).2
    apply BitVec.eq_of_toNat_eq
    rw [BitVec.toNat_setWidth, BitVec.toNat_setWidth]
    omega

theorem ListsXsdt.headers (h : ListsXsdt mem rsdt tables) : acpiHeaders mem rsdt = tables := by
  unfold acpiHeaders
  have hcount : sdtEntries mem rsdt.sdtHdr 8 = tables.length := by
    rw [sdtEntries_eq (by rw [h.length]; omega), h.length]
    show (36 + 8 * tables.length - 36) / 8 = _
    omega
  rw [if_neg (by rw [h.version]; decide), if_pos h.version, hcount]
  apply List.ext_getElem
  · rw [List.length_map, List.length_range]
  · intro i hi hi'
    rw [List.getElem_map, List.getElem_range, h.entry i hi']

/-! ## The search -/

/-- **The search gives the first table with the signature** among its headers, in either width; a
string of another length is refused. -/
theorem acpiFindTable_eq (hroot : RootAt rsdt)
    (hversion : rsdt.acpiVersion = acpiV1 ∨ rsdt.acpiVersion = acpiV2) {n fuel : ℕ}
    (hstr : IsString mem sig n) (hfuel : n < fuel) :
    ∃ log, acpiFindTable mem fuel rsdt sig =
      .ok (if n = 4 then firstTable mem sig (acpiHeaders mem rsdt) else null, log) := by
  have hver : ¬ (rsdt.acpiVersion ≠ acpiV1 ∧ rsdt.acpiVersion ≠ acpiV2) := by
    rintro ⟨h1, h2⟩
    exact hversion.elim h1 h2
  unfold acpiFindTable
  rw [if_neg hroot.hdr, if_neg hroot.ptr, strlen_eq hstr.1 hstr.2 hfuel]
  by_cases hn : n = 4
  · subst hn
    have hcmp : (acpiHeaders mem rsdt).find? (fun sdtHdr =>
          strncmp (bytesAt mem sig) (bytesAt mem sdtHdr) 4 = 0) =
        (acpiHeaders mem rsdt).find? fun table => decide (HasSignature mem sig table) :=
      List.find?_congr fun t _ => decide_eq_decide.mpr (strncmp_eq_zero_of_ne hstr.2)
    simp only [bind, Except.bind]
    rw [if_neg (by decide), if_neg hver, hcmp, if_pos trivial]
    unfold firstTable
    cases (acpiHeaders mem rsdt).find? fun table => decide (HasSignature mem sig table) with
    | none => exact ⟨_, rfl⟩
    | some t => exact ⟨_, rfl⟩
  · simp only [bind, Except.bind]
    rw [if_pos hn, if_neg hn]
    exact ⟨_, rfl⟩

/-- Memories that agree on the string and on the signatures have the same first table. -/
theorem firstTable_congr (hsig : ∀ i < 4, bytesAt mem sig i = bytesAt mem' sig' i)
    (hsame : ∀ t ∈ tables, ∀ i < 4, bytesAt mem t i = bytesAt mem' t i) :
    firstTable mem sig tables = firstTable mem' sig' tables := by
  unfold firstTable
  congr 1
  apply List.find?_congr
  intro t ht
  rw [decide_eq_decide]
  constructor
  · intro h i hi
    rw [← hsig i hi, ← hsame t ht i hi]
    exact h i hi
  · intro h i hi
    rw [hsig i hi, hsame t ht i hi]
    exact h i hi

/-- No listed table has the signature exactly when the result is `NULL`. -/
theorem firstTable_eq_null_iff (htables : TableAddresses tables) :
    firstTable mem sig tables = null ↔ ∀ t ∈ tables, ¬HasSignature mem sig t := by
  unfold firstTable
  cases hfind : tables.find? fun table => decide (HasSignature mem sig table) with
  | none =>
      rw [List.find?_eq_none] at hfind
      exact ⟨fun _ t ht h => hfind t ht (decide_eq_true h), fun _ => rfl⟩
  | some t =>
      have ht := List.mem_of_find?_eq_some hfind
      have hfound := List.find?_some hfind
      have hmatch := of_decide_eq_true hfound
      exact ⟨fun h => absurd h (htables t ht).1, fun h => absurd hmatch (h t ht)⟩

/-- **The RSDT and the XSDT search agree.** For a string of four characters the result of both is the
first listed table with these four bytes, and `NULL` if and only if there is none; for a string of
any other length it is `NULL`. -/
theorem acpiFindTable_widths_agree (htables : TableAddresses tables)
    (h32 : ListsRsdt mem rsdt tables) (h64 : ListsXsdt mem' rsdt' tables) {n fuel : ℕ}
    (hstr : IsString mem sig n) (hfuel : n < fuel)
    (hsig : ∀ i ≤ n, bytesAt mem sig i = bytesAt mem' sig' i)
    (hsame : ∀ t ∈ tables, ∀ i < 4, bytesAt mem t i = bytesAt mem' t i) :
    ∃ result log log', acpiFindTable mem fuel rsdt sig = .ok (result, log) ∧
      acpiFindTable mem' fuel rsdt' sig' = .ok (result, log') ∧
      (n = 4 → result = firstTable mem sig tables ∧
        (result = null ↔ ∀ t ∈ tables, ¬HasSignature mem sig t)) ∧
      (n ≠ 4 → result = null) := by
  have hstr' : IsString mem' sig' n :=
    ⟨by rw [← hsig n le_rfl]; exact hstr.1,
      fun i hi => by rw [← hsig i (Nat.le_of_lt hi)]; exact hstr.2 i hi⟩
  obtain ⟨log, hlog⟩ := acpiFindTable_eq h32.toRootAt (.inl h32.version) hstr hfuel
  obtain ⟨log', hlog'⟩ := acpiFindTable_eq h64.toRootAt (.inr h64.version) hstr' hfuel
  rw [h32.headers htables] at hlog
  rw [h64.headers] at hlog'
  refine ⟨_, log, log', hlog, ?_, ?_, fun hn => if_neg hn⟩
  · rw [hlog']
    by_cases hn : n = 4
    · rw [if_pos hn, if_pos hn,
        firstTable_congr (fun i hi => hsig i (by omega)) hsame]
    · rw [if_neg hn, if_neg hn]
  · intro hn
    rw [if_pos hn]
    exact ⟨rfl, firstTable_eq_null_iff htables⟩

/-- The two root tables of the example firmware, searched for `"APIC"`. -/
theorem acpiFindTable_widths_madt : ∃ log log',
    acpiFindTable (firmware acpiV2) 5 ⟨p2v 0x1000, acpiV1, p2v 0x1024⟩ 0x500 = .ok (0x4000, log) ∧
    acpiFindTable (firmware acpiV2) 5 ⟨p2v 0x2000, acpiV2, p2v 0x2024⟩ 0x500 =
      .ok (0x4000, log') := by
  have htables : TableAddresses [0x3000, 0x4000] := by
    intro t ht
    rcases List.mem_cons.mp ht with rfl | ht
    · decide
    · rw [List.mem_singleton.mp ht]
      decide
  have h32 : ListsRsdt (firmware acpiV2) ⟨p2v 0x1000, acpiV1, p2v 0x1024⟩ [0x3000, 0x4000] :=
    { hdr := by decide, ptr := by decide, behind := by decide, version := rfl,
      length := by decide +kernel
      entry := by
        have h : ∀ i < 2, read32 (firmware acpiV2) (p2v 0x1024 + BitVec.ofNat 64 (4 * i)) =
            ([0x3000, 0x4000].getD i 0 : Word).setWidth 32 := by decide +kernel
        intro i hi
        rw [h i hi, List.getD_eq_getElem _ _ hi] }
  have h64 : ListsXsdt (firmware acpiV2) ⟨p2v 0x2000, acpiV2, p2v 0x2024⟩ [0x3000, 0x4000] :=
    { hdr := by decide, ptr := by decide, behind := by decide, version := rfl,
      length := by decide +kernel
      entry := by
        have h : ∀ i < 2, read64 (firmware acpiV2) (p2v 0x2024 + BitVec.ofNat 64 (8 * i)) =
            ([0x3000, 0x4000].getD i 0 : Word) := by decide +kernel
        intro i hi
        rw [h i hi, List.getD_eq_getElem _ _ hi] }
  have hstr : IsString (firmware acpiV2) 0x500 4 := by
    unfold IsString
    decide +kernel
  obtain ⟨result, log, log', h1, h2, hfirst, -⟩ := acpiFindTable_widths_agree htables h32 h64 hstr
    (show 4 < 5 by decide) (fun _ _ => rfl) (fun _ _ _ _ => rfl)
  have hresult : result = 0x4000 := (hfirst rfl).1.trans (by decide +kernel)
  subst hresult
  exact ⟨log, log', h1, h2⟩

end Cerberos
