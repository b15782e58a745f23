/-
# Cerberos.Acpi.Acpi — the root table (`acpi/acpi.c`, `acpi/sdt.c`).

The RSDP names an RSDT, a table of 32-bit pointers, and from revision 2 on also an XSDT, a table of
64-bit pointers. `acpi_init` always takes the address of the RSDT but remembers the revision, and
`acpi_find_table` chooses the width of the entries by that revision: on a revision 2 machine it reads
the RSDT two entries at a time.

Memory is the address space `paging_init` sets up: physical addresses are mapped to themselves and to
the higher half. A string is where its bytes are.
-/
import Cerberos.Acpi.Madt
import Cerberos.Lib.Mem

namespace Cerberos

open Cerberos.Base

/-! ## The structures -/

/-- `ACPI_V1`. -/
abbrev acpiV1 : Byte := 0

/-- `ACPI_V2`. -/
abbrev acpiV2 : Byte := 2

/-- `sizeof(sdt_header_t)`. -/
abbrev sdtHeaderSize : Word := 36

/-- `rsdt_t`. -/
structure Rsdt where
  sdtHdr : Word
  acpiVersion : Byte
  tablePtr : Word
  deriving DecidableEq, Repr

section Fields

variable (mem : Mem)

/-- `rsdp->revision`. -/
def rsdpRevision (rsdp : Word) : Byte := mem (rsdp + 15)

/-- `rsdp->rsdt_address`. -/
def rsdtAddress (rsdp : Word) : BitVec 32 := read32 mem (rsdp + 16)

/-- `rsdp->xsdt_address`. -/
def xsdtAddress (rsdp : Word) : Word := read64 mem (rsdp + 24)

/-- `sdt_hdr->length`. -/
def sdtLength (sdtHdr : Word) : BitVec 32 := read32 mem (sdtHdr + 4)

/-- The bytes at `ptr`: a string, or the `signature` of a header. -/
def bytesAt (ptr : Word) (i : ℕ) : Byte := mem (ptr + BitVec.ofNat 64 i)

/-! ## Checksums -/

/-- `checksum += *ptr; ptr++;`, `n` times. -/
def checksumFrom (ptr : Word) : ℕ → Byte
  | 0 => 0
  | n + 1 => checksumFrom ptr n + bytesAt mem ptr n

/-- `verify_rsdp_checksum(rsdp)`. -/
def verifyRsdpChecksum (rsdp : Word) : Bool :=
  let validV1 := checksumFrom mem rsdp 20 == 0
  if rsdpRevision mem rsdp = acpiV1 then validV1
  else validV1 && checksumFrom mem rsdp 36 == 0

/-- `verify_sdt_checksum(sdt_hdr)`. -/
def verifySdtChecksum (sdtHdr : Word) : Bool :=
  checksumFrom mem sdtHdr (sdtLength mem sdtHdr).toNat == 0

/-! ## The search -/

/-- The number of entries of `size` bytes behind a header. -/
def sdtEntries (sdtHdr size : Word) : ℕ :=
  (((sdtLength mem sdtHdr).setWidth 64 - sdtHeaderSize) / size).toNat

/-- The headers the loop of `acpi_find_table` goes over, for each version. -/
def acpiHeaders (rsdt : Rsdt) : List Word :=
  if rsdt.acpiVersion = acpiV1 then
    (List.range (sdtEntries mem rsdt.sdtHdr 4)).map fun i =>
      (read32 mem (rsdt.tablePtr + BitVec.ofNat 64 (4 * i))).setWidth 64
  else if rsdt.acpiVersion = acpiV2 then
    (List.range (sdtEntries mem rsdt.sdtHdr 8)).map fun i =>
      read64 mem (rsdt.tablePtr + BitVec.ofNat 64 (8 * i))
  else []

/-- `acpi_find_table(table)`, with at most `fuel` rounds of `strlen`. -/
def acpiFindTable (fuel : ℕ) (rsdt : Rsdt) (table : Word) : Res (Word × List LogMsg) := do
  if rsdt.sdtHdr = null then
    return (null, [warningMsg "[acpi_find_table] sdt_hdr is NULL\n"])
  if rsdt.tablePtr = null then
    return (null, [warningMsg "[acpi_find_table] sdt_hdr is NULL\n"])
  let len ← strlen fuel (bytesAt mem table)
  if len ≠ 4 then
    return (null, [warningMsg "[acpi_find_table] table string is not of length 4: %s\n" [table]])
  if rsdt.acpiVersion ≠ acpiV1 ∧ rsdt.acpiVersion ≠ acpiV2 then
    return (null, [warningMsg "[acpi_find_table] acpi_version is not valid: %d\n"
      [rsdt.acpiVersion.setWidth 64]])
  match (acpiHeaders mem rsdt).find? fun sdtHdr =>
      strncmp (bytesAt mem table) (bytesAt mem sdtHdr) 4 = 0 with
  | some sdtHdr => return (sdtHdr, [])
  | none => return (null, [warningMsg "[acpi_find_table] table was not found\n"])

/-- The choice of the root table in `acpi_init`. -/
def acpiRoot (rsdp : Word) : Rsdt :=
  let sdtHdr := p2v ((rsdtAddress mem rsdp).setWidth 64)
  { sdtHdr := sdtHdr, acpiVersion := rsdpRevision mem rsdp, tablePtr := sdtHdr + sdtHeaderSize }

/-- `acpi_init(handover)`, from the address in the RSDP tag; the literal `"APIC"` is at `apic`. -/
def acpiInit (fuel : ℕ) (rsdpTag : Option Word) (apic : Word) :
    Res (Rsdt × MadtInfo × List LogMsg) := do
  let rsdp ← match rsdpTag with
    | none => .error (.panic "RSDP tag not found" [])
    | some rsdp => .ok rsdp
  if verifyRsdpChecksum mem rsdp = false then
    .error (.panic "RSDP checksum could not be verified" [])
  let log := [infoMsg "[acpi_init] rsdp revision: %u\n" [(rsdpRevision mem rsdp).setWidth 64]]
  let rsdt := acpiRoot mem rsdp
  if verifySdtChecksum mem rsdt.sdtHdr = false then
    .error (.panic "RSDT/XSDT checksum could not be verified" [])
  let (madtHdr, found) ← acpiFindTable mem fuel rsdt apic
  if madtHdr = null then
    .error (.panic "MADT table was not found" [])
  let madtHdr := p2v madtHdr
  let (info, parsed) ← parseMadt fuel mem madtHdr
  .ok (rsdt, info, log ++ found ++ [plainMsg "madt_hdr signature: %s\n" [madtHdr]] ++ parsed)

/-! ## What the firmware promises -/

/-- The tables an RSDT lists. -/
def rsdtTables (root : Word) : List Word :=
  (List.range (((sdtLength mem root).toNat - 36) / 4)).map fun i =>
    (read32 mem (root + sdtHeaderSize + BitVec.ofNat 64 (4 * i))).setWidth 64

/-- The tables an XSDT lists. -/
def xsdtTables (root : Word) : List Word :=
  (List.range (((sdtLength mem root).toNat - 36) / 8)).map fun i =>
    read64 mem (root + sdtHeaderSize + BitVec.ofNat 64 (8 * i))

/-- A root table with the signature `sig` and entries of `width` bytes, which list `tables`. -/
structure RootOk (root : Word) (sig : List Byte) (width : ℕ) (tables : List Word) : Prop where
  signature : ∀ i < 4, bytesAt mem root i = sig.getD i 0
  length : 36 ≤ (sdtLength mem root).toNat
  whole : ((sdtLength mem root).toNat - 36) % width = 0
  checksum : verifySdtChecksum mem root = true
  listed : ∀ t ∈ tables, t ≠ null

/-- A valid RSDP of revision 0 or 2 with the root tables it names. -/
structure FirmwareOk (rsdp : Word) : Prop where
  checksum : verifyRsdpChecksum mem rsdp = true
  revision : rsdpRevision mem rsdp = acpiV1 ∨ rsdpRevision mem rsdp = acpiV2
  rsdt : RootOk mem (p2v ((rsdtAddress mem rsdp).setWidth 64)) [0x52, 0x53, 0x44, 0x54] 4
    (rsdtTables mem (p2v ((rsdtAddress mem rsdp).setWidth 64)))
  xsdt : rsdpRevision mem rsdp = acpiV2 →
    RootOk mem (p2v (xsdtAddress mem rsdp)) [0x58, 0x53, 0x44, 0x54] 8
      (xsdtTables mem (p2v (xsdtAddress mem rsdp)))

/-- `tables` are the tables listed by the root table `rsdt` points to. -/
def RootLists (rsdp : Word) (rsdt : Rsdt) (tables : List Word) : Prop :=
  rsdt.sdtHdr = p2v ((rsdtAddress mem rsdp).setWidth 64) ∧ tables = rsdtTables mem rsdt.sdtHdr ∨
  rsdpRevision mem rsdp = acpiV2 ∧ rsdt.sdtHdr = p2v (xsdtAddress mem rsdp) ∧
    tables = xsdtTables mem rsdt.sdtHdr

/-- A string of four characters. -/
def IsSignature (sig : Word) : Prop := (∀ i < 4, bytesAt mem sig i ≠ 0) ∧ bytesAt mem sig 4 = 0

/-- The table has the signature `sig`. -/
def HasSignature (sig table : Word) : Prop := ∀ i < 4, bytesAt mem sig i = bytesAt mem table i

/-- The search goes over the tables of the selected root table, and finds what they hold. -/
structure RootAgrees (rsdp : Word) (rsdt : Rsdt) (tables : List Word) : Prop where
  lists : RootLists mem rsdp rsdt tables
  headers : ∀ t, t ∈ acpiHeaders mem rsdt ↔ t ∈ tables
  finds : ∀ sig, IsSignature mem sig → (∃ t ∈ tables, HasSignature mem sig t) →
    ∃ fuel t log, acpiFindTable mem fuel rsdt sig = .ok (t, log) ∧ t ∈ tables ∧
      HasSignature mem sig t

end Fields

/-! ## The search -/

variable {mem : Mem} {rsdp : Word}

/-- A root table in the higher half is not at `NULL`, nor are its entries. -/
theorem acpiRoot_ne_null : (acpiRoot mem rsdp).sdtHdr ≠ null ∧ (acpiRoot mem rsdp).tablePtr ≠ null := by
  unfold acpiRoot
  dsimp only
  have hlt := (rsdtAddress mem rsdp).isLt
  generalize rsdtAddress mem rsdp = a at hlt
  have hp : (p2v (a.setWidth 64)).toNat = a.toNat + 0xffff800000000000 := by
    unfold p2v
    rw [BitVec.toNat_add, BitVec.toNat_setWidth, show vaHhdm.toNat = 0xffff800000000000 from rfl]
    omega
  constructor
  · intro h
    rw [h] at hp
    change 0 = _ at hp
    omega
  · intro h
    have h' := congrArg BitVec.toNat h
    rw [BitVec.toNat_add, hp] at h'
    change (_ + 36) % _ = 0 at h'
    omega

/-- **The search finds a signature among its headers.** -/
theorem acpiFindTable_finds {rsdt : Rsdt} (hhdr : rsdt.sdtHdr ≠ null) (hptr : rsdt.tablePtr ≠ null)
    (hversion : rsdt.acpiVersion = acpiV1 ∨ rsdt.acpiVersion = acpiV2) {sig : Word}
    (hsig : IsSignature mem sig) (hex : ∃ t ∈ acpiHeaders mem rsdt, HasSignature mem sig t) :
    ∃ t log, acpiFindTable mem 5 rsdt sig = .ok (t, log) ∧ t ∈ acpiHeaders mem rsdt ∧
      HasSignature mem sig t := by
  obtain ⟨t, ht, hmatch⟩ := hex
  have hcmp : ∀ t, strncmp (bytesAt mem sig) (bytesAt mem t) 4 = 0 ↔ HasSignature mem sig t :=
    fun t => strncmp_eq_zero_of_ne hsig.1
  have hsome : ((acpiHeaders mem rsdt).find? fun sdtHdr =>
      strncmp (bytesAt mem sig) (bytesAt mem sdtHdr) 4 = 0).isSome := by
    rw [List.find?_isSome]
    exact ⟨t, ht, decide_eq_true ((hcmp t).mpr hmatch)⟩
  obtain ⟨t', ht'⟩ := Option.isSome_iff_exists.mp hsome
  refine ⟨t', [], ?_, List.mem_of_find?_eq_some ht', (hcmp t').mp ?_⟩
  · unfold acpiFindTable
    have hlen : strlen 5 (bytesAt mem sig) = .ok 4 := strlen_eq hsig.2 hsig.1 (by decide)
    have hver : ¬ (rsdt.acpiVersion ≠ acpiV1 ∧ rsdt.acpiVersion ≠ acpiV2) := by
      rintro ⟨h1, h2⟩
      exact hversion.elim h1 h2
    rw [if_neg hhdr, if_neg hptr, hlen]
    simp only [bind, Except.bind, ht']
    rw [if_neg (by decide), if_neg hver]
    rfl
  · have hfound := List.find?_some ht'
    exact of_decide_eq_true hfound

/-! ## Widths -/

/-- A 64-bit entry is two 32-bit ones. -/
theorem toNat_read64 (m : Mem) (a : Word) :
    (read64 m a).toNat = (read32 m (a + 4)).toNat * 2 ^ 32 + (read32 m a).toNat := by
  unfold read64 read32
  rw [show a + 4 + 3 = a + 7 by bv_omega, show a + 4 + 2 = a + 6 by bv_omega,
    show a + 4 + 1 = a + 5 by bv_omega, show a + 4 + 0 = a + 4 by bv_omega]
  simp only [toNat_append]
  omega

/-- The number of entries of a root table. -/
theorem sdtEntries_eq {root size : Word} (h : 36 ≤ (sdtLength mem root).toNat) :
    sdtEntries mem root size = ((sdtLength mem root).toNat - 36) / size.toNat := by
  unfold sdtEntries
  have hlt := (sdtLength mem root).isLt
  have hwide : ((sdtLength mem root).setWidth 64).toNat = (sdtLength mem root).toNat := by
    rw [BitVec.toNat_setWidth]
    omega
  have hsub : sdtHeaderSize ≤ (sdtLength mem root).setWidth 64 := by
    change 36 ≤ ((sdtLength mem root).setWidth 64).toNat
    omega
  rw [BitVec.toNat_udiv, BitVec.toNat_sub_of_le hsub, hwide]
  rfl

/-- On revision 0 the search goes over the tables of the RSDT. -/
theorem acpiHeaders_v1 (h : FirmwareOk mem rsdp) (hrev : rsdpRevision mem rsdp = acpiV1) :
    acpiHeaders mem (acpiRoot mem rsdp) =
      rsdtTables mem (p2v ((rsdtAddress mem rsdp).setWidth 64)) := by
  unfold acpiHeaders
  have hversion : (acpiRoot mem rsdp).acpiVersion = acpiV1 := hrev
  rw [if_pos hversion]
  change (List.range (sdtEntries mem (p2v ((rsdtAddress mem rsdp).setWidth 64)) 4)).map _ = _
  rw [sdtEntries_eq h.rsdt.length]
  rfl

/-- On revision 2 it goes over pairs of entries. -/
theorem acpiHeaders_v2 (h : FirmwareOk mem rsdp) (hrev : rsdpRevision mem rsdp = acpiV2) :
    acpiHeaders mem (acpiRoot mem rsdp) =
      xsdtTables mem (p2v ((rsdtAddress mem rsdp).setWidth 64)) := by
  unfold acpiHeaders
  have hversion : (acpiRoot mem rsdp).acpiVersion = acpiV2 := hrev
  rw [if_neg (by rw [hversion]; decide), if_pos hversion]
  change (List.range (sdtEntries mem (p2v ((rsdtAddress mem rsdp).setWidth 64)) 8)).map _ = _
  rw [sdtEntries_eq h.rsdt.length]
  rfl

/-- Every header is found on an empty RSDT, and on a revision 0 machine. -/
theorem acpiHeaders_eq (h : FirmwareOk mem rsdp) (hcond : rsdpRevision mem rsdp = acpiV1 ∨
      rsdtTables mem (p2v ((rsdtAddress mem rsdp).setWidth 64)) = []) :
    acpiHeaders mem (acpiRoot mem rsdp) =
      rsdtTables mem (p2v ((rsdtAddress mem rsdp).setWidth 64)) := by
  rcases h.revision with hrev | hrev
  · exact acpiHeaders_v1 h hrev
  · have hnil : rsdtTables mem (p2v ((rsdtAddress mem rsdp).setWidth 64)) = [] := by
      rcases hcond with hcond | hcond
      · rw [hrev] at hcond
        cases hcond
      · exact hcond
    rw [acpiHeaders_v2 h hrev, hnil]
    unfold xsdtTables
    unfold rsdtTables at hnil
    rw [List.map_eq_nil_iff, List.range_eq_nil] at hnil ⊢
    omega

/-- **On revision 2 the search leaves the RSDT**: it misses a lone entry, and the first two entries
together are an address beyond 4 GiB. -/
theorem acpiHeaders_v2_ne (h : FirmwareOk mem rsdp) (hrev : rsdpRevision mem rsdp = acpiV2)
    (hne : rsdtTables mem (p2v ((rsdtAddress mem rsdp).setWidth 64)) ≠ []) :
    ¬ ∀ t, t ∈ acpiHeaders mem (acpiRoot mem rsdp) ↔
      t ∈ rsdtTables mem (p2v ((rsdtAddress mem rsdp).setWidth 64)) := by
  intro hsame
  rw [acpiHeaders_v2 h hrev] at hsame
  have hlisted := h.rsdt.listed
  generalize p2v ((rsdtAddress mem rsdp).setWidth 64) = root at *
  have hcount : 1 ≤ ((sdtLength mem root).toNat - 36) / 4 := by
    unfold rsdtTables at hne
    rw [Ne, List.map_eq_nil_iff, List.range_eq_nil] at hne
    omega
  by_cases hone : ((sdtLength mem root).toNat - 36) / 8 = 0
  · have hfirst := (hsame _).mpr (List.mem_map.mpr ⟨0, List.mem_range.mpr hcount, rfl⟩)
    unfold xsdtTables at hfirst
    rw [hone] at hfirst
    exact List.not_mem_nil hfirst
  · have hpair := (hsame _).mp (List.mem_map.mpr ⟨0, List.mem_range.mpr (by omega), rfl⟩)
    obtain ⟨i, -, hi⟩ := List.mem_map.mp hpair
    have hsecond : (read32 mem (root + sdtHeaderSize + BitVec.ofNat 64 (4 * 1))).setWidth 64 ∈
        rsdtTables mem root := List.mem_map.mpr ⟨1, List.mem_range.mpr (by omega), rfl⟩
    have hnz := hlisted _ hsecond
    have hnat := congrArg BitVec.toNat hi
    rw [toNat_read64, BitVec.toNat_setWidth] at hnat
    have haddr : root + sdtHeaderSize + BitVec.ofNat 64 (8 * 0) + 4 =
        root + sdtHeaderSize + BitVec.ofNat 64 (4 * 1) := by bv_omega
    rw [haddr] at hnat
    have hpos : (read32 mem (root + sdtHeaderSize + BitVec.ofNat 64 (4 * 1))).toNat ≠ 0 := by
      intro h0
      apply hnz
      apply BitVec.eq_of_toNat_eq
      rw [BitVec.toNat_setWidth, h0]
      rfl
    have hsmall := (read32 mem (root + sdtHeaderSize + BitVec.ofNat 64 (4 * i))).isLt
    omega

/-- On revision 2 no list of tables is the one that is searched. -/
theorem acpiRoot_disagrees (h : FirmwareOk mem rsdp) (hrev : rsdpRevision mem rsdp = acpiV2)
    (hne : rsdtTables mem (p2v ((rsdtAddress mem rsdp).setWidth 64)) ≠ []) :
    ¬ ∃ tables, RootAgrees mem rsdp (acpiRoot mem rsdp) tables := by
  rintro ⟨tables, hlists, hheaders, -⟩
  rcases hlists with ⟨-, htables⟩ | ⟨-, hroot, -⟩
  · rw [htables] at hheaders
    exact acpiHeaders_v2_ne h hrev hne hheaders
  · -- the selected table is the RSDT, which is not an XSDT
    have h1 := h.rsdt.signature 0 (by decide)
    have h2 := (h.xsdt hrev).signature 0 (by decide)
    rw [← hroot] at h2
    exact absurd (h1.symm.trans h2) (by decide)

/-- **The root table and its entry width agree** exactly on revision 0, or when the RSDT is empty. -/
theorem acpiRoot_agrees_iff (h : FirmwareOk mem rsdp) :
    (∃ tables, RootAgrees mem rsdp (acpiRoot mem rsdp) tables) ↔
      rsdpRevision mem rsdp = acpiV1 ∨
        rsdtTables mem (p2v ((rsdtAddress mem rsdp).setWidth 64)) = [] := by
  constructor
  · intro hagrees
    by_contra hcond
    rw [not_or] at hcond
    exact acpiRoot_disagrees h (h.revision.resolve_left hcond.1) hcond.2 hagrees
  · intro hcond
    have hheaders := acpiHeaders_eq h hcond
    refine ⟨_, Or.inl ⟨rfl, rfl⟩, fun t => by rw [hheaders]; rfl, ?_⟩
    intro sig hsig hex
    rw [show (acpiRoot mem rsdp).sdtHdr = p2v ((rsdtAddress mem rsdp).setWidth 64) from rfl,
      ← hheaders] at hex ⊢
    obtain ⟨t, log, hok, ht, hmatch⟩ := acpiFindTable_finds acpiRoot_ne_null.1 acpiRoot_ne_null.2
      h.revision hsig hex
    exact ⟨5, t, log, hok, ht, hmatch⟩

/-! ## A firmware with two tables -/

/-- An RSDP at `0x800` with an RSDT and an XSDT that both list a FADT at `0x3000` and a MADT at
`0x4000`; the string `"APIC"` is at `0x500`. -/
def firmware (revision : Byte) : Mem := fun a =>
  let chunks : List (Word × List Byte) :=
    [(0x800, [0x52, 0x53, 0x44, 0x20, 0x50, 0x54, 0x52, 0x20, 0xd1 - revision, 0, 0, 0, 0, 0, 0,
      revision, 0, 0x10, 0, 0, 36, 0, 0, 0, 0, 0x20, 0, 0, 0, 0, 0, 0, 0xbc, 0, 0, 0]),
    (p2v 0x1000, [0x52, 0x53, 0x44, 0x54, 44, 0, 0, 0, 1, 0x26] ++ List.replicate 26 0 ++
      [0, 0x30, 0, 0, 0, 0x40, 0, 0]),
    (p2v 0x2000, [0x58, 0x53, 0x44, 0x54, 52, 0, 0, 0, 1, 0x18] ++ List.replicate 26 0 ++
      [0, 0x30, 0, 0, 0, 0, 0, 0, 0, 0x40, 0, 0, 0, 0, 0, 0]),
    (0x3000, [0x46, 0x41, 0x43, 0x50]), (0x4000, [0x41, 0x50, 0x49, 0x43]),
    (0x500, [0x41, 0x50, 0x49, 0x43])]
  (chunks.findSome? fun c => c.2[(a - c.1).toNat]?).getD 0

theorem firmware_listed : ∀ t ∈ ([0x3000, 0x4000] : List Word), t ≠ null := by
  rw [List.forall_mem_cons, List.forall_mem_singleton]
  decide

theorem firmware_rsdt {revision : Byte} (h : revision = acpiV1 ∨ revision = acpiV2) :
    p2v ((rsdtAddress (firmware revision) 0x800).setWidth 64) = p2v 0x1000 ∧
    rsdtTables (firmware revision) (p2v 0x1000) = [0x3000, 0x4000] ∧
    RootOk (firmware revision) (p2v 0x1000) [0x52, 0x53, 0x44, 0x54] 4 [0x3000, 0x4000] := by
  rcases h with rfl | rfl
  · exact ⟨by decide +kernel, by decide +kernel, by decide +kernel, by decide +kernel,
      by decide +kernel, by decide +kernel, firmware_listed⟩
  · exact ⟨by decide +kernel, by decide +kernel, by decide +kernel, by decide +kernel,
      by decide +kernel, by decide +kernel, firmware_listed⟩

theorem firmware_xsdt : p2v (xsdtAddress (firmware acpiV2) 0x800) = p2v 0x2000 ∧
    xsdtTables (firmware acpiV2) (p2v 0x2000) = [0x3000, 0x4000] ∧
    RootOk (firmware acpiV2) (p2v 0x2000) [0x58, 0x53, 0x44, 0x54] 8 [0x3000, 0x4000] :=
  ⟨by decide +kernel, by decide +kernel, by decide +kernel, by decide +kernel, by decide +kernel,
    by decide +kernel, firmware_listed⟩

theorem firmware_revision {revision : Byte} (h : revision = acpiV1 ∨ revision = acpiV2) :
    rsdpRevision (firmware revision) 0x800 = revision ∧
    verifyRsdpChecksum (firmware revision) 0x800 = true := by
  rcases h with rfl | rfl
  · exact ⟨by decide +kernel, by decide +kernel⟩
  · exact ⟨by decide +kernel, by decide +kernel⟩

theorem firmware_ok {revision : Byte} (h : revision = acpiV1 ∨ revision = acpiV2) :
    FirmwareOk (firmware revision) 0x800 := by
  obtain ⟨hrev, hsum⟩ := firmware_revision h
  obtain ⟨hroot, htables, hrsdt⟩ := firmware_rsdt h
  constructor
  case checksum => exact hsum
  case revision =>
    rw [hrev]
    exact h
  case rsdt =>
    rw [hroot, htables]
    exact hrsdt
  case xsdt =>
    intro hv2
    rw [hrev] at hv2
    subst hv2
    obtain ⟨hroot, htables, hxsdt⟩ := firmware_xsdt
    rw [hroot, htables]
    exact hxsdt

theorem acpiRoot_agrees_v1 : ∃ tables,
    RootAgrees (firmware acpiV1) 0x800 (acpiRoot (firmware acpiV1) 0x800) tables :=
  (acpiRoot_agrees_iff (firmware_ok (Or.inl rfl))).mpr
    (Or.inl (firmware_revision (Or.inl rfl)).1)

/-- On revision 2 the MADT is listed and not found. -/
theorem acpiRoot_misses_madt : FirmwareOk (firmware acpiV2) 0x800 ∧
    0x4000 ∈ rsdtTables (firmware acpiV2) (p2v 0x1000) ∧
    IsSignature (firmware acpiV2) 0x500 ∧ HasSignature (firmware acpiV2) 0x500 0x4000 ∧
    acpiFindTable (firmware acpiV2) 5 ⟨p2v 0x1000, acpiV2, p2v 0x1024⟩ 0x500 =
      .ok (null, [warningMsg "[acpi_find_table] table was not found\n"]) ∧
    acpiRoot (firmware acpiV2) 0x800 = ⟨p2v 0x1000, acpiV2, p2v 0x1024⟩ ∧
    ¬ ∃ tables, RootAgrees (firmware acpiV2) 0x800 (acpiRoot (firmware acpiV2) 0x800) tables := by
  have hok := @firmware_ok acpiV2 (Or.inr rfl)
  obtain ⟨hroot, htables, -⟩ := @firmware_rsdt acpiV2 (Or.inr rfl)
  refine ⟨hok, ?_, ?_, ?_, by decide +kernel, by decide +kernel, ?_⟩
  · rw [htables]
    decide
  · unfold IsSignature
    decide +kernel
  · unfold HasSignature
    decide +kernel
  · refine acpiRoot_disagrees hok (firmware_revision (Or.inr rfl)).1 ?_
    rw [hroot, htables]
    exact List.cons_ne_nil _ _

end Cerberos
