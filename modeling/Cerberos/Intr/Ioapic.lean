/-
# Cerberos.Intr.Ioapic — the IO APICs (`intr/ioapic.c`, and their part of `intr/apic.c`).

`apic_init` registers the IO APICs of the MADT in an array indexed by their id and then routes the
interrupt source overrides. An IO APIC is reached through two memory-mapped words, IOREGSEL and IOWIN:
a store to the first selects a register, a load or store of the second reads or writes it. The model
keeps the devices by the address of their IOREGSEL, and as a ghost the register writes in order.

`ioapic_set_gsi` takes the registered IO APIC with the HIGHEST id whose `gsi_base` is below the GSI,
and the entry number `irq_src`. The claim of the MADT is another one: the IO APIC whose range of GSIs
contains the GSI, and the entry `gsi - gsi_base`.
-/
import Cerberos.Acpi.Madt

namespace Cerberos

open Cerberos.Base

/-! ## The devices -/

/-- `IOWIN`, from the address of IOREGSEL. -/
abbrev ioWin : BitVec 32 := 0x10

/-- `IOAPICVER`. -/
abbrev ioapicVer : Byte := 1

/-- The register file of an IO APIC and the register selected in it. -/
structure IoDevice where
  select : Byte
  regs : Byte → BitVec 32

/-- A store to register `reg` of the device at `dev`. -/
structure RegWrite where
  dev : Word
  reg : Byte
  val : BitVec 32
  deriving DecidableEq, Repr

/-- `ioapic_t`. -/
structure Ioapic where
  present : Bool
  ioapicId : Byte
  ioregsel : Word
  iowin : Word
  gsiBase : BitVec 32
  redtblEntries : BitVec 32
  deriving DecidableEq, Repr

/-- `MAX_IOAPICS`. -/
abbrev maxIoapics : ℕ := 16

/-- The static state of `ioapic.c` and `apic.c` with the devices, the ghost of their register writes
and the console. -/
structure Apic where
  ioapics : ℕ → Ioapic
  bspLapicId : BitVec 32
  bspLapicIdValid : Bool
  ioApicValid : Bool
  devs : Word → Option IoDevice
  writes : List RegWrite
  log : List LogMsg

/-- The static initialisers. -/
def Apic.static (devs : Word → Option IoDevice) : Apic where
  ioapics := fun _ => ⟨false, 0, null, null, 0, 0⟩
  bspLapicId := 0
  bspLapicIdValid := false
  ioApicValid := false
  devs := devs
  writes := []
  log := []

/-- `*ptr = val` for a pointer to a device. -/
def mmioStore (s : Apic) (ptr : Word) (val : BitVec 32) : Apic :=
  match s.devs ptr with
  | some d => { s with devs := Function.update s.devs ptr (some { d with select := val.setWidth 8 }) }
  | none =>
    match s.devs (ptr - ioWin.setWidth 64) with
    | some d =>
      { s with
        devs := Function.update s.devs (ptr - ioWin.setWidth 64)
          (some { d with regs := Function.update d.regs d.select val })
        writes := s.writes ++ [⟨ptr - ioWin.setWidth 64, d.select, val⟩] }
    | none => s

/-- `*ptr` for a pointer to a device; a load that no device answers reads ones. -/
def mmioLoad (s : Apic) (ptr : Word) : BitVec 32 :=
  match s.devs ptr with
  | some d => d.select.setWidth 32
  | none =>
    match s.devs (ptr - ioWin.setWidth 64) with
    | some d => d.regs d.select
    | none => -1

/-- `is_registered(ioapic_id)`. -/
def isRegistered (s : Apic) (id : Byte) : Bool :=
  id.toNat < maxIoapics && (s.ioapics id.toNat).present

/-- `ioapic_read(id, reg)`. -/
def ioapicRead (s : Apic) (id reg : Byte) : BitVec 32 × Apic :=
  if isRegistered s id = false then
    (0, { s with log := s.log ++ [errorMsg
      "[ioapic_read] io apic read either with invalid id %u or io apic is not present\n"
      [id.setWidth 64]] })
  else
    let s := mmioStore s (s.ioapics id.toNat).ioregsel (reg.setWidth 32)
    (mmioLoad s (s.ioapics id.toNat).iowin, s)

/-- `ioapic_write(id, reg, val)`. -/
def ioapicWrite (s : Apic) (id reg : Byte) (val : BitVec 32) : Apic :=
  if isRegistered s id = false then
    { s with log := s.log ++ [errorMsg
      "[ioapic_write] io apic read either with invalid id %u or io apic is not present\n"
      [id.setWidth 64]] }
  else
    let s := mmioStore s (s.ioapics id.toNat).ioregsel (reg.setWidth 32)
    mmioStore s (s.ioapics id.toNat).iowin val

/-! ## Registration -/

/-- `madt_ioapic_t`. -/
structure MadtIoapic where
  ioApicId : Byte
  ioApicAddr : BitVec 32
  gsiBase : BitVec 32
  deriving DecidableEq, Repr

/-- The entry at `entry`. -/
def madtIoapicAt (mem : Mem) (entry : Word) : MadtIoapic where
  ioApicId := mem (entry + 2)
  ioApicAddr := read32 mem (entry + 4)
  gsiBase := read32 mem (entry + 8)

/-- `((ioapic_ver_reg_t) ver).max_redtbl_entry + 1`. -/
def redtblCount (ver : BitVec 32) : BitVec 32 := (ver.extractLsb' 16 8).setWidth 32 + 1

/-- `ioapic_register(ioapic)`. -/
def ioapicRegister (s : Apic) (ioapic : MadtIoapic) : Res Apic :=
  let id := ioapic.ioApicId
  if id.toNat < maxIoapics then
    let record : Ioapic :=
      { (s.ioapics id.toNat) with
        present := true
        ioapicId := id
        ioregsel := ioapic.ioApicAddr.setWidth 64
        iowin := (ioapic.ioApicAddr + ioWin).setWidth 64
        gsiBase := ioapic.gsiBase }
    let (ver, s) := ioapicRead { s with ioapics := Function.update s.ioapics id.toNat record } id
      ioapicVer
    let record := { (s.ioapics id.toNat) with redtblEntries := redtblCount ver }
    .ok { s with ioapics := Function.update s.ioapics id.toNat record }
  else .error .fault

/-- The loop of `apic_init` over the IO APICs. -/
def ioapicRegisterAll (s : Apic) : List MadtIoapic → Res Apic
  | [] => .ok s
  | ioapic :: rest => do
    let s ← ioapicRegister s ioapic
    ioapicRegisterAll s rest

/-! ## Overrides -/

/-- `madt_intr_src_override_t`. -/
structure MadtOverride where
  irqSrc : Byte
  gsi : BitVec 32
  flags : BitVec 16
  deriving DecidableEq, Repr

/-- The entry at `entry`. -/
def madtOverrideAt (mem : Mem) (entry : Word) : MadtOverride where
  irqSrc := mem (entry + 3)
  gsi := read32 mem (entry + 4)
  flags := read16 mem (entry + 8)

/-- `ioapic_gsi_pin_polarity(flags)`: low (1) or high (0). -/
def ioapicGsiPinPolarity (flags : Byte) : BitVec 1 := if flags &&& 2 ≠ 0 then 1 else 0

/-- `ioapic_gsi_trigger_mode(flags)`: level (1) or edge (0). -/
def ioapicGsiTriggerMode (flags : Byte) : BitVec 1 := if flags &&& 8 ≠ 0 then 1 else 0

/-- The bit fields of `redtbl_entry_t`. -/
structure RedtblEntry where
  vector : Byte
  deliveryMode : BitVec 3
  destMode : BitVec 1
  deliveryStatus : BitVec 1
  pinPolarity : BitVec 1
  remoteIrr : BitVec 1
  triggerMode : BitVec 1
  interruptMask : BitVec 1
  reserved : BitVec 39
  destination : Byte
  deriving DecidableEq, Repr

/-- The fields as one word, the first field lowest. -/
def RedtblEntry.raw (e : RedtblEntry) : BitVec 64 :=
  e.destination ++ e.reserved ++ e.interruptMask ++ e.triggerMode ++ e.remoteIrr ++ e.pinPolarity ++
    e.deliveryStatus ++ e.destMode ++ e.deliveryMode ++ e.vector

/-- `low_raw`. -/
def RedtblEntry.lowRaw (e : RedtblEntry) : BitVec 32 := e.raw.extractLsb' 0 32

/-- `high_raw`. -/
def RedtblEntry.highRaw (e : RedtblEntry) : BitVec 32 := e.raw.extractLsb' 32 32

/-- `IOREDTBL_REG_LOW(entry)`, as the `uint8_t` it is passed as. -/
def ioredtblRegLow (entry : ℕ) : Byte := BitVec.ofNat 8 (0x10 + 2 * entry)

/-- `IOREDTBL_REG_HIGH(entry)`. -/
def ioredtblRegHigh (entry : ℕ) : Byte := BitVec.ofNat 8 (0x10 + 2 * entry + 1)

/-- `ioapic_set_irq(ioapic_id, irq, entry)`. -/
def ioapicSetIrq (s : Apic) (id irq : Byte) (entry : RedtblEntry) : Apic :=
  if isRegistered s id = false then
    { s with log := s.log ++ [errorMsg
      "[ioapic_set_irq] io apic read either with invalid id %u or io apic is not present\n"
      [id.setWidth 64]] }
  else
    let s := ioapicWrite s id (ioredtblRegHigh irq.toNat) entry.highRaw
    ioapicWrite s id (ioredtblRegLow irq.toNat) entry.lowRaw

/-- `bsp_lapic_id()`. -/
def bspLapicId (s : Apic) : BitVec 32 × Apic :=
  if s.bspLapicIdValid = false then
    (0, { s with log := s.log ++ [warningMsg
      "[bsp_lapic_id] woops! looks like the bsp_lapic_id hasn't been setup yet :(\n"] })
  else (s.bspLapicId, s)

/-- The IO APIC at `i` can take the GSI, in the test of `ioapic_set_gsi`. -/
def takesGsi (s : Apic) (gsi : BitVec 32) (i : ℕ) : Bool :=
  (s.ioapics i).present && (s.ioapics i).gsiBase < gsi

/-- The loop of `ioapic_set_gsi` over the first `n` IO APICs. -/
def ioapicForGsi (s : Apic) (gsi : BitVec 32) : ℕ → Byte
  | 0 => -1
  | n + 1 => if takesGsi s gsi n then BitVec.ofNat 8 n else ioapicForGsi s gsi n

/-- `INTR_DEV_OFFSET`. -/
abbrev intrDevOffset : Byte := 0x20

/-- `ioapic_set_gsi(override)`; `entry` is what the uninitialised local holds. -/
def ioapicSetGsi (s : Apic) (override : MadtOverride) (entry : RedtblEntry) : Apic :=
  let id := ioapicForGsi s override.gsi maxIoapics
  if maxIoapics ≤ id.toNat then
    { s with log := s.log ++ [errorMsg
      "[ioapic_set_gsi] no io apic with low enough GSI was found. Interrupt source override GSI: %u\n"
      [override.gsi.setWidth 64]] }
  else
    let (destination, s) := bspLapicId s
    ioapicSetIrq s id override.irqSrc
      { entry with
        vector := intrDevOffset + override.irqSrc
        deliveryMode := 0
        destMode := 0
        pinPolarity := ioapicGsiPinPolarity (override.flags.setWidth 8)
        triggerMode := ioapicGsiTriggerMode (override.flags.setWidth 8)
        interruptMask := 1
        destination := destination.setWidth 8 }

/-- The loop of `apic_init` over the overrides, each with what its local holds. -/
def ioapicSetAll (s : Apic) (overrides : List (MadtOverride × RedtblEntry)) : Apic :=
  overrides.foldl (fun s o => ioapicSetGsi s o.1 o.2) s

/-- The array of pointers the MADT walk left, every slot of it stored. -/
def madtPointers : List (Option Word) → Res (List Word)
  | [] => .ok []
  | none :: _ => .error .fault
  | some entry :: rest => do
    let rest ← madtPointers rest
    .ok (entry :: rest)

/-- `apic_init(handover)` up to the local APIC of the processor: `smpTag` is the `bsp_lapic_id` of the
SMP tag, `locals` what the uninitialised locals of the overrides hold. -/
def apicInit (s : Apic) (mem : Mem) (smpTag : Option (BitVec 32)) (info : MadtInfo)
    (locals : ℕ → RedtblEntry) : Res Apic := do
  let s ← if s.bspLapicIdValid then .ok s else
    match smpTag with
    | none => .error (.panic "[apic_init] smp struct from bootloader could not be found\n" [])
    | some id => .ok { s with bspLapicId := id, bspLapicIdValid := true }
  if s.ioApicValid then .ok s else
    let s := { s with log := s.log ++ [plainMsg "[apic_init] enabling io apics ...\n"] }
    let ioapics ← madtPointers (info.list .ioapic)
    let s ← ioapicRegisterAll s (ioapics.map (madtIoapicAt mem))
    let overrides ← madtPointers (info.list .intrSrcOverride)
    let s := ioapicSetAll s (overrides.mapIdx fun i entry => (madtOverrideAt mem entry, locals i))
    .ok { s with ioApicValid := true }

/-! ## What the MADT says -/

/-- The address of a registered IO APIC. -/
def MadtIoapic.base (ioapic : MadtIoapic) : Word := ioapic.ioApicAddr.setWidth 64

/-- The number of redirection entries of the device at `base`. -/
def pinsAt (devs : Word → Option IoDevice) (base : Word) : ℕ :=
  match devs base with
  | some d => (redtblCount (d.regs ioapicVer)).toNat
  | none => 0

/-- The GSI lies in the range of the IO APIC. -/
def MadtIoapic.Serves (devs : Word → Option IoDevice) (ioapic : MadtIoapic) (gsi : ℕ) : Prop :=
  ioapic.gsiBase.toNat ≤ gsi ∧ gsi < ioapic.gsiBase.toNat + pinsAt devs ioapic.base

/-- IO APICs as the MADT lists them: distinct ids below 16, each a device of its own, and disjoint ranges
of GSIs. -/
structure IoapicsOk (devs : Word → Option IoDevice) (ioapics : List MadtIoapic) : Prop where
  ids : (ioapics.map fun i => i.ioApicId).Nodup
  small : ∀ i ∈ ioapics, i.ioApicId.toNat < 16
  bases : (ioapics.map MadtIoapic.base).Nodup
  device : ∀ i ∈ ioapics, (devs i.base).isSome ∧ devs (i.base + ioWin.setWidth 64) = none
  window : ∀ i ∈ ioapics, i.ioApicAddr.toNat + 0x10 < 2 ^ 32
  ranges : ioapics.Pairwise fun i j => ∀ gsi, i.Serves devs gsi → ¬ j.Serves devs gsi

/-- Redirection entry `pin` of the device at `base`. -/
def redtblAt (devs : Word → Option IoDevice) (base : Word) (pin : ℕ) : Option (BitVec 64) :=
  (devs base).map fun d => d.regs (ioredtblRegHigh pin) ++ d.regs (ioredtblRegLow pin)

/-- The entry is what the override asks for: its vector, masked, with its polarity and trigger mode. -/
structure RedtblEntry.IsFor (entry : RedtblEntry) (o : MadtOverride) : Prop where
  vector : entry.vector = intrDevOffset + o.irqSrc
  masked : entry.interruptMask = 1
  polarity : entry.pinPolarity = if o.flags.getLsbD 1 then 1 else 0
  trigger : entry.triggerMode = if o.flags.getLsbD 3 then 1 else 0

/-- The override is routed to entry `pin` of `c`: the entry has its registers (the last register is
`0xff`), these two are the only ones written, with an entry as the override asks for, and no other entry
changes. -/
structure Routed (s s' : Apic) (c : MadtIoapic) (o : MadtOverride) (pin : ℕ) (entry : RedtblEntry) :
    Prop where
  asked : entry.IsFor o
  registers : pin < 120
  writes : s'.writes = s.writes ++
    [⟨c.base, ioredtblRegHigh pin, entry.highRaw⟩, ⟨c.base, ioredtblRegLow pin, entry.lowRaw⟩]
  stored : redtblAt s'.devs c.base pin = some entry.raw
  others : ∀ base p, p < 120 → (base, p) ≠ (c.base, pin) →
    redtblAt s'.devs base p = redtblAt s.devs base p

end Cerberos
