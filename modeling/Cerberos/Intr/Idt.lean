/-
# Cerberos.Intr.Idt — the interrupt descriptor table (`intr/idt.c`, `intr/interrupt.c`).

A gate scatters the address of its service routine over three bit-fields, and the processor puts it
together again from the sixteen bytes of the gate. `idt_init` fills all 256 gates from the table
`isr_addr_table` that `interrupt.S` exports; `register_intr_handler` replaces one routine. It writes the
table AS WELL AS the gate, so a registration is not undone by an `idt_init` that comes later.

The processor accepts a gate only if its selector names a 64-bit code segment, which is a matter of the
GDT: `gdt_init` puts one where `KERNEL_CS` says.
-/
import Cerberos.Mm.Gdt
import Cerberos.Base.Fields

namespace Cerberos

open Cerberos.Base

/-! ## The table -/

/-- `idt_desc_t`. -/
structure IdtDesc where
  isrLow : BitVec 16
  segSel : BitVec 16
  ist : Byte
  attributes : Byte
  isrMid : BitVec 16
  isrHigh : BitVec 32
  reserve2 : BitVec 32
  deriving DecidableEq, Repr

/-- The sixteen bytes of a descriptor, the first field lowest. -/
def IdtDesc.raw (d : IdtDesc) : BitVec 128 :=
  d.reserve2 ++ d.isrHigh ++ d.isrMid ++ d.attributes ++ d.ist ++ d.segSel ++ d.isrLow

/-- `KERNEL_CS`. -/
abbrev kernelCs : BitVec 16 := 0x08

/-- `IDT_MAX_ENTRIES`. -/
abbrev idtMaxEntries : ℕ := 256

/-- `INT_GATE`, `PL0` and `PRESENT`. -/
abbrev intGate : Byte := 0x0e
abbrev pl0 : Byte := 0x00
abbrev idtPresent : Byte := 0x80

/-- `isr_addr_table`, `idt`, `idt_info` and whether the processor has loaded it. -/
structure Idt where
  isrAddrTable : Byte → Word
  idt : Byte → IdtDesc
  size : BitVec 16
  address : Word
  loaded : Bool

/-- The static initialisers; the linker fills `isr_addr_table`. -/
def Idt.static (stubs : Byte → Word) : Idt where
  isrAddrTable := stubs
  idt := fun _ => ⟨0, 0, 0, 0, 0, 0, 0⟩
  size := 0
  address := 0
  loaded := false

/-- `idt_set_descriptor(vector, isr, attributes)`. -/
def idtSetDescriptor (t : Idt) (vector : Byte) (isr : Word) (attributes : Byte) : Idt :=
  { t with
    idt := Function.update t.idt vector
      { isrLow := (isr &&& 0xffff).setWidth 16
        segSel := kernelCs
        ist := 0
        attributes := attributes
        isrMid := ((isr >>> 16) &&& 0xffff).setWidth 16
        isrHigh := ((isr >>> 32) &&& 0xffffffff).setWidth 32
        reserve2 := 0 } }

/-- The loop of `idt_init` after `n` rounds. -/
def idtFill (t : Idt) : ℕ → Idt
  | 0 => t
  | n + 1 =>
    let t := idtFill t n
    idtSetDescriptor t (BitVec.ofNat 8 n) (t.isrAddrTable (BitVec.ofNat 8 n))
      (intGate ||| pl0 ||| idtPresent)

/-- `idt_init()`, with the array at `address`. -/
def idtInit (t : Idt) (address : Word) : Idt :=
  let t := { t with address := address, size := BitVec.ofNat 16 (16 * idtMaxEntries - 1) }
  { idtFill t idtMaxEntries with loaded := true }

/-- `register_intr_handler(handler, irq_num)`. -/
def registerIntrHandler (t : Idt) (handler : Word) (irqNum : Byte) : Idt :=
  let t := { t with isrAddrTable := Function.update t.isrAddrTable irqNum handler }
  idtSetDescriptor t irqNum (t.isrAddrTable irqNum) (intGate ||| pl0 ||| idtPresent)

/-! ## What the processor reads -/

/-- A gate as the processor takes it apart. -/
structure Gate where
  offset : Word
  selector : BitVec 16
  ist : BitVec 3
  type : BitVec 4
  system : BitVec 1
  dpl : BitVec 2
  present : BitVec 1
  deriving DecidableEq, Repr

/-- The fields of a 64-bit gate. -/
def decodeGate (raw : BitVec 128) : Gate where
  offset := raw.extractLsb' 64 32 ++ raw.extractLsb' 48 16 ++ raw.extractLsb' 0 16
  selector := raw.extractLsb' 16 16
  ist := raw.extractLsb' 32 3
  type := raw.extractLsb' 40 4
  system := raw.extractLsb' 44 1
  dpl := raw.extractLsb' 45 2
  present := raw.extractLsb' 47 1

/-- The gate of a vector: `none` if it lies beyond the limit of the table. -/
def fetchGate (t : Idt) (vector : Byte) : Option Gate :=
  if t.loaded ∧ 16 * vector.toNat + 15 ≤ t.size.toNat then some (decodeGate (t.idt vector).raw)
  else none

/-- An interrupt gate of the kernel that leads to `isr`. -/
def kernelGate (isr : Word) : Gate := ⟨isr, kernelCs, 0, 0xe, 0, 0, 1⟩

/-- A segment the processor can run 64-bit kernel code in: a present code segment of ring 0 with the long
mode flag and without the 32-bit one. -/
def SegDesc.LongCode (d : SegDesc) : Prop :=
  d.access.getLsbD 7 = true ∧ d.access.extractLsb' 5 2 = 0 ∧ d.access.getLsbD 4 = true ∧
    d.access.getLsbD 3 = true ∧ d.flags.getLsbD 1 = true ∧ d.flags.getLsbD 2 = false

instance (d : SegDesc) : Decidable d.LongCode := by
  unfold SegDesc.LongCode
  infer_instance

/-! ## One gate -/

/-- The fields of a descriptor, as the processor sees them. -/
theorem decodeGate_raw (d : IdtDesc) : decodeGate d.raw =
    ⟨d.isrHigh ++ d.isrMid ++ d.isrLow, d.segSel, d.ist.extractLsb' 0 3, d.attributes.extractLsb' 0 4,
      d.attributes.extractLsb' 4 1, d.attributes.extractLsb' 5 2, d.attributes.extractLsb' 7 1⟩ := by
  unfold decodeGate IdtDesc.raw
  simp (disch := decide) only [extract_append_high, extract_append_low, Nat.reduceSub,
    BitVec.extractLsb'_eq_self]

/-- The descriptor `idt_set_descriptor` writes for the kernel. -/
def idtDescFor (isr : Word) : IdtDesc where
  isrLow := (isr &&& 0xffff).setWidth 16
  segSel := kernelCs
  ist := 0
  attributes := intGate ||| pl0 ||| idtPresent
  isrMid := ((isr >>> 16) &&& 0xffff).setWidth 16
  isrHigh := ((isr >>> 32) &&& 0xffffffff).setWidth 32
  reserve2 := 0

/-- **The processor gets back the address of the routine**, and an interrupt gate of ring 0. -/
theorem decodeGate_idtDescFor (isr : Word) : decodeGate (idtDescFor isr).raw = kernelGate isr := by
  have hoffset : (idtDescFor isr).isrHigh ++ (idtDescFor isr).isrMid ++ (idtDescFor isr).isrLow =
      isr := by
    unfold idtDescFor
    dsimp only
    rw [shift_mask_extract isr 0xffffffff 32 32 rfl, shift_mask_extract isr 0xffff 16 16 rfl,
      mask_extract isr 0xffff 16 rfl]
    rw [BitVec.extractLsb'_append_extractLsb'_eq_extractLsb' (show 32 = 16 + 16 from rfl),
      BitVec.extractLsb'_append_extractLsb'_eq_extractLsb' (show 16 = 0 + 16 from rfl),
      BitVec.extractLsb'_eq_self]
  rw [decodeGate_raw, hoffset]
  unfold kernelGate idtDescFor
  rw [Gate.mk.injEq]
  refine ⟨rfl, rfl, ?_⟩
  dsimp only
  decide

/-! ## Runs -/

/-- A call that changes the table. -/
inductive IdtOp where
  | init (address : Word)
  | register (handler : Word) (irqNum : Byte)
  deriving DecidableEq, Repr

/-- One call. -/
def Idt.step (t : Idt) : IdtOp → Idt
  | .init address => idtInit t address
  | .register handler irqNum => registerIntrHandler t handler irqNum

/-- A sequence of calls. -/
def Idt.run (t : Idt) (ops : List IdtOp) : Idt := ops.foldl Idt.step t

/-- What a call makes of the assignment of routines to vectors: only registrations count. -/
def IdtOp.apply (routes : Byte → Word) : IdtOp → Byte → Word
  | .init _ => routes
  | .register handler irqNum => Function.update routes irqNum handler

/-- The routine of each vector after a sequence of calls: the LAST one that was registered, or the stub
of `interrupt.S`. -/
def routesAfter (stubs : Byte → Word) (ops : List IdtOp) : Byte → Word :=
  ops.foldl IdtOp.apply stubs

theorem idtSetDescriptor_kernel (t : Idt) (vector : Byte) (isr : Word) :
    idtSetDescriptor t vector isr (intGate ||| pl0 ||| idtPresent) =
      { t with idt := Function.update t.idt vector (idtDescFor isr) } := rfl

/-- The rounds of `idt_init` fill the gates from below. -/
theorem idtFill_spec (t : Idt) : ∀ n ≤ 256,
    idtFill t n = { t with
      idt := fun v => if v.toNat < n then idtDescFor (t.isrAddrTable v) else t.idt v } := by
  intro n
  induction n with
  | zero =>
      intro _
      rfl
  | succ n ih =>
      intro hn
      unfold idtFill
      dsimp only
      rw [ih (by omega), idtSetDescriptor_kernel]
      dsimp only
      congr 1
      funext v
      by_cases hv : v = BitVec.ofNat 8 n
      · have hlt : v.toNat < n + 1 := by
          rw [hv, BitVec.toNat_ofNat]
          omega
        rw [if_pos hlt, hv, Function.update_self]
      · have hne : v.toNat ≠ n := by
          intro heq
          apply hv
          rw [← heq, BitVec.ofNat_toNat, BitVec.setWidth_eq]
        rw [Function.update_of_ne hv]
        by_cases hlt : v.toNat < n
        · rw [if_pos hlt, if_pos (by omega)]
        · rw [if_neg hlt, if_neg (by omega)]

/-- `idt_init` fills every gate. -/
theorem idtInit_eq (t : Idt) (address : Word) : idtInit t address =
    { t with
      idt := fun v => idtDescFor (t.isrAddrTable v)
      size := 4095
      address := address
      loaded := true } := by
  unfold idtInit
  dsimp only
  rw [idtFill_spec _ 256 (Nat.le_refl 256)]
  congr 1
  funext v
  exact if_pos v.isLt

/-- The table agrees with the assignment `routes`, and so does every gate written so far; once the table
is loaded that is all of them. -/
structure Routes (routes : Byte → Word) (t : Idt) : Prop where
  table : t.isrAddrTable = routes
  limit : t.loaded = true → t.size = 4095
  gates : t.loaded = true → ∀ v, t.idt v = idtDescFor (routes v)

theorem Routes.static (stubs : Byte → Word) : Routes stubs (Idt.static stubs) := by
  refine ⟨rfl, ?_, ?_⟩
  · intro h
    cases h
  · intro h
    cases h

/-- **One call.** -/
theorem Routes.step {routes : Byte → Word} {t : Idt} (h : Routes routes t) (op : IdtOp) :
    Routes (op.apply routes) (t.step op) := by
  cases op with
  | init address =>
      unfold Idt.step
      dsimp only
      rw [idtInit_eq]
      refine ⟨h.table, fun _ => rfl, ?_⟩
      intro _ v
      exact congrArg idtDescFor (congrFun h.table v)
  | register handler irqNum =>
      unfold Idt.step registerIntrHandler
      dsimp only
      rw [idtSetDescriptor_kernel, h.table, Function.update_self]
      refine ⟨rfl, h.limit, ?_⟩
      intro hloaded v
      dsimp only [IdtOp.apply]
      by_cases hv : v = irqNum
      · rw [hv, Function.update_self, Function.update_self]
      · rw [Function.update_of_ne hv, Function.update_of_ne hv]
        exact h.gates hloaded v

/-- **Every run of calls.** -/
theorem Routes.run {routes : Byte → Word} {t : Idt} (h : Routes routes t) (ops : List IdtOp) :
    Routes (routesAfter routes ops) (t.run ops) := by
  induction ops generalizing routes t with
  | nil => exact h
  | cons op ops ih => exact ih (h.step op)

/-- The table stays loaded. -/
theorem Idt.run_loaded {ops : List IdtOp} : ∀ {t : Idt},
    (t.loaded = true ∨ ∃ address, IdtOp.init address ∈ ops) → (t.run ops).loaded = true := by
  induction ops with
  | nil =>
      rintro t (h | ⟨address, h⟩)
      · exact h
      · cases h
  | cons op ops ih =>
      intro t h
      refine ih ?_
      cases op with
      | init address =>
          refine Or.inl ?_
          unfold Idt.step
          dsimp only
          rw [idtInit_eq]
      | register handler irqNum =>
          rcases h with h | ⟨address, h⟩
          · exact Or.inl h
          · refine Or.inr ⟨address, ?_⟩
            rcases List.mem_cons.mp h with h | h
            · cases h
            · exact h

/-- The code segment the gates name. -/
theorem gdtInit_kernelCs (tss : Word) :
    ∃ d, (gdtInit tss).1[kernelCs.toNat / 8]? = some d ∧ d.LongCode := by
  refine ⟨_, rfl, ?_⟩
  decide

/-- The gate of a vector after the first `idt_init`. -/
theorem Idt.run_fetch (stubs : Byte → Word) {ops : List IdtOp}
    (hinit : ∃ address, IdtOp.init address ∈ ops) (v : Byte) :
    fetchGate ((Idt.static stubs).run ops) v = some (kernelGate (routesAfter stubs ops v)) := by
  have hloaded := Idt.run_loaded (t := Idt.static stubs) (Or.inr hinit)
  have h := (Routes.static stubs).run ops
  have hsize : 16 * v.toNat + 15 ≤ ((Idt.static stubs).run ops).size.toNat := by
    rw [h.limit hloaded]
    have hv := v.isLt
    change _ ≤ 4095
    omega
  unfold fetchGate
  rw [if_pos ⟨hloaded, hsize⟩, h.gates hloaded v, decodeGate_idtDescFor]

/-- **Every vector leads to its routine.** In whatever order `idt_init` and registrations come, after the
first `idt_init` the processor finds for every vector an interrupt gate of ring 0 that leads to the
routine registered last for it, or to its stub, through a selector under which `gdt_init` has a 64-bit
code segment. -/
theorem idtRun_gates (stubs : Byte → Word) (ops : List IdtOp) (tss : Word)
    (hinit : ∃ address, IdtOp.init address ∈ ops) (v : Byte) :
    fetchGate ((Idt.static stubs).run ops) v = some (kernelGate (routesAfter stubs ops v)) ∧
      ∃ d, (gdtInit tss).1[(kernelGate (routesAfter stubs ops v)).selector.toNat / 8]? = some d ∧
        d.LongCode :=
  ⟨Idt.run_fetch stubs hinit v, gdtInit_kernelCs tss⟩

/-- A keyboard routine that is registered BEFORE the table is filled. -/
theorem idtRun_gates_early :
    fetchGate ((Idt.static fun v => 0x1000 + v.setWidth 64).run [.register 0x9000 0x21, .init 0x5000])
        0x21 = some (kernelGate 0x9000) ∧
      fetchGate ((Idt.static fun v => 0x1000 + v.setWidth 64).run
        [.register 0x9000 0x21, .init 0x5000]) 0x0d = some (kernelGate 0x100d) :=
  ⟨(idtRun_gates (fun v => 0x1000 + v.setWidth 64) [.register 0x9000 0x21, .init 0x5000] 0
      ⟨0x5000, by decide⟩ 0x21).1,
    (idtRun_gates (fun v => 0x1000 + v.setWidth 64) [.register 0x9000 0x21, .init 0x5000] 0
      ⟨0x5000, by decide⟩ 0x0d).1⟩

end Cerberos
