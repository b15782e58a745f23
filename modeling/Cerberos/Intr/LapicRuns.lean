/-
# Cerberos.Intr.LapicRuns — end of interrupt and interprocessor interrupts (`intr/lapic.c`).

A local APIC keeps the vectors it has delivered and that are still being served in eight in-service
registers of 32 bits. A write to the EOI register says nothing about WHICH of them is over: the device
takes the highest. `lapic_eoi(vec)` looks at the bit of its own vector first, so that a handler that no
interrupt of this APIC has brought about ends nobody else's.

An interprocessor interrupt is two registers; the device sends when the LOW one is written. The list of
what was sent, and the number of ends of interrupt, are ghosts of the device.

The environment delivers a vector whenever its priority class, the upper four bits, is above those in
service; so the handlers that are running nest, and the top one is the highest.
-/
import Cerberos.Intr.Lapic
import Cerberos.Base.Fields

namespace Cerberos

open Cerberos.Base

/-! ## The device -/

/-- `LAPIC_EOI_REG`, `LAPIC_ICR_LOW`, `LAPIC_ICR_HIGH` and `LAPIC_ISR_31_0`. -/
abbrev lapicEoiReg : BitVec 32 := 0xb0
abbrev lapicIcrLow : BitVec 32 := 0x300
abbrev lapicIcrHigh : BitVec 32 := 0x310
abbrev lapicIsr31_0 : BitVec 32 := 0x100

/-- The registers of a local APIC, and the ghosts: what it sent, how often it was told an end. -/
structure LapicDev where
  regs : LapicRegs
  sent : List (BitVec 64)
  eois : ℕ

/-- The in-service register that has the bit of a vector. -/
def isrReg (v : Byte) : BitVec 32 := lapicIsr31_0 + BitVec.ofNat 32 (0x10 * (v.toNat / 32))

/-- The vector is in service. -/
def inService (regs : LapicRegs) (v : Byte) : Bool := (regs (isrReg v)).getLsbD (v.toNat % 32)

/-- The highest vector below `n` that is in service. -/
def highestBelow (regs : LapicRegs) : ℕ → Option Byte
  | 0 => none
  | n + 1 =>
    if inService regs (BitVec.ofNat 8 n) then some (BitVec.ofNat 8 n) else highestBelow regs n

/-- The device takes the highest vector out of service. -/
def retire (regs : LapicRegs) : LapicRegs :=
  match highestBelow regs 256 with
  | none => regs
  | some v =>
    Function.update regs (isrReg v) (regs (isrReg v) &&& ~~~(BitVec.twoPow 32 (v.toNat % 32)))

/-- A store to a register, with what the device does at it. -/
def LapicDev.store (d : LapicDev) (reg val : BitVec 32) : LapicDev :=
  if reg = lapicEoiReg then
    { d with regs := retire (lapicWrite d.regs reg val), eois := d.eois + 1 }
  else if reg = lapicIcrLow then
    { d with
      regs := lapicWrite d.regs reg val
      sent := d.sent ++ [lapicRead d.regs lapicIcrHigh ++ val] }
  else { d with regs := lapicWrite d.regs reg val }

/-- The device delivers a vector to its processor. -/
def LapicDev.accept (d : LapicDev) (v : Byte) : LapicDev :=
  { d with
    regs := Function.update d.regs (isrReg v)
      (d.regs (isrReg v) ||| BitVec.twoPow 32 (v.toNat % 32)) }

/-! ## The code -/

/-- The bit-fields of `ipi_t`. -/
structure Ipi where
  vector : Byte
  deliveryMode : BitVec 3
  destMode : BitVec 1
  deliveryStatus : BitVec 1
  reserved0 : BitVec 1
  level : BitVec 1
  triggerMode : BitVec 1
  reserved1 : BitVec 2
  destShorthand : BitVec 2
  reserved2 : BitVec 36
  destination : Byte
  deriving DecidableEq, Repr

/-- The fields as one word, the first field lowest. -/
def Ipi.raw (i : Ipi) : BitVec 64 :=
  i.destination ++ i.reserved2 ++ i.destShorthand ++ i.reserved1 ++ i.triggerMode ++ i.level ++
    i.reserved0 ++ i.deliveryStatus ++ i.destMode ++ i.deliveryMode ++ i.vector

/-- `low_raw`. -/
def Ipi.lowRaw (i : Ipi) : BitVec 32 := i.raw.extractLsb' 0 32

/-- `high_raw`. -/
def Ipi.highRaw (i : Ipi) : BitVec 32 := i.raw.extractLsb' 32 32

/-- `lapic_ipi(ipi)`. -/
def lapicIpi (d : LapicDev) (ipi : Ipi) : LapicDev :=
  let d := d.store lapicIcrHigh ipi.highRaw
  d.store lapicIcrLow ipi.lowRaw

/-- `lapic_disable()`. -/
def lapicDisable (d : LapicDev) : LapicDev :=
  let val := lapicRead d.regs lapicSprIntrVecReg &&& ~~~((1 : BitVec 32) <<< 8)
  d.store lapicSprIntrVecReg val

/-- `lapic_eoi(intr_vec)`. -/
def lapicEoi (d : LapicDev) (intrVec : Byte) : LapicDev :=
  let isrRegOffset := intrVec / 32
  let isrRegBit := intrVec % 32
  let isr := lapicRead d.regs (lapicIsr31_0 + isrRegOffset.setWidth 32 * 0x10)
  if isr &&& ((1 : BitVec 32) <<< isrRegBit.toNat) ≠ 0 then d.store lapicEoiReg 1 else d

/-! ## In-service bits -/

/-- Vectors share a register exactly when they are in the same 32. -/
theorem isrReg_eq_iff {u v : Byte} : isrReg u = isrReg v ↔ u.toNat / 32 = v.toNat / 32 := by
  have hu := u.isLt
  have hv := v.isLt
  unfold isrReg
  rw [← BitVec.toNat_inj, BitVec.toNat_add, BitVec.toNat_add, BitVec.toNat_ofNat, BitVec.toNat_ofNat,
    show (lapicIsr31_0 : BitVec 32).toNat = 256 from rfl]
  omega

/-- The in-service registers lie apart from all others the kernel writes. -/
theorem isrReg_ne (v : Byte) {reg : BitVec 32} (h : reg.toNat < 0x100 ∨ 0x180 ≤ reg.toNat) :
    isrReg v ≠ reg := by
  have hv := v.isLt
  intro heq
  rw [← heq] at h
  unfold isrReg at h
  rw [BitVec.toNat_add, BitVec.toNat_ofNat, show (lapicIsr31_0 : BitVec 32).toNat = 256 from rfl] at h
  omega

/-- Registers that are none of them do not matter. -/
theorem inService_congr {regs regs' : LapicRegs} {v : Byte} (h : regs' (isrReg v) = regs (isrReg v)) :
    inService regs' v = inService regs v := by
  unfold inService
  rw [h]

theorem inService_write (regs : LapicRegs) (v : Byte) {reg : BitVec 32} (val : BitVec 32)
    (h : reg.toNat < 0x100 ∨ 0x180 ≤ reg.toNat) :
    inService (lapicWrite regs reg val) v = inService regs v :=
  inService_congr (Function.update_of_ne (isrReg_ne v h) _ _)

/-- Two vectors have one bit of one register only if they are equal. -/
theorem eq_of_isrReg {u v : Byte} (hreg : isrReg u = isrReg v) (hbit : u.toNat % 32 = v.toNat % 32) :
    u = v := by
  rw [isrReg_eq_iff] at hreg
  apply BitVec.eq_of_toNat_eq
  omega

/-- One bit set or cleared in the register of a vector changes that vector only. -/
theorem inService_update {regs : LapicRegs} {v : Byte} {val : BitVec 32} {b : Bool}
    (hval : ∀ i < 32, val.getLsbD i =
      if i = v.toNat % 32 then b else (regs (isrReg v)).getLsbD i) (u : Byte) :
    inService (Function.update regs (isrReg v) val) u = if u = v then b else inService regs u := by
  unfold inService
  by_cases hreg : isrReg u = isrReg v
  · rw [hreg, Function.update_self, hval _ (by omega)]
    by_cases huv : u = v
    · rw [if_pos huv, huv, if_pos rfl]
    · rw [if_neg huv, if_neg]
      intro hbit
      exact huv (eq_of_isrReg hreg hbit)
  · rw [Function.update_of_ne hreg, if_neg]
    intro huv
    exact hreg (by rw [huv])

theorem inService_accept (d : LapicDev) (v u : Byte) :
    inService (d.accept v).regs u = if u = v then true else inService d.regs u := by
  refine inService_update ?_ u
  intro i hi
  rw [BitVec.getLsbD_or, BitVec.getLsbD_twoPow, decide_eq_true (show v.toNat % 32 < 32 by omega),
    Bool.true_and]
  by_cases h : i = v.toNat % 32
  · rw [if_pos h, decide_eq_true h.symm, Bool.or_true]
  · rw [if_neg h, decide_eq_false (fun h' => h h'.symm), Bool.or_false]

/-- The search finds the highest vector in service. -/
theorem highestBelow_eq {regs : LapicRegs} {v : Byte} (hv : inService regs v = true)
    (hmax : ∀ u, inService regs u = true → u.toNat ≤ v.toNat) :
    ∀ n, v.toNat < n → n ≤ 256 → highestBelow regs n = some v := by
  intro n
  induction n with
  | zero =>
      intro hn _
      omega
  | succ n ih =>
      intro hn h256
      unfold highestBelow
      have hnat : (BitVec.ofNat 8 n).toNat = n := by
        rw [BitVec.toNat_ofNat]
        omega
      by_cases heq : v.toNat = n
      · have hofNat : BitVec.ofNat 8 n = v := by
          apply BitVec.eq_of_toNat_eq
          rw [hnat, heq]
        rw [hofNat, if_pos hv]
      · rw [if_neg]
        · exact ih (by omega) (by omega)
        · intro hin
          have := hmax _ hin
          omega

/-- **An end of interrupt** takes the highest vector out of service, and no other. -/
theorem inService_retire {regs : LapicRegs} {v : Byte} (hv : inService regs v = true)
    (hmax : ∀ u, inService regs u = true → u.toNat ≤ v.toNat) (u : Byte) :
    inService (retire regs) u = if u = v then false else inService regs u := by
  unfold retire
  rw [highestBelow_eq hv hmax 256 v.isLt le_rfl]
  refine inService_update ?_ u
  intro i hi
  rw [BitVec.getLsbD_and, BitVec.getLsbD_not, BitVec.getLsbD_twoPow, decide_eq_true hi,
    decide_eq_true (show v.toNat % 32 < 32 by omega), Bool.true_and, Bool.true_and]
  by_cases h : i = v.toNat % 32
  · rw [if_pos h, decide_eq_true h.symm, Bool.not_true, Bool.and_false]
  · rw [if_neg h, decide_eq_false (fun h' => h h'.symm), Bool.not_false, Bool.and_true]

/-- Registers that are no in-service registers keep their values. -/
theorem retire_frame (regs : LapicRegs) {reg : BitVec 32} (h : reg.toNat < 0x100 ∨ 0x180 ≤ reg.toNat) :
    retire regs reg = regs reg := by
  unfold retire
  cases highestBelow regs 256 with
  | none => rfl
  | some v => exact Function.update_of_ne (isrReg_ne v h).symm _ _

/-- The bit `lapic_eoi` tests is that of its vector. -/
theorem lapicEoi_test (regs : LapicRegs) (v : Byte) :
    lapicRead regs (lapicIsr31_0 + (v / 32).setWidth 32 * 0x10) &&&
      ((1 : BitVec 32) <<< (v % 32).toNat) ≠ 0 ↔ inService regs v = true := by
  have hv := v.isLt
  have hreg : lapicIsr31_0 + (v / 32).setWidth 32 * 0x10 = isrReg v := by
    unfold isrReg
    apply BitVec.eq_of_toNat_eq
    rw [BitVec.toNat_add, BitVec.toNat_add, BitVec.toNat_mul, BitVec.toNat_setWidth,
      BitVec.toNat_udiv, BitVec.toNat_ofNat, show (32 : Byte).toNat = 32 from rfl,
      show (0x10 : BitVec 32).toNat = 16 from rfl]
    omega
  have hbit : (v % 32).toNat = v.toNat % 32 := BitVec.toNat_umod
  have hpow : (1 : BitVec 32) <<< (v.toNat % 32) = BitVec.twoPow 32 (v.toNat % 32) :=
    (BitVec.twoPow_eq _ _).symm
  rw [hreg, hbit, hpow]
  unfold inService lapicRead
  rw [BitVec.and_twoPow]
  split
  · rename_i h
    refine iff_of_true ?_ h
    intro h0
    have hone := congrArg (fun x => BitVec.getLsbD x (v.toNat % 32)) h0
    simp [show v.toNat % 32 < 32 by omega] at hone
  · rename_i h
    exact iff_of_false (fun h0 => h0 rfl) h

/-- **`lapic_eoi` of the highest vector in service** ends that one, and changes nothing else. -/
theorem lapicEoi_highest {d : LapicDev} {v : Byte} (hv : inService d.regs v = true)
    (hmax : ∀ u, inService d.regs u = true → u.toNat ≤ v.toNat) :
    (∀ u, inService (lapicEoi d v).regs u = if u = v then false else inService d.regs u) ∧
      (lapicEoi d v).sent = d.sent ∧ (lapicEoi d v).eois = d.eois + 1 ∧
      ∀ reg : BitVec 32, reg ≠ lapicEoiReg → reg.toNat < 0x100 ∨ 0x180 ≤ reg.toNat →
        (lapicEoi d v).regs reg = d.regs reg := by
  -- the write to the EOI register itself touches no in-service bit
  have hwritten : ∀ u, inService (lapicWrite d.regs lapicEoiReg 1) u = inService d.regs u :=
    fun u => inService_write d.regs u 1 (Or.inl (by decide))
  unfold lapicEoi
  dsimp only
  rw [if_pos ((lapicEoi_test d.regs v).mpr hv)]
  unfold LapicDev.store
  rw [if_pos rfl]
  refine ⟨?_, rfl, rfl, ?_⟩
  · intro u
    dsimp only
    rw [inService_retire ((hwritten v).trans hv) (fun u hu => hmax u ((hwritten u).symm.trans hu)),
      hwritten]
  · intro reg hreg hout
    dsimp only
    rw [retire_frame _ hout]
    exact Function.update_of_ne hreg _ _

/-! ## Interprocessor interrupts -/

/-- The two halves of the register are the whole. -/
theorem Ipi.high_append_low (i : Ipi) : i.highRaw ++ i.lowRaw = i.raw := by
  unfold Ipi.highRaw Ipi.lowRaw
  rw [BitVec.extractLsb'_append_extractLsb'_eq_extractLsb' (show 32 = 0 + 32 from rfl),
    BitVec.extractLsb'_eq_self]

/-- The fields a local APIC reads in what it sends. -/
theorem Ipi.raw_fields (i : Ipi) :
    i.raw.extractLsb' 0 8 = i.vector ∧ i.raw.extractLsb' 8 3 = i.deliveryMode ∧
      i.raw.extractLsb' 11 1 = i.destMode ∧ i.raw.extractLsb' 14 1 = i.level ∧
      i.raw.extractLsb' 15 1 = i.triggerMode ∧ i.raw.extractLsb' 18 2 = i.destShorthand ∧
      i.raw.extractLsb' 56 8 = i.destination := by
  unfold Ipi.raw
  refine ⟨?_, ?_, ?_, ?_, ?_, ?_, ?_⟩ <;>
    simp (disch := decide) only [extract_append_high, extract_append_low, Nat.reduceSub,
      BitVec.extractLsb'_eq_self]

/-- **`lapic_ipi` sends one interrupt, with all its fields.** -/
theorem lapicIpi_eq (d : LapicDev) (ipi : Ipi) : lapicIpi d ipi =
    { d with
      regs := lapicWrite (lapicWrite d.regs lapicIcrHigh ipi.highRaw) lapicIcrLow ipi.lowRaw
      sent := d.sent ++ [ipi.raw] } := by
  have hread : lapicRead (lapicWrite d.regs lapicIcrHigh ipi.highRaw) lapicIcrHigh = ipi.highRaw := by
    unfold lapicRead lapicWrite
    rw [Function.update_self]
  unfold lapicIpi LapicDev.store
  dsimp only
  rw [if_neg (show lapicIcrLow ≠ lapicEoiReg by decide), if_pos rfl,
    if_neg (show lapicIcrHigh ≠ lapicEoiReg by decide),
    if_neg (show lapicIcrHigh ≠ lapicIcrLow by decide)]
  dsimp only
  rw [hread, ipi.high_append_low]

/-! ## Runs -/

/-- What a local APIC is about: the vectors being served, the one that was delivered last in front; the
interrupts it was asked to send; how many it delivered; whether it is enabled. -/
structure LapicView where
  running : List Byte
  sent : List Ipi
  accepted : ℕ
  enabled : Bool

/-- The runs of a local APIC and its processor. A vector is delivered if its class is above those in
service; a handler signals the end of its own interrupt while no later one is in service; any handler may
call `lapic_eoi` for a vector that is not in service. -/
inductive LapicRun : LapicDev → LapicView → Prop
  | start {d : LapicDev} : (∀ v, inService d.regs v = false) → d.sent = [] → d.eois = 0 →
      LapicRun d ⟨[], [], 0, (d.regs lapicSprIntrVecReg).getLsbD 8⟩
  | accept {d : LapicDev} {w : LapicView} {v : Byte} : LapicRun d w →
      (∀ u ∈ w.running, u.toNat / 16 < v.toNat / 16) →
      LapicRun (d.accept v) { w with running := v :: w.running, accepted := w.accepted + 1 }
  | eoi {d : LapicDev} {w : LapicView} {v : Byte} {rest : List Byte} : LapicRun d w →
      w.running = v :: rest → LapicRun (lapicEoi d v) { w with running := rest }
  | eoiOther {d : LapicDev} {w : LapicView} {v : Byte} : LapicRun d w → v ∉ w.running →
      LapicRun (lapicEoi d v) w
  | ipi {d : LapicDev} {w : LapicView} {ipi : Ipi} : LapicRun d w →
      LapicRun (lapicIpi d ipi) { w with sent := w.sent ++ [ipi] }
  | enable {d : LapicDev} {w : LapicView} {mem : Mem} {info : MadtInfo} {regs : LapicRegs}
      {applied : List Word} : LapicRun d w → lapicEnable mem info d.regs = .ok (regs, applied) →
      LapicRun { d with regs := regs } { w with enabled := true }
  | disable {d : LapicDev} {w : LapicView} : LapicRun d w →
      LapicRun (lapicDisable d) { w with enabled := false }

/-- The device is in the state the view describes. -/
structure LapicFor (d : LapicDev) (w : LapicView) : Prop where
  service : ∀ v, inService d.regs v = true ↔ v ∈ w.running
  nested : w.running.Pairwise fun v u => u.toNat / 16 < v.toNat / 16
  sent : d.sent = w.sent.map Ipi.raw
  balance : d.eois + w.running.length = w.accepted
  enabled : (d.regs lapicSprIntrVecReg).getLsbD 8 = w.enabled

/-- Registers, and interrupts sent, that do not touch what is in service. -/
theorem LapicFor.congr {d : LapicDev} {w : LapicView} (h : LapicFor d w) {regs : LapicRegs}
    {raws : List (BitVec 64)} {sent : List Ipi} {enabled : Bool}
    (hservice : ∀ v, inService regs v = inService d.regs v) (hsent : raws = sent.map Ipi.raw)
    (henabled : (regs lapicSprIntrVecReg).getLsbD 8 = enabled) :
    LapicFor ⟨regs, raws, d.eois⟩ { w with sent := sent, enabled := enabled } := by
  refine ⟨?_, h.nested, hsent, h.balance, henabled⟩
  intro v
  rw [hservice]
  exact h.service v

theorem spr_ne_isr (v : Byte) : isrReg v ≠ lapicSprIntrVecReg := isrReg_ne v (Or.inl (by decide))

theorem LapicFor.accept {d : LapicDev} {w : LapicView} (h : LapicFor d w) {v : Byte}
    (hclass : ∀ u ∈ w.running, u.toNat / 16 < v.toNat / 16) :
    LapicFor (d.accept v) { w with running := v :: w.running, accepted := w.accepted + 1 } := by
  refine ⟨?_, List.pairwise_cons.mpr ⟨hclass, h.nested⟩, h.sent, ?_, ?_⟩
  · intro u
    rw [inService_accept]
    by_cases huv : u = v
    · simp [huv]
    · rw [if_neg huv, h.service u]
      simp [huv]
  · have := h.balance
    dsimp only [LapicDev.accept, List.length_cons]
    omega
  · rw [← h.enabled]
    exact congrArg (fun x => BitVec.getLsbD x 8) (Function.update_of_ne (spr_ne_isr v).symm _ _)

/-- **An end of interrupt** ends the interrupt that signals it. -/
theorem LapicFor.eoi {d : LapicDev} {w : LapicView} (h : LapicFor d w) {v : Byte} {rest : List Byte}
    (hrunning : w.running = v :: rest) : LapicFor (lapicEoi d v) { w with running := rest } := by
  have hnested := h.nested
  rw [hrunning, List.pairwise_cons] at hnested
  have hv : inService d.regs v = true := (h.service v).mpr (by rw [hrunning]; exact List.mem_cons_self)
  have hmax : ∀ u, inService d.regs u = true → u.toNat ≤ v.toNat := by
    intro u hu
    rw [h.service u, hrunning] at hu
    rcases List.mem_cons.mp hu with rfl | hu
    · exact le_rfl
    · have := hnested.1 u hu
      omega
  have hout : v ∉ rest := fun hmem => absurd (hnested.1 v hmem) (Nat.lt_irrefl _)
  obtain ⟨hservice, hsent, heois, hframe⟩ := lapicEoi_highest hv hmax
  refine ⟨?_, hnested.2, hsent.trans h.sent, ?_, ?_⟩
  · intro u
    rw [hservice]
    by_cases huv : u = v
    · rw [if_pos huv, huv]
      exact iff_of_false Bool.false_ne_true hout
    · rw [if_neg huv, h.service u, hrunning]
      simp [huv]
  · have hbalance := h.balance
    rw [hrunning, List.length_cons] at hbalance
    dsimp only
    omega
  · rw [hframe _ (by decide) (Or.inl (by decide))]
    exact h.enabled

/-- `configure_nmi` writes the registers of the two pins only. -/
theorem configureNmiLoop_frame {mem : Mem} {info : MadtInfo} {reg : BitVec 32}
    (h0 : reg ≠ lapicLvtLint0Reg) (h1 : reg ≠ lapicLvtLint1Reg) :
    ∀ (n i : ℕ) {regs regs' : LapicRegs} {applied : List Word},
      configureNmiLoop mem info n i regs = .ok (regs', applied) → regs' reg = regs reg := by
  intro n
  induction n with
  | zero =>
      intro i regs regs' applied hok
      cases hok
      rfl
  | succ n ih =>
      intro i regs regs' applied hok
      obtain ⟨nmi, -, hok⟩ := Res.bind_eq_ok.mp hok
      obtain ⟨one, hone, hok⟩ := Res.bind_eq_ok.mp hok
      obtain ⟨all, hall, hok⟩ := Res.bind_eq_ok.mp hok
      have hentry : one.1 reg = regs reg := by
        unfold configureNmiEntry at hone
        split at hone
        · split at hone
          · cases hone
            exact Function.update_of_ne h0 _ _
          · split at hone
            · cases hone
              exact Function.update_of_ne h1 _ _
            · cases hone
        · cases hone
          rfl
      cases hok
      rw [ih (i + 1) hall, hentry]

/-- `lapic_enable` sets the enable bit and touches nothing but it and the pins. -/
theorem lapicEnable_frame {mem : Mem} {info : MadtInfo} {regs regs' : LapicRegs} {applied : List Word}
    (h : lapicEnable mem info regs = .ok (regs', applied)) :
    (regs' lapicSprIntrVecReg).getLsbD 8 = true ∧
      ∀ reg, reg ≠ lapicSprIntrVecReg → reg ≠ lapicLvtLint0Reg → reg ≠ lapicLvtLint1Reg →
        regs' reg = regs reg := by
  obtain ⟨r, hr, hok⟩ := Res.bind_eq_ok.mp h
  cases hok
  refine ⟨?_, ?_⟩
  · unfold lapicWrite
    rw [Function.update_self, BitVec.getLsbD_or]
    exact Bool.or_eq_true_iff.mpr (.inr (by decide))
  · intro reg hspr h0 h1
    refine (Function.update_of_ne hspr _ _).trans ?_
    exact configureNmiLoop_frame h0 h1 _ _ hr

/-- **A local APIC does what it is for.** In every run, whatever the order of deliveries, ends of
interrupt, interprocessor interrupts and calls of `lapic_enable` and `lapic_disable`: the vectors in
service are those of the handlers that run, nested by priority; every delivered interrupt is ended once,
by its own handler; what was sent is what was asked for, each once and in order; and the enable bit is
that of the last call. -/
theorem lapicRun_refines {d : LapicDev} {w : LapicView} (h : LapicRun d w) : LapicFor d w := by
  induction h with
  | @start d hnone hsent heois =>
      refine ⟨?_, .nil, hsent, heois, rfl⟩
      intro v
      rw [hnone v]
      simp
  | accept _ hclass ih => exact ih.accept hclass
  | eoi _ hrunning ih => exact ih.eoi hrunning
  | @eoiOther d w v _ hout ih =>
      unfold lapicEoi
      dsimp only
      rw [if_neg (fun htest => hout ((ih.service v).mp ((lapicEoi_test d.regs v).mp htest)))]
      exact ih
  | @ipi d w ipi _ ih =>
      rw [lapicIpi_eq]
      refine ih.congr ?_ ?_ ?_
      · intro v
        rw [inService_write _ _ _ (Or.inr (by decide)), inService_write _ _ _ (Or.inr (by decide))]
      · rw [List.map_append, ih.sent]
        rfl
      · unfold lapicWrite
        rw [Function.update_of_ne (by decide), Function.update_of_ne (by decide)]
        exact ih.enabled
  | @enable d w mem info regs applied _ hok ih =>
      obtain ⟨hbit, hframe⟩ := lapicEnable_frame hok
      refine ih.congr ?_ ih.sent hbit
      intro v
      exact inService_congr (hframe _ (spr_ne_isr v) (isrReg_ne v (Or.inr (by decide)))
        (isrReg_ne v (Or.inr (by decide))))
  | @disable d w _ ih =>
      unfold lapicDisable LapicDev.store
      dsimp only
      rw [if_neg (by decide), if_neg (by decide)]
      refine ih.congr ?_ ih.sent ?_
      · intro v
        exact inService_write _ _ _ (Or.inl (by decide))
      · unfold lapicWrite
        rw [Function.update_self, BitVec.getLsbD_and, BitVec.getLsbD_not]
        simp

/-- A local APIC after reset. -/
def resetLapic : LapicDev := ⟨fun _ => 0, [], 0⟩

/-- An INIT interrupt for the processor with APIC id 1. -/
def initIpi : Ipi := ⟨0, 0b101, 0, 0, 0, 1, 0, 0, 0, 0, 1⟩

/-- A keyboard interrupt is interrupted by a more urgent one, whose handler sends an INIT and ends. -/
theorem lapicRun_refines_nested :
    LapicRun (lapicEoi (lapicIpi ((resetLapic.accept 0x21).accept 0x35) initIpi) 0x35)
        ⟨[0x21], [initIpi], 2, false⟩ ∧
      LapicFor (lapicEoi (lapicIpi ((resetLapic.accept 0x21).accept 0x35) initIpi) 0x35)
        ⟨[0x21], [initIpi], 2, false⟩ := by
  have hstart : LapicRun resetLapic ⟨[], [], 0, false⟩ :=
    .start (fun _ => BitVec.getLsbD_zero) rfl rfl
  have hkbd : LapicRun (resetLapic.accept 0x21) ⟨[0x21], [], 1, false⟩ :=
    .accept hstart (fun _ h => absurd h List.not_mem_nil)
  have hnested : LapicRun ((resetLapic.accept 0x21).accept 0x35) ⟨[0x35, 0x21], [], 2, false⟩ := by
    refine .accept hkbd ?_
    intro u hu
    rw [List.mem_singleton.mp hu]
    decide
  have hrun : LapicRun (lapicEoi (lapicIpi ((resetLapic.accept 0x21).accept 0x35) initIpi) 0x35)
      ⟨[0x21], [initIpi], 2, false⟩ := .eoi (.ipi hnested) rfl
  exact ⟨hrun, lapicRun_refines hrun⟩

end Cerberos
