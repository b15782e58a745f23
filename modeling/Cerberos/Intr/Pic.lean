/-
# Cerberos.Intr.Pic — the two 8259 interrupt controllers (`intr/pic.c`).

The kernel speaks to the controllers in bytes: a command byte with bit 4 set starts an initialisation, the
data bytes that follow are its words, and every later data byte is the interrupt mask. A controller is
therefore a small state machine, and `pic_remap` has to drive both of them through it from WHATEVER state
the firmware left them in, half-initialised ones included.

The device raises its lines whenever it likes and the processor acknowledges whenever a controller asks it
to; both are steps of the environment, between any two calls. Of the operation commands the model has the
non-specific end of interrupt, the only one the kernel sends.
-/
import Cerberos.Lib.Sys

namespace Cerberos

open Cerberos.Base

/-! ## A controller -/

/-- What the next byte on the data port is. -/
inductive ChipPhase where
  | icw2 | icw3 | icw4 | mask
  deriving DecidableEq, Repr

/-- One 8259: the initialisation words it has taken, and its mask, request and in-service registers. -/
structure Chip where
  phase : ChipPhase
  single : Bool
  needsIcw4 : Bool
  offset : Byte
  cascade : Byte
  icw4 : Byte
  imr : Byte
  irr : Byte
  isr : Byte
  deriving DecidableEq, Repr

/-- A byte on the command port. -/
def Chip.command (c : Chip) (data : Byte) : Chip :=
  if data.getLsbD 4 then
    { c with
      phase := .icw2
      single := data.getLsbD 1
      needsIcw4 := data.getLsbD 0
      icw4 := 0
      imr := 0
      irr := 0
      isr := 0 }
  else if data.getLsbD 3 then c
  else if data.extractLsb' 5 3 = 0b001 then
    -- the line in service with the highest priority is the lowest bit
    { c with isr := c.isr &&& (c.isr - 1) }
  else c

/-- A byte on the data port. -/
def Chip.data (c : Chip) (data : Byte) : Chip :=
  match c.phase with
  | .icw2 =>
    { c with
      offset := data &&& 0xf8
      phase := if c.single then (if c.needsIcw4 then .icw4 else .mask) else .icw3 }
  | .icw3 => { c with cascade := data, phase := if c.needsIcw4 then .icw4 else .mask }
  | .icw4 => { c with icw4 := data, phase := .mask }
  | .mask => { c with imr := data }

/-- Line `i` may interrupt: it is requested, not masked, and no line of its priority or above is in
service. -/
def Chip.ready (c : Chip) (i : ℕ) : Bool :=
  c.irr.getLsbD i && !c.imr.getLsbD i && (List.range (i + 1)).all fun j => !c.isr.getLsbD j

/-- The line a controller asks for, the lowest that may interrupt; none while it is being initialised. -/
def Chip.request (c : Chip) : Option ℕ :=
  if c.phase = .mask then (List.range 8).find? c.ready else none

/-- The processor takes line `i`. -/
def Chip.take (c : Chip) (i : ℕ) : Chip :=
  { c with
    irr := c.irr &&& ~~~(BitVec.twoPow 8 i)
    isr := if c.icw4.getLsbD 1 then c.isr else c.isr ||| BitVec.twoPow 8 i }

/-! ## The pair -/

/-- The two controllers of a PC; the slave's output is line 2 of the master. -/
structure Pics where
  master : Chip
  slave : Chip
  deriving DecidableEq, Repr

/-- `MASTER_COMMAND_PORT`, `MASTER_DATA_PORT`, `SLAVE_COMMAND_PORT` and `SLAVE_DATA_PORT`. -/
abbrev masterCommandPort : BitVec 16 := 0x20
abbrev masterDataPort : BitVec 16 := 0x21
abbrev slaveCommandPort : BitVec 16 := 0xa0
abbrev slaveDataPort : BitVec 16 := 0xa1

/-- `outb(port, data)`. -/
def Pics.outb (s : Pics) (port : BitVec 16) (data : Byte) : Pics :=
  if port = masterCommandPort then { s with master := s.master.command data }
  else if port = masterDataPort then { s with master := s.master.data data }
  else if port = slaveCommandPort then { s with slave := s.slave.command data }
  else if port = slaveDataPort then { s with slave := s.slave.data data }
  else s

/-- `inb(port)`: the data port of a controller reads its mask, its command port the requests. -/
def Pics.inb (s : Pics) (port : BitVec 16) : Byte :=
  if port = masterCommandPort then s.master.irr
  else if port = masterDataPort then s.master.imr
  else if port = slaveCommandPort then s.slave.irr
  else if port = slaveDataPort then s.slave.imr
  else 0xff

/-- `io_wait()`. -/
def Pics.ioWait (s : Pics) : Pics := s.outb 0x80 0

/-! ## The code -/

/-- `ICW1`, `ICW2_MASTER`, `ICW2_SLAVE`, `ICW3_MASTER`, `ICW3_SLAVE` and `ICW4`. -/
abbrev icw1Word : Byte := 0x11
abbrev icw2Master : Byte := 0x20
abbrev icw2Slave : Byte := 0x28
abbrev icw3Master : Byte := 0x04
abbrev icw3Slave : Byte := 0x02
abbrev icw4Word : Byte := 0x01

/-- `SLAVE_LINE`. -/
abbrev slaveLine : Byte := 0x02

/-- `EOI`. -/
abbrev picEoiCommand : Byte := 0x20

/-- `outb(port, data); io_wait();`. -/
def Pics.outbWait (s : Pics) (port : BitVec 16) (data : Byte) : Pics := (s.outb port data).ioWait

/-- `pic_disable_all()`. -/
def picDisableAll (s : Pics) : Pics :=
  let s := s.outbWait masterDataPort 0xff
  s.outbWait slaveDataPort 0xff

/-- `pic_remap()`. -/
def picRemap (s : Pics) : Pics :=
  let s := s.outbWait masterCommandPort icw1Word
  let s := s.outbWait slaveCommandPort icw1Word
  let s := s.outbWait masterDataPort icw2Master
  let s := s.outbWait slaveDataPort icw2Slave
  let s := s.outbWait masterDataPort icw3Master
  let s := s.outbWait slaveDataPort icw3Slave
  let s := s.outbWait masterDataPort icw4Word
  let s := s.outbWait slaveDataPort icw4Word
  let s := s.outbWait masterDataPort 0xff
  s.outbWait slaveDataPort 0xff

/-- `pic_disable()`. -/
def picDisable (s : Pics) : Pics := picDisableAll (picRemap s)

/-- The port and the line on it that `pic_enable_irq` and `pic_disable_irq` choose. -/
def picPort (irq : Byte) : BitVec 16 × Byte :=
  if irq < 8 then (masterDataPort, irq) else (slaveDataPort, irq - 8)

/-- `pic_enable_irq(irq)`. -/
def picEnableIrq (s : Pics) (irq : Byte) : Pics :=
  if irq > 15 then s else
    let port := (picPort irq).1
    let irq := (picPort irq).2
    let mask := s.inb port &&& ~~~((1 : Byte) <<< irq.toNat)
    s.ioWait.outbWait port mask

/-- `pic_disable_irq(irq)`. -/
def picDisableIrq (s : Pics) (irq : Byte) : Pics :=
  if irq > 15 then s else
    let port := (picPort irq).1
    let irq := (picPort irq).2
    let mask := s.inb port ||| ((1 : Byte) <<< irq.toNat)
    s.ioWait.outbWait port mask

/-- `pic_init()`. -/
def picInit (s : Pics) : Pics := picEnableIrq (picDisableAll (picRemap s)) slaveLine

/-- `pic_eoi(irq)`. The test `irq >= 8 || irq <= 15` holds of every number. -/
def picEoi (s : Pics) (irq : Byte) : Pics :=
  if irq > 15 then s else
    let s := if irq ≥ 8 ∨ irq ≤ 15 then s.outbWait slaveCommandPort picEoiCommand else s
    s.outbWait masterCommandPort picEoiCommand

/-! ## The environment -/

/-- The master as its lines are: line 2 follows the slave. -/
def Pics.wired (s : Pics) : Chip :=
  { s.master with
    irr := if s.slave.request.isSome then s.master.irr ||| 4 else s.master.irr &&& ~~~4 }

/-- A device raises line `i` of the sixteen. -/
def Pics.raise (s : Pics) (i : ℕ) : Pics :=
  if i < 8 then { s with master := { s.master with irr := s.master.irr ||| BitVec.twoPow 8 i } }
  else { s with slave := { s.slave with irr := s.slave.irr ||| BitVec.twoPow 8 (i - 8) } }

/-- The line of the sixteen that the processor is asked to take, if any. A master line that has a slave, in
the master's opinion, is answered by the slave, if it is the one. -/
def Pics.line (s : Pics) : Option ℕ :=
  match s.wired.request with
  | none => none
  | some i =>
    if s.master.cascade.getLsbD i then
      if (s.slave.cascade.extractLsb' 0 3).toNat = i then s.slave.request.map (8 + ·) else none
    else some i

/-- The vector of line `i`. -/
def Pics.vector (s : Pics) (i : ℕ) : Byte :=
  if i < 8 then s.master.offset + BitVec.ofNat 8 i else s.slave.offset + BitVec.ofNat 8 (i - 8)

/-- The processor acknowledges, and gets the vector. -/
def Pics.acknowledge (s : Pics) : Pics × Option Byte :=
  match s.line with
  | none => (s, none)
  | some i =>
    if i < 8 then ({ s with master := s.wired.take i }, some (s.vector i))
    else ({ master := s.wired.take 2, slave := s.slave.take (i - 8) }, some (s.vector i))

/-- A line is requested. -/
def Pics.requested (s : Pics) (i : ℕ) : Bool :=
  if i < 8 then s.master.irr.getLsbD i else s.slave.irr.getLsbD (i - 8)

/-! ## Driving a controller through its initialisation -/

/-- A controller after `ICW1` to `ICW4` and a mask of ones. -/
def Chip.remapped (offset cascade : Byte) : Chip :=
  ⟨.mask, false, true, offset, cascade, icw4Word, 0xff, 0, 0⟩

/-- **`pic_remap` leaves nothing of the state it found.** -/
theorem picRemap_eq (s : Pics) :
    picRemap s = ⟨Chip.remapped icw2Master icw3Master, Chip.remapped icw2Slave icw3Slave⟩ := rfl

/-- The masks that `pic_disable_all` writes are the ones `pic_remap` has just written. -/
theorem picDisable_eq (s : Pics) :
    picDisable s = ⟨Chip.remapped icw2Master icw3Master, Chip.remapped icw2Slave icw3Slave⟩ := by
  rw [picDisable, picRemap_eq]
  rfl

/-! ## Runs -/

/-- A call, or a step of the environment. -/
inductive PicEvent where
  | enable (irq : Byte)
  | disable (irq : Byte)
  | eoi (irq : Byte)
  | raise (i : ℕ)
  | acknowledge
  deriving DecidableEq, Repr

/-- One event. -/
def Pics.step (s : Pics) : PicEvent → Pics
  | .enable irq => picEnableIrq s irq
  | .disable irq => picDisableIrq s irq
  | .eoi irq => picEoi s irq
  | .raise i => s.raise i
  | .acknowledge => s.acknowledge.1

/-- A sequence of events. -/
def Pics.run (s : Pics) (events : List PicEvent) : Pics := events.foldl Pics.step s

/-- What an event does to the set of enabled lines. -/
def PicEvent.apply (enabled : ℕ → Bool) : PicEvent → ℕ → Bool
  | .enable irq => if irq > 15 then enabled else Function.update enabled irq.toNat true
  | .disable irq => if irq > 15 then enabled else Function.update enabled irq.toNat false
  | _ => enabled

/-- The enabled lines after a sequence of events. -/
def enabledAfter (enabled : ℕ → Bool) (events : List PicEvent) : ℕ → Bool :=
  events.foldl PicEvent.apply enabled

/-- Both controllers are out of their initialisation, deliver from vector 32 on, know of each other, and
mask the lines that are not enabled. -/
structure PicsFor (enabled : ℕ → Bool) (s : Pics) : Prop where
  masterPhase : s.master.phase = .mask
  slavePhase : s.slave.phase = .mask
  masterOffset : s.master.offset = 0x20
  slaveOffset : s.slave.offset = 0x28
  masterCascade : s.master.cascade = 4
  slaveCascade : s.slave.cascade = 2
  masterMask : ∀ i < 8, s.master.imr.getLsbD i = !enabled i
  slaveMask : ∀ i < 8, s.slave.imr.getLsbD i = !enabled (8 + i)

theorem picsFor_disable (s : Pics) : PicsFor (fun _ => false) (picDisable s) := by
  rw [picDisable_eq]
  exact ⟨rfl, rfl, rfl, rfl, rfl, rfl, by decide, by decide⟩

/-- The controllers with other masks. -/
def Pics.withMasks (s : Pics) (master slave : Byte) : Pics :=
  ⟨{ s.master with imr := master }, { s.slave with imr := slave }⟩

/-- Out of the initialisation a data byte is the mask. -/
theorem Chip.data_mask {c : Chip} (h : c.phase = .mask) (data : Byte) :
    c.data data = { c with imr := data } := by
  cases c with
  | mk phase single needsIcw4 offset cascade icw4 imr irr isr =>
      cases h
      rfl

/-- A byte for a data port replaces one mask. -/
theorem PicsFor.outb_master {enabled : ℕ → Bool} {s : Pics} (h : PicsFor enabled s) (mask : Byte) :
    s.ioWait.outbWait masterDataPort mask = s.withMasks mask s.slave.imr := by
  change (⟨s.master.data mask, s.slave⟩ : Pics) = _
  rw [Chip.data_mask h.masterPhase]
  rfl

theorem PicsFor.outb_slave {enabled : ℕ → Bool} {s : Pics} (h : PicsFor enabled s) (mask : Byte) :
    s.ioWait.outbWait slaveDataPort mask = s.withMasks s.master.imr mask := by
  change (⟨s.master, s.slave.data mask⟩ : Pics) = _
  rw [Chip.data_mask h.slavePhase]
  rfl

/-- New masks for a new set of lines. -/
theorem PicsFor.withMasks {enabled enabled' : ℕ → Bool} {s : Pics} (h : PicsFor enabled s)
    {master slave : Byte} (hm : ∀ i < 8, master.getLsbD i = !enabled' i)
    (hs : ∀ i < 8, slave.getLsbD i = !enabled' (8 + i)) : PicsFor enabled' (s.withMasks master slave) :=
  ⟨h.masterPhase, h.slavePhase, h.masterOffset, h.slaveOffset, h.masterCascade, h.slaveCascade, hm, hs⟩

/-- A bit cleared in a mask. -/
theorem getLsbD_clear (mask : Byte) (k : ℕ) {i : ℕ} (hi : i < 8) :
    (mask &&& ~~~((1 : Byte) <<< k)).getLsbD i = if i = k then false else mask.getLsbD i := by
  rw [BitVec.getLsbD_and, BitVec.getLsbD_not, BitVec.getLsbD_shiftLeft]
  by_cases hik : i = k
  · subst hik
    simp [hi]
  · by_cases hlt : i < k
    · simp [hi, hik, hlt]
    · have hpos : i - k ≠ 0 := by omega
      simp [hi, hik, hlt, BitVec.getLsbD_one, hpos]

/-- A bit set in a mask. -/
theorem getLsbD_set (mask : Byte) (k : ℕ) {i : ℕ} (hi : i < 8) :
    (mask ||| ((1 : Byte) <<< k)).getLsbD i = if i = k then true else mask.getLsbD i := by
  rw [BitVec.getLsbD_or, BitVec.getLsbD_shiftLeft]
  by_cases hik : i = k
  · subst hik
    simp [hi]
  · by_cases hlt : i < k
    · simp [hik, hlt]
    · have hpos : i - k ≠ 0 := by omega
      simp [hik, hlt, BitVec.getLsbD_one, hpos]

/-- **One line more or less**, as `pic_enable_irq` and `pic_disable_irq` write it: the mask of one
controller changes in one bit. -/
theorem PicsFor.setLine {enabled : ℕ → Bool} {s : Pics} (h : PicsFor enabled s) {irq : Byte}
    (hirq : ¬ irq > 15) (value : Bool) {f : Byte → ℕ → Byte}
    (hf : ∀ mask k i, i < 8 → (f mask k).getLsbD i = if i = k then !value else mask.getLsbD i) :
    PicsFor (Function.update enabled irq.toNat value)
      (s.ioWait.outbWait (picPort irq).1 (f (s.inb (picPort irq).1) (picPort irq).2.toNat)) := by
  have hle : irq.toNat ≤ 15 := Nat.le_of_not_lt hirq
  unfold picPort
  by_cases hlow : irq < 8
  · have hlt : irq.toNat < 8 := hlow
    rw [if_pos hlow]
    dsimp only
    rw [h.outb_master]
    refine h.withMasks ?_ ?_
    · intro i hi
      rw [hf _ _ i hi]
      by_cases heq : i = irq.toNat
      · rw [if_pos heq, heq, Function.update_self]
      · rw [if_neg heq, Function.update_of_ne heq]
        exact h.masterMask i hi
    · intro i hi
      rw [Function.update_of_ne (by omega)]
      exact h.slaveMask i hi
  · have hge : 8 ≤ irq.toNat := Nat.le_of_not_lt hlow
    have hsub : (irq - 8).toNat = irq.toNat - 8 := by bv_omega
    rw [if_neg hlow]
    dsimp only
    rw [h.outb_slave]
    refine h.withMasks ?_ ?_
    · intro i hi
      rw [Function.update_of_ne (by omega)]
      exact h.masterMask i hi
    · intro i hi
      rw [hf _ _ i hi, hsub]
      by_cases heq : 8 + i = irq.toNat
      · rw [if_pos (by omega), heq, Function.update_self]
      · rw [if_neg (by omega), Function.update_of_ne heq]
        exact h.slaveMask i hi

/-- Registers that no mask, offset or phase depends on. -/
theorem PicsFor.keep {enabled : ℕ → Bool} {s s' : Pics} (h : PicsFor enabled s)
    (hm : ∃ irr isr, s'.master = { s.master with irr := irr, isr := isr })
    (hs : ∃ irr isr, s'.slave = { s.slave with irr := irr, isr := isr }) : PicsFor enabled s' := by
  obtain ⟨mirr, misr, hm⟩ := hm
  obtain ⟨sirr, sisr, hs⟩ := hs
  cases s' with
  | mk master slave =>
      dsimp only at hm hs
      subst hm hs
      exact ⟨h.masterPhase, h.slavePhase, h.masterOffset, h.slaveOffset, h.masterCascade,
        h.slaveCascade, h.masterMask, h.slaveMask⟩

/-- **One event.** -/
theorem PicsFor.step {enabled : ℕ → Bool} {s : Pics} (h : PicsFor enabled s) (e : PicEvent) :
    PicsFor (e.apply enabled) (s.step e) := by
  cases e with
  | enable irq =>
      unfold PicEvent.apply Pics.step picEnableIrq
      dsimp only
      by_cases hirq : irq > 15
      · rw [if_pos hirq, if_pos hirq]
        exact h
      · rw [if_neg hirq, if_neg hirq]
        exact h.setLine (f := fun mask k => mask &&& ~~~((1 : Byte) <<< k)) hirq true
          fun mask k i hi => getLsbD_clear mask k hi
  | disable irq =>
      unfold PicEvent.apply Pics.step picDisableIrq
      dsimp only
      by_cases hirq : irq > 15
      · rw [if_pos hirq, if_pos hirq]
        exact h
      · rw [if_neg hirq, if_neg hirq]
        exact h.setLine (f := fun mask k => mask ||| ((1 : Byte) <<< k)) hirq false
          fun mask k i hi => getLsbD_set mask k hi
  | eoi irq =>
      unfold PicEvent.apply Pics.step picEoi
      dsimp only
      by_cases hirq : irq > 15
      · rw [if_pos hirq]
        exact h
      · rw [if_neg hirq]
        have hor : irq ≥ 8 ∨ irq ≤ 15 := Or.inr (Nat.le_of_not_lt hirq)
        rw [if_pos hor]
        exact h.keep ⟨_, _, rfl⟩ ⟨_, _, rfl⟩
  | raise i =>
      unfold PicEvent.apply Pics.step Pics.raise
      dsimp only
      by_cases hi : i < 8
      · rw [if_pos hi]
        exact h.keep ⟨_, _, rfl⟩ ⟨_, _, rfl⟩
      · rw [if_neg hi]
        exact h.keep ⟨_, _, rfl⟩ ⟨_, _, rfl⟩
  | acknowledge =>
      unfold PicEvent.apply Pics.step Pics.acknowledge
      dsimp only
      cases s.line with
      | none => exact h
      | some i =>
          dsimp only
          by_cases hi : i < 8
          · rw [if_pos hi]
            exact h.keep ⟨_, _, rfl⟩ ⟨_, _, rfl⟩
          · rw [if_neg hi]
            exact h.keep ⟨_, _, rfl⟩ ⟨_, _, rfl⟩

/-- `pic_init` enables the line of the slave. -/
theorem picsFor_init (s : Pics) : PicsFor (fun i => decide (i = 2)) (picInit s) := by
  have h := (picsFor_disable s).step (.enable slaveLine)
  have hset : PicEvent.apply (fun _ => false) (.enable slaveLine) = fun i => decide (i = 2) := by
    funext i
    change Function.update (fun _ => false) 2 true i = decide (i = 2)
    rw [Function.update_apply]
    by_cases hi : i = 2 <;> simp [hi]
  rw [hset] at h
  exact h

/-- **Every run.** -/
theorem PicsFor.run {enabled : ℕ → Bool} {s : Pics} (h : PicsFor enabled s) (events : List PicEvent) :
    PicsFor (enabledAfter enabled events) (s.run events) := by
  induction events generalizing enabled s with
  | nil => exact h
  | cons e events ih => exact ih (h.step e)

/-! ## What is delivered -/

/-- A controller asks only for lines that are requested and not masked. -/
theorem Chip.request_spec {c : Chip} {i : ℕ} (h : c.request = some i) :
    i < 8 ∧ c.irr.getLsbD i = true ∧ c.imr.getLsbD i = false := by
  unfold Chip.request at h
  by_cases hphase : c.phase = .mask
  · rw [if_pos hphase] at h
    have hready := List.find?_some h
    have hmem := List.mem_of_find?_eq_some h
    unfold Chip.ready at hready
    rw [Bool.and_eq_true, Bool.and_eq_true, Bool.not_eq_true'] at hready
    exact ⟨List.mem_range.mp hmem, hready.1.1, hready.1.2⟩
  · rw [if_neg hphase] at h
    cases h

/-- With nothing in service, any such line makes it ask. -/
theorem Chip.request_isSome {c : Chip} (hphase : c.phase = .mask) (hisr : c.isr = 0) {i : ℕ}
    (hi : i < 8) (hirr : c.irr.getLsbD i = true) (himr : c.imr.getLsbD i = false) :
    c.request.isSome = true := by
  unfold Chip.request
  rw [if_pos hphase, List.find?_isSome]
  refine ⟨i, List.mem_range.mpr hi, ?_⟩
  unfold Chip.ready
  rw [hirr, himr, hisr]
  simp

theorem Pics.acknowledge_snd (s : Pics) : s.acknowledge.2 = s.line.map s.vector := by
  unfold Pics.acknowledge
  cases s.line with
  | none => rfl
  | some i =>
      dsimp only
      by_cases hi : i < 8
      · rw [if_pos hi]
        rfl
      · rw [if_neg hi]
        rfl

/-- The lines of the master but line 2 are its own. -/
theorem Pics.wired_irr (s : Pics) {i : ℕ} (hi : i ≠ 2) :
    s.wired.irr.getLsbD i = s.master.irr.getLsbD i := by
  have hbit : (4 : Byte).getLsbD i = false := by
    by_cases h8 : i < 8
    · interval_cases i <;> first | rfl | exact absurd rfl hi
    · exact BitVec.getLsbD_of_ge _ _ (by omega)
  unfold Pics.wired
  dsimp only
  split
  · rw [BitVec.getLsbD_or, hbit, Bool.or_false]
  · rw [BitVec.getLsbD_and, BitVec.getLsbD_not, hbit]
    by_cases h8 : i < 8
    · simp [h8]
    · rw [BitVec.getLsbD_of_ge _ _ (show 8 ≤ i by omega), Bool.false_and]

theorem Pics.wired_irr_two (s : Pics) : s.wired.irr.getLsbD 2 = s.slave.request.isSome := by
  unfold Pics.wired
  dsimp only
  split
  · rename_i h
    rw [BitVec.getLsbD_or, h]
    simp
  · rename_i h
    rw [BitVec.getLsbD_and, BitVec.getLsbD_not, Bool.eq_false_of_not_eq_true h]
    simp

section Deliver

variable {enabled : ℕ → Bool} {s : Pics}

/-- Only line 2 of the master has a slave. -/
theorem PicsFor.cascade_iff (h : PicsFor enabled s) {i : ℕ} (hi : i < 8) :
    s.master.cascade.getLsbD i = true ↔ i = 2 := by
  rw [h.masterCascade]
  interval_cases i <;> decide

/-- What the master asks for is its own line, but for line 2. -/
theorem PicsFor.line_master (h : PicsFor enabled s) {i : ℕ} (hi : i < 8) (hi2 : i ≠ 2)
    (hreq : s.wired.request = some i) : s.line = some i := by
  unfold Pics.line
  rw [hreq]
  exact if_neg fun hcascade => hi2 ((h.cascade_iff hi).mp hcascade)

/-- On line 2 the slave answers: the two agree on where it is. -/
theorem PicsFor.line_slave (h : PicsFor enabled s) (hreq : s.wired.request = some 2) :
    s.line = s.slave.request.map (8 + ·) := by
  have hid : (s.slave.cascade.extractLsb' 0 3).toNat = 2 := by
    rw [h.slaveCascade]
    decide
  unfold Pics.line
  rw [hreq]
  dsimp only
  rw [if_pos ((h.cascade_iff (by decide)).mpr rfl), if_pos hid]

/-- A line that a controller does not mask is enabled. -/
theorem PicsFor.master_enabled (h : PicsFor enabled s) {i : ℕ} (hi : i < 8)
    (himr : s.master.imr.getLsbD i = false) : enabled i = true := by
  have hmask := h.masterMask i hi
  rw [himr] at hmask
  simpa using hmask

theorem PicsFor.slave_enabled (h : PicsFor enabled s) {i : ℕ} (hi : i < 8)
    (himr : s.slave.imr.getLsbD i = false) : enabled (8 + i) = true := by
  have hmask := h.slaveMask i hi
  rw [himr] at hmask
  simpa using hmask

/-- The vectors of the two controllers are consecutive. -/
theorem PicsFor.vector_eq (h : PicsFor enabled s) {i : ℕ} (hi : i < 16) :
    s.vector i = BitVec.ofNat 8 (0x20 + i) := by
  apply BitVec.eq_of_toNat_eq
  unfold Pics.vector
  by_cases h8 : i < 8
  · rw [if_pos h8, h.masterOffset, BitVec.toNat_add, BitVec.toNat_ofNat, BitVec.toNat_ofNat,
      show (0x20 : Byte).toNat = 32 from rfl]
    omega
  · rw [if_neg h8, h.slaveOffset, BitVec.toNat_add, BitVec.toNat_ofNat, BitVec.toNat_ofNat,
      show (0x28 : Byte).toNat = 40 from rfl]
    omega

/-- **What the processor is asked to take** is an enabled line that is requested, under its own vector. -/
theorem PicsFor.line_spec (h : PicsFor enabled s) {i : ℕ} (hline : s.line = some i) :
    i < 16 ∧ enabled i = true ∧ (8 ≤ i → enabled 2 = true) ∧ s.requested i = true ∧
      s.vector i = BitVec.ofNat 8 (0x20 + i) := by
  cases hreq : s.wired.request with
  | none =>
      unfold Pics.line at hline
      rw [hreq] at hline
      cases hline
  | some m =>
      obtain ⟨hm, hirr, himr⟩ := Chip.request_spec hreq
      have hen : enabled m = true := h.master_enabled hm himr
      by_cases hm2 : m = 2
      · -- the slave answers
        subst hm2
        rw [h.line_slave hreq, Option.map_eq_some_iff] at hline
        obtain ⟨k, hk, rfl⟩ := hline
        obtain ⟨hk8, hkirr, hkimr⟩ := Chip.request_spec hk
        refine ⟨by omega, h.slave_enabled hk8 hkimr, fun _ => hen, ?_, h.vector_eq (by omega)⟩
        unfold Pics.requested
        rw [if_neg (by omega), Nat.add_sub_cancel_left]
        exact hkirr
      · -- a line of the master's own
        rw [h.line_master hm hm2 hreq, Option.some_inj] at hline
        subst hline
        refine ⟨by omega, hen, fun h8 => by omega, ?_, h.vector_eq (by omega)⟩
        unfold Pics.requested
        rw [if_pos hm, ← s.wired_irr hm2]
        exact hirr

/-- With nothing in service, an enabled line that is requested makes the controllers ask. -/
theorem PicsFor.line_isSome (h : PicsFor enabled s) (hm : s.master.isr = 0) (hs : s.slave.isr = 0)
    {i : ℕ} (hi : i < 16) (hi2 : i ≠ 2) (hen : enabled i = true) (hen2 : 8 ≤ i → enabled 2 = true)
    (hreq : s.requested i = true) : ∃ j, s.line = some j := by
  have hwired : s.wired.request.isSome = true := by
    by_cases h8 : i < 8
    · refine Chip.request_isSome h.masterPhase hm h8 ?_ ?_
      · rw [s.wired_irr hi2]
        unfold Pics.requested at hreq
        rwa [if_pos h8] at hreq
      · exact (h.masterMask i h8).trans (by rw [hen]; rfl)
    · refine Chip.request_isSome h.masterPhase hm (show 2 < 8 by decide) ?_ ?_
      · rw [s.wired_irr_two]
        refine Chip.request_isSome h.slavePhase hs (show i - 8 < 8 by omega) ?_ ?_
        · unfold Pics.requested at hreq
          rwa [if_neg h8] at hreq
        · have hmask := h.slaveMask (i - 8) (by omega)
          rw [show 8 + (i - 8) = i by omega, hen] at hmask
          exact hmask
      · exact (h.masterMask 2 (by decide)).trans (by rw [hen2 (by omega)]; rfl)
  obtain ⟨m, hm'⟩ := Option.isSome_iff_exists.mp hwired
  obtain ⟨hm8, hirr, -⟩ := Chip.request_spec hm'
  by_cases hm2 : m = 2
  · -- the slave has made the master ask
    subst hm2
    rw [s.wired_irr_two] at hirr
    obtain ⟨k, hk⟩ := Option.isSome_iff_exists.mp hirr
    rw [h.line_slave hm', hk]
    exact ⟨8 + k, rfl⟩
  · exact ⟨m, h.line_master hm8 hm2 hm'⟩

end Deliver

/-- **The controllers deliver what is enabled, under the vectors from 32 on.** From any state they were
found in, after `pic_init` and any sequence of calls, raised lines and acknowledgements: whatever vector
is delivered is that of a requested line which the calls so far have left enabled, and so is line 2 if it
is one of the slave; and with nothing in service, any such request is answered. -/
theorem picRun_delivers (s₀ : Pics) (events : List PicEvent) :
    (∀ v, ((picInit s₀).run events).acknowledge.2 = some v →
      ∃ i < 16, v = BitVec.ofNat 8 (0x20 + i) ∧ ((picInit s₀).run events).requested i = true ∧
        enabledAfter (fun i => i = 2) events i = true ∧
        (8 ≤ i → enabledAfter (fun i => i = 2) events 2 = true)) ∧
    (((picInit s₀).run events).master.isr = 0 → ((picInit s₀).run events).slave.isr = 0 →
      (∃ i < 16, i ≠ 2 ∧ ((picInit s₀).run events).requested i = true ∧
        enabledAfter (fun i => i = 2) events i = true ∧
        (8 ≤ i → enabledAfter (fun i => i = 2) events 2 = true)) →
      ∃ v, ((picInit s₀).run events).acknowledge.2 = some v) := by
  have h := (picsFor_init s₀).run events
  rw [Pics.acknowledge_snd]
  refine ⟨?_, ?_⟩
  · intro v hv
    obtain ⟨i, hi, rfl⟩ := Option.map_eq_some_iff.mp hv
    obtain ⟨h16, hen, hen2, hreq, hvec⟩ := h.line_spec hi
    exact ⟨i, h16, hvec, hreq, hen, hen2⟩
  · rintro hm hs ⟨i, hi, hi2, hreq, hen, hen2⟩
    obtain ⟨j, hj⟩ := h.line_isSome hm hs hi hi2 hen hen2 hreq
    rw [hj]
    exact ⟨_, rfl⟩

/-- An event that enables no line. -/
def PicEvent.Quiet : PicEvent → Prop
  | .enable _ => False
  | _ => True

/-- With no line enabled, such events enable none. -/
theorem enabledAfter_quiet {events : List PicEvent} : ∀ {enabled : ℕ → Bool},
    (∀ e ∈ events, e.Quiet) → (∀ i, enabled i = false) → ∀ i, enabledAfter enabled events i = false := by
  induction events with
  | nil => exact fun _ h => h
  | cons e events ih =>
      intro enabled hquiet h
      rw [List.forall_mem_cons] at hquiet
      refine ih hquiet.2 ?_
      intro i
      cases e with
      | enable irq => exact hquiet.1.elim
      | disable irq =>
          unfold PicEvent.apply
          dsimp only
          split
          · exact h i
          · rw [Function.update_apply]
            split
            · rfl
            · exact h i
      | eoi irq => exact h i
      | raise j => exact h i
      | acknowledge => exact h i

/-- **`pic_disable` silences the controllers for good.** From any state they were found in, and whatever
lines are raised, acknowledged or disabled afterwards, no vector is ever delivered. -/
theorem picDisable_silent (s₀ : Pics) (events : List PicEvent) (hquiet : ∀ e ∈ events, e.Quiet) :
    ((picDisable s₀).run events).acknowledge.2 = none := by
  rw [Pics.acknowledge_snd]
  cases hline : ((picDisable s₀).run events).line with
  | none => rfl
  | some i =>
      have hen := (((picsFor_disable s₀).run events).line_spec hline).2.1
      rw [enabledAfter_quiet hquiet (fun _ => rfl) i] at hen
      cases hen

/-- The firmware's mapping, with the timer and the keyboard line open and a timer interrupt pending. -/
def biosPics : Pics :=
  ⟨⟨.mask, false, true, 0x08, 4, 1, 0xf8, 1, 0⟩, ⟨.mask, false, true, 0x70, 2, 1, 0xff, 0, 0⟩⟩

/-- A pending tick is delivered as vector 8 before the call, and nothing after it. -/
theorem picDisable_silent_tick : biosPics.acknowledge.2 = some 8 ∧
    ((picDisable biosPics).run [.raise 0, .acknowledge, .raise 9]).acknowledge.2 = none :=
  ⟨by decide, picDisable_silent biosPics [.raise 0, .acknowledge, .raise 9] (by
    intro e he
    fin_cases he <;> trivial)⟩

end Cerberos
