/-
# Cerberos.Intr.IoapicIrq — unmasking a pin (`ioapic_quickset_irq`), on every processor's `apic_init`.

`apic_init` leaves the pins masked, with the polarity and trigger mode of the MADT, and a device driver
unmasks its own: `ioapic_quickset_irq` reads the two registers of the entry, replaces the vector, the
destination and the mode, clears the mask, and writes them back. The other bits of the entry are those
`apic_init` found or set.

`apic_init` runs on every processor. Only the first call touches the IO APICs; a later one would undo what
the drivers have done if it did.
-/
import Cerberos.Intr.IoapicRoute
import Cerberos.Base.Fields

namespace Cerberos

open Cerberos.Base

/-! ## The code -/

/-- A `redtbl_entry_t` that was assigned its two halves. -/
def RedtblEntry.ofRaw (high low : BitVec 32) : RedtblEntry where
  vector := low.extractLsb' 0 8
  deliveryMode := low.extractLsb' 8 3
  destMode := low.extractLsb' 11 1
  deliveryStatus := low.extractLsb' 12 1
  pinPolarity := low.extractLsb' 13 1
  remoteIrr := low.extractLsb' 14 1
  triggerMode := low.extractLsb' 15 1
  interruptMask := low.extractLsb' 16 1
  reserved := high.extractLsb' 0 24 ++ low.extractLsb' 17 15
  destination := high.extractLsb' 24 8

/-- The fields `ioapic_quickset_irq` assigns: physical, fixed, unmasked. -/
def RedtblEntry.quickset (e : RedtblEntry) (lapicId vector : Byte) : RedtblEntry :=
  { e with
    destination := lapicId &&& 0xf
    interruptMask := 0
    destMode := 0
    deliveryMode := 0
    vector := vector }

/-- `ioapic_quickset_irq(ioapic_id, irq, lapic_id, vector)`. -/
def ioapicQuicksetIrq (s : Apic) (id irq lapicId vector : Byte) : Apic :=
  if isRegistered s id = false then
    { s with log := s.log ++ [errorMsg
      "[ioapic_quickset_irq] io apic read either with invalid id %u or io apic is not present\n"
      [id.setWidth 64]] }
  else
    let (high, s) := ioapicRead s id (ioredtblRegHigh irq.toNat)
    let (low, s) := ioapicRead s id (ioredtblRegLow irq.toNat)
    ioapicSetIrq s id irq ((RedtblEntry.ofRaw high low).quickset lapicId vector)

/-! ## An entry and its two halves -/

/-- Taking an entry apart and packing it again. -/
theorem RedtblEntry.raw_ofRaw (high low : BitVec 32) :
    (RedtblEntry.ofRaw high low).raw = high ++ low := by
  unfold RedtblEntry.raw RedtblEntry.ofRaw
  dsimp only
  apply BitVec.eq_of_getLsbD_eq
  intro i hi
  simp only [BitVec.getLsbD_append, BitVec.getLsbD_extractLsb']
  grind

/-- The fields of a packed entry. -/
theorem RedtblEntry.raw_fields (e : RedtblEntry) :
    e.raw.extractLsb' 0 8 = e.vector ∧ e.raw.extractLsb' 8 3 = e.deliveryMode ∧
      e.raw.extractLsb' 11 1 = e.destMode ∧ e.raw.extractLsb' 12 1 = e.deliveryStatus ∧
      e.raw.extractLsb' 13 1 = e.pinPolarity ∧ e.raw.extractLsb' 14 1 = e.remoteIrr ∧
      e.raw.extractLsb' 15 1 = e.triggerMode ∧ e.raw.extractLsb' 16 1 = e.interruptMask ∧
      e.raw.extractLsb' 17 39 = e.reserved ∧ e.raw.extractLsb' 56 8 = e.destination := by
  unfold RedtblEntry.raw
  refine ⟨?_, ?_, ?_, ?_, ?_, ?_, ?_, ?_, ?_, ?_⟩ <;>
    simp (disch := decide) only [extract_append_high, extract_append_low, Nat.reduceSub,
      BitVec.extractLsb'_eq_self]

/-- Packing an entry and taking it apart again. -/
theorem RedtblEntry.ofRaw_raw (e : RedtblEntry) : RedtblEntry.ofRaw e.highRaw e.lowRaw = e := by
  have hlow : ∀ {k n : ℕ}, k + n ≤ 32 → e.lowRaw.extractLsb' k n = e.raw.extractLsb' k n := by
    intro k n h
    unfold RedtblEntry.lowRaw
    rw [extract_extract _ h, Nat.zero_add]
  have hhigh : ∀ {k n : ℕ}, k + n ≤ 32 → e.highRaw.extractLsb' k n = e.raw.extractLsb' (32 + k) n :=
    fun h => extract_extract _ h
  obtain ⟨hvec, hmode, hdest, hstatus, hpol, hirr, htrig, hmask, hres, hdst⟩ := e.raw_fields
  have hreserved : e.highRaw.extractLsb' 0 24 ++ e.lowRaw.extractLsb' 17 15 = e.reserved := by
    rw [hhigh (by decide), hlow (by decide), ← hres]
    exact BitVec.extractLsb'_append_extractLsb'_eq_extractLsb' rfl
  unfold RedtblEntry.ofRaw
  rw [hreserved, hlow (by decide), hlow (by decide), hlow (by decide), hlow (by decide),
    hlow (by decide), hlow (by decide), hlow (by decide), hlow (by decide), hhigh (by decide),
    hvec, hmode, hdest, hstatus, hpol, hirr, htrig, hmask, hdst]

theorem RedtblEntry.raw_injective {e e' : RedtblEntry} (h : e.raw = e'.raw) : e = e' := by
  rw [← e.ofRaw_raw, ← e'.ofRaw_raw]
  unfold RedtblEntry.highRaw RedtblEntry.lowRaw
  rw [h]

/-! ## One call -/

section Quickset

variable {devs : Word → Option IoDevice} {ioapics : List MadtIoapic} {s : Apic}

theorem Registered.isRegistered (h : Registered devs ioapics s) (hok : IoapicsOk devs ioapics)
    {e : MadtIoapic} (he : e ∈ ioapics) : isRegistered s e.ioApicId = true := by
  unfold Cerberos.isRegistered
  rw [decide_eq_true (hok.small e he), (h.listed e he).1]
  rfl

/-- An id that no IO APIC of the MADT has is not registered. -/
theorem Registered.not_isRegistered (h : Registered devs ioapics s) {id : Byte}
    (hid : ∀ e ∈ ioapics, e.ioApicId ≠ id) : Cerberos.isRegistered s id = false := by
  unfold Cerberos.isRegistered
  rw [Bool.and_eq_false_iff]
  refine Or.inr (Bool.eq_false_of_not_eq_true ?_)
  intro hpresent
  obtain ⟨e, he, heq⟩ := h.only _ hpresent
  exact hid e he (BitVec.eq_of_toNat_eq heq)

/-- The address of the window register, as the driver computed it. -/
theorem IoapicsOk.window_eq (hok : IoapicsOk devs ioapics) {e : MadtIoapic} (he : e ∈ ioapics) :
    (e.ioApicAddr + ioWin).setWidth 64 = e.base + ioWin.setWidth 64 := by
  have hroom := hok.window e he
  unfold MadtIoapic.base
  apply BitVec.eq_of_toNat_eq
  rw [BitVec.toNat_setWidth, BitVec.toNat_add, BitVec.toNat_add, BitVec.toNat_setWidth,
    BitVec.toNat_setWidth]
  change (e.ioApicAddr.toNat + 16) % 2 ^ 32 % 2 ^ 64 =
    (e.ioApicAddr.toNat % 2 ^ 64 + 16 % 2 ^ 64) % 2 ^ 64
  omega

theorem Registered.window_free (h : Registered devs ioapics s) (hok : IoapicsOk devs ioapics)
    {e : MadtIoapic} (he : e ∈ ioapics) : s.devs (e.base + ioWin.setWidth 64) = none := by
  have hnone := h.devices (e.base + ioWin.setWidth 64)
  rw [(hok.device e he).2] at hnone
  exact Option.not_isSome_iff_eq_none.mp (by rw [hnone]; decide)

/-- A read of a register of a registered IO APIC changes the selection only. -/
theorem Registered.read (h : Registered devs ioapics s) (hok : IoapicsOk devs ioapics)
    {e : MadtIoapic} (he : e ∈ ioapics) {d : IoDevice} (hd : s.devs e.base = some d) (reg : Byte) :
    ioapicRead s e.ioApicId reg = (d.regs reg,
      { s with devs := Function.update s.devs e.base (some { d with select := reg }) }) := by
  obtain ⟨-, hsel, hwin, -⟩ := h.listed e he
  have hfree := h.window_free hok he
  have hne : e.base + ioWin.setWidth 64 ≠ e.base := by
    intro heq
    rw [heq, hd] at hfree
    cases hfree
  have hback : e.base + ioWin.setWidth 64 - ioWin.setWidth 64 = e.base := BitVec.add_sub_cancel _ _
  have hreg : (reg.setWidth 32).setWidth 8 = reg := by
    rw [BitVec.setWidth_setWidth_of_le _ (by decide), BitVec.setWidth_eq]
  have hselect : mmioStore s e.base (reg.setWidth 32) =
      { s with devs := Function.update s.devs e.base (some { d with select := reg }) } := by
    unfold mmioStore
    rw [hd]
    dsimp only
    rw [hreg]
  have hload : mmioLoad
      { s with devs := Function.update s.devs e.base (some { d with select := reg }) }
      (e.base + ioWin.setWidth 64) = d.regs reg := by
    unfold mmioLoad
    dsimp only
    rw [Function.update_of_ne hne, hfree]
    dsimp only
    rw [hback, Function.update_self]
  unfold ioapicRead
  rw [if_neg (by rw [h.isRegistered hok he]; decide)]
  dsimp only
  rw [hsel, hselect]
  dsimp only
  rw [hwin, hok.window_eq he, hload]

/-- What lies in a device that a redirection entry is read from. -/
theorem redtblAt_eq {e : MadtIoapic} {d : IoDevice} (hd : s.devs e.base = some d) (pin : ℕ) :
    redtblAt s.devs e.base pin =
      some (d.regs (ioredtblRegHigh pin) ++ d.regs (ioredtblRegLow pin)) := by
  unfold redtblAt
  rw [hd]
  rfl

/-- The entry a call for `irq` writes. -/
def IoDevice.quickset (d : IoDevice) (irq lapicId vector : Byte) : RedtblEntry :=
  (RedtblEntry.ofRaw (d.regs (ioredtblRegHigh irq.toNat))
    (d.regs (ioredtblRegLow irq.toNat))).quickset lapicId vector

/-- A call for a registered IO APIC. -/
theorem Registered.quickset (h : Registered devs ioapics s) (hok : IoapicsOk devs ioapics)
    {e : MadtIoapic} (he : e ∈ ioapics) {d : IoDevice} (hd : s.devs e.base = some d)
    (irq lapicId vector : Byte) :
    ioapicQuicksetIrq s e.ioApicId irq lapicId vector =
      { s with
        devs := Function.update s.devs e.base (some ⟨ioredtblRegLow irq.toNat,
          Function.update (Function.update d.regs (ioredtblRegHigh irq.toNat)
            (d.quickset irq lapicId vector).highRaw) (ioredtblRegLow irq.toNat)
            (d.quickset irq lapicId vector).lowRaw⟩)
        writes := s.writes ++
          [⟨e.base, ioredtblRegHigh irq.toNat, (d.quickset irq lapicId vector).highRaw⟩,
            ⟨e.base, ioredtblRegLow irq.toNat, (d.quickset irq lapicId vector).lowRaw⟩] } := by
  have hkeep : ∀ reg : Byte, Registered devs ioapics
      { s with devs := Function.update s.devs e.base (some { d with select := reg }) } := by
    intro reg
    have hread := ioapicRead_keeps s e.ioApicId reg
    rw [h.read hok he hd reg] at hread
    exact h.keeps ⟨rfl, hread.2⟩
  unfold ioapicQuicksetIrq
  rw [if_neg (by rw [h.isRegistered hok he]; decide), h.read hok he hd]
  dsimp only
  rw [(hkeep _).read hok he (d := { d with select := ioredtblRegHigh irq.toNat })
    (by dsimp only; rw [Function.update_self])]
  dsimp only
  rw [Function.update_idem, (hkeep _).setIrq hok he
    (d := { d with select := ioredtblRegLow irq.toNat }) (by dsimp only; rw [Function.update_self])]
  dsimp only
  rw [Function.update_idem]
  rfl

end Quickset

/-! ## Runs -/

/-- The arguments of `ioapic_quickset_irq`. -/
structure QuicksetCall where
  id : Byte
  irq : Byte
  lapicId : Byte
  vector : Byte
  deriving DecidableEq, Repr

/-- What runs after the first `apic_init`: drivers, and `apic_init` on other processors. -/
inductive IrqOp where
  | quickset (call : QuicksetCall)
  | init (mem : Mem) (smpTag : Option (BitVec 32)) (info : MadtInfo) (locals : ℕ → RedtblEntry)

/-- One call. -/
def Apic.step (s : Apic) : IrqOp → Res Apic
  | .quickset call => .ok (ioapicQuicksetIrq s call.id call.irq call.lapicId call.vector)
  | .init mem smpTag info locals => apicInit s mem smpTag info locals

/-- A sequence of calls. -/
def Apic.run (s : Apic) : List IrqOp → Res Apic
  | [] => .ok s
  | op :: ops => do
    let s ← s.step op
    s.run ops

/-- The call goes to the registers of entry `pin` of the IO APIC `id`. -/
def QuicksetCall.Targets (call : QuicksetCall) (id : Byte) (pin : ℕ) : Prop :=
  call.id = id ∧ call.irq.toNat % 128 = pin

instance (call : QuicksetCall) (id : Byte) (pin : ℕ) : Decidable (call.Targets id pin) :=
  inferInstanceAs (Decidable (_ ∧ _))

/-- The last driver's call for each entry, after one more operation. -/
def IrqOp.last (last : Byte → ℕ → Option QuicksetCall) : IrqOp → Byte → ℕ → Option QuicksetCall
  | .quickset call => fun id pin => if call.Targets id pin then some call else last id pin
  | .init _ _ _ _ => last

/-- The last call for each entry. -/
def lastCalls (last : Byte → ℕ → Option QuicksetCall) (ops : List IrqOp) :
    Byte → ℕ → Option QuicksetCall := ops.foldl IrqOp.last last

/-- An entry after its last call. -/
def RedtblEntry.after (e : RedtblEntry) : Option QuicksetCall → RedtblEntry
  | none => e
  | some call => e.quickset call.lapicId call.vector

/-- A later call hides an earlier one. -/
theorem RedtblEntry.quickset_after (e : RedtblEntry) (last : Option QuicksetCall)
    (lapicId vector : Byte) :
    (e.after last).quickset lapicId vector = e.quickset lapicId vector := by
  cases last with
  | none => rfl
  | some call => rfl

/-- The IO APICs are set up, and every entry is that of `s₀` after its last call. -/
structure Driven (devs : Word → Option IoDevice) (ioapics : List MadtIoapic) (s₀ : Apic)
    (last : Byte → ℕ → Option QuicksetCall) (s : Apic) : Prop where
  registered : Registered devs ioapics s
  bspValid : s.bspLapicIdValid = true
  ioValid : s.ioApicValid = true
  entries : ∀ c ∈ ioapics, ∀ pin < 120, ∃ e : RedtblEntry, redtblAt s₀.devs c.base pin = some e.raw ∧
    redtblAt s.devs c.base pin = some (e.after (last c.ioApicId pin)).raw

section Driven

variable {devs : Word → Option IoDevice} {ioapics : List MadtIoapic} {s₀ s : Apic}
  {last : Byte → ℕ → Option QuicksetCall}

/-- A second `apic_init` finds both flags set. -/
theorem apicInit_again (hbsp : s.bspLapicIdValid = true) (hio : s.ioApicValid = true) (mem : Mem)
    (smpTag : Option (BitVec 32)) (info : MadtInfo) (locals : ℕ → RedtblEntry) :
    apicInit s mem smpTag info locals = .ok s := by
  unfold apicInit
  rw [if_pos hbsp]
  exact if_pos hio

/-- The entries of a device after a call. -/
theorem redtblAt_quickset {base : Word} {d : IoDevice} (hd : s.devs base = some d)
    (irq lapicId vector : Byte) {writes : List RegWrite} (base' : Word) {pin : ℕ} (hpin : pin < 120) :
    redtblAt ({ s with
      devs := Function.update s.devs base (some ⟨ioredtblRegLow irq.toNat,
        Function.update (Function.update d.regs (ioredtblRegHigh irq.toNat)
          (d.quickset irq lapicId vector).highRaw) (ioredtblRegLow irq.toNat)
          (d.quickset irq lapicId vector).lowRaw⟩)
      writes := writes } : Apic).devs base' pin =
    if base' = base ∧ irq.toNat % 128 = pin then some (d.quickset irq lapicId vector).raw
    else redtblAt s.devs base' pin := by
  dsimp only
  unfold redtblAt
  by_cases hbase : base' = base
  · rw [hbase, Function.update_self, hd, Option.map_some, Option.map_some]
    dsimp only
    by_cases hmod : irq.toNat % 128 = pin
    · have hsame : pin % 128 = irq.toNat % 128 := by omega
      rw [if_pos ⟨rfl, hmod⟩, ioredtblRegHigh_eq_iff.mpr hsame, ioredtblRegLow_eq_iff.mpr hsame,
        Function.update_self, Function.update_of_ne (ioredtblReg_ne _ _), Function.update_self,
        RedtblEntry.high_append_low]
    · have h1 : ioredtblRegHigh pin ≠ ioredtblRegHigh irq.toNat := by
        rw [Ne, ioredtblRegHigh_eq_iff]
        omega
      have h2 : ioredtblRegLow pin ≠ ioredtblRegLow irq.toNat := by
        rw [Ne, ioredtblRegLow_eq_iff]
        omega
      rw [if_neg (fun h => hmod h.2), Function.update_of_ne (ioredtblReg_ne _ _),
        Function.update_of_ne h1, Function.update_of_ne h2,
        Function.update_of_ne (ioredtblReg_ne _ _).symm]
  · rw [Function.update_of_ne hbase, if_neg (fun h => hbase h.1)]

/-- **One driver.** -/
theorem Driven.quickset (h : Driven devs ioapics s₀ last s) (hok : IoapicsOk devs ioapics)
    (call : QuicksetCall) :
    Driven devs ioapics s₀ (IrqOp.last last (.quickset call))
      (ioapicQuicksetIrq s call.id call.irq call.lapicId call.vector) := by
  by_cases hid : ∃ e ∈ ioapics, e.ioApicId = call.id
  · obtain ⟨e, he, hcall⟩ := hid
    obtain ⟨d, hd⟩ := Option.isSome_iff_exists.mp
      ((h.registered.devices e.base).trans (hok.device e he).1)
    rw [← hcall, h.registered.quickset hok he hd]
    refine ⟨h.registered.keeps ⟨rfl, ?_⟩, h.bspValid, h.ioValid, ?_⟩
    · intro a
      dsimp only
      by_cases ha : a = e.base
      · rw [ha, Function.update_self, hd]
        rfl
      · rw [Function.update_of_ne ha]
    · intro c hc pin hpin
      obtain ⟨e₀, h0, hnow⟩ := h.entries c hc pin hpin
      refine ⟨e₀, h0, ?_⟩
      rw [redtblAt_quickset hd _ _ _ _ hpin, hnow]
      unfold IrqOp.last
      dsimp only
      by_cases htarget : call.Targets c.ioApicId pin
      · obtain ⟨hcid, hmod⟩ := htarget
        have hce : c = e := List.inj_on_of_nodup_map hok.ids hc he (hcid.symm.trans hcall.symm)
        rw [hce] at hnow
        rw [if_pos ⟨by rw [hce], hmod⟩, if_pos ⟨hcid, hmod⟩]
        -- what was read is what the last call left
        have hsame : pin % 128 = call.irq.toNat % 128 := by omega
        rw [redtblAt_eq hd, Option.some_inj, ioredtblRegHigh_eq_iff.mpr hsame,
          ioredtblRegLow_eq_iff.mpr hsame] at hnow
        have hread : RedtblEntry.ofRaw (d.regs (ioredtblRegHigh call.irq.toNat))
            (d.regs (ioredtblRegLow call.irq.toNat)) = e₀.after (last e.ioApicId pin) :=
          RedtblEntry.raw_injective ((RedtblEntry.raw_ofRaw _ _).trans hnow)
        unfold IoDevice.quickset
        rw [hread, RedtblEntry.quickset_after]
        rfl
      · rw [if_neg htarget, if_neg]
        rintro ⟨hbase, hmod⟩
        have hce : c = e := List.inj_on_of_nodup_map hok.bases hc he hbase
        exact htarget ⟨by rw [hce, hcall], hmod⟩
  · have hnot : ∀ e ∈ ioapics, e.ioApicId ≠ call.id := fun e he heq => hid ⟨e, he, heq⟩
    unfold ioapicQuicksetIrq
    rw [if_pos (h.registered.not_isRegistered hnot)]
    refine ⟨h.registered.keeps ⟨rfl, fun _ => rfl⟩, h.bspValid, h.ioValid, ?_⟩
    intro c hc pin hpin
    obtain ⟨e₀, h0, hnow⟩ := h.entries c hc pin hpin
    refine ⟨e₀, h0, ?_⟩
    unfold IrqOp.last
    dsimp only
    rw [if_neg (fun htarget => hnot c hc htarget.1.symm)]
    exact hnow

end Driven

/-- **Every run after the first `apic_init`.** -/
theorem Driven.run {devs : Word → Option IoDevice} {ioapics : List MadtIoapic} {s₀ : Apic}
    (hok : IoapicsOk devs ioapics) :
    ∀ (ops : List IrqOp) {s : Apic} {last : Byte → ℕ → Option QuicksetCall},
      Driven devs ioapics s₀ last s →
      ∃ s', s.run ops = .ok s' ∧ Driven devs ioapics s₀ (lastCalls last ops) s' := by
  intro ops
  induction ops with
  | nil => exact fun h => ⟨_, rfl, h⟩
  | cons op ops ih =>
      intro s last h
      cases op with
      | quickset call => exact ih (h.quickset hok call)
      | init mem smpTag info locals =>
          obtain ⟨s', hrun, h'⟩ := ih h
          exact ⟨s', Res.bind_eq_ok.mpr
            ⟨s, apicInit_again h.bspValid h.ioValid mem smpTag info locals, hrun⟩, h'⟩

/-! ## The first `apic_init` -/

theorem mmioStore_bsp (s : Apic) (ptr : Word) (val : BitVec 32) :
    (mmioStore s ptr val).bspLapicIdValid = s.bspLapicIdValid := by
  unfold mmioStore
  split
  · rfl
  · split <;> rfl

theorem ioapicRead_bsp (s : Apic) (id reg : Byte) :
    (ioapicRead s id reg).2.bspLapicIdValid = s.bspLapicIdValid := by
  unfold ioapicRead
  split
  · rfl
  · exact mmioStore_bsp _ _ _

theorem ioapicWrite_bsp (s : Apic) (id reg : Byte) (val : BitVec 32) :
    (ioapicWrite s id reg val).bspLapicIdValid = s.bspLapicIdValid := by
  unfold ioapicWrite
  split
  · rfl
  · exact (mmioStore_bsp _ _ _).trans (mmioStore_bsp _ _ _)

theorem ioapicRegisterAll_bsp {ioapics : List MadtIoapic} :
    ∀ {s s' : Apic}, ioapicRegisterAll s ioapics = .ok s' →
      s'.bspLapicIdValid = s.bspLapicIdValid := by
  induction ioapics with
  | nil =>
      intro s s' h
      cases h
      rfl
  | cons e ioapics ih =>
      intro s s' h
      obtain ⟨s₁, h₁, hrest⟩ := Res.bind_eq_ok.mp h
      rw [ih hrest]
      unfold ioapicRegister at h₁
      dsimp only at h₁
      split at h₁
      · cases h₁
        exact ioapicRead_bsp _ _ _
      · cases h₁

theorem ioapicSetGsi_bsp (s : Apic) (o : MadtOverride) (junk : RedtblEntry) :
    (ioapicSetGsi s o junk).bspLapicIdValid = s.bspLapicIdValid := by
  have hbsp : (bspLapicId s).2.bspLapicIdValid = s.bspLapicIdValid := by
    unfold bspLapicId
    split <;> rfl
  unfold ioapicSetGsi
  dsimp only
  split
  · rfl
  · unfold ioapicSetIrq
    split
    · exact hbsp
    · exact (ioapicWrite_bsp _ _ _ _).trans ((ioapicWrite_bsp _ _ _ _).trans hbsp)

theorem ioapicSetAll_bsp (overrides : List (MadtOverride × RedtblEntry)) : ∀ s : Apic,
    (ioapicSetAll s overrides).bspLapicIdValid = s.bspLapicIdValid := by
  induction overrides with
  | nil => exact fun _ => rfl
  | cons o overrides ih => exact fun s => (ih _).trans (ioapicSetGsi_bsp s o.1 o.2)

/-- Where the loops of `apic_init` start. -/
theorem registered_enabling (devs : Word → Option IoDevice) (id : BitVec 32) :
    Registered devs [] { Apic.static devs with
      bspLapicId := id
      bspLapicIdValid := true
      log := [plainMsg "[apic_init] enabling io apics ...\n"] } :=
  (registered_static devs id).keeps ⟨rfl, fun _ => rfl⟩

/-- **The first `apic_init`** registers the IO APICs of the MADT and sets both flags. -/
theorem apicInit_driven {devs : Word → Option IoDevice} {mem : Mem} {smpTag : Option (BitVec 32)}
    {info : MadtInfo} {locals : ℕ → RedtblEntry} {entries : List Word} {s₀ : Apic}
    (hlist : madtPointers (info.list .ioapic) = .ok entries)
    (hok : IoapicsOk devs (entries.map (madtIoapicAt mem)))
    (h : apicInit (Apic.static devs) mem smpTag info locals = .ok s₀) :
    Driven devs (entries.map (madtIoapicAt mem)) s₀ (fun _ _ => none) s₀ := by
  unfold apicInit at h
  rw [if_neg (show ¬(Apic.static devs).bspLapicIdValid = true from Bool.false_ne_true)] at h
  cases smpTag with
  | none => cases h
  | some id =>
      obtain ⟨s₁, h₁, h⟩ := Res.bind_eq_ok.mp h
      cases h₁
      dsimp only at h
      rw [if_neg (show ¬(Apic.static devs).ioApicValid = true from Bool.false_ne_true)] at h
      obtain ⟨listed, hlisted, h⟩ := Res.bind_eq_ok.mp h
      rw [hlist] at hlisted
      cases hlisted
      obtain ⟨s₂, hreg, h⟩ := Res.bind_eq_ok.mp h
      obtain ⟨overrides, -, h⟩ := Res.bind_eq_ok.mp h
      cases h
      obtain ⟨s₂', hreg', hregistered⟩ := (registered_enabling devs id).registerAll hok.small hok.ids
      cases hreg.symm.trans hreg'
      have hall := hregistered.setAll
        (overrides.mapIdx fun i entry => (madtOverrideAt mem entry, locals i))
      refine ⟨hall.keeps ⟨rfl, fun _ => rfl⟩, ?_, rfl, ?_⟩
      · exact (ioapicSetAll_bsp _ _).trans (ioapicRegisterAll_bsp hreg)
      · intro c hc pin _
        obtain ⟨d, hd⟩ := Option.isSome_iff_exists.mp ((hall.devices c.base).trans (hok.device c hc).1)
        have hat := redtblAt_eq (s := ioapicSetAll s₂
          (overrides.mapIdx fun i entry => (madtOverrideAt mem entry, locals i))) hd pin
        rw [← RedtblEntry.raw_ofRaw] at hat
        exact ⟨_, hat, hat⟩

/-- **A pin belongs to its last driver.** Once `apic_init` has come back, no later one, on whatever
processor, touches the IO APICs; and after any sequence of `ioapic_quickset_irq`, for registered ids or
not, every redirection entry is what `apic_init` left there, with vector, destination, mode and mask of
the last call for it, and polarity, trigger mode and everything else unchanged. -/
theorem irqRun_entries {devs : Word → Option IoDevice} {mem : Mem} {smpTag : Option (BitVec 32)}
    {info : MadtInfo} {locals : ℕ → RedtblEntry} {entries : List Word} {s₀ : Apic}
    (hlist : madtPointers (info.list .ioapic) = .ok entries)
    (hok : IoapicsOk devs (entries.map (madtIoapicAt mem)))
    (h : apicInit (Apic.static devs) mem smpTag info locals = .ok s₀) (ops : List IrqOp) :
    ∃ s, s₀.run ops = .ok s ∧ ∀ c ∈ entries.map (madtIoapicAt mem), ∀ pin < 120,
      ∃ e : RedtblEntry, redtblAt s₀.devs c.base pin = some e.raw ∧
        redtblAt s.devs c.base pin =
          some (e.after (lastCalls (fun _ _ => none) ops c.ioApicId pin)).raw := by
  obtain ⟨s, hrun, hs⟩ := (apicInit_driven hlist hok h).run hok ops
  exact ⟨s, hrun, hs.entries⟩

/-- The MADT of a PC: its IO APIC at 0x100, and IRQ 9 at 0x110, level triggered. -/
def pcMadt : Mem := fun a =>
  if a = 0x106 then 0xc0
  else if a = 0x107 then 0xfe
  else if a = 0x113 then 9
  else if a = 0x114 then 9
  else if a = 0x118 then 0xd
  else 0

/-- What `parse_madt` collects of it. -/
def pcInfo : MadtInfo where
  num := fun k => match k with
    | .ioapic => 1
    | .intrSrcOverride => 1
    | _ => 0
  list := fun k => match k with
    | .ioapic => [some 0x100]
    | .intrSrcOverride => [some 0x110]
    | _ => []
  lapicAddrOverride := null
  lapicPaddr := 0

theorem pcMadt_ioapics : [(0x100 : Word)].map (madtIoapicAt pcMadt) = [pcIoapic] := by
  decide +kernel

/-- The keyboard driver unmasks pin 1 for vector 33, between two calls of `apic_init`. -/
theorem irqRun_entries_keyboard : ∃ s₀ s : Apic,
    apicInit (Apic.static pcDevs) pcMadt (some 0) pcInfo (fun _ => ⟨0, 0, 0, 0, 0, 0, 0, 0, 0, 0⟩) =
        .ok s₀ ∧
      s₀.run [.quickset ⟨0, 1, 0, 0x21⟩,
        .init pcMadt none pcInfo (fun _ => ⟨0, 0, 0, 0, 0, 0, 0, 0, 0, 0⟩)] = .ok s ∧
      ∃ e : RedtblEntry, redtblAt s₀.devs pcIoapic.base 1 = some e.raw ∧
        redtblAt s.devs pcIoapic.base 1 = some (e.quickset 0 0x21).raw := by
  have hok : IoapicsOk pcDevs ([(0x100 : Word)].map (madtIoapicAt pcMadt)) := by
    rw [pcMadt_ioapics]
    exact pcIoapic_ok
  obtain ⟨s₀, h⟩ := Res.exists_of_isOk (x := apicInit (Apic.static pcDevs) pcMadt (some 0) pcInfo
    (fun _ => ⟨0, 0, 0, 0, 0, 0, 0, 0, 0, 0⟩)) (by decide +kernel)
  obtain ⟨s, hrun, hs⟩ := irqRun_entries rfl hok h [.quickset ⟨0, 1, 0, 0x21⟩,
    .init pcMadt none pcInfo (fun _ => ⟨0, 0, 0, 0, 0, 0, 0, 0, 0, 0⟩)]
  obtain ⟨e, h0, hnow⟩ := hs pcIoapic (by rw [pcMadt_ioapics]; exact List.mem_singleton.mpr rfl) 1
    (by decide)
  exact ⟨s₀, s, h, hrun, e, h0, hnow⟩

end Cerberos
