/-
# Cerberos.Dev.Keyboard — from a key to the screen (`dev/kbd.c`, `dev/text.c`).

A key press is an interrupt request on pin 1 of an IO APIC. The redirection entry of the pin says whether
it gets through, with which vector and to which processor; the local APIC puts the vector in service; the
gate of the vector leads to `wrapper_kbd_intr_handler`, and this to `kbd_intr_handler`, which takes the
scan code, writes the next letter into the corner of the screen and signals the end of the interrupt.
`kbd_init` sets up two links of this chain, the entry and the gate, and `apic_init`, `idt_init` and
`lapic_enable` the others.

The chain is put together from the devices: the entry is read from the registers of the IO APIC, the
routine from the bits of the gate, and whether a vector is accepted from the in-service registers.
-/
import Cerberos.Intr.Entry
import Cerberos.Intr.IoapicIrq
import Cerberos.Intr.LapicRuns

namespace Cerberos

open Cerberos.Base

/-! ## The screen -/

/-- The cells at `TEXT_ADDR`. -/
abbrev TextBuffer := BitVec 16 → BitVec 16

/-- The cell `text_write` composes. -/
def textCell (c fg bg : Byte) : BitVec 16 :=
  c.setWidth 16 ||| fg.setWidth 16 <<< 8 ||| bg.setWidth 16 <<< 12

/-- `text_write(loc, c, fg, bg)`. -/
def textWrite (text : TextBuffer) (loc : BitVec 16) (c fg bg : Byte) : TextBuffer :=
  Function.update text loc (textCell c fg bg)

/-- `RED` and `GREEN` of `text_color_t`. -/
abbrev textRed : Byte := 4
abbrev textGreen : Byte := 2

/-! ## The system -/

/-- `KBD_IRQ`. -/
abbrev kbdIrq : Byte := 1

/-- The parts of the machine between a key and the screen; `buffer` holds the scan codes that the keyboard
controller has not handed over yet. -/
structure KbdSystem where
  idt : Idt
  apic : Apic
  lapic : LapicDev
  text : TextBuffer
  temp : Byte
  buffer : List Byte

/-- `kbd_init()`, with the wrapper at `wrapper`. -/
def kbdInit (wrapper : Word) (s : KbdSystem) : KbdSystem :=
  { s with
    idt := registerIntrHandler s.idt wrapper kbdIntrVec
    apic := ioapicQuicksetIrq s.apic 0 kbdIrq 0 kbdIntrVec }

/-- `kbd_intr_handler()`; the read of `KBD_DATA_PORT` takes a scan code from the controller. -/
def kbdIntrHandler (s : KbdSystem) : KbdSystem :=
  { s with
    buffer := s.buffer.tail
    text := textWrite s.text 0 s.temp textRed textGreen
    temp := s.temp + 1
    lapic := lapicEoi s.lapic kbdIntrVec }

/-- The local APIC takes a vector whose class is above those in service. -/
def LapicDev.accepts (d : LapicDev) (v : Byte) : Bool :=
  (List.range 256).all fun u => !inService d.regs (BitVec.ofNat 8 u) || u / 16 < v.toNat / 16

/-- The request of the keyboard, while it has scan codes: it gets through to this processor if the entry
is unmasked, fixed, physical and has its id, and the local APIC takes its vector. The routine at the gate
runs; of the others nothing matters here. -/
def KbdSystem.interrupt (wrapper : Word) (base : Word) (s : KbdSystem) : KbdSystem :=
  if s.buffer = [] then s
  else
    match redtblAt s.apic.devs base kbdIrq.toNat with
    | none => s
    | some raw =>
      let entry := RedtblEntry.ofRaw (raw.extractLsb' 32 32) (raw.extractLsb' 0 32)
      if entry.interruptMask = 0 ∧ entry.deliveryMode = 0 ∧ entry.destMode = 0 ∧
          entry.destination = lapicId s.lapic.regs ∧ s.lapic.accepts entry.vector = true then
        let s := { s with lapic := s.lapic.accept entry.vector }
        match fetchGate s.idt entry.vector with
        | none => s
        | some gate => if gate.offset = wrapper then kbdIntrHandler s else s
      else s

/-- A key, the request of the keyboard, and what the rest of the kernel does in between. -/
inductive KbdEvent where
  | press (code : Byte)
  | interrupt
  | idt (op : IdtOp)
  | irq (op : IrqOp)

/-- One event. -/
def KbdSystem.step (wrapper base : Word) (s : KbdSystem) : KbdEvent → Res KbdSystem
  | .press code => .ok { s with buffer := s.buffer ++ [code] }
  | .interrupt => .ok (s.interrupt wrapper base)
  | .idt op => .ok { s with idt := s.idt.step op }
  | .irq op => do
    let apic ← s.apic.step op
    .ok { s with apic := apic }

/-- A sequence of events. -/
def KbdSystem.run (wrapper base : Word) (s : KbdSystem) : List KbdEvent → Res KbdSystem
  | [] => .ok s
  | e :: events => do
    let s ← s.step wrapper base e
    s.run wrapper base events

/-- The event leaves vector 33 and the keyboard's pin to the keyboard. -/
def KbdEvent.Foreign : KbdEvent → Prop
  | .idt (.register _ irqNum) => irqNum ≠ kbdIntrVec
  | .irq (.quickset call) => ¬ call.Targets 0 kbdIrq.toNat
  | _ => True

/-! ## What it is for -/

/-- A keyboard and a screen: the scan codes that wait, and the letters that were shown. -/
structure KbdView where
  buffer : List Byte
  shown : ℕ
  deriving DecidableEq, Repr

/-- A key waits; a request takes one scan code and shows one letter. -/
def KbdView.step (w : KbdView) : KbdEvent → KbdView
  | .press code => { w with buffer := w.buffer ++ [code] }
  | .interrupt => if w.buffer = [] then w else ⟨w.buffer.tail, w.shown + 1⟩
  | _ => w

/-- A sequence of events. -/
def KbdView.run (w : KbdView) (events : List KbdEvent) : KbdView := events.foldl KbdView.step w

/-- The machine shows what the view says: the code still waits, the next letter is the one after the
letters shown, the last of them stands in the corner, and each was ended once. -/
structure KbdShows (s₀ s : KbdSystem) (w : KbdView) : Prop where
  buffer : s.buffer = w.buffer
  temp : s.temp = s₀.temp + BitVec.ofNat 8 w.shown
  corner : s.text 0 = if w.shown = 0 then s₀.text 0 else
    textCell (s₀.temp + BitVec.ofNat 8 (w.shown - 1)) textRed textGreen
  rest : ∀ loc, loc ≠ 0 → s.text loc = s₀.text loc
  ended : s.lapic.eois = s₀.lapic.eois + w.shown
  quiet : ∀ v, inService s.lapic.regs v = false

/-! ## One interrupt -/

/-- A local APIC with nothing in service takes any vector. -/
theorem LapicDev.accepts_of_quiet {d : LapicDev} (h : ∀ v, inService d.regs v = false) (v : Byte) :
    d.accepts v = true := by
  unfold LapicDev.accepts
  rw [List.all_eq_true]
  intro u _
  rw [h]
  rfl

/-- A vector that is delivered and ended, with nothing else in service. -/
theorem lapicEoi_accept {d : LapicDev} (h : ∀ v, inService d.regs v = false) (v : Byte) :
    (∀ u, inService (lapicEoi (d.accept v) v).regs u = false) ∧
      (lapicEoi (d.accept v) v).eois = d.eois + 1 ∧
      lapicId (lapicEoi (d.accept v) v).regs = lapicId d.regs := by
  have haccept : ∀ u, inService (d.accept v).regs u = if u = v then true else false := by
    intro u
    rw [inService_accept, h]
  have hin : inService (d.accept v).regs v = true := by rw [haccept, if_pos rfl]
  have hmax : ∀ u, inService (d.accept v).regs u = true → u.toNat ≤ v.toNat := by
    intro u hu
    rw [haccept] at hu
    by_cases huv : u = v
    · rw [huv]
    · rw [if_neg huv] at hu
      cases hu
  obtain ⟨hservice, -, heois, hframe⟩ := lapicEoi_highest hin hmax
  refine ⟨?_, heois, ?_⟩
  · intro u
    rw [hservice, haccept]
    by_cases huv : u = v
    · rw [if_pos huv]
    · rw [if_neg huv, if_neg huv]
  · unfold lapicId lapicRead
    rw [hframe _ (by decide) (Or.inl (by decide))]
    unfold LapicDev.accept
    dsimp only
    rw [Function.update_of_ne (isrReg_ne v (Or.inl (by decide))).symm]

/-- The links of the chain: the gate of vector 33 leads to the wrapper, and the last driver of the
keyboard's pin is the keyboard. -/
structure KbdReady (wrapper : Word) (devs : Word → Option IoDevice) (ioapics : List MadtIoapic)
    (a₀ : Apic) (s : KbdSystem) : Prop where
  routes : ∃ routes, Routes routes s.idt ∧ routes kbdIntrVec = wrapper
  loaded : s.idt.loaded = true
  driven : ∃ last, Driven devs ioapics a₀ last s.apic ∧
    last 0 kbdIrq.toNat = some ⟨0, kbdIrq, 0, kbdIntrVec⟩
  id : lapicId s.lapic.regs = 0

section Chain

variable {wrapper : Word} {devs : Word → Option IoDevice} {ioapics : List MadtIoapic} {a₀ : Apic}
  {c : MadtIoapic} {s₀ s : KbdSystem} {w : KbdView}

/-- The gate of the keyboard's vector. -/
theorem KbdReady.gate (h : KbdReady wrapper devs ioapics a₀ s) :
    fetchGate s.idt kbdIntrVec = some (kernelGate wrapper) := by
  obtain ⟨routes, hroutes, hwrapper⟩ := h.routes
  have hlimit := hroutes.limit h.loaded
  unfold fetchGate
  rw [if_pos ⟨h.loaded, by rw [hlimit]; decide⟩, hroutes.gates h.loaded, decodeGate_idtDescFor, hwrapper]

/-- The entry of the keyboard's pin. -/
theorem KbdReady.entry (h : KbdReady wrapper devs ioapics a₀ s) (hc : c ∈ ioapics)
    (hid : c.ioApicId = 0) :
    ∃ e : RedtblEntry, redtblAt s.apic.devs c.base kbdIrq.toNat = some (e.quickset 0 kbdIntrVec).raw := by
  obtain ⟨last, hdriven, hlast⟩ := h.driven
  obtain ⟨e, -, hnow⟩ := hdriven.entries c hc kbdIrq.toNat (by decide)
  rw [hid, hlast] at hnow
  exact ⟨e, hnow⟩

/-- **A request of the keyboard is served**, from the pin to the end of the interrupt. -/
theorem KbdReady.interrupt (h : KbdReady wrapper devs ioapics a₀ s) (hc : c ∈ ioapics)
    (hid : c.ioApicId = 0) (hquiet : ∀ v, inService s.lapic.regs v = false) (hbuffer : s.buffer ≠ []) :
    s.interrupt wrapper c.base =
      kbdIntrHandler { s with lapic := s.lapic.accept kbdIntrVec } := by
  obtain ⟨e, hentry⟩ := h.entry hc hid
  have hraw : RedtblEntry.ofRaw ((e.quickset 0 kbdIntrVec).raw.extractLsb' 32 32)
      ((e.quickset 0 kbdIntrVec).raw.extractLsb' 0 32) = e.quickset 0 kbdIntrVec :=
    RedtblEntry.ofRaw_raw _
  unfold KbdSystem.interrupt
  rw [if_neg hbuffer, hentry]
  dsimp only
  rw [hraw, if_pos ⟨rfl, rfl, rfl, h.id.symm, LapicDev.accepts_of_quiet hquiet _⟩]
  have hgate : fetchGate s.idt (e.quickset 0 kbdIntrVec).vector = some (kernelGate wrapper) := h.gate
  rw [hgate]
  exact if_pos rfl

/-- What one more letter does. -/
theorem KbdShows.serve (h : KbdShows s₀ s w) :
    KbdShows s₀ (kbdIntrHandler { s with lapic := s.lapic.accept kbdIntrVec })
      ⟨w.buffer.tail, w.shown + 1⟩ := by
  obtain ⟨hquiet, heois, -⟩ := lapicEoi_accept h.quiet kbdIntrVec
  refine ⟨congrArg List.tail h.buffer, ?_, ?_, ?_, ?_, hquiet⟩
  · change s.temp + 1 = _
    rw [h.temp, BitVec.add_assoc]
    congr 1
    exact (BitVec.ofNat_add w.shown 1).symm
  · change Function.update s.text 0 (textCell s.temp textRed textGreen) 0 = _
    rw [Function.update_self, if_neg (Nat.succ_ne_zero _), h.temp, Nat.add_sub_cancel]
  · intro loc hloc
    exact (Function.update_of_ne hloc _ _).trans (h.rest loc hloc)
  · change (lapicEoi (s.lapic.accept kbdIntrVec) kbdIntrVec).eois = _
    rw [heois, h.ended, Nat.add_assoc]

/-- **One event.** -/
theorem KbdReady.step (hok : IoapicsOk devs ioapics) (h : KbdReady wrapper devs ioapics a₀ s)
    (hshows : KbdShows s₀ s w) (hc : c ∈ ioapics) (hid : c.ioApicId = 0) {e : KbdEvent}
    (hforeign : e.Foreign) :
    ∃ s', s.step wrapper c.base e = .ok s' ∧ KbdReady wrapper devs ioapics a₀ s' ∧
      KbdShows s₀ s' (w.step e) := by
  cases e with
  | press code =>
      refine ⟨_, rfl, ⟨h.routes, h.loaded, h.driven, h.id⟩, ?_⟩
      exact ⟨congrArg (· ++ [code]) hshows.buffer, hshows.temp, hshows.corner, hshows.rest,
        hshows.ended, hshows.quiet⟩
  | interrupt =>
      refine ⟨_, rfl, ?_⟩
      unfold KbdView.step
      dsimp only
      by_cases hbuffer : s.buffer = []
      · have hview : w.buffer = [] := hshows.buffer.symm.trans hbuffer
        have hsame : s.interrupt wrapper c.base = s := if_pos hbuffer
        rw [hsame, if_pos hview]
        exact ⟨h, hshows⟩
      · have hview : w.buffer ≠ [] := fun hnil => hbuffer (hshows.buffer.trans hnil)
        rw [h.interrupt hc hid hshows.quiet hbuffer, if_neg hview]
        refine ⟨⟨h.routes, h.loaded, h.driven, ?_⟩, hshows.serve⟩
        exact (lapicEoi_accept hshows.quiet kbdIntrVec).2.2.trans h.id
  | idt op =>
      obtain ⟨routes, hroutes, hwrapper⟩ := h.routes
      refine ⟨_, rfl, ⟨⟨_, hroutes.step op, ?_⟩, ?_, h.driven, h.id⟩, ?_⟩
      · cases op with
        | init address => exact hwrapper
        | register handler irqNum =>
            exact (Function.update_of_ne (fun heq => hforeign heq.symm) _ _).trans hwrapper
      · have hrun : (s.idt.run [op]).loaded = true := Idt.run_loaded (Or.inl h.loaded)
        exact hrun
      · exact ⟨hshows.buffer, hshows.temp, hshows.corner, hshows.rest, hshows.ended, hshows.quiet⟩
  | irq op =>
      obtain ⟨last, hdriven, hlast⟩ := h.driven
      obtain ⟨a, hrun, hdriven'⟩ := hdriven.run hok [op]
      obtain ⟨a', hstep, hrun⟩ := Res.bind_eq_ok.mp hrun
      cases hrun
      refine ⟨_, Res.bind_eq_ok.mpr ⟨a, hstep, rfl⟩, ⟨h.routes, h.loaded, ⟨_, hdriven', ?_⟩, h.id⟩, ?_⟩
      · cases op with
        | quickset call => exact (if_neg hforeign).trans hlast
        | init mem smpTag info locals => exact hlast
      · exact ⟨hshows.buffer, hshows.temp, hshows.corner, hshows.rest, hshows.ended, hshows.quiet⟩

/-- **Every run.** -/
theorem KbdReady.run (hok : IoapicsOk devs ioapics) (hc : c ∈ ioapics) (hid : c.ioApicId = 0) :
    ∀ (events : List KbdEvent) {s : KbdSystem} {w : KbdView}, KbdReady wrapper devs ioapics a₀ s →
      KbdShows s₀ s w → (∀ e ∈ events, e.Foreign) →
      ∃ s', s.run wrapper c.base events = .ok s' ∧ KbdShows s₀ s' (w.run events) := by
  intro events
  induction events with
  | nil => exact fun _ hshows _ => ⟨_, rfl, hshows⟩
  | cons e events ih =>
      intro s w h hshows hforeign
      rw [List.forall_mem_cons] at hforeign
      obtain ⟨s₁, hstep, h₁, hshows₁⟩ := h.step hok hshows hc hid hforeign.1
      obtain ⟨s', hrun, hshows'⟩ := ih h₁ hshows₁ hforeign.2
      exact ⟨s', Res.bind_eq_ok.mpr ⟨s₁, hstep, hrun⟩, hshows'⟩

/-- `kbd_init` puts the last two links in. -/
theorem KbdReady.init {routes : Byte → Word} {last : Byte → ℕ → Option QuicksetCall}
    (hok : IoapicsOk devs ioapics) (hroutes : Routes routes s.idt) (hloaded : s.idt.loaded = true)
    (hdriven : Driven devs ioapics a₀ last s.apic) (hid : lapicId s.lapic.regs = 0) :
    KbdReady wrapper devs ioapics a₀ (kbdInit wrapper s) := by
  have hregister := hroutes.step (.register wrapper kbdIntrVec)
  have hquickset := hdriven.quickset hok ⟨0, kbdIrq, 0, kbdIntrVec⟩
  have hroute : IdtOp.apply routes (.register wrapper kbdIntrVec) kbdIntrVec = wrapper := by
    dsimp only [IdtOp.apply]
    rw [Function.update_self]
  refine ⟨⟨_, hregister, hroute⟩, hloaded, ⟨_, hquickset, ?_⟩, hid⟩
  unfold IrqOp.last
  dsimp only
  rw [if_pos (by decide)]

end Chain

end Cerberos
