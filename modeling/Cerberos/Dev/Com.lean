/-
# Cerberos.Dev.Com — the serial line the log goes out on (`dev/com.c`).

`com_init` writes six bytes to the registers of a 16550: the divisor of the baud rate while bit 7 of the
line register opens the divisor's latch, then the line, the FIFO and the modem register. After that
`com_putc` writes a byte to the data port and goes on: it never looks at the line status, so a byte that
meets a full FIFO is lost. What the device does on its own, sending the byte at the head of the FIFO,
comes at any time between two writes.

The line carries FRAMES: the divisor in force, a start bit, the data bits, a parity bit if there is one,
and stop bits.
-/
import Cerberos.Base.Fields
import Cerberos.Base.Fifo
import Cerberos.Log.Format

namespace Cerberos

open Cerberos.Base

/-! ## The device -/

/-- The registers of a serial port. -/
structure UartRegs where
  divisor : BitVec 16
  ier : Byte
  fcr : Byte
  lcr : Byte
  mcr : Byte
  deriving DecidableEq, Repr

/-- What is sent for one byte. -/
structure SerialFrame where
  divisor : BitVec 16
  bits : List Bool
  deriving DecidableEq, Repr

/-- A serial port: its registers, the bytes to be sent, and what went out on the line. -/
structure Uart where
  regs : UartRegs
  fifo : List Byte
  line : List SerialFrame
  deriving DecidableEq, Repr

/-- Bit 7 of the line register puts the divisor's latch in the place of the first two registers. -/
def UartRegs.latch (r : UartRegs) : Bool := r.lcr.getLsbD 7

/-- The bytes the device can hold, sixteen with the FIFO on. -/
def UartRegs.depth (r : UartRegs) : ℕ := if r.fcr.getLsbD 0 then 16 else 1

/-- The data bits of the line register's word length, from the lowest on. -/
def UartRegs.dataBits (r : UartRegs) (c : Byte) : List Bool :=
  (List.range (5 + (r.lcr.extractLsb' 0 2).toNat)).map c.getLsbD

/-- No parity bit, a fixed one, or one that makes the number of ones odd or even. -/
def UartRegs.parityBits (r : UartRegs) (c : Byte) : List Bool :=
  if r.lcr.getLsbD 3 then
    if r.lcr.getLsbD 5 then [!r.lcr.getLsbD 4]
    else [(r.dataBits c).foldl xor (!r.lcr.getLsbD 4)]
  else []

/-- One stop bit or two. -/
def UartRegs.stopBits (r : UartRegs) : List Bool := if r.lcr.getLsbD 2 then [true, true] else [true]

/-- The frame of a byte. -/
def UartRegs.frame (r : UartRegs) (c : Byte) : SerialFrame :=
  ⟨r.divisor, false :: (r.dataBits c ++ r.parityBits c ++ r.stopBits)⟩

/-- A write to the registers of the port at `com`. -/
def UartRegs.outb (com : BitVec 16) (r : UartRegs) (port : BitVec 16) (data : Byte) : UartRegs :=
  if port = com then if r.latch then { r with divisor := r.divisor.extractLsb' 8 8 ++ data } else r
  else if port = com + 1 then
    if r.latch then { r with divisor := data ++ r.divisor.extractLsb' 0 8 } else { r with ier := data }
  else if port = com + 2 then { r with fcr := data }
  else if port = com + 3 then { r with lcr := data }
  else if port = com + 4 then { r with mcr := data }
  else r

/-- `outb(port, data)`. A byte goes into the FIFO if there is room; bit 2 of the FIFO register empties
it, and so does turning it on or off. -/
def Uart.outb (com : BitVec 16) (u : Uart) (port : BitVec 16) (data : Byte) : Uart :=
  { u with
    regs := u.regs.outb com port data
    fifo :=
      if port = com then
        if !u.regs.latch && u.fifo.length < u.regs.depth then u.fifo ++ [data] else u.fifo
      else if port = com + 2 then
        if data.getLsbD 2 || data.getLsbD 0 != u.regs.fcr.getLsbD 0 then [] else u.fifo
      else u.fifo }

/-- The device sends the byte at the head of the FIFO. -/
def Uart.send (u : Uart) : Uart :=
  { u with fifo := u.fifo.tail, line := u.line ++ u.fifo.head?.toList.map u.regs.frame }

/-! ## The code -/

/-- A port and what is written to it. -/
abbrev PortWrite := BitVec 16 × Byte

/-- `SERIAL_COM1`. -/
abbrev serialCom1 : BitVec 16 := 0x3f8

/-- `SERIAL_ENABLE_DLB`. -/
abbrev serialEnableDlb : Byte := 0x80

/-- `com_putc(com, c)`. -/
def comPutc (com : BitVec 16) (c : Byte) : List PortWrite := [(com, c)]

/-- `com_write(com, buf, len)`. -/
def comWrite (mem : Word → Byte) (com : BitVec 16) (buf : Word) (len : BitVec 32) : List PortWrite :=
  (List.range len.toNat).flatMap fun i => comPutc com (mem (buf + BitVec.ofNat 64 i))

/-- `__com_init(com, divisor)`. -/
def comInitPort (com divisor : BitVec 16) : List PortWrite :=
  [(com + 3, serialEnableDlb),
    (com, (divisor &&& 0xff).setWidth 8),
    (com + 1, ((divisor >>> 8) &&& 0xff).setWidth 8),
    (com + 3, 0x03),
    (com + 2, 0xc7),
    (com + 4, 0x03)]

/-- `com_init()`. -/
def comInit : List PortWrite := comInitPort serialCom1 3

/-- The calls that write to a serial port: `com_putc`, `com_write`, and `__com_puts` and `log_impl`, whose
port is `SERIAL_COM1`. -/
inductive ComCall where
  | putc (com : BitVec 16) (c : Byte)
  | write (com : BitVec 16) (buf : Word) (len : BitVec 32)
  | puts (buf : StackBuf)
  | log (level : Option LogLevel) (format : List Byte) (args : List LogArg)

/-- The port of a call. -/
def ComCall.com : ComCall → BitVec 16
  | .putc com _ => com
  | .write com _ _ => com
  | _ => serialCom1

/-- What a call writes. -/
def ComCall.writes (mem : Word → Byte) : ComCall → Res (List PortWrite)
  | .putc com c => .ok (comPutc com c)
  | .write com buf len => .ok (comWrite mem com buf len)
  | .puts buf => do
    let text ← comPuts buf
    .ok (text.flatMap (comPutc serialCom1))
  | .log level format args => do
    let (text, _, _) ← logImpl level format args
    .ok (text.flatMap (comPutc serialCom1))

/-- What a sequence of calls writes. -/
def comWrites (mem : Word → Byte) : List ComCall → Res (List PortWrite)
  | [] => .ok []
  | call :: calls => do
    let writes ← call.writes mem
    let rest ← comWrites mem calls
    .ok (writes ++ rest)

/-! ## The line -/

/-- The processor writes to a port, or the device sends a byte. -/
inductive LineEvent where
  | out (write : PortWrite)
  | send
  deriving DecidableEq, Repr

/-- One event at the port at `com`. -/
def Uart.step (com : BitVec 16) (u : Uart) : LineEvent → Uart
  | .out write => u.outb com write.1 write.2
  | .send => u.send

/-- A sequence of events. -/
def Uart.run (com : BitVec 16) (u : Uart) (events : List LineEvent) : Uart :=
  events.foldl (Uart.step com) u

/-- What the processor writes. -/
def LineEvent.write : LineEvent → Option PortWrite
  | .out write => some write
  | .send => none

/-- What the processor writes in a sequence of events. -/
def lineWrites (events : List LineEvent) : List PortWrite := events.filterMap LineEvent.write

/-- What an event is to a buffer of bytes for the line at `com`. -/
def LineEvent.fifoStep (com : BitVec 16) : LineEvent → Option (FifoStep Byte)
  | .out write => if write.1 = com then some (.put write.2) else none
  | .send => some .take

/-- The bytes for the line at `com`, and when they are sent. -/
def lineSteps (com : BitVec 16) (events : List LineEvent) : List (FifoStep Byte) :=
  events.filterMap (LineEvent.fifoStep com)

/-- The bytes written for the line at `com`. -/
def lineText (com : BitVec 16) (writes : List PortWrite) : List Byte :=
  writes.filterMap fun write => if write.1 = com then some write.2 else none

/-- The writes leave the other registers of the port at `com` alone. -/
def LeavesRegs (com : BitVec 16) (port : BitVec 16) : Prop :=
  port ≠ com + 1 ∧ port ≠ com + 2 ∧ port ≠ com + 3 ∧ port ≠ com + 4

/-- The other end of the line, set to `divisor`, eight data bits, no parity and one stop bit. -/
def receive8N1 (divisor : BitVec 16) (f : SerialFrame) : Option Byte :=
  if f.divisor = divisor ∧ f.bits.length = 10 ∧ f.bits.head? = some false ∧
      f.bits.getLast? = some true then
    some (BitVec.ofFnLE fun i : Fin 8 => f.bits.getD (i + 1) false)
  else none

/-! ## Frames -/

/-- The frame of a byte with eight data bits, no parity and one stop bit. -/
def frame8N1 (divisor : BitVec 16) (c : Byte) : SerialFrame :=
  ⟨divisor, false :: ((List.range 8).map c.getLsbD ++ [true])⟩

/-- The line register `0x03`. -/
theorem UartRegs.frame_eq {r : UartRegs} (hlcr : r.lcr = 0x03) (c : Byte) :
    r.frame c = frame8N1 r.divisor c := by
  simp [UartRegs.frame, UartRegs.dataBits, UartRegs.parityBits, UartRegs.stopBits, frame8N1, hlcr]

/-- A frame is read back. -/
theorem receive8N1_frame8N1 (divisor : BitVec 16) (c : Byte) :
    receive8N1 divisor (frame8N1 divisor c) = some c := by
  have hbits : ∀ i : Fin 8, (frame8N1 divisor c).bits.getD (i + 1) false = c.getLsbD i := by
    intro i
    fin_cases i <;> rfl
  have hbyte : (BitVec.ofFnLE fun i : Fin 8 => (frame8N1 divisor c).bits.getD (i + 1) false) = c := by
    apply BitVec.eq_of_getElem_eq
    intro i hi
    rw [BitVec.getElem_ofFnLE, hbits, BitVec.getLsbD_eq_getElem]
  unfold receive8N1
  rw [if_pos ⟨rfl, rfl, rfl, rfl⟩, hbyte]

/-! ## The configuration -/

section Line

variable {com divisor : BitVec 16} {u : Uart} {q : Fifo Byte} {old : List SerialFrame}

/-- A port that was configured: it carries what a buffer of bytes holds, behind the frames `old`. -/
structure Carries (divisor : BitVec 16) (old : List SerialFrame) (u : Uart) (q : Fifo Byte) : Prop where
  rate : u.regs.divisor = divisor
  lcr : u.regs.lcr = 0x03
  fcr : u.regs.fcr = 0xc7
  fifo : u.fifo = q.waiting
  line : u.line = old ++ q.taken.map (frame8N1 divisor)

/-- The registers see the writes only. -/
theorem Uart.run_regs (events : List LineEvent) :
    (u.run com events).regs =
      (lineWrites events).foldl (fun r write => r.outb com write.1 write.2) u.regs := by
  induction events generalizing u with
  | nil => rfl
  | cons e events ih =>
      refine (ih (u := u.step com e)).trans ?_
      cases e <;> rfl

/-- The six registers of a port are different. -/
theorem port_ne (k : BitVec 16) (hk : k ≠ 0) : com + k ≠ com := by
  intro h
  exact hk (by simpa using h)

/-- The two halves of the divisor, as the latch puts them together. -/
theorem divisor_halves (divisor : BitVec 16) (old : Byte) :
    (((divisor >>> 8) &&& 0xff).setWidth 8 : Byte) ++
      (old ++ ((divisor &&& 0xff).setWidth 8 : Byte)).extractLsb' 0 8 = divisor := by
  rw [extract_append_low _ _ (by decide), BitVec.extractLsb'_eq_self,
    shift_mask_extract _ _ 8 8 (by decide), mask_extract _ _ 8 (by decide)]
  exact (BitVec.extractLsb'_append_extractLsb'_eq_extractLsb' rfl).trans BitVec.extractLsb'_eq_self

/-- What the six writes leave in the registers. -/
theorem comInitPort_regs (r : UartRegs) :
    (comInitPort com divisor).foldl (fun r write => r.outb com write.1 write.2) r =
      { r with divisor := divisor, lcr := 0x03, fcr := 0xc7, mcr := 0x03 } := by
  have hhalves := divisor_halves divisor (r.divisor.extractLsb' 8 8)
  simpa [comInitPort, UartRegs.outb, UartRegs.latch] using hhalves

/-- What is sent meanwhile does not fill the FIFO. -/
theorem Uart.run_empty (events : List LineEvent) (hempty : u.fifo = [])
    (hquiet : ∀ write ∈ lineWrites events, write.1 ≠ com ∧ write.1 ≠ com + 2) :
    (u.run com events).fifo = [] := by
  induction events generalizing u with
  | nil => exact hempty
  | cons e events ih =>
      cases e with
      | out write =>
          obtain ⟨hnow, hlater⟩ := List.forall_mem_cons.mp hquiet
          refine ih ?_ hlater
          simp [Uart.step, Uart.outb, hnow, hempty]
      | send =>
          refine ih ?_ hquiet
          simp [Uart.step, Uart.send, hempty]

/-- **`__com_init`.** Whatever the device was doing and is sending meanwhile: at the end the port is
configured and nothing waits. -/
theorem Carries.init {events : List LineEvent} (h : lineWrites events = comInitPort com divisor) :
    Carries divisor (u.run com events).line (u.run com events) ⟨[], []⟩ := by
  have hregs : (u.run com events).regs =
      { u.regs with divisor := divisor, lcr := 0x03, fcr := 0xc7, mcr := 0x03 } := by
    rw [Uart.run_regs, h, comInitPort_regs]
  have hfifo : (u.run com events).fifo = [] := by
    -- the write to the FIFO register empties it, and only the modem register is written after that
    have hsplit : lineWrites events = (comInitPort com divisor).take 4 ++
        (com + 2, 0xc7) :: [(com + 4, 0x03)] := h
    obtain ⟨before, rest, rfl, -, hrest⟩ := List.filterMap_eq_append_iff.mp hsplit
    obtain ⟨sends, e, after, rfl, -, he, hafter⟩ := List.filterMap_eq_cons_iff.mp hrest
    cases e with
    | send => cases he
    | out write =>
        cases he
        have hmodem : ∀ write ∈ lineWrites after, write.1 ≠ com ∧ write.1 ≠ com + 2 := by
          intro write hwrite
          have hwrite : write ∈ [(com + 4, (0x03 : Byte))] := hafter ▸ hwrite
          rw [List.mem_singleton.mp hwrite]
          exact ⟨port_ne 4 (by decide), by simp⟩
        have hrun : u.run com (before ++ (sends ++ .out (com + 2, 0xc7) :: after)) =
            (((u.run com before).run com sends).outb com (com + 2) 0xc7).run com after := by
          simp [Uart.run, Uart.step]
        rw [hrun]
        exact Uart.run_empty after (by simp [Uart.outb]) hmodem
  exact ⟨by rw [hregs], by rw [hregs], by rw [hregs], hfifo, by simp⟩

/-! ## The line as a buffer -/

@[simp] theorem lineSteps_append (events events' : List LineEvent) :
    lineSteps com (events ++ events') = lineSteps com events ++ lineSteps com events' :=
  List.filterMap_append

/-- The device sends the byte that waits longest. -/
theorem Carries.send (h : Carries divisor old u q) : Carries divisor old u.send (q.step 16 .take) := by
  have hframe : u.regs.frame = frame8N1 divisor := by
    funext c
    rw [UartRegs.frame_eq h.lcr, h.rate]
  refine ⟨h.rate, h.lcr, h.fcr, congrArg List.tail h.fifo, ?_⟩
  simp [Uart.send, Fifo.step, h.line, h.fifo, hframe]

/-- A byte for the data port waits if there is room for it, and is lost if there is none. -/
theorem Carries.put (h : Carries divisor old u q) (data : Byte) :
    Carries divisor old (u.outb com com data) (q.step 16 (.put data)) := by
  have hdepth : u.regs.depth = 16 := by simp [UartRegs.depth, h.fcr]
  have hlatch : u.regs.latch = false := by simp [UartRegs.latch, h.lcr]
  have hregs : (u.outb com com data).regs = u.regs := by simp [Uart.outb, UartRegs.outb, hlatch]
  by_cases hroom : q.waiting.length < 16
  · refine ⟨hregs ▸ h.rate, hregs ▸ h.lcr, hregs ▸ h.fcr, ?_, ?_⟩
    · simp [Uart.outb, Fifo.step, hdepth, hlatch, h.fifo, hroom]
    · simp [Uart.outb, Fifo.step, h.line, hroom]
  · rw [Fifo.put_full hroom]
    refine ⟨hregs ▸ h.rate, hregs ▸ h.lcr, hregs ▸ h.fcr, ?_, h.line⟩
    simp [Uart.outb, hdepth, hlatch, h.fifo, hroom]

/-- A write that is for none of the port's registers. -/
theorem Uart.outb_other (u : Uart) {port : BitVec 16} (hleaves : LeavesRegs com port)
    (hport : port ≠ com) (data : Byte) : u.outb com port data = u := by
  obtain ⟨h1, h2, h3, h4⟩ := hleaves
  unfold Uart.outb UartRegs.outb
  rw [if_neg hport, if_neg h1, if_neg h2, if_neg h3, if_neg h4, if_neg hport, if_neg h2]

/-- **One event**: the port is a buffer for sixteen bytes that drops what it cannot hold. -/
theorem Carries.step (h : Carries divisor old u q) {e : LineEvent}
    (hregs : ∀ write ∈ lineWrites [e], LeavesRegs com write.1) :
    Carries divisor old (u.step com e) (q.run 16 (lineSteps com [e])) := by
  cases e with
  | send => exact h.send
  | out write =>
      obtain ⟨port, data⟩ := write
      have hleaves : LeavesRegs com port := hregs (port, data) (List.mem_singleton.mpr rfl)
      by_cases hport : port = com
      · subst hport
        have hsteps : lineSteps port [.out (port, data)] = [.put data] := by
          simp [lineSteps, LineEvent.fifoStep]
        rw [hsteps]
        exact h.put data
      · have hsteps : lineSteps com [.out (port, data)] = [] := by
          simp [lineSteps, LineEvent.fifoStep, hport]
        rw [hsteps, Uart.step, Uart.outb_other u hleaves hport]
        exact h

/-- **Every run.** -/
theorem Carries.run (h : Carries divisor old u q) (events : List LineEvent)
    (hregs : ∀ write ∈ lineWrites events, LeavesRegs com write.1) :
    Carries divisor old (u.run com events) (q.run 16 (lineSteps com events)) := by
  induction events generalizing u q with
  | nil => exact h
  | cons e events ih =>
      have hcut : lineWrites (e :: events) = lineWrites [e] ++ lineWrites events :=
        List.filterMap_append (l := [e])
      rw [hcut] at hregs
      have hnow := h.step (e := e) fun write hwrite => hregs write (List.mem_append_left _ hwrite)
      have hrest := ih hnow fun write hwrite => hregs write (List.mem_append_right _ hwrite)
      have hsteps : q.run 16 (lineSteps com (e :: events)) =
          (q.run 16 (lineSteps com [e])).run 16 (lineSteps com events) := by
        rw [show e :: events = [e] ++ events from rfl, lineSteps_append]
        exact List.foldl_append
      rw [hsteps]
      exact hrest

/-- What goes into the buffer is the text written. -/
theorem inputs_lineSteps (events : List LineEvent) :
    inputs (lineSteps com events) = lineText com (lineWrites events) := by
  induction events with
  | nil => rfl
  | cons e events ih =>
      cases e with
      | send => exact ih
      | out write =>
          by_cases hport : write.1 = com
          · simp_all [lineSteps, lineText, lineWrites, LineEvent.fifoStep, LineEvent.write]
          · simp_all [lineSteps, lineText, lineWrites, LineEvent.fifoStep, LineEvent.write]

/-! ## The calls -/

/-- Bytes written one by one with `com_putc`. -/
theorem mem_flatMap_comPutc {text : List Byte} {write : PortWrite}
    (h : write ∈ text.flatMap (comPutc com)) : write.1 = com := by
  obtain ⟨c, -, hwrite⟩ := List.mem_flatMap.mp h
  rw [List.mem_singleton.mp hwrite]

/-- A call writes to its own port only. -/
theorem ComCall.writes_com {mem : Word → Byte} {call : ComCall} {writes : List PortWrite}
    (h : call.writes mem = .ok writes) : ∀ write ∈ writes, write.1 = call.com := by
  intro write hwrite
  cases call with
  | putc com c =>
      cases h
      rw [List.mem_singleton.mp hwrite]
      rfl
  | write com buf len =>
      cases h
      obtain ⟨i, -, hwrite⟩ := List.mem_flatMap.mp hwrite
      rw [List.mem_singleton.mp hwrite]
      rfl
  | puts buf =>
      obtain ⟨text, -, h⟩ := Res.bind_eq_ok.mp h
      cases h
      exact mem_flatMap_comPutc hwrite
  | log level format args =>
      obtain ⟨⟨text, ret, rest⟩, -, h⟩ := Res.bind_eq_ok.mp h
      cases h
      exact mem_flatMap_comPutc hwrite

/-- What holds of the ports of the calls holds of what they write. -/
theorem comWrites_com {mem : Word → Byte} {P : BitVec 16 → Prop} :
    ∀ {calls : List ComCall} {writes : List PortWrite}, comWrites mem calls = .ok writes →
      (∀ call ∈ calls, P call.com) → ∀ write ∈ writes, P write.1
  | [], _, h, _ => by
      cases h
      simp
  | call :: calls, _, h, hports => by
      obtain ⟨now, hnow, h⟩ := Res.bind_eq_ok.mp h
      obtain ⟨rest, hrest, h⟩ := Res.bind_eq_ok.mp h
      cases h
      obtain ⟨hfirst, hlater⟩ := List.forall_mem_cons.mp hports
      intro write hwrite
      rcases List.mem_append.mp hwrite with hin | hin
      · rw [ComCall.writes_com hnow write hin]
        exact hfirst
      · exact comWrites_com hrest hlater write hin

/-- **What is logged and what arrives.** After `__com_init`, whatever the port did before and however its
sending falls between the writes of the calls that follow: everything that goes out is read by a receiver
set to the divisor, eight data bits, no parity and one stop bit; what it reads, with what still waits, is
what the calls wrote with some bytes missing; and none is missing exactly if a buffer without a bound,
filled and emptied in the same order, never holds more than sixteen bytes. -/
theorem comRun_line {mem : Word → Byte} {init events : List LineEvent} {calls : List ComCall}
    {writes : List PortWrite} (u : Uart) (hinit : lineWrites init = comInitPort com divisor)
    (hcalls : comWrites mem calls = .ok writes) (hports : ∀ call ∈ calls, LeavesRegs com call.com)
    (hevents : lineWrites events = writes) :
    ∃ frames sent, ((u.run com init).run com events).line = (u.run com init).line ++ frames ∧
      frames.map (receive8N1 divisor) = sent.map some ∧
      (sent ++ ((u.run com init).run com events).fifo).Sublist (lineText com writes) ∧
      (sent ++ ((u.run com init).run com events).fifo = lineText com writes ↔
        StaysWithin 16 0 (lineSteps com events)) := by
  have hregs : ∀ write ∈ lineWrites events, LeavesRegs com write.1 := by
    rw [hevents]
    exact comWrites_com hcalls hports
  have hrun := (Carries.init (u := u) hinit).run events hregs
  have htext : inputs (lineSteps com events) = lineText com writes := by
    rw [inputs_lineSteps, hevents]
  let q : Fifo Byte := (⟨[], []⟩ : Fifo Byte).run 16 (lineSteps com events)
  have hsub : q.kept.Sublist ([] ++ inputs (lineSteps com events)) := Fifo.run_sublist _
  have hwhole : q.kept = [] ++ inputs (lineSteps com events) ↔ _ := Fifo.run_whole_iff _ (Nat.zero_le _)
  rw [htext] at hsub hwhole
  refine ⟨q.taken.map (frame8N1 divisor), q.taken, hrun.line, ?_, ?_, ?_⟩
  · rw [List.map_map]
    exact List.map_congr_left fun c _ => receive8N1_frame8N1 divisor c
  · rw [hrun.fifo]
    exact hsub
  · rw [hrun.fifo]
    exact hwhole

/-- Seventeen bytes are one too many for a line that does not send meanwhile. -/
example : ¬ StaysWithin 16 0 (List.replicate 17 (FifoStep.put (0 : Byte))) := by decide

end Line

/-- Two characters at the speed of `com_init`, the first of them sent before the second is written. -/
theorem comRun_line_hi : ∃ frames sent,
    (((⟨⟨0, 0, 0, 0, 0⟩, [], []⟩ : Uart).run serialCom1 (comInit.map .out)).run serialCom1
      [.out (serialCom1, 0x68), .send, .out (serialCom1, 0x69)]).line =
        ((⟨⟨0, 0, 0, 0, 0⟩, [], []⟩ : Uart).run serialCom1 (comInit.map .out)).line ++ frames ∧
      frames.map (receive8N1 3) = sent.map some ∧
      sent ++ (((⟨⟨0, 0, 0, 0, 0⟩, [], []⟩ : Uart).run serialCom1 (comInit.map .out)).run serialCom1
        [.out (serialCom1, 0x68), .send, .out (serialCom1, 0x69)]).fifo = [0x68, 0x69] := by
  have hcalls : comWrites (fun _ => 0) [.puts (literal "hi")] =
      .ok [(serialCom1, 0x68), (serialCom1, 0x69)] := by decide
  obtain ⟨frames, sent, hline, hread, -, hwhole⟩ :=
    comRun_line ⟨⟨0, 0, 0, 0, 0⟩, [], []⟩
      (show lineWrites (comInit.map .out) = comInitPort serialCom1 3 by decide) hcalls (by
        intro call hcall
        rw [List.mem_singleton.mp hcall]
        exact ⟨by decide, by decide, by decide, by decide⟩)
      (show lineWrites [.out (serialCom1, 0x68), .send, .out (serialCom1, 0x69)] = _ from rfl)
  exact ⟨frames, sent, hline, hread, hwhole.mpr (by decide)⟩

end Cerberos
