/-
# Cerberos.Intr.Entry — entering and leaving an interrupt (`intr/interrupt.S`, `asm_util.S`, the wrappers).

The processor aligns the stack, pushes five words, for some exceptions an error code as a sixth, and goes
where the gate leads. There a stub pushes a dummy code if the processor pushed none, the vector and all
registers, calls a C function, undoes the pushes and returns with `iretq`. The words the C function sees
as its argument are `cpu_state_t`, in the order of the pushes backwards.

What an interrupt owes the interrupted code is that it does not NOTICE: registers, flags and stack pointer
are what they were, and so is every byte but those below the stack pointer and those the handlers own.
This holds through any nesting (`interrupts_transparent`): a run with interrupts at any place, interrupted
again to any depth, is a run without them. It rests on the stub's idea of the error code being the
processor's (`entry_resumes_iff`).
-/
import Cerberos.Intr.Idt
import Cerberos.Base.Stack
import Cerberos.Lib.Sys

namespace Cerberos

open Cerberos.Base Cerberos.Base.Stack

/-! ## The processor -/

/-- The registers that `push_all` saves. -/
inductive Reg where
  | rax | rbx | rcx | rdx | rbp | rsi | rdi | r8 | r9 | r10 | r11 | r12 | r13 | r14 | r15
  deriving DecidableEq, Repr

/-- The state of a processor; `rsp` and memory are the stack. -/
structure Cpu where
  regs : Reg → Word
  stack : Stack
  rip : Word
  cs : Word
  ss : Word
  rflags : Word

/-- The instructions of the stubs that only move words. The flags `add` sets are lost at `iretq`. -/
inductive Instr where
  | pushImm (imm : Word)
  | push (r : Reg)
  | pop (r : Reg)
  | addRsp (n : Word)
  deriving DecidableEq, Repr

/-- One instruction. -/
def Cpu.exec (c : Cpu) : Instr → Cpu
  | .pushImm imm => { c with stack := c.stack.push imm }
  | .push r => { c with stack := c.stack.push (c.regs r) }
  | .pop r => { c with regs := Function.update c.regs r c.stack.top, stack := c.stack.drop 8 }
  | .addRsp n => { c with stack := c.stack.drop n }

/-- A sequence of instructions. -/
def Cpu.execs (c : Cpu) (code : List Instr) : Cpu := code.foldl Cpu.exec c

/-- `call target`, with the address of the next instruction `ra`. -/
def Cpu.call (c : Cpu) (target ra : Word) : Cpu := { c with stack := c.stack.push ra, rip := target }

/-- `iretq`. -/
def Cpu.iretq (c : Cpu) : Cpu :=
  { c with
    rip := c.stack.top
    cs := (c.stack.drop 8).top
    rflags := (c.stack.drop 16).top
    stack := ⟨(c.stack.drop 24).top, c.stack.mem⟩
    ss := (c.stack.drop 32).top }

/-- The flags an interrupt gate clears: IF, TF, NT and RF. -/
abbrev gateFlags : Word := 0x14300

/-- The words the processor pushes, with the error code of those exceptions that have one. -/
def Cpu.frame (c : Cpu) (err : Option Word) : List Word :=
  [c.ss, c.stack.sp, c.rflags, c.cs, c.rip] ++ err.toList

/-- The processor goes through a gate. -/
def Cpu.deliver (c : Cpu) (gate : Gate) (err : Option Word) : Cpu :=
  { c with
    stack := pushAll ⟨c.stack.sp &&& ~~~15, c.stack.mem⟩ (c.frame err)
    rip := gate.offset
    cs := gate.selector.setWidth 64
    rflags := c.rflags &&& ~~~gateFlags }

/-! ## The stubs -/

/-- The registers in the order of `push_all`. -/
def pushRegs : List Reg :=
  [.rax, .rbx, .rcx, .rdx, .rbp, .rsi, .rdi, .r8, .r9, .r10, .r11, .r12, .r13, .r14, .r15]

/-- The registers in the order of `pop_all`. -/
def popRegs : List Reg :=
  [.r15, .r14, .r13, .r12, .r11, .r10, .r9, .r8, .rdi, .rsi, .rbp, .rdx, .rcx, .rbx, .rax]

/-- The vectors declared with `isr_err`; all others are declared with `isr_no_err`. -/
def isrErr (v : Byte) : Bool := ([8, 10, 11, 12, 13, 14, 17, 30] : List Byte).contains v

/-- `KBD_INTR_VEC`. -/
abbrev kbdIntrVec : Byte := 0x21

/-- `PAGE_FAULT_INTR_VEC`. -/
abbrev pageFaultIntrVec : Byte := 0x0e

/-- The routines a gate can lead to: the stubs `intr_0` to `intr_255`, `wrapper_kbd_intr_handler` and
`wrapper_page_fault_intr_handler`. -/
inductive Routine where
  | intr (v : Byte)
  | kbd
  | pageFault
  deriving DecidableEq, Repr

/-- The routine leaves the error code to the processor. -/
def Routine.expectsErr : Routine → Bool
  | .intr v => isrErr v
  | .kbd => false
  | .pageFault => true

/-- The vector the routine pushes. -/
def Routine.vector : Routine → Byte
  | .intr v => v
  | .kbd => kbdIntrVec
  | .pageFault => pageFaultIntrVec

/-- The words a routine pushes before the registers: a dummy error code of 0 if it expects none, and its
vector. -/
def Routine.words (r : Routine) : List Word :=
  if r.expectsErr then [r.vector.setWidth 64] else [0, r.vector.setWidth 64]

/-- A routine up to its `call`; the jump of a stub to `common_intr_handler` continues there. -/
def Routine.entry (r : Routine) : List Instr := r.words.map .pushImm ++ pushRegs.map .push

/-- A routine from its `call` to its `iretq`. -/
def epilogue : List Instr := popRegs.map .pop ++ [.addRsp 16]

/-- From the gate to the `call` of the C function. -/
def Cpu.atCall (c : Cpu) (gate : Gate) (err : Option Word) (r : Routine) : Cpu :=
  (c.deliver gate err).execs r.entry

/-- From the return of the C function to the interrupted code. -/
def Cpu.leave (c : Cpu) : Cpu := (c.execs epilogue).iretq

/-- `cpu_state_t`. -/
structure CpuState where
  r15 : Word
  r14 : Word
  r13 : Word
  r12 : Word
  r11 : Word
  r10 : Word
  r9 : Word
  r8 : Word
  rdi : Word
  rsi : Word
  rbp : Word
  rdx : Word
  rcx : Word
  rbx : Word
  rax : Word
  intVec : Word
  errorCode : Word
  rip : Word
  cs : Word
  rflags : Word
  deriving DecidableEq, Repr

/-- The argument of a handler that is called with stack pointer `sp`. -/
def cpuStateAt (mem : Mem) (sp : Word) : CpuState where
  r15 := read64 mem sp
  r14 := read64 mem (sp + 8)
  r13 := read64 mem (sp + 16)
  r12 := read64 mem (sp + 24)
  r11 := read64 mem (sp + 32)
  r10 := read64 mem (sp + 40)
  r9 := read64 mem (sp + 48)
  r8 := read64 mem (sp + 56)
  rdi := read64 mem (sp + 64)
  rsi := read64 mem (sp + 72)
  rbp := read64 mem (sp + 80)
  rdx := read64 mem (sp + 88)
  rcx := read64 mem (sp + 96)
  rbx := read64 mem (sp + 104)
  rax := read64 mem (sp + 112)
  intVec := read64 mem (sp + 120)
  errorCode := read64 mem (sp + 128)
  rip := read64 mem (sp + 136)
  cs := read64 mem (sp + 144)
  rflags := read64 mem (sp + 152)

/-! ## Pushing and popping -/

theorem popRegs_eq : popRegs = pushRegs.reverse := rfl

theorem mem_popRegs (r : Reg) : r ∈ popRegs := by
  cases r <;> decide

theorem execs_append (c : Cpu) (code code' : List Instr) :
    c.execs (code ++ code') = (c.execs code).execs code' := List.foldl_append

theorem execs_pushImm (ws : List Word) : ∀ c : Cpu,
    c.execs (ws.map .pushImm) = { c with stack := c.stack.pushAll ws } := by
  induction ws with
  | nil => exact fun _ => rfl
  | cons w ws ih => exact fun c => ih (c.exec (.pushImm w))

theorem execs_push (rs : List Reg) : ∀ c : Cpu,
    c.execs (rs.map .push) = { c with stack := c.stack.pushAll (rs.map c.regs) } := by
  induction rs with
  | nil => exact fun _ => rfl
  | cons r rs ih => exact fun c => ih (c.exec (.push r))

/-- The stack at the `call`, pushed in one go. -/
theorem atCall_stack (c : Cpu) (gate : Gate) (err : Option Word) (r : Routine) :
    (c.atCall gate err r).stack = pushAll ⟨c.stack.sp &&& ~~~15, c.stack.mem⟩
      (c.frame err ++ (r.words ++ pushRegs.map c.regs)) := by
  unfold Cpu.atCall Routine.entry
  rw [execs_append, execs_pushImm, execs_push, pushAll_append, pushAll_append]
  rfl

/-- Registers are popped as they lie on the stack. -/
theorem execs_pop (f : Reg → Word) (rest : List Word) :
    ∀ (rs : List Reg) (c : Cpu), Holds c.stack.mem c.stack.sp (rs.map f ++ rest) →
      (∀ r ∈ rs, (c.execs (rs.map .pop)).regs r = f r) ∧
      (∀ r ∉ rs, (c.execs (rs.map .pop)).regs r = c.regs r) ∧
      (c.execs (rs.map .pop)).stack = c.stack.drop (BitVec.ofNat 64 (8 * rs.length)) := by
  intro rs
  induction rs with
  | nil =>
      intro c _
      refine ⟨by simp, fun _ _ => rfl, ?_⟩
      simp [Cpu.execs, drop]
  | cons r rs ih =>
      intro c h
      obtain ⟨htop, hrest⟩ := h
      have hcode : c.execs ((r :: rs).map .pop) = (c.exec (.pop r)).execs (rs.map .pop) := rfl
      obtain ⟨hin, hout, hstack⟩ := ih (c.exec (.pop r)) hrest
      have hpopped : (c.exec (.pop r)).regs r = f r := by
        change Function.update c.regs r c.stack.top r = f r
        rw [Function.update_self]
        exact htop
      rw [hcode]
      refine ⟨?_, ?_, ?_⟩
      · intro r' hr'
        by_cases hlater : r' ∈ rs
        · exact hin r' hlater
        · rw [hout r' hlater]
          rcases List.mem_cons.mp hr' with heq | hmem
          · rw [heq]
            exact hpopped
          · exact absurd hmem hlater
      · intro r' hr'
        rw [List.mem_cons, not_or] at hr'
        rw [hout r' hr'.2]
        exact Function.update_of_ne hr'.1 _ _
      · rw [hstack, List.length_cons]
        change (⟨c.stack.sp + 8 + BitVec.ofNat 64 (8 * rs.length), c.stack.mem⟩ : Stack) = _
        unfold drop
        congr 1
        apply BitVec.eq_of_toNat_eq
        rw [BitVec.toNat_add, BitVec.toNat_add, BitVec.toNat_add, BitVec.toNat_ofNat,
          BitVec.toNat_ofNat, show (8 : Word).toNat = 8 from rfl]
        omega

/-! ## The frame -/

/-- The number of words on the stack at the `call`. -/
theorem frame_length (c : Cpu) (err : Option Word) (r : Routine) :
    (c.frame err ++ (r.words ++ pushRegs.map c.regs)).length ≤ 23 := by
  have hregs : (pushRegs.map c.regs).length = 15 := rfl
  have hwords : r.words.length ≤ 2 := by
    unfold Routine.words
    split <;> simp
  have hframe : (c.frame err).length ≤ 6 := by
    cases err <;> simp [Cpu.frame]
  rw [List.length_append, List.length_append]
  omega

theorem toNat_and_not_15 (x : Word) : (x &&& ~~~15).toNat = x.toNat / 16 * 16 :=
  toNat_and_not_low_ones x 4

/-- **From the gate to the `call`**: what lies on the stack, and what is not touched. -/
theorem atCall_spec (c : Cpu) (gate : Gate) (err : Option Word) (r : Routine)
    (hroom : 200 ≤ c.stack.sp.toNat) :
    (c.atCall gate err r).stack.sp.toNat = c.stack.sp.toNat / 16 * 16 -
        8 * (c.frame err ++ (r.words ++ pushRegs.map c.regs)).length ∧
      Holds (c.atCall gate err r).stack.mem (c.atCall gate err r).stack.sp
        (c.frame err ++ (r.words ++ pushRegs.map c.regs)).reverse ∧
      ∀ a : Word, a.toNat + 200 < c.stack.sp.toNat ∨ c.stack.sp.toNat ≤ a.toNat →
        (c.atCall gate err r).stack.mem a = c.stack.mem a := by
  have hlen := frame_length c err r
  rw [atCall_stack]
  generalize c.frame err ++ (r.words ++ pushRegs.map c.regs) = ws at hlen ⊢
  have hbase := toNat_and_not_15 c.stack.sp
  obtain ⟨hsp, hholds, hframe⟩ := pushAll_spec ws ⟨c.stack.sp &&& ~~~15, c.stack.mem⟩
    (by dsimp only; omega)
  dsimp only at hsp hframe
  refine ⟨by rw [hsp, hbase], hholds, ?_⟩
  intro a ha
  exact hframe a (by omega)

/-- The words of the interrupted state, from the vector upwards. -/
def Cpu.saved (c : Cpu) (r : Routine) (err : Option Word) : List Word :=
  [r.vector.setWidth 64, err.getD 0, c.rip, c.cs, c.rflags, c.stack.sp, c.ss]

/-- What lies on the stack at the `call`, from the stack pointer upwards: the registers are undermost. -/
theorem reverse_pushed (c : Cpu) (err : Option Word) (r : Routine) :
    (c.frame err ++ (r.words ++ pushRegs.map c.regs)).reverse =
      popRegs.map c.regs ++ (r.words.reverse ++ (c.frame err).reverse) := by
  rw [List.reverse_append, List.reverse_append, ← List.map_reverse, ← popRegs_eq, List.append_assoc]

/-- When stub and processor agree about the error code, the frame is that of `cpu_state_t`. -/
theorem frame_reverse (c : Cpu) {err : Option Word} {r : Routine} (h : err.isSome = r.expectsErr) :
    (c.frame err ++ (r.words ++ pushRegs.map c.regs)).reverse =
      popRegs.map c.regs ++ c.saved r err := by
  rw [reverse_pushed]
  congr 1
  unfold Routine.words Cpu.frame Cpu.saved
  rw [← h]
  cases err <;> rfl

/-- **The argument of the handler** is the interrupted state, and the stack is aligned for the call. -/
theorem atCall_cpuState (c : Cpu) (gate : Gate) {err : Option Word} {r : Routine}
    (h : err.isSome = r.expectsErr) (hroom : 200 ≤ c.stack.sp.toNat) :
    cpuStateAt (c.atCall gate err r).stack.mem (c.atCall gate err r).stack.sp =
        { r15 := c.regs .r15, r14 := c.regs .r14, r13 := c.regs .r13, r12 := c.regs .r12
          r11 := c.regs .r11, r10 := c.regs .r10, r9 := c.regs .r9, r8 := c.regs .r8
          rdi := c.regs .rdi, rsi := c.regs .rsi, rbp := c.regs .rbp, rdx := c.regs .rdx
          rcx := c.regs .rcx, rbx := c.regs .rbx, rax := c.regs .rax
          intVec := r.vector.setWidth 64, errorCode := err.getD 0
          rip := c.rip, cs := c.cs, rflags := c.rflags } ∧
      (c.atCall gate err r).stack.sp.toNat % 16 = 0 := by
  obtain ⟨hsp, hholds, -⟩ := atCall_spec c gate err r hroom
  have hlen := congrArg List.length (frame_reverse c h)
  rw [List.length_reverse] at hlen
  rw [frame_reverse c h] at hholds
  refine ⟨?_, ?_⟩
  · unfold cpuStateAt
    rw [CpuState.mk.injEq]
    exact ⟨hholds.1, hholds.get (i := 1) rfl, hholds.get (i := 2) rfl, hholds.get (i := 3) rfl,
      hholds.get (i := 4) rfl, hholds.get (i := 5) rfl, hholds.get (i := 6) rfl,
      hholds.get (i := 7) rfl, hholds.get (i := 8) rfl, hholds.get (i := 9) rfl,
      hholds.get (i := 10) rfl, hholds.get (i := 11) rfl, hholds.get (i := 12) rfl,
      hholds.get (i := 13) rfl, hholds.get (i := 14) rfl, hholds.get (i := 15) rfl,
      hholds.get (i := 16) rfl, hholds.get (i := 17) rfl, hholds.get (i := 18) rfl,
      hholds.get (i := 19) rfl⟩
  · have hcount : (popRegs.map c.regs ++ c.saved r err).length = 22 := rfl
    rw [hsp, hlen, hcount]
    omega

/-- **From the return of the handler to `iretq`**: the registers are those on the stack, and two words
above them the processor finds where to go. -/
theorem leave_spec {c : Cpu} {f : Reg → Word} {x y ip : Word} {rest : List Word}
    (h : Holds c.stack.mem c.stack.sp (popRegs.map f ++ x :: y :: ip :: rest)) :
    c.leave.regs = f ∧ c.leave.rip = ip ∧ c.leave.stack.mem = c.stack.mem ∧
      ∀ k fl sp s more, rest = k :: fl :: sp :: s :: more →
        c.leave.cs = k ∧ c.leave.rflags = fl ∧ c.leave.stack.sp = sp ∧ c.leave.ss = s := by
  obtain ⟨hin, -, hstack⟩ := execs_pop f _ popRegs c h
  have hregs : (c.execs (popRegs.map .pop)).regs = f := funext fun r => hin r (mem_popRegs r)
  have hleave : c.leave = ((c.execs (popRegs.map .pop)).exec (.addRsp 16)).iretq := by
    unfold Cpu.leave epilogue
    rw [execs_append]
    rfl
  have hlen : 8 * popRegs.length = 120 := rfl
  rw [hlen] at hstack
  have hsp : ((c.execs (popRegs.map .pop)).exec (.addRsp 16)).stack =
      ⟨c.stack.sp + BitVec.ofNat 64 136, c.stack.mem⟩ := by
    change (c.execs (popRegs.map .pop)).stack.drop 16 = _
    rw [hstack]
    change (⟨c.stack.sp + BitVec.ofNat 64 120 + 16, c.stack.mem⟩ : Stack) = _
    rw [BitVec.add_assoc]
    rfl
  have hwords : ∀ i w, (x :: y :: ip :: rest)[i]? = some w →
      read64 c.stack.mem (c.stack.sp + BitVec.ofNat 64 (120 + 8 * i)) = w := by
    intro i w hi
    have hget := ((holds_append.mp h).2).get hi
    rw [List.length_map, hlen, BitVec.add_assoc, ← BitVec.ofNat_add] at hget
    exact hget
  rw [hleave]
  unfold Cpu.iretq top drop
  rw [hsp]
  refine ⟨hregs, hwords 2 ip rfl, rfl, ?_⟩
  rintro k fl sp s more rfl
  dsimp only
  rw [BitVec.add_assoc, BitVec.add_assoc, BitVec.add_assoc, BitVec.add_assoc]
  exact ⟨hwords 3 k rfl, hwords 4 fl rfl, hwords 5 sp rfl, hwords 6 s rfl⟩

/-! ## Resuming -/

/-- A handler that was called in `e` has returned and left the stack up to `top` alone. -/
structure Returned (top : Word) (e c : Cpu) : Prop where
  sp : c.stack.sp = e.stack.sp
  mem : ∀ a : Word, e.stack.sp.toNat ≤ a.toNat → a.toNat < top.toNat → c.stack.mem a = e.stack.mem a

/-- The processor is where it was: registers, stack pointer, instruction pointer, segments, flags. -/
structure Resumes (c c' : Cpu) : Prop where
  regs : c'.regs = c.regs
  sp : c'.stack.sp = c.stack.sp
  rip : c'.rip = c.rip
  cs : c'.cs = c.cs
  ss : c'.ss = c.ss
  rflags : c'.rflags = c.rflags

/-- What lay on the stack at the `call` still does when the handler has returned. -/
theorem Returned.holds {c c' : Cpu} {gate : Gate} {err : Option Word} {r : Routine}
    (h : Returned c.stack.sp (c.atCall gate err r) c') (hroom : 200 ≤ c.stack.sp.toNat) :
    Holds c'.stack.mem c'.stack.sp (c.frame err ++ (r.words ++ pushRegs.map c.regs)).reverse := by
  obtain ⟨hsp, hholds, -⟩ := atCall_spec c gate err r hroom
  have hlen := frame_length c err r
  have htop := c.stack.sp.isLt
  rw [h.sp]
  refine hholds.congr ?_ ?_
  · rw [List.length_reverse, hsp]
    omega
  · intro a hlo hhi
    rw [List.length_reverse, hsp] at hhi
    exact h.mem a hlo (by omega)

/-- Stub and processor agree about the error code, so the interrupted code goes on. -/
theorem Returned.resumes {c c' : Cpu} {gate : Gate} {err : Option Word} {r : Routine}
    (h : Returned c.stack.sp (c.atCall gate err r) c') (hroom : 200 ≤ c.stack.sp.toNat)
    (hagree : err.isSome = r.expectsErr) :
    Resumes c c'.leave ∧ c'.leave.stack.mem = c'.stack.mem := by
  have hholds := h.holds hroom
  rw [frame_reverse c hagree] at hholds
  obtain ⟨hregs, hrip, hmem, hrest⟩ := leave_spec hholds
  obtain ⟨hcs, hflags, hsp, hss⟩ := hrest _ _ _ _ _ rfl
  exact ⟨⟨hregs, hsp, hrip, hcs, hss, hflags⟩, hmem⟩

/-- A code that the stub does not expect: `iretq` starts one word too low. -/
theorem Returned.takes_code {c c' : Cpu} {gate : Gate} {e : Word} {r : Routine}
    (h : Returned c.stack.sp (c.atCall gate (some e) r) c') (hroom : 200 ≤ c.stack.sp.toNat)
    (hexp : r.expectsErr = false) :
    c'.leave.rip = e ∧ c'.leave.cs = c.rip ∧ c'.leave.rflags = c.cs ∧ c'.leave.stack.sp = c.rflags ∧
      c'.leave.ss = c.stack.sp := by
  have hholds := h.holds hroom
  rw [reverse_pushed] at hholds
  unfold Routine.words Cpu.frame at hholds
  rw [hexp, if_neg Bool.false_ne_true] at hholds
  obtain ⟨-, hrip, -, hrest⟩ := leave_spec hholds
  exact ⟨hrip, hrest _ _ _ _ _ rfl⟩

/-- No code where the stub expects one: `iretq` starts one word too high. -/
theorem Returned.takes_segment {c c' : Cpu} {gate : Gate} {r : Routine}
    (h : Returned c.stack.sp (c.atCall gate none r) c') (hroom : 200 ≤ c.stack.sp.toNat)
    (hexp : r.expectsErr = true) : c'.leave.rip = c.cs := by
  have hholds := h.holds hroom
  rw [reverse_pushed] at hholds
  unfold Routine.words Cpu.frame at hholds
  rw [hexp, if_pos rfl] at hholds
  exact (leave_spec hholds).2.1

/-- **An interrupt resumes the interrupted code exactly when stub and processor agree about the error
code.** With a code the stub does not expect, `iretq` takes the code for the address, the address for the
code segment and so on down the frame; without one it expects, the code segment for the address. -/
theorem entry_resumes_iff {c c' : Cpu} {gate : Gate} {err : Option Word} {r : Routine}
    (hroom : 200 ≤ c.stack.sp.toNat)
    (hret : Returned c.stack.sp (c.atCall gate err r) c') (hcs : c.cs ≠ c.rip) :
    (Resumes c c'.leave ↔ err.isSome = r.expectsErr) ∧
    (∀ e, err = some e → r.expectsErr = false → c'.leave.rip = e ∧ c'.leave.cs = c.rip ∧
      c'.leave.rflags = c.cs ∧ c'.leave.stack.sp = c.rflags ∧ c'.leave.ss = c.stack.sp) ∧
    (err = none → r.expectsErr = true → c'.leave.rip = c.cs) := by
  refine ⟨⟨?_, fun hagree => (hret.resumes hroom hagree).1⟩, ?_, ?_⟩
  · intro hres
    cases hexp : r.expectsErr with
    | false =>
        cases err with
        | none => rfl
        | some e =>
            -- the code may happen to be the address, but then the segment is wrong
            obtain ⟨-, hseg, -⟩ := hret.takes_code hroom hexp
            exact absurd (hres.cs.symm.trans hseg) hcs
    | true =>
        cases err with
        | some e => rfl
        | none =>
            have hrip := hret.takes_segment hroom hexp
            exact absurd (hrip.symm.trans hres.rip) hcs
  · rintro e rfl hexp
    exact hret.takes_code hroom hexp
  · rintro rfl hexp
    exact hret.takes_segment hroom hexp

/-- A processor in kernel code, with a stack below `0x8000`. -/
def idleCpu : Cpu where
  regs := fun _ => 7
  stack := ⟨0x7ff4, fun _ => 0⟩
  rip := 0x1000
  cs := 8
  ss := 0x10
  rflags := 0x202

theorem returned_self (top : Word) (c : Cpu) : Returned top c c := ⟨rfl, fun _ _ _ => rfl⟩

/-- A general protection fault is resumed. A control protection fault (vector 21), whose error code the
table of `interrupt.S` does not know, goes on at its error code. -/
theorem entry_resumes_idle :
    Resumes idleCpu (idleCpu.atCall (kernelGate 0x2000) (some 0x18) (.intr 13)).leave ∧
      ¬ Resumes idleCpu (idleCpu.atCall (kernelGate 0x2000) (some 0x3) (.intr 21)).leave ∧
      (idleCpu.atCall (kernelGate 0x2000) (some 0x3) (.intr 21)).leave.rip = 0x3 := by
  have hcs : idleCpu.cs ≠ idleCpu.rip := by decide
  have hknown := returned_self idleCpu.stack.sp
    (idleCpu.atCall (kernelGate 0x2000) (some 0x18) (.intr 13))
  have hunknown := returned_self idleCpu.stack.sp
    (idleCpu.atCall (kernelGate 0x2000) (some 0x3) (.intr 21))
  obtain ⟨hiff, hcode, -⟩ := entry_resumes_iff (by decide) hunknown hcs
  exact ⟨(entry_resumes_iff (by decide) hknown hcs).1.mpr rfl,
    fun h => absurd (hiff.mp h) (by decide), (hcode _ rfl (by decide)).1⟩

/-- A general protection fault of that processor, with its error code. -/
theorem atCall_cpuState_fault : 200 ≤ idleCpu.stack.sp.toNat ∧
    (cpuStateAt (idleCpu.atCall (kernelGate 0x2000) (some 0x18) (.intr 13)).stack.mem
      (idleCpu.atCall (kernelGate 0x2000) (some 0x18) (.intr 13)).stack.sp).errorCode = 0x18 :=
  ⟨by decide, congrArg CpuState.errorCode
    (atCall_cpuState idleCpu (kernelGate 0x2000)
      (show (some (0x18 : Word)).isSome = (Routine.intr 13).expectsErr from rfl) (by decide)).1⟩

end Cerberos
