/-
# Cerberos.Intr.Nesting — interrupts that are interrupted.

A handler is kernel code like any other: it can be interrupted in turn, by an exception or by a
non-maskable interrupt, and so can the handler of that. What the kernel's code has to promise is little.
It must not read what lies below its stack pointer (the kernel is compiled without a red zone), nor what
the handlers own; and a handler that is left ALONE must return with the stack as it found it. Then a run
with interrupts is, but for those bytes, a run without.

The proof is a simulation. An interrupt whose handler runs undisturbed is undone by the stub; a handler
that is disturbed behaves, by induction on the run, as if it were not.
-/
import Cerberos.Intr.Entry
import Mathlib.Logic.Relation

namespace Cerberos

open Cerberos.Base Cerberos.Base.Stack

/-! ## States that code cannot tell apart -/

section Nesting

variable {lo hi : ℕ} {own : Set Word}

/-- The states differ at most in the bytes `own` and in those of the stack, from `lo` on, that lie below
the stack pointer. -/
structure Same (lo : ℕ) (own : Set Word) (c d : Cpu) : Prop extends Resumes c d where
  mem : ∀ a : Word, a ∉ own → a.toNat < lo ∨ c.stack.sp.toNat ≤ a.toNat →
    d.stack.mem a = c.stack.mem a

theorem Same.refl (c : Cpu) : Same lo own c c := ⟨⟨rfl, rfl, rfl, rfl, rfl, rfl⟩, fun _ _ _ => rfl⟩

theorem Same.symm {c d : Cpu} (h : Same lo own c d) : Same lo own d c := by
  refine ⟨⟨h.regs.symm, h.sp.symm, h.rip.symm, h.cs.symm, h.ss.symm, h.rflags.symm⟩, ?_⟩
  intro a ha hplace
  rw [h.sp] at hplace
  exact (h.mem a ha hplace).symm

theorem Same.trans {c d e : Cpu} (h : Same lo own c d) (h' : Same lo own d e) : Same lo own c e := by
  refine ⟨⟨h'.regs.trans h.regs, h'.sp.trans h.sp, h'.rip.trans h.rip, h'.cs.trans h.cs,
    h'.ss.trans h.ss, h'.rflags.trans h.rflags⟩, ?_⟩
  intro a ha hplace
  refine (h'.mem a ha ?_).trans (h.mem a ha hplace)
  rw [h.sp]
  exact hplace

/-! ## Runs -/

/-- What the kernel's own code promises: it runs alike in states it cannot tell apart, a handler that
runs undisturbed from its `call` to its return leaves the stack above it and everything else but `own`
alone, and `own` is no part of the stack from `lo` to `hi`. -/
structure CodeOk (lo hi : ℕ) (own : Set Word) (step : Cpu → Cpu → Prop) (target ra : Routine → Word) :
    Prop where
  sim : ∀ {c d c'}, Same lo own c d → step c c' → ∃ d', step d d' ∧ Same lo own c' d'
  abi : ∀ {e c : Cpu} {r : Routine}, e.rip = target r → Relation.ReflTransGen step e c →
    c.rip = ra r → c.stack.sp = e.stack.sp + 8 → ∀ a : Word, a ∉ own →
      a.toNat < lo ∨ (e.stack.sp + 8).toNat ≤ a.toNat → c.stack.mem a = e.stack.mem a
  off : ∀ a ∈ own, a.toNat < lo ∨ hi ≤ a.toNat

/-- The runs of a processor with the table `t`: steps of kernel code, and interrupts, whose handlers run
in the same way. A handler is called with the address `ra` to return to, and has returned when the
processor is there with the stack pointer of the `call`. -/
inductive InterruptedRun (lo hi : ℕ) (step : Cpu → Cpu → Prop) (t : Idt)
    (link target ra : Routine → Word) : Cpu → Cpu → Prop
  | refl (c : Cpu) : InterruptedRun lo hi step t link target ra c c
  | step {c c₁ c₂ : Cpu} : InterruptedRun lo hi step t link target ra c c₁ → step c₁ c₂ →
      InterruptedRun lo hi step t link target ra c c₂
  | intr {c c₁ c₂ : Cpu} {v : Byte} {err : Option Word} {r : Routine} :
      InterruptedRun lo hi step t link target ra c c₁ →
      lo + 208 ≤ c₁.stack.sp.toNat → c₁.stack.sp.toNat ≤ hi →
      fetchGate t v = some (kernelGate (link r)) → err.isSome = isrErr v →
      InterruptedRun lo hi step t link target ra
        ((c₁.atCall (kernelGate (link r)) err r).call (target r) (ra r)) c₂ →
      c₂.rip = ra r → c₂.stack.sp = (c₁.atCall (kernelGate (link r)) err r).stack.sp →
      InterruptedRun lo hi step t link target ra c c₂.leave

/-- The `call` pushes below the frame. -/
theorem call_mem (e : Cpu) (target ra : Word) (hroom : 8 ≤ e.stack.sp.toNat) {a : Word}
    (ha : a.toNat + 8 < e.stack.sp.toNat ∨ e.stack.sp.toNat ≤ a.toNat) :
    (e.call target ra).stack.mem a = e.stack.mem a := by
  have hsp : (e.stack.sp - 8).toNat = e.stack.sp.toNat - 8 := by bv_omega
  have htop := e.stack.sp.isLt
  exact write64_apply_of_outside (by omega) (by omega)

/-- **One interrupt**, whose handler behaves as an undisturbed one does. -/
theorem Same.interrupt {step : Cpu → Cpu → Prop} {target ra : Routine → Word}
    (hok : CodeOk lo hi own step target ra) {c c₂ e : Cpu} {gate : Gate} {err : Option Word}
    {r : Routine} (hagree : err.isSome = r.expectsErr) (hroom : lo + 208 ≤ c.stack.sp.toNat)
    (hhi : c.stack.sp.toNat ≤ hi)
    (hrun : Relation.ReflTransGen step ((c.atCall gate err r).call (target r) (ra r)) e)
    (hsame : Same lo own e c₂) (hrip : c₂.rip = ra r)
    (hsp : c₂.stack.sp = (c.atCall gate err r).stack.sp) : Same lo own c c₂.leave := by
  obtain ⟨hcall, -, hframe⟩ := atCall_spec c gate err r (by omega)
  have hlen := frame_length c err r
  have hback : ((c.atCall gate err r).call (target r) (ra r)).stack.sp + 8 =
      (c.atCall gate err r).stack.sp := BitVec.sub_add_cancel _ _
  have hsp' : e.stack.sp = (c.atCall gate err r).stack.sp := hsame.sp.symm.trans hsp
  -- the undisturbed handler, and with it the disturbed one, keeps all but `own`
  have hkept : ∀ a : Word, a ∉ own →
      a.toNat < lo ∨ (c.atCall gate err r).stack.sp.toNat ≤ a.toNat →
      c₂.stack.mem a = (c.atCall gate err r).stack.mem a := by
    intro a ha hplace
    have h1 := hsame.mem a ha (by rw [hsp']; exact hplace)
    have h2 := hok.abi rfl hrun (hsame.rip.symm.trans hrip) (hsp'.trans hback.symm) a ha
      (by rw [hback]; exact hplace)
    have h3 := call_mem (c.atCall gate err r) (target r) (ra r) (by omega) (a := a) (by omega)
    exact h1.trans (h2.trans h3)
  have hret : Returned c.stack.sp (c.atCall gate err r) c₂ := by
    refine ⟨hsp, ?_⟩
    intro a hlo' hhi'
    refine hkept a ?_ (Or.inr hlo')
    intro hown
    have := hok.off a hown
    omega
  obtain ⟨hres, hmem⟩ := hret.resumes (by omega) hagree
  refine ⟨hres, ?_⟩
  intro a ha hplace
  rw [hmem, hkept a ha (by omega)]
  exact hframe a (by omega)

/-- **Interrupts are transparent**, given a table whose routines know the error codes of their
vectors. -/
theorem InterruptedRun.erase {step : Cpu → Cpu → Prop} {t : Idt} {link target ra : Routine → Word}
    (hok : CodeOk lo hi own step target ra)
    (hkind : ∀ v r, fetchGate t v = some (kernelGate (link r)) → r.expectsErr = isrErr v)
    {c c' : Cpu} (h : InterruptedRun lo hi step t link target ra c c') :
    ∃ d, Relation.ReflTransGen step c d ∧ Same lo own d c' := by
  induction h with
  | refl c => exact ⟨c, .refl, Same.refl c⟩
  | step _ hstep ih =>
      obtain ⟨d, hrun, hsame⟩ := ih
      obtain ⟨d', hstep', hsame'⟩ := hok.sim hsame.symm hstep
      exact ⟨d', hrun.tail hstep', hsame'.symm⟩
  | intr _ hroom hhi hgate herr _ hrip hsp ih ih' =>
      obtain ⟨d, hrun, hsame⟩ := ih
      obtain ⟨e, hhandler, hsame'⟩ := ih'
      exact ⟨d, hrun, hsame.trans (Same.interrupt hok (herr.trans (hkind _ _ hgate).symm) hroom hhi
        hhandler hsame' hrip hsp)⟩

end Nesting

/-! ## The kernel's table -/

/-- A call that gives a vector a routine of its kind. -/
def IdtOp.OfKind (link : Routine → Word) : IdtOp → Prop
  | .init _ => True
  | .register handler irqNum => ∃ r : Routine, handler = link r ∧ r.expectsErr = isrErr irqNum

/-- Every vector keeps a routine of its kind. -/
theorem routesAfter_kind {link : Routine → Word} {ops : List IdtOp} :
    ∀ {routes : Byte → Word}, (∀ op ∈ ops, op.OfKind link) →
      (∀ v, ∃ r : Routine, routes v = link r ∧ r.expectsErr = isrErr v) →
      ∀ v, ∃ r : Routine, routesAfter routes ops v = link r ∧ r.expectsErr = isrErr v := by
  induction ops with
  | nil => exact fun _ h => h
  | cons op ops ih =>
      intro routes hops h
      rw [List.forall_mem_cons] at hops
      refine ih hops.2 ?_
      intro v
      cases op with
      | init address => exact h v
      | register handler irqNum =>
          unfold IdtOp.apply
          dsimp only
          by_cases hv : v = irqNum
          · obtain ⟨r, hr, hkind⟩ := hops.1
            rw [hv, Function.update_self]
            exact ⟨r, hr, hkind⟩
          · rw [Function.update_of_ne hv]
            exact h v

/-- Whatever gate the processor finds, its routine knows the error codes of the vector. -/
theorem idtRun_kind {link : Routine → Word} (hlink : Function.Injective link) {ops : List IdtOp}
    (hops : ∀ op ∈ ops, op.OfKind link) (v : Byte) (r : Routine)
    (hgate : fetchGate ((Idt.static fun v => link (.intr v)).run ops) v = some (kernelGate (link r))) :
    r.expectsErr = isrErr v := by
  have h := (Routes.static fun v => link (.intr v)).run ops
  unfold fetchGate at hgate
  by_cases hok : ((Idt.static fun v => link (.intr v)).run ops).loaded = true ∧
      16 * v.toNat + 15 ≤ ((Idt.static fun v => link (.intr v)).run ops).size.toNat
  · rw [if_pos hok, h.gates hok.1 v, decodeGate_idtDescFor, Option.some_inj, kernelGate, kernelGate,
      Gate.mk.injEq] at hgate
    obtain ⟨r', hr', hkind⟩ := routesAfter_kind hops (fun v => ⟨.intr v, rfl, rfl⟩) v
    rw [hr'] at hgate
    rw [← hlink hgate.1]
    exact hkind
  · rw [if_neg hok] at hgate
    cases hgate

/-- **Interrupts are transparent.** After any sequence of `idt_init` and registrations that give vectors
routines of their kind, every run of the kernel, with interrupts between any two steps and interrupts of
their handlers to any depth, ends as a run WITHOUT interrupts does, up to the bytes below the stack
pointer and those the handlers own. -/
theorem interrupts_transparent {lo hi : ℕ} {own : Set Word} {step : Cpu → Cpu → Prop}
    {link target ra : Routine → Word} (hok : CodeOk lo hi own step target ra)
    (hlink : Function.Injective link) {ops : List IdtOp} (hops : ∀ op ∈ ops, op.OfKind link)
    {c c' : Cpu}
    (h : InterruptedRun lo hi step ((Idt.static fun v => link (.intr v)).run ops) link target ra c c') :
    ∃ d, Relation.ReflTransGen step c d ∧ Same lo own d c' :=
  h.erase hok (idtRun_kind hlink hops)

/-! ## A nested interrupt -/

/-- A linker: the stubs from 0 on, then the wrappers. -/
def quietLink : Routine → Word
  | .intr v => v.setWidth 64
  | .kbd => 256
  | .pageFault => 257

theorem quietLink_injective : Function.Injective quietLink := by
  intro r r' h
  cases r <;> cases r' <;> simp only [quietLink] at h <;> first | rfl | (exfalso; bv_omega) | skip
  congr 1
  bv_omega

/-- `ret`. -/
def Cpu.ret (c : Cpu) : Cpu := { c with rip := c.stack.top, stack := c.stack.drop 8 }

/-- Kernel code whose handlers, all at one address, return at once. -/
def quietStep (c c' : Cpu) : Prop :=
  c.rip = 0x100000 ∧ c.stack.sp.toNat + 8 < 2 ^ 64 ∧ c' = c.ret

theorem quietStep_mem {c c' : Cpu} (h : Relation.ReflTransGen quietStep c c') :
    c'.stack.mem = c.stack.mem := by
  induction h with
  | refl => rfl
  | tail _ hstep ih =>
      rw [hstep.2.2]
      exact ih

theorem quietStep_ok :
    CodeOk 0x1000 0x9000 ∅ quietStep (fun _ => 0x100000) (fun _ => 0x200000) := by
  refine ⟨?_, ?_, fun a ha => absurd ha (Set.notMem_empty a)⟩
  · rintro c d _ hsame ⟨hrip, hfit, rfl⟩
    refine ⟨d.ret, ⟨hsame.rip.trans hrip, by rw [hsame.sp]; exact hfit, rfl⟩, ?_⟩
    have htop : d.stack.top = c.stack.top := by
      unfold top
      rw [hsame.sp]
      apply read64_congr
      intro k hk
      have hoff : (c.stack.sp + BitVec.ofNat 64 k).toNat = c.stack.sp.toNat + k := by bv_omega
      exact hsame.mem _ (Set.notMem_empty _) (Or.inr (by omega))
    have hsp : d.stack.sp + 8 = c.stack.sp + 8 := by rw [hsame.sp]
    have hup : (c.stack.sp + 8).toNat = c.stack.sp.toNat + 8 := by bv_omega
    refine ⟨⟨hsame.regs, hsp, htop, hsame.cs, hsame.ss, hsame.rflags⟩, ?_⟩
    intro a ha hplace
    refine hsame.mem a ha (hplace.imp_right ?_)
    intro habove
    change (c.stack.sp + 8).toNat ≤ a.toNat at habove
    omega
  · intro e c r _ hrun _ _ a _ _
    rw [quietStep_mem hrun]

/-- The table of a kernel that has registered its keyboard routine. -/
def quietOps : List IdtOp := [.init 0x5000, .register (quietLink .kbd) kbdIntrVec]

theorem quietOps_kind : ∀ op ∈ quietOps, op.OfKind quietLink := by
  intro op hop
  rcases List.mem_cons.mp hop with rfl | hop
  · trivial
  · rw [List.mem_singleton.mp hop]
    exact ⟨.kbd, rfl, rfl⟩

/-- The state in which the handler of a routine starts. -/
def Cpu.enter (c : Cpu) (err : Option Word) (r : Routine) : Cpu :=
  (c.atCall (kernelGate (quietLink r)) err r).call 0x100000 0x200000

/-- The runs of that kernel. -/
abbrev QuietRun : Cpu → Cpu → Prop :=
  InterruptedRun 0x1000 0x9000 quietStep ((Idt.static fun v => quietLink (.intr v)).run quietOps)
    quietLink (fun _ => 0x100000) (fun _ => 0x200000)

theorem enter_sp {c : Cpu} {err : Option Word} {r : Routine} (h : err.isSome = r.expectsErr)
    (hroom : 200 ≤ c.stack.sp.toNat) :
    (c.enter err r).stack.sp.toNat = c.stack.sp.toNat / 16 * 16 - 184 := by
  obtain ⟨hsp, -, -⟩ := atCall_spec c (kernelGate (quietLink r)) err r hroom
  have hlen := congrArg List.length (frame_reverse c h)
  rw [List.length_reverse] at hlen
  rw [hlen, show (popRegs.map c.regs ++ c.saved r err).length = 22 from rfl] at hsp
  change ((c.atCall (kernelGate (quietLink r)) err r).stack.sp - 8).toNat = _
  bv_omega

theorem enter_ret_sp (c : Cpu) (err : Option Word) (r : Routine) :
    (c.enter err r).ret.stack.sp = (c.atCall (kernelGate (quietLink r)) err r).stack.sp :=
  BitVec.sub_add_cancel _ _

theorem enter_ret_rip (c : Cpu) (err : Option Word) (r : Routine) :
    (c.enter err r).ret.rip = 0x200000 := read64_write64_self _ _ _

theorem enter_step {c : Cpu} {err : Option Word} {r : Routine} (h : err.isSome = r.expectsErr)
    (hroom : 200 ≤ c.stack.sp.toNat) : quietStep (c.enter err r) (c.enter err r).ret := by
  have hsp := enter_sp h hroom
  have htop := c.stack.sp.isLt
  exact ⟨rfl, by omega, rfl⟩

theorem quietGate (v : Byte) (hv : v ≠ kbdIntrVec) :
    fetchGate ((Idt.static fun v => quietLink (.intr v)).run quietOps) v =
      some (kernelGate (quietLink (.intr v))) := by
  rw [Idt.run_fetch _ ⟨0x5000, by decide⟩]
  exact congrArg (fun x => some (kernelGate x)) (Function.update_of_ne hv _ _)

/-- A general protection fault whose handler is hit by a non-maskable interrupt. -/
theorem interrupts_transparent_nested :
    QuietRun idleCpu
        ((((idleCpu.enter (some 0x18) (.intr 13)).enter none (.intr 2)).ret.leave).ret).leave ∧
      ∃ d, Relation.ReflTransGen quietStep idleCpu d ∧ Same 0x1000 ∅ d
        ((((idleCpu.enter (some 0x18) (.intr 13)).enter none (.intr 2)).ret.leave).ret).leave := by
  have hsp : (idleCpu.enter (some 0x18) (.intr 13)).stack.sp.toNat = 32568 := enter_sp rfl (by decide)
  generalize hfault : idleCpu.enter (some 0x18) (.intr 13) = fault at hsp ⊢
  -- the handler of the fault, interrupted before it returns
  have hsame : Same 0x1000 ∅ fault (fault.enter none (.intr 2)).ret.leave :=
    Same.interrupt quietStep_ok rfl (by omega) (by omega) (.single (enter_step rfl (by omega)))
      (Same.refl _) (enter_ret_rip _ _ _) (enter_ret_sp _ _ _)
  have hnmi : QuietRun fault (fault.enter none (.intr 2)).ret.leave :=
    .intr (.refl fault) (by omega) (by omega) (quietGate 2 (by decide)) rfl
      (.step (.refl _) (enter_step rfl (by omega))) (enter_ret_rip _ _ _) (enter_ret_sp _ _ _)
  generalize (fault.enter none (.intr 2)).ret.leave = back at hsame hnmi ⊢
  -- and its return, as if it had not been interrupted
  have hstep : quietStep fault fault.ret := by
    rw [← hfault]
    exact enter_step rfl (by decide)
  obtain ⟨_, ⟨hrip, hfit, rfl⟩, hsame'⟩ := quietStep_ok.sim hsame hstep
  have hrun : QuietRun idleCpu back.ret.leave := by
    rw [← hfault] at hnmi hsame'
    exact .intr (.refl idleCpu) (by decide) (by decide) (quietGate 13 (by decide)) rfl
      (.step hnmi ⟨hrip, hfit, rfl⟩) (hsame'.rip.trans (enter_ret_rip _ _ _))
      (hsame'.sp.trans (enter_ret_sp _ _ _))
  exact ⟨hrun, interrupts_transparent quietStep_ok quietLink_injective quietOps_kind hrun⟩

end Cerberos
