/-
# Cerberos.Lib.Sys — what every kernel source file includes.

The macros of `sys/misc.h` and `mm/mem.h`, the console of `log.h`, and the ways a call can fail to
come back. `panic` prints its message and halts the processor for ever, so a panicking call has no
successor state: it is `Halt.panic` with the format string and the arguments. An access through
`NULL`, or through an index outside its array, is `Halt.fault`. A loop or a recursion that never
ends is `Halt.hang`.
-/
import Cerberos.Base.ByteMem

namespace Cerberos

open Cerberos.Base

/-! ## Halting -/

/-- Why a call does not return. -/
inductive Halt where
  | panic (format : String) (args : List Word)
  | fault
  | hang
  deriving DecidableEq, Repr

/-- The outcome of a call: a value, or a processor that never comes back. -/
abbrev Res (α : Type) := Except Halt α

/-- A sequence of calls returns when each of them does. -/
theorem Res.bind_eq_ok {α β : Type} {x : Res α} {f : α → Res β} {r : β} :
    (x >>= f) = .ok r ↔ ∃ a, x = .ok a ∧ f a = .ok r := by
  cases x with
  | error e =>
      constructor
      · intro h
        cases h
      · rintro ⟨a, h, -⟩
        cases h
  | ok a =>
      constructor
      · intro h
        exact ⟨a, rfl, h⟩
      · rintro ⟨b, h, hf⟩
        cases h
        exact hf

theorem Res.exists_of_isOk {α : Type} {x : Res α} (h : x.isOk = true) : ∃ a, x = .ok a := by
  cases x with
  | ok a => exact ⟨a, rfl⟩
  | error e => cases h

/-- What follows a call whose result is known. -/
theorem Res.after {α β : Type} {x : Res α} {f : α → Res β} {a : α} {r : β} (hx : x = .ok a)
    (h : (x >>= f) = .ok r) : f a = .ok r := by
  rw [hx] at h
  exact h

/-- A run that ends in a check comes back only when the check is passed. -/
theorem Res.of_check {α : Type} {p : Prop} [Decidable p] {a b : α} {e : Halt}
    (h : (if p then .ok a else .error e : Res α) = .ok b) : p := by
  by_contra hp
  rw [if_neg hp] at h
  cases h

/-- The call comes to an end: it returns, panics or faults. -/
def Res.Ends {α : Type} (x : Res α) : Prop := x ≠ .error .hang

theorem Res.ends_ok {α : Type} (a : α) : Res.Ends (.ok a : Res α) := by
  intro h
  cases h

theorem Res.Ends.bind {α β : Type} {x : Res α} {f : α → Res β} (hx : x.Ends)
    (hf : ∀ a, x = .ok a → (f a).Ends) : (x >>= f).Ends := by
  cases x with
  | error e =>
      intro h
      apply hx
      injection h with h
      rw [h]
  | ok a => exact hf a rfl

/-! ## The console (`log.h`) -/

/-- `log_level_t`. -/
inductive LogLevel where
  | info | todo | error | warning | none
  deriving DecidableEq, Repr

/-- One call of `log_impl`: its level, its format string and its arguments. -/
structure LogMsg where
  level : LogLevel
  format : String
  args : List Word := []
  deriving DecidableEq, Repr

def errorMsg (format : String) (args : List Word := []) : LogMsg := ⟨.error, format, args⟩
def warningMsg (format : String) (args : List Word := []) : LogMsg := ⟨.warning, format, args⟩
def infoMsg (format : String) (args : List Word := []) : LogMsg := ⟨.info, format, args⟩
def plainMsg (format : String) (args : List Word := []) : LogMsg := ⟨.none, format, args⟩

/-! ## Macros (`sys/misc.h`, `mm/mem.h`) -/

/-- The null pointer. -/
abbrev null : Word := 0

/-- `MIN(a, b)`. -/
def cMin (a b : Word) : Word := if a < b then a else b

/-- `MAX(a, b)`. -/
def cMax (a b : Word) : Word := if a > b then a else b

/-- `ALIGN_DOWN(addr, align)`. -/
def alignDown (addr align : Word) : Word := addr &&& ~~~(align - 1)

/-- `ALIGN_UP(addr, align)`. -/
def alignUp (addr align : Word) : Word := (addr + align - 1) &&& ~~~(align - 1)

/-- `PAGE_SIZE`, 4 KiB. -/
abbrev pageSize : Word := 4096

/-- `MiB`. -/
abbrev mib : Word := 1048576

/-- `VA_END`. -/
abbrev vaEnd : Word := 0xffffffffffffffff

/-- `VA_HHDM`. -/
abbrev vaHhdm : Word := 0xffff800000000000

/-- `V2P(vaddr)`. -/
def v2p (vaddr : Word) : Word := vaddr - vaHhdm

/-- `P2V(paddr)`. -/
def p2v (paddr : Word) : Word := paddr + vaHhdm

theorem toNat_pos_of_ne_zero {x : Word} (h : x ≠ 0) : 0 < x.toNat := by
  rcases Nat.eq_zero_or_pos x.toNat with hz | hz
  · exact absurd (BitVec.eq_of_toNat_eq hz) h
  · exact hz

theorem toNat_add_one {x : Word} (h : x.toNat + 1 < 2 ^ 64) : (x + 1).toNat = x.toNat + 1 := by
  rw [BitVec.toNat_add, show (1 : Word).toNat = 1 from rfl]
  exact Nat.mod_eq_of_lt h

/-! ### Alignment as arithmetic -/

theorem getLsbD_not_low_ones {k i : Nat} (hi : i < 64) :
    (~~~(BitVec.ofNat 64 (2 ^ k - 1))).getLsbD i = decide (k ≤ i) := by
  simp only [BitVec.getLsbD_not, hi, decide_true, Bool.true_and, BitVec.getLsbD_ofNat,
    Nat.testBit_two_pow_sub_one, ← decide_not, Nat.not_lt]

/-- Masking off the low `k` bits rounds down to a multiple of `2 ^ k`. -/
theorem toNat_and_not_low_ones (x : Word) (k : Nat) :
    (x &&& ~~~(BitVec.ofNat 64 (2 ^ k - 1))).toNat = x.toNat / 2 ^ k * 2 ^ k := by
  have hshift : x &&& ~~~(BitVec.ofNat 64 (2 ^ k - 1)) = (x >>> k) <<< k := by
    apply BitVec.eq_of_getLsbD_eq
    intro i hi
    rw [BitVec.getLsbD_and, getLsbD_not_low_ones hi, BitVec.getLsbD_shiftLeft,
      BitVec.getLsbD_ushiftRight]
    by_cases h : k ≤ i
    · simp [h, hi, Nat.not_lt.mpr h]
    · simp [h, Nat.lt_of_not_le h]
  rw [hshift, BitVec.toNat_shiftLeft, BitVec.toNat_ushiftRight, Nat.shiftRight_eq_div_pow,
    Nat.shiftLeft_eq, Nat.mod_eq_of_lt]
  exact lt_of_le_of_lt (Nat.div_mul_le_self _ _) x.isLt

theorem toNat_alignDown_page (x : Word) : (alignDown x pageSize).toNat = x.toNat / 4096 * 4096 :=
  toNat_and_not_low_ones x 12

theorem toNat_alignUp_eight_mod (x : Word) : (alignUp x 8).toNat % 8 = 0 := by
  have h : (alignUp x 8).toNat = (x + 8 - 1).toNat / 8 * 8 := toNat_and_not_low_ones (x + 8 - 1) 3
  rw [h, Nat.mul_mod_left]

theorem toNat_alignUp_eight {x : Word} (h : x.toNat + 7 < 2 ^ 64) :
    (alignUp x 8).toNat = (x.toNat + 7) / 8 * 8 := by
  have hadd : (x + 8 - 1 : Word).toNat = x.toNat + 7 := by bv_omega
  rw [← hadd]
  exact toNat_and_not_low_ones (x + 8 - 1) 3

theorem alignUp_eight_of_mod {x : Word} (h : x.toNat % 8 = 0) : alignUp x 8 = x := by
  have hx := x.isLt
  apply BitVec.eq_of_toNat_eq
  rw [toNat_alignUp_eight (by omega)]
  omega

theorem toNat_alignUp_page {x : Word} (h : x.toNat + 4095 < 2 ^ 64) :
    (alignUp x pageSize).toNat = (x.toNat + 4095) / 4096 * 4096 := by
  have hadd : (x + pageSize - 1 : Word).toNat = x.toNat + 4095 := by bv_omega
  rw [← hadd]
  exact toNat_and_not_low_ones (x + pageSize - 1) 12

theorem alignUp_page_of_mod {x : Word} (h : x.toNat % 4096 = 0) : alignUp x pageSize = x := by
  have hx := x.isLt
  apply BitVec.eq_of_toNat_eq
  rw [toNat_alignUp_page (by omega)]
  omega

theorem alignDown_page_of_mod {x : Word} (h : x.toNat % 4096 = 0) : alignDown x pageSize = x := by
  apply BitVec.eq_of_toNat_eq
  rw [toNat_alignDown_page]
  omega

/-! ## The handover of the bootloader (`stivale2`)

`stivale2_get_tag` walks the list of tags and returns the first one with the wanted identifier, or
`NULL`. A handover is therefore the tags it would find; a missing tag is `none`. -/

/-- `struct stivale2_mmap_entry`. -/
structure MmapEntry where
  base : Word
  length : Word
  type : BitVec 32
  deriving DecidableEq, Repr

/-- `MEM_USABLE`. -/
abbrev memUsable : BitVec 32 := 1

/-- `struct stivale2_pmr`. -/
structure Pmr where
  base : Word
  length : Word
  permissions : Word
  deriving DecidableEq, Repr

/-- `STIVALE2_PMR_WRITABLE` of the boot protocol. -/
abbrev pmrWritable : Word := 2

/-- `struct stivale2_struct_tag_kernel_base_address`. -/
structure KernelBase where
  physicalBaseAddress : Word
  virtualBaseAddress : Word
  deriving DecidableEq, Repr

/-- The tags of `struct stivale2_struct` that memory management asks for. -/
structure Handover where
  memmap : Option (List MmapEntry)
  pmrs : Option (List Pmr)
  kernelBase : Option KernelBase
  hhdm : Option Word
  deriving DecidableEq, Repr

end Cerberos
