/-
# Cerberos.Mm.Gdt — segment and TSS descriptors (`mm/gdt.c`).

A descriptor scatters a base and a limit over several bit-fields. Most of the fields are cut out with a
shift and a mask; the HIGH parts are combined with `&&` instead of `&`, so what is stored there is
whether the high part is zero. A base or a limit is encoded without loss exactly when its high part is
0 or 1.
-/
import Cerberos.Base.ByteMem

namespace Cerberos

open Cerberos.Base

/-! ## The records -/

/-- `seg_desc_t`. -/
structure SegDesc where
  limitLow : BitVec 16
  baseLow : BitVec 16
  baseMid : BitVec 8
  access : BitVec 8
  limitHigh : BitVec 4
  flags : BitVec 4
  baseHigh : BitVec 8
  deriving DecidableEq, Repr

/-- `tss_desc_t`. -/
structure TssDesc where
  limit15_0 : BitVec 16
  base15_0 : BitVec 16
  base23_16 : BitVec 8
  type : BitVec 4
  zeroes1 : BitVec 1
  dpl : BitVec 2
  present : BitVec 1
  limit19_16 : BitVec 4
  avl : BitVec 1
  zeroes2 : BitVec 2
  granularity : BitVec 1
  base31_24 : BitVec 8
  base63_32 : BitVec 32
  reserve1 : BitVec 8
  zeroes3 : BitVec 5
  reserve2 : BitVec 19
  deriving DecidableEq, Repr

/-- `sizeof(tss_t)`. -/
abbrev tssSize : Word := 104

/-! ## The code -/

/-- `a && b`, an `int`. -/
def cAnd {w : ℕ} (a b : BitVec w) : BitVec 32 := if a ≠ 0 ∧ b ≠ 0 then 1 else 0

/-- `gdt_create_entry(limit, base, access, flags)`. -/
def gdtCreateEntry (limit base : BitVec 32) (access flags : BitVec 8) : SegDesc where
  limitLow := (limit &&& 0xffff).setWidth 16
  baseLow := (base &&& 0xffff).setWidth 16
  baseMid := ((base >>> 16) &&& 0xff).setWidth 8
  access := access
  limitHigh := (cAnd (limit >>> 16) 0x0f).setWidth 4
  flags := flags.setWidth 4
  baseHigh := (cAnd (base >>> 24) 0xff).setWidth 8

/-- `gdt_create_tss_entry(tss_ptr)`. -/
def gdtCreateTssEntry (base : Word) : TssDesc where
  limit15_0 := (tssSize &&& 0xffff).setWidth 16
  base15_0 := (base &&& 0xffff).setWidth 16
  base23_16 := ((base >>> 16) &&& 0xff).setWidth 8
  type := 0b1001
  zeroes1 := 0
  dpl := 0
  present := 1
  limit19_16 := ((tssSize >>> 16) &&& 0x0f).setWidth 4
  avl := 0
  zeroes2 := 0
  granularity := 0
  base31_24 := ((base >>> 24) &&& 0xff).setWidth 8
  base63_32 := cAnd (base >>> 32) 0xffffffff
  reserve1 := 0
  zeroes3 := 0
  reserve2 := 0

/-- `GDT_ACCESS_PRESENT`, `GDT_ACCESS_PL3`, `GDT_ACCESS_SEG_SYS`, `GDT_ACCESS_EXEC` and
`GDT_ACCESS_RW`. -/
abbrev gdtAccessPresent : BitVec 8 := 0b10000000
abbrev gdtAccessPl3 : BitVec 8 := 0b01100000
abbrev gdtAccessSegSys : BitVec 8 := 0b00010000
abbrev gdtAccessExec : BitVec 8 := 0b00001000
abbrev gdtAccessRw : BitVec 8 := 0b00000010

/-- `GDT_FLAGS_LONG_MODE`. -/
abbrev gdtFlagsLongMode : BitVec 8 := 0b0010

/-- The table `gdt_init` fills, with the TSS at `tss`. -/
def gdtInit (tss : Word) : List SegDesc × TssDesc :=
  ([gdtCreateEntry 0 0 0 0,
    gdtCreateEntry 0 0 (gdtAccessPresent ||| gdtAccessSegSys ||| gdtAccessExec ||| gdtAccessRw)
      gdtFlagsLongMode,
    gdtCreateEntry 0 0 (gdtAccessPresent ||| gdtAccessSegSys ||| gdtAccessRw) 0,
    gdtCreateEntry 0 0
      (gdtAccessPresent ||| gdtAccessPl3 ||| gdtAccessSegSys ||| gdtAccessExec ||| gdtAccessRw)
      gdtFlagsLongMode,
    gdtCreateEntry 0 0 (gdtAccessPresent ||| gdtAccessPl3 ||| gdtAccessSegSys ||| gdtAccessRw) 0],
    gdtCreateTssEntry tss)

/-! ## Reassembling -/

/-- The base a segment descriptor stands for. -/
def SegDesc.base (d : SegDesc) : BitVec 32 := d.baseHigh ++ d.baseMid ++ d.baseLow

/-- The limit a segment descriptor stands for. -/
def SegDesc.limit (d : SegDesc) : BitVec 20 := d.limitHigh ++ d.limitLow

/-- The base a TSS descriptor stands for. -/
def TssDesc.base (d : TssDesc) : Word := d.base63_32 ++ d.base31_24 ++ d.base23_16 ++ d.base15_0

/-- A field of `n` bits that was cut out at bit `k` with a mask. -/
theorem toNat_field_mask {w n : ℕ} (x mask : BitVec w) (k : ℕ) (hmask : mask.toNat = 2 ^ n - 1) :
    (((x >>> k) &&& mask).setWidth n).toNat = x.toNat / 2 ^ k % 2 ^ n := by
  rw [BitVec.toNat_setWidth, BitVec.toNat_and, hmask, Nat.and_two_pow_sub_one_eq_mod,
    BitVec.toNat_ushiftRight, Nat.shiftRight_eq_div_pow, Nat.mod_mod]

/-- A field of at least one bit that holds a truth value. -/
theorem toNat_cAnd {w n : ℕ} (x mask : BitVec w) (hmask : mask ≠ 0) (hn : 1 ≤ n) :
    ((cAnd x mask).setWidth n).toNat = if x.toNat = 0 then 0 else 1 := by
  have hpow : 1 < 2 ^ n := Nat.one_lt_two_pow (by omega)
  have hzero : x = 0 ↔ x.toNat = 0 := by
    constructor
    · rintro rfl
      simp
    · intro h0
      exact BitVec.eq_of_toNat_eq (by simpa using h0)
  unfold cAnd
  by_cases hx : x = 0
  · rw [if_neg (fun h => h.1 hx), if_pos (hzero.mp hx)]
    simp
  · rw [if_pos ⟨hx, hmask⟩, if_neg (fun h => hx (hzero.mpr h)), BitVec.toNat_setWidth]
    exact Nat.mod_eq_of_lt hpow

/-- The base of a TSS descriptor as a number. -/
theorem tss_base_toNat (tss : Word) : (gdtCreateTssEntry tss).base.toNat =
    (if tss.toNat / 2 ^ 32 = 0 then 0 else 1) * 2 ^ 32 + tss.toNat % 2 ^ 32 := by
  have hhigh := toNat_cAnd (tss >>> 32) 0xffffffff (n := 32) (by decide) (by decide)
  have h24 := toNat_field_mask (n := 8) tss 0xff 24 rfl
  have h16 := toNat_field_mask (n := 8) tss 0xff 16 rfl
  have h0 := toNat_field_mask (n := 16) tss 0xffff 0 rfl
  rw [BitVec.setWidth_eq, BitVec.toNat_ushiftRight, Nat.shiftRight_eq_div_pow] at hhigh
  rw [BitVec.ushiftRight_zero] at h0
  unfold TssDesc.base gdtCreateTssEntry
  simp only [toNat_append, hhigh, h24, h16, h0]
  split <;> omega

/-- The base of a segment descriptor as a number. -/
theorem seg_base_toNat (limit base : BitVec 32) (access flags : BitVec 8) :
    (gdtCreateEntry limit base access flags).base.toNat =
      (if base.toNat / 2 ^ 24 = 0 then 0 else 1) * 2 ^ 24 + base.toNat % 2 ^ 24 := by
  have hhigh := toNat_cAnd (base >>> 24) 0xff (n := 8) (by decide) (by decide)
  have h16 := toNat_field_mask (n := 8) base 0xff 16 rfl
  have h0 := toNat_field_mask (n := 16) base 0xffff 0 rfl
  rw [BitVec.toNat_ushiftRight, Nat.shiftRight_eq_div_pow] at hhigh
  rw [BitVec.ushiftRight_zero] at h0
  unfold SegDesc.base gdtCreateEntry
  simp only [toNat_append, hhigh, h16, h0]
  split <;> omega

/-- The limit of a segment descriptor as a number. -/
theorem seg_limit_toNat (limit base : BitVec 32) (access flags : BitVec 8) :
    (gdtCreateEntry limit base access flags).limit.toNat =
      (if limit.toNat / 2 ^ 16 = 0 then 0 else 1) * 2 ^ 16 + limit.toNat % 2 ^ 16 := by
  have hhigh := toNat_cAnd (limit >>> 16) 0x0f (n := 4) (by decide) (by decide)
  have h0 := toNat_field_mask (n := 16) limit 0xffff 0 rfl
  rw [BitVec.toNat_ushiftRight, Nat.shiftRight_eq_div_pow] at hhigh
  rw [BitVec.ushiftRight_zero, pow_zero, Nat.div_one] at h0
  unfold SegDesc.limit gdtCreateEntry
  simp only [toNat_append, hhigh, h0]

/-- Replacing a high part by its truth value loses nothing exactly when it is 0 or 1. -/
theorem truth_high_iff (n k : ℕ) :
    (if n / 2 ^ k = 0 then 0 else 1) * 2 ^ k + n % 2 ^ k = n ↔ n < 2 * 2 ^ k := by
  have hpos : 0 < 2 ^ k := by positivity
  have hsplit := Nat.div_add_mod n (2 ^ k)
  have hmod := Nat.mod_lt n hpos
  generalize n / 2 ^ k = q at *
  generalize n % 2 ^ k = r at *
  have hq : q = 0 ∨ q = 1 ∨ 2 * 2 ^ k ≤ 2 ^ k * q := by
    rcases Nat.lt_or_ge q 2 with hlt | hge
    · omega
    · right; right
      calc 2 * 2 ^ k = 2 ^ k * 2 := Nat.mul_comm _ _
        _ ≤ 2 ^ k * q := Nat.mul_le_mul_left _ hge
  rcases hq with rfl | rfl | hge
  · simp at hsplit ⊢
    omega
  · simp at hsplit ⊢
    omega
  · split <;> omega

/-- **Descriptors are lossless exactly when every high part is 0 or 1**: a TSS below 8 GiB, a segment
base below 32 MiB and a limit below `2 ^ 17`. -/
theorem gdt_lossless_iff (tss : Word) (limit : BitVec 20) (base : BitVec 32) (access : BitVec 8)
    (flags : BitVec 4) :
    ((gdtCreateTssEntry tss).base = tss ↔ tss.toNat < 2 ^ 33) ∧
      (((gdtCreateEntry (limit.setWidth 32) base access (flags.setWidth 8)).base = base ∧
        (gdtCreateEntry (limit.setWidth 32) base access (flags.setWidth 8)).limit = limit ∧
        (gdtCreateEntry (limit.setWidth 32) base access (flags.setWidth 8)).access = access ∧
        (gdtCreateEntry (limit.setWidth 32) base access (flags.setWidth 8)).flags = flags) ↔
      base.toNat < 2 ^ 25 ∧ limit.toNat < 2 ^ 17) := by
  constructor
  · rw [← BitVec.toNat_inj, tss_base_toNat, truth_high_iff]
    norm_num
  · have hlimit : (limit.setWidth 32).toNat = limit.toNat := by
      rw [BitVec.toNat_setWidth]
      have := limit.isLt
      omega
    have hflags : (flags.setWidth 8).setWidth 4 = flags := by
      apply BitVec.eq_of_toNat_eq
      rw [BitVec.toNat_setWidth, BitVec.toNat_setWidth]
      have := flags.isLt
      omega
    rw [← BitVec.toNat_inj, seg_base_toNat, truth_high_iff, ← BitVec.toNat_inj (x := _) (y := limit),
      seg_limit_toNat, hlimit, truth_high_iff]
    constructor
    · rintro ⟨hbase, hlim, -, -⟩
      omega
    · rintro ⟨hbase, hlim⟩
      exact ⟨by omega, by omega, rfl, hflags⟩

/-- The TSS of a higher-half kernel, and a segment of 4 GiB: both high parts are lost. -/
theorem gdt_loses_high_parts :
    (gdtCreateTssEntry 0xffffffff80000000).base ≠ 0xffffffff80000000 ∧
    (gdtCreateEntry ((0xfffff : BitVec 20).setWidth 32) 0xc0000000 0x92 0xc).base ≠ 0xc0000000 ∧
    (gdtCreateEntry ((0xfffff : BitVec 20).setWidth 32) 0xc0000000 0x92 0xc).limit ≠ 0xfffff := by
  decide

end Cerberos
