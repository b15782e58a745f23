/-
# Cerberos.Lib.Mem — the byte-copy loops of `lib/mem/mem.c`.

`memset` and `memmove` fill a run of bytes (`memmove` from a temporary copy of the source taken
before the first store); `memcpy` copies byte by byte and reads the memory it is itself changing.
`memcmp` is `strncmp`, so it stops at a zero byte: what it compares are not the buffers but their
C strings.
-/
import Cerberos.Lib.Sys

namespace Cerberos

open Cerberos.Base

/-- `memset(buf, c, n)`. -/
def memset (m : Mem) (buf : Word) (c : Byte) (n : Word) : Mem :=
  fillBytes m buf (fun _ => c) n.toNat

/-- `memmove(dest, src, num)`: the source is copied to `temp` before any byte is stored. -/
def memmove (m : Mem) (dest src num : Word) : Mem :=
  let temp := fun i => m (src + BitVec.ofNat 64 i)
  fillBytes m dest temp num.toNat

/-- The first `n` rounds of the loop of `memcpy`. -/
def memcpyLoop (m : Mem) (dest src : Word) : Nat → Mem
  | 0 => m
  | n + 1 =>
    let m' := memcpyLoop m dest src n
    Function.update m' (dest + BitVec.ofNat 64 n) (m' (src + BitVec.ofNat 64 n))

/-- `memcpy(dest, src, num)`. -/
def memcpy (m : Mem) (dest src num : Word) : Mem := memcpyLoop m dest src num.toNat

theorem memmove_self (m : Mem) (a num : Word) : memmove m a a num = m :=
  fillBytes_self m a (Nat.le_of_lt num.isLt)

/-- On disjoint runs the byte-by-byte copy equals the copy from a snapshot. -/
theorem memcpyLoop_eq_fillBytes {m : Mem} {dest src : Word} :
    ∀ {n : Nat}, dest.toNat + n ≤ 2 ^ 64 → src.toNat + n ≤ 2 ^ 64 →
      (dest.toNat + n ≤ src.toNat ∨ src.toNat + n ≤ dest.toNat) →
      memcpyLoop m dest src n = fillBytes m dest (fun i => m (src + BitVec.ofNat 64 i)) n := by
  intro n
  induction n with
  | zero => intro _ _ _; rfl
  | succ n ih =>
      intro hd hs hdisj
      rw [memcpyLoop, ih (by omega) (by omega) (by omega), fillBytes]
      congr 1
      apply fillBytes_apply_of_outside (by omega)
      have hsrc : (src + BitVec.ofNat 64 n).toNat = src.toNat + n := by bv_omega
      omega

/-! ## Comparison -/

/-- `strncmp(str1, str2, num)`. -/
def strncmp (str1 str2 : ℕ → Byte) : ℕ → ℤ
  | 0 => 0
  | num + 1 =>
    if str1 0 ≠ 0 ∧ str1 0 = str2 0 then strncmp (fun i => str1 (i + 1)) (fun i => str2 (i + 1)) num
    else (str1 0).toNat - (str2 0).toNat

/-- `memcmp(buf1, buf2, num)`. -/
def memcmp (buf1 buf2 : ℕ → Byte) (num : ℕ) : ℤ := strncmp buf1 buf2 num

/-- The bytes of a buffer before its first zero byte. -/
def cString (buf : List Byte) : List Byte := buf.takeWhile (· ≠ 0)

theorem cString_cons (x : Byte) (buf : List Byte) :
    cString (x :: buf) = if x = 0 then [] else x :: cString buf := by
  unfold cString
  rw [List.takeWhile_cons]
  split
  · rename_i h
    rw [if_neg (by simpa using h)]
  · rename_i h
    rw [if_pos (by simpa using h)]

/-- **`strncmp` compares C strings.** -/
theorem strncmp_eq_zero : ∀ {a b : List Byte}, a.length = b.length →
    (strncmp (a.getD · 0) (b.getD · 0) a.length = 0 ↔ cString a = cString b) := by
  intro a
  induction a with
  | nil =>
      intro b hlen
      have hb : b = [] := List.length_eq_zero_iff.mp hlen.symm
      rw [hb]
      simp [strncmp]
  | cons x a ih =>
      intro b hlen
      cases b with
      | nil => cases hlen
      | cons y b =>
          have hlen' : a.length = b.length := Nat.succ.inj hlen
          have hsub : (x.toNat : ℤ) - (y.toNat : ℤ) = 0 ↔ x = y := by
            constructor
            · intro h0
              exact BitVec.eq_of_toNat_eq (by omega)
            · rintro rfl
              omega
          show (if x ≠ 0 ∧ x = y then strncmp (a.getD · 0) (b.getD · 0) a.length
            else (x.toNat : ℤ) - (y.toNat : ℤ)) = 0 ↔ _
          rw [cString_cons, cString_cons]
          by_cases hx : x = 0
          · rw [if_neg fun h => h.1 hx, if_pos hx, hsub, hx]
            by_cases hy : y = 0
            · rw [if_pos hy]
              exact iff_of_true hy.symm rfl
            · rw [if_neg hy]
              exact iff_of_false (Ne.symm hy) (List.cons_ne_nil _ _).symm
          · rw [if_neg hx]
            by_cases hxy : x = y
            · rw [if_pos ⟨hx, hxy⟩, ih hlen', if_neg (hxy ▸ hx), hxy, List.cons_inj_right]
            · rw [if_neg fun h => hxy h.2, hsub]
              refine iff_of_false hxy ?_
              by_cases hy : y = 0
              · rw [if_pos hy]
                exact List.cons_ne_nil _ _
              · rw [if_neg hy]
                exact fun h => hxy (List.cons.inj h).1

/-! ## Comparison of buffers -/

/-- `i` is the first place where the buffers differ. -/
def FirstDiff (buf1 buf2 : ℕ → Byte) (i : ℕ) : Prop :=
  (∀ k < i, buf1 k = buf2 k) ∧ buf1 i ≠ buf2 i

/-- **What a comparison of memory returns**: zero exactly on equal buffers, and else the sign of the
difference of the first bytes that differ, as unsigned bytes. -/
structure ComparesBytes (buf1 buf2 : ℕ → Byte) (num : ℕ) (r : ℤ) : Prop where
  zero_iff : r = 0 ↔ ∀ i < num, buf1 i = buf2 i
  sign : ∀ i < num, FirstDiff buf1 buf2 i →
    r.sign = ((buf1 i).toNat - (buf2 i).toNat : ℤ).sign

theorem FirstDiff.tail {buf1 buf2 : ℕ → Byte} {i : ℕ} (h : FirstDiff buf1 buf2 (i + 1)) :
    FirstDiff (fun k => buf1 (k + 1)) (fun k => buf2 (k + 1)) i :=
  ⟨fun k hk => h.1 (k + 1) (by omega), h.2⟩

theorem FirstDiff.unique {buf1 buf2 : ℕ → Byte} {i j : ℕ} (hi : FirstDiff buf1 buf2 i)
    (hj : FirstDiff buf1 buf2 j) : i = j := by
  rcases Nat.lt_trichotomy i j with hlt | heq | hgt
  · exact absurd (hj.1 i hlt) hi.2
  · exact heq
  · exact absurd (hi.1 j hgt) hj.2

/-- Buffers that are not equal have a first difference. -/
theorem exists_firstDiff {buf1 buf2 : ℕ → Byte} {num : ℕ} (h : ¬∀ i < num, buf1 i = buf2 i) :
    ∃ j < num, FirstDiff buf1 buf2 j := by
  push Not at h
  obtain ⟨hlt, hne⟩ := Nat.find_spec h
  refine ⟨Nat.find h, hlt, ?_, hne⟩
  intro k hk
  by_contra hdiff
  exact Nat.find_min h hk ⟨by omega, hdiff⟩

/-- With no zero byte before it, the loop of `strncmp` reaches the first difference. -/
theorem strncmp_firstDiff {num : ℕ} : ∀ {str1 str2 : ℕ → Byte} {j : ℕ}, j < num →
    FirstDiff str1 str2 j → (∀ i < j, str1 i ≠ 0) →
    strncmp str1 str2 num = (str1 j).toNat - (str2 j).toNat := by
  induction num with
  | zero =>
      intro str1 str2 j hj
      omega
  | succ num ih =>
      intro str1 str2 j hj hdiff hne
      unfold strncmp
      cases j with
      | zero => rw [if_neg fun h => hdiff.2 h.2]
      | succ j =>
          rw [if_pos ⟨hne 0 (Nat.succ_pos j), hdiff.1 0 (Nat.succ_pos j)⟩]
          exact ih (by omega) hdiff.tail fun i hi => hne (i + 1) (by omega)

/-- Equal bytes up to the end, or up to an equal zero byte, end the loop with `0`. -/
theorem strncmp_zero_of_eq {num : ℕ} : ∀ {str1 str2 : ℕ → Byte},
    (∀ i < num, (∀ k < i, str1 k ≠ 0) → str1 i = str2 i) → strncmp str1 str2 num = 0 := by
  induction num with
  | zero =>
      intro str1 str2 _
      rfl
  | succ num ih =>
      intro str1 str2 heq
      have hhead : str1 0 = str2 0 := heq 0 (Nat.succ_pos num) fun k hk => absurd hk (Nat.not_lt_zero k)
      unfold strncmp
      by_cases hzero : str1 0 = 0
      · rw [if_neg fun h => h.1 hzero, hhead]
        omega
      · rw [if_pos ⟨hzero, hhead⟩]
        apply ih
        intro i hi hne
        refine heq (i + 1) (by omega) ?_
        intro k hk
        cases k with
        | zero => exact hzero
        | succ k => exact hne k (by omega)

/-- **`memcmp` compares the buffers exactly when no zero byte stands before their first
difference.** Behind such a byte it takes any two buffers for equal: it is `strncmp`. -/
theorem memcmp_compares_iff (buf1 buf2 : ℕ → Byte) (num : ℕ) :
    ComparesBytes buf1 buf2 num (memcmp buf1 buf2 num) ↔
      ∀ j < num, FirstDiff buf1 buf2 j → ∀ i < j, buf1 i ≠ 0 := by
  constructor
  · intro hcmp j hj hdiff i hi hzero
    have hstop : memcmp buf1 buf2 num = 0 := by
      apply strncmp_zero_of_eq
      intro k hk hne
      have hle : k ≤ i := by
        by_contra hlt
        exact hne i (by omega) hzero
      exact hdiff.1 k (by omega)
    exact hdiff.2 (hcmp.zero_iff.mp hstop j hj)
  · intro hne
    by_cases heq : ∀ i < num, buf1 i = buf2 i
    · have hzero : memcmp buf1 buf2 num = 0 := strncmp_zero_of_eq fun i hi _ => heq i hi
      exact ⟨iff_of_true hzero heq, fun i hi hdiff => absurd (heq i hi) hdiff.2⟩
    · obtain ⟨j, hj, hdiff⟩ := exists_firstDiff heq
      have hval : memcmp buf1 buf2 num = (buf1 j).toNat - (buf2 j).toNat :=
        strncmp_firstDiff hj hdiff (hne j hj hdiff)
      constructor
      · refine iff_of_false ?_ heq
        intro hzero
        exact hdiff.2 (BitVec.eq_of_toNat_eq (by omega))
      · intro i _ hi
        rw [hi.unique hdiff, hval]

/-- `memcmp` takes the 16-bit numbers `0x0100` and `0x0200`, low byte first, for equal. -/
theorem memcmp_zero_byte :
    memcmp ([0x00, 0x01].getD · 0) ([0x00, 0x02].getD · 0) 2 = 0 ∧
      ¬ComparesBytes ([0x00, 0x01].getD · 0) ([0x00, 0x02].getD · 0) 2
        (memcmp ([0x00, 0x01].getD · 0) ([0x00, 0x02].getD · 0) 2) := by
  have hstop : memcmp ([0x00, 0x01].getD · 0) ([0x00, 0x02].getD · 0) 2 = 0 := by decide
  refine ⟨hstop, ?_⟩
  intro hcmp
  exact absurd (hcmp.zero_iff.mp hstop 1 (by decide)) (by decide)

/-! ## Signatures -/

/-- `strlen(src)` from `len` on, with at most `fuel` tests of its condition. -/
def strlenLoop (src : ℕ → Byte) : ℕ → ℕ → Res ℕ
  | 0, _ => .error .hang
  | fuel + 1, len => if src len ≠ 0 then strlenLoop src fuel (len + 1) else .ok len

/-- `strlen(src)`. -/
def strlen (fuel : ℕ) (src : ℕ → Byte) : Res ℕ := strlenLoop src fuel 0

theorem strlenLoop_eq {src : ℕ → Byte} {n : ℕ} (hend : src n = 0) (hchars : ∀ i < n, src i ≠ 0) :
    ∀ {fuel len : ℕ}, len ≤ n → n < len + fuel → strlenLoop src fuel len = .ok n := by
  intro fuel
  induction fuel with
  | zero =>
      intro len hlen hfuel
      omega
  | succ fuel ih =>
      intro len hlen hfuel
      unfold strlenLoop
      by_cases hn : len = n
      · subst hn
        rw [if_neg (not_not.mpr hend)]
      · rw [if_pos (hchars len (by omega))]
        exact ih (by omega) (by omega)

theorem strlen_eq {src : ℕ → Byte} {n fuel : ℕ} (hend : src n = 0) (hchars : ∀ i < n, src i ≠ 0)
    (hfuel : n < fuel) : strlen fuel src = .ok n :=
  strlenLoop_eq hend hchars (Nat.zero_le n) (by omega)

/-- Against a string without a zero byte, `strncmp` compares every byte. -/
theorem strncmp_eq_zero_of_ne {str1 str2 : ℕ → Byte} {num : ℕ} (hne : ∀ i < num, str1 i ≠ 0) :
    strncmp str1 str2 num = 0 ↔ ∀ i < num, str1 i = str2 i := by
  constructor
  · intro hzero
    by_contra hdiffer
    obtain ⟨j, hj, hdiff⟩ := exists_firstDiff hdiffer
    have hval := strncmp_firstDiff hj hdiff fun i hi => hne i (by omega)
    exact hdiff.2 (BitVec.eq_of_toNat_eq (by omega))
  · intro heq
    exact strncmp_zero_of_eq fun i hi _ => heq i hi

end Cerberos
