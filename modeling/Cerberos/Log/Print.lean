/-
# Cerberos.Log.Print — the print functions of `log/log.c` over `dev/com.c`.

Each function fills a buffer on the stack from its end and hands it to `__com_puts`, which stops at the
zero byte. A byte of the buffer that was not stored yet is `none`; storing in front of the buffer, or
printing a byte that was never stored, is a fault. The output is the list of bytes sent to the port.

`print_d` and `print_ld` negate a negative value first. The minimum has no positive counterpart: it
stays negative, the remainders are negative too, and what is printed are the characters BELOW `'0'`.
-/
import Cerberos.Base.Decimal
import Cerberos.Lib.Sys

namespace Cerberos

open Cerberos.Base

/-! ## The code -/

/-- A buffer on the stack. -/
abbrev StackBuf := List (Option Byte)

/-- `char buf[size + 1]; buf[size] = '\0';` -/
def stackBuf (size : ℕ) : StackBuf := List.replicate size none ++ [some 0]

/-- `__com_puts(buf)`: the bytes it sends. -/
def comPuts : StackBuf → Res (List Byte)
  | [] => .error .fault
  | none :: _ => .error .fault
  | some c :: buf => if c = 0 then .ok [] else do
      let rest ← comPuts buf
      .ok (c :: rest)

/-- `buf[--i] = c`. -/
def bufPut (buf : StackBuf) (i : ℕ) (c : Byte) : Res (StackBuf × ℕ) :=
  if i = 0 then .error .fault else .ok (buf.set (i - 1) (some c), i - 1)

section Digits

variable {w : ℕ}

/-- `while (val) { buf[--i] = (val % 10) + ascii_offset; val /= 10; }`, with the remainder and the
division of the type of `val` and at most `fuel` tests of the condition. -/
def printDigits (rem div : BitVec w → BitVec w) :
    ℕ → BitVec w → StackBuf → ℕ → Res (StackBuf × ℕ)
  | 0, _, _, _ => .error .hang
  | fuel + 1, val, buf, i =>
    if val = 0 then .ok (buf, i)
    else do
      let (buf, i) ← bufPut buf i ((rem val + 48).setWidth 8)
      printDigits rem div fuel (div val) buf i

/-- The body of `print_u` and `print_lu`, with a buffer of `size + 1` bytes. A value of `w` bits has
fewer than `w + 1` digits. -/
def printUnsigned (size : ℕ) (val : BitVec w) : Res (List Byte) :=
  if val = 0 then .ok [48]
  else do
    let (buf, i) ← printDigits (· % 10) (· / 10) (w + 1) val (stackBuf size) size
    comPuts (buf.drop i)

/-- The body of `print_d` and `print_ld`: remainder and division are signed, and `-val` wraps. -/
def printSigned (size : ℕ) (val : BitVec w) : Res (List Byte) :=
  if val = 0 then .ok [48]
  else do
    let neg := val.slt 0
    let val := if neg then -val else val
    let (buf, i) ← printDigits (·.srem 10) (·.sdiv 10) (w + 1) val (stackBuf size) size
    let (buf, i) ← if neg then bufPut buf i minusByte else .ok (buf, i)
    comPuts (buf.drop i)

/-- `"0123456789abcdef"[d]`. -/
def hexDigit (d : BitVec 4) : Byte :=
  [48, 49, 50, 51, 52, 53, 54, 55, 56, 57, 97, 98, 99, 100, 101, 102].getD d.toNat 0

/-- `for (int i = n - 1; i >= 0; i--) { buf[i] = digits[val & 0xF]; val >>= 4; }`. -/
def printNibbles : ℕ → BitVec w → StackBuf → StackBuf
  | 0, _, buf => buf
  | n + 1, val, buf =>
    printNibbles n (val.sshiftRight 4) (buf.set n (some (hexDigit ((val &&& 0xf).setWidth 4))))

/-- The body of `print_x` and `print_lx`, with `n` digits. -/
def printHex (n : ℕ) (val : BitVec w) : Res (List Byte) := comPuts (printNibbles n val (stackBuf n))

end Digits

/-- `print_x(val)`. -/
def printX (val : BitVec 32) : Res (List Byte) := printHex 8 val

/-- `print_lx(val)`. -/
def printLx (val : BitVec 64) : Res (List Byte) := printHex 16 val

/-- `print_u(val)`. -/
def printU (val : BitVec 32) : Res (List Byte) := printUnsigned 10 val

/-- `print_lu(val)`. -/
def printLu (val : BitVec 64) : Res (List Byte) := printUnsigned 20 val

/-- `print_d(val)`. -/
def printD (val : BitVec 32) : Res (List Byte) := printSigned 11 val

/-- `print_ld(val)`. -/
def printLd (val : BitVec 64) : Res (List Byte) := printSigned 20 val

/-! ## Buffers -/

theorem comPuts_append {text : List Byte} (h : ∀ c ∈ text, c ≠ 0) (rest : StackBuf) :
    comPuts (text.map some ++ some 0 :: rest) = .ok text := by
  induction text with
  | nil => simp [comPuts]
  | cons c text ih =>
      rw [List.forall_mem_cons] at h
      rw [List.map_cons, List.cons_append, comPuts, if_neg h.1, ih h.2]
      rfl

theorem drop_set_self {α : Type} {l : List α} {i : ℕ} (hi : i < l.length) (x : α) :
    (l.set i x).drop i = x :: l.drop (i + 1) := by
  rw [List.drop_set, if_neg (Nat.lt_irrefl i), Nat.sub_self, List.drop_eq_getElem_cons hi]
  rfl

theorem bufPut_spec {buf : StackBuf} {i : ℕ} (hi : i ≠ 0) (hlen : i ≤ buf.length) (c : Byte) :
    ∃ buf', bufPut buf i c = .ok (buf', i - 1) ∧ buf'.length = buf.length ∧
      buf'.drop (i - 1) = some c :: buf.drop i := by
  refine ⟨buf.set (i - 1) (some c), if_neg hi, List.length_set .., ?_⟩
  rw [drop_set_self (by omega), Nat.sub_add_cancel (by omega)]

theorem toNat_ne_zero {w : ℕ} {val : BitVec w} (h : val ≠ 0) : val.toNat ≠ 0 := by
  intro heq
  exact h (BitVec.eq_of_toNat_eq (by simpa using heq))

section Digits

variable {w : ℕ} {rem div : BitVec w → BitVec w} {b : ℕ}

/-- **The digit loop writes the digits of the value in front of what the buffer holds.** `rem` and
`div` are the remainder and the quotient below `b`. -/
theorem printDigits_spec (hw : 8 ≤ w)
    (hrem : ∀ v : BitVec w, v.toNat < b → (rem v).toNat = v.toNat % 10)
    (hdiv : ∀ v : BitVec w, v.toNat < b → (div v).toNat = v.toNat / 10) :
    ∀ (fuel : ℕ) (val : BitVec w) (buf : StackBuf) (i : ℕ), val.toNat < b →
      (decimalDigits val.toNat).length < fuel → (decimalDigits val.toNat).length ≤ i →
      i ≤ buf.length →
      ∃ buf', printDigits rem div fuel val buf i =
          .ok (buf', i - (decimalDigits val.toNat).length) ∧ buf'.length = buf.length ∧
        buf'.drop (i - (decimalDigits val.toNat).length) =
          (decimalDigits val.toNat).map some ++ buf.drop i := by
  intro fuel
  induction fuel with
  | zero =>
      intro val buf i _ hfuel
      exact absurd hfuel (Nat.not_lt_zero _)
  | succ fuel ih =>
      intro val buf i hval hfuel hi hlen
      unfold printDigits
      by_cases h0 : val = 0
      · subst h0
        exact ⟨buf, by simp [decimalDigits], rfl, by simp [decimalDigits]⟩
      · have hne := toNat_ne_zero h0
        -- the last digit goes in front of the buffer, the others in front of it
        have hdigit : (rem val + 48).setWidth 8 = digitByte (val.toNat % 10) := by
          have hpow : 2 ^ 8 ≤ 2 ^ w := Nat.pow_le_pow_right (by decide) hw
          have h48 : (48 : BitVec w).toNat = 48 := by
            show (BitVec.ofNat w 48).toNat = 48
            rw [BitVec.toNat_ofNat, Nat.mod_eq_of_lt (by omega)]
          have hlast : val.toNat % 10 < 10 := Nat.mod_lt _ (by decide)
          apply BitVec.eq_of_toNat_eq
          rw [toNat_digitByte hlast, BitVec.toNat_setWidth, BitVec.toNat_add, hrem val hval, h48,
            Nat.mod_eq_of_lt (show val.toNat % 10 + 48 < 2 ^ w by omega)]
          omega
        have hstep := decimalDigits_eq hne
        have hcount := congrArg List.length hstep
        rw [List.length_append, List.length_singleton] at hcount
        obtain ⟨buf₁, hput, hlen₁, hdrop₁⟩ := bufPut_spec (show i ≠ 0 by omega) hlen
          (digitByte (val.toNat % 10))
        have hquot := hdiv val hval
        have hquotlt : (div val).toNat < b := by omega
        obtain ⟨buf₂, hrest, hlen₂, hdrop₂⟩ := ih (div val) buf₁ (i - 1) hquotlt
          (by rw [hquot]; omega) (by rw [hquot]; omega) (by omega)
        rw [hquot] at hrest hdrop₂
        rw [if_neg h0, hdigit, hcount, show i - ((decimalDigits (val.toNat / 10)).length + 1) =
          i - 1 - (decimalDigits (val.toNat / 10)).length by omega]
        refine ⟨buf₂, Res.bind_eq_ok.mpr ⟨_, hput, hrest⟩, hlen₂.trans hlen₁, ?_⟩
        rw [hdrop₂, hdrop₁, hstep, List.map_append, List.append_assoc]
        rfl

/-- The digits of a value that fits, in a buffer that is large enough. -/
theorem printDigits_stackBuf (rem div : BitVec w → BitVec w) (b : ℕ) (hw : 8 ≤ w)
    (hrem : ∀ v : BitVec w, v.toNat < b → (rem v).toNat = v.toNat % 10)
    (hdiv : ∀ v : BitVec w, v.toNat < b → (div v).toNat = v.toNat / 10) {val : BitVec w}
    (hval : val.toNat < b) {size : ℕ} (hsize : (decimalDigits val.toNat).length ≤ size) :
    ∃ buf, printDigits rem div (w + 1) val (stackBuf size) size =
        .ok (buf, size - (decimalDigits val.toNat).length) ∧ buf.length = size + 1 ∧
      buf.drop (size - (decimalDigits val.toNat).length) =
        (decimalDigits val.toNat).map some ++ [some 0] := by
  have hfuel : (decimalDigits val.toNat).length ≤ w := by
    rw [length_decimalDigits, Nat.digits_length_le_iff (by decide)]
    exact lt_of_lt_of_le val.isLt (Nat.pow_le_pow_left (by decide) w)
  have hlen : (stackBuf size).length = size + 1 := by simp [stackBuf]
  obtain ⟨buf, hok, hlen', hdrop⟩ := printDigits_spec hw hrem hdiv (w + 1) val (stackBuf size) size
    hval (by omega) hsize (by omega)
  refine ⟨buf, hok, hlen'.trans hlen, ?_⟩
  rw [hdrop]
  simp [stackBuf]

end Digits

/-! ## Hexadecimal -/

section Hex

variable {w : ℕ}

/-- The `n` low nibbles of a value, most significant first. -/
def hexText (n : ℕ) (val : BitVec w) : List Byte :=
  (List.range n).reverse.map fun k => hexDigit (val.extractLsb' (4 * k) 4)

theorem hexDigit_ne_zero (d : BitVec 4) : hexDigit d ≠ 0 := by
  revert d
  decide

/-- Shifting by a nibble, with the sign or without, moves the nibbles inside the width. -/
theorem extractLsb'_sshiftRight {val : BitVec w} {k : ℕ} (h : 4 * (k + 1) + 4 ≤ w) :
    (val.sshiftRight 4).extractLsb' (4 * k) 4 = val.extractLsb' (4 * (k + 1)) 4 := by
  ext i hi
  simp only [BitVec.getElem_extractLsb', BitVec.getLsbD_sshiftRight]
  rw [if_pos (by omega), decide_eq_false (by omega), Bool.not_false, Bool.true_and]
  congr 1
  omega

theorem hexText_succ {n : ℕ} {val : BitVec w} (h : 4 * (n + 1) ≤ w) :
    hexText (n + 1) val = hexText n (val.sshiftRight 4) ++ [hexDigit (val.extractLsb' 0 4)] := by
  unfold hexText
  rw [List.range_succ_eq_map, List.reverse_cons, List.map_append, ← List.map_reverse, List.map_map]
  congr 1
  apply List.map_congr_left
  intro k hk
  have hk := List.mem_range.mp (List.mem_reverse.mp hk)
  show hexDigit _ = hexDigit _
  rw [extractLsb'_sshiftRight (by omega)]

theorem printNibbles_eq : ∀ (n : ℕ) (val : BitVec w) (buf : StackBuf), 4 * n ≤ w → n ≤ buf.length →
    printNibbles n val buf = (hexText n val).map some ++ buf.drop n
  | 0, _, buf, _, _ => rfl
  | n + 1, val, buf, hw, hlen => by
      have hnibble : (val &&& 0xf).setWidth 4 = val.extractLsb' 0 4 := by
        ext i hi
        have h15 : (15 : BitVec w).getLsbD i = (15 : BitVec 4).getLsbD i := by
          show (BitVec.ofNat w 15).getLsbD i = (BitVec.ofNat 4 15).getLsbD i
          simp only [BitVec.getLsbD_ofNat]
          rw [decide_eq_true (show i < w by omega), decide_eq_true hi]
        have hones : (15 : BitVec 4).getLsbD i = true := by
          have : i = 0 ∨ i = 1 ∨ i = 2 ∨ i = 3 := by omega
          rcases this with rfl | rfl | rfl | rfl <;> rfl
        simp only [BitVec.getElem_setWidth, BitVec.getLsbD_and, BitVec.getElem_extractLsb', h15,
          hones, Bool.and_true, Nat.zero_add]
      unfold printNibbles
      rw [printNibbles_eq n _ _ (by omega) (by rw [List.length_set]; omega),
        drop_set_self (by omega), hnibble, hexText_succ hw, List.map_append, List.append_assoc]
      rfl

/-- **`print_x` and `print_lx` print every nibble of the value.** -/
theorem printHex_eq {n : ℕ} (h : 4 * n ≤ w) (val : BitVec w) :
    printHex n val = .ok (hexText n val) := by
  unfold printHex
  rw [printNibbles_eq n val _ h (by simp [stackBuf])]
  have hdrop : (stackBuf n).drop n = [some 0] := by simp [stackBuf]
  rw [hdrop]
  apply comPuts_append
  intro c hc
  obtain ⟨k, -, rfl⟩ := List.mem_map.mp hc
  exact hexDigit_ne_zero _

theorem isHexDigit_hexDigit (d : BitVec 4) : IsHexDigit (hexDigit d) := by
  revert d
  decide

theorem hexValue_hexDigit (d : BitVec 4) : hexValue (hexDigit d) = d.toNat := by
  revert d
  decide

/-- Reading the nibbles on from `acc` puts the low part of the value behind it. -/
theorem foldl_hexText (val : BitVec w) : ∀ n acc : ℕ,
    (hexText n val).foldl (fun n c => 16 * n + hexValue c) acc =
      acc * 16 ^ n + val.toNat % 16 ^ n := by
  intro n
  induction n with
  | zero =>
      intro acc
      simp [hexText, Nat.mod_one]
  | succ n ih =>
      intro acc
      have hcons : hexText (n + 1) val = hexDigit (val.extractLsb' (4 * n) 4) :: hexText n val := by
        unfold hexText
        rw [List.range_succ, List.reverse_append]
        rfl
      have hnibble : (val.extractLsb' (4 * n) 4).toNat = val.toNat / 16 ^ n % 16 := by
        rw [BitVec.extractLsb'_toNat, Nat.shiftRight_eq_div_pow, Nat.pow_mul]
      rw [hcons, List.foldl_cons, ih, hexValue_hexDigit, hnibble, Nat.mod_pow_succ]
      ring

/-- **The hexadecimal text of a value reads back as its low nibbles.** -/
theorem isHexText_hexText (n : ℕ) (val : BitVec w) :
    IsHexText (hexText n val) n (val.toNat % 16 ^ n) := by
  refine ⟨by simp [hexText], ?_, ?_⟩
  · intro c hc
    obtain ⟨k, -, rfl⟩ := List.mem_map.mp hc
    exact isHexDigit_hexDigit _
  · unfold readHex
    rw [foldl_hexText, Nat.zero_mul, Nat.zero_add]

/-- When the digits cover the type, they read back as the value, of either sign. -/
theorem printHex_isHexText {n : ℕ} (h : 4 * n = w) (val : BitVec w) :
    ∃ text, printHex n val = .ok text ∧ IsHexText text n val.toNat ∧
      (readHex text : ℤ) = val.toInt % 2 ^ w := by
  have hpow : 16 ^ n = 2 ^ w := by
    rw [← h, Nat.pow_mul]
  have htext := isHexText_hexText n val
  rw [hpow, Nat.mod_eq_of_lt val.isLt] at htext
  have hmod : val.toInt % ((2 ^ w : ℕ) : ℤ) = val.toNat := by
    rw [BitVec.toInt_eq_toNat_bmod, Int.bmod_emod]
    exact Int.emod_eq_of_lt (Int.natCast_nonneg _) (Int.ofNat_lt.mpr val.isLt)
  refine ⟨_, printHex_eq h.le val, htext, ?_⟩
  rw [htext.value, ← hmod, Nat.cast_pow, Nat.cast_ofNat]

end Hex

/-! ## Unsigned numbers -/

section Unsigned

variable {w : ℕ}

theorem toNat_ten (hw : 8 ≤ w) : (10 : BitVec w).toNat = 10 := by
  have hpow : 2 ^ 8 ≤ 2 ^ w := Nat.pow_le_pow_right (by decide) hw
  show (BitVec.ofNat w 10).toNat = 10
  rw [BitVec.toNat_ofNat, Nat.mod_eq_of_lt (by omega)]

theorem ne_zero_of_isDigit {c : Byte} (h : IsDigit c) : c ≠ 0 := by
  rintro rfl
  exact absurd h (by decide)

theorem length_decimalDigits_le {n size : ℕ} (h : n < 10 ^ size) :
    (decimalDigits n).length ≤ size := by
  rw [length_decimalDigits, Nat.digits_length_le_iff (by decide)]
  exact h

/-- **`print_u` and `print_lu` print the numeral of every value**, without leaving the buffer. -/
theorem printUnsigned_eq (hw : 8 ≤ w) {size : ℕ} (hsize : 2 ^ w ≤ 10 ^ size) (val : BitVec w) :
    printUnsigned size val = .ok (numeral (val.toNat : ℤ)) := by
  unfold printUnsigned numeral
  by_cases h0 : val = 0
  · subst h0
    simp
    rfl
  · have hne := toNat_ne_zero h0
    obtain ⟨buf, hok, -, hdrop⟩ := printDigits_stackBuf (· % 10) (· / 10) (2 ^ w) hw
      (fun v _ => by rw [BitVec.toNat_umod, toNat_ten hw])
      (fun v _ => by rw [BitVec.toNat_udiv, toNat_ten hw]) val.isLt
      (length_decimalDigits_le (lt_of_lt_of_le val.isLt hsize))
    rw [if_neg h0, if_neg (by omega), if_neg (by omega), hok, List.nil_append, Int.natAbs_natCast]
    show comPuts (buf.drop _) = _
    rw [hdrop]
    exact comPuts_append (fun c hc => ne_zero_of_isDigit (decimalDigits_isDigit _ c hc)) []

theorem printUnsigned_isNumeral (hw : 8 ≤ w) {size : ℕ} (hsize : 2 ^ w ≤ 10 ^ size)
    (val : BitVec w) : ∃ text, printUnsigned size val = .ok text ∧ IsNumeral text (val.toNat : ℤ) :=
  ⟨_, printUnsigned_eq hw hsize val, numeral_isNumeral _⟩

end Unsigned

/-- **Printing an unsigned number, or a number of either sign in hexadecimal.** The decimal text is
the canonical numeral of every value, and the index never leaves the buffer: `10` and `20` digits are
enough for `32` and `64` bits. The hexadecimal text has one digit for each nibble and reads back as
the value modulo `2^32` or `2^64`, whatever the arithmetic shift brings in from the left. -/
theorem print_unsigned_exact (val : BitVec 32) (val' : BitVec 64) :
    (∃ text, printU val = .ok text ∧ IsNumeral text (val.toNat : ℤ)) ∧
    (∃ text, printLu val' = .ok text ∧ IsNumeral text (val'.toNat : ℤ)) ∧
    (∃ text, printX val = .ok text ∧ IsHexText text 8 val.toNat ∧
      (readHex text : ℤ) = val.toInt % 2 ^ 32) ∧
    ∃ text, printLx val' = .ok text ∧ IsHexText text 16 val'.toNat ∧
      (readHex text : ℤ) = val'.toInt % 2 ^ 64 :=
  ⟨printUnsigned_isNumeral (by decide) (show 2 ^ 32 ≤ 10 ^ 10 by decide) val,
    printUnsigned_isNumeral (by decide) (show 2 ^ 64 ≤ 10 ^ 20 by decide) val',
    printHex_isHexText (show 4 * 8 = 32 by decide) val,
    printHex_isHexText (show 4 * 16 = 64 by decide) val'⟩

/-! ## Signed numbers -/

section Signed

variable {w : ℕ} {val : BitVec w}

/-- The magnitude of every value but the minimum fits in the positive half of the type. -/
theorem two_mul_toNat_abs_lt (hmin : val ≠ BitVec.intMin w) : 2 * val.abs.toNat < 2 ^ w := by
  rw [← BitVec.msb_eq_false_iff_two_mul_lt, BitVec.msb_abs]
  simp [hmin]

theorem toNat_abs_eq_natAbs (hmin : val ≠ BitVec.intMin w) :
    val.abs.toNat = val.toInt.natAbs := by
  have hmsb : val.abs.msb = false := BitVec.msb_eq_false_iff_two_mul_lt.mpr (two_mul_toNat_abs_lt hmin)
  have habs := BitVec.toInt_abs_eq_natAbs_of_ne_intMin hmin
  rw [BitVec.toInt_eq_toNat_of_msb hmsb] at habs
  exact Int.ofNat_inj.mp habs

theorem msb_ten (hw : 8 ≤ w) : (10 : BitVec w).msb = false := by
  rw [BitVec.msb_eq_false_iff_two_mul_lt, toNat_ten hw]
  have hpow : 2 ^ 8 ≤ 2 ^ w := Nat.pow_le_pow_right (by decide) hw
  omega

/-- In the positive half the signed remainder and quotient are the unsigned ones. -/
theorem toNat_srem_ten (hw : 8 ≤ w) {v : BitVec w} (hv : 2 * v.toNat < 2 ^ w) :
    (v.srem 10).toNat = v.toNat % 10 := by
  rw [BitVec.srem_eq, BitVec.msb_eq_false_iff_two_mul_lt.mpr hv, msb_ten hw]
  show (v % 10).toNat = _
  rw [BitVec.toNat_umod, toNat_ten hw]

theorem toNat_sdiv_ten (hw : 8 ≤ w) {v : BitVec w} (hv : 2 * v.toNat < 2 ^ w) :
    (v.sdiv 10).toNat = v.toNat / 10 := by
  rw [BitVec.sdiv_eq, BitVec.msb_eq_false_iff_two_mul_lt.mpr hv, msb_ten hw]
  show (v.udiv 10).toNat = _
  rw [BitVec.udiv_eq, BitVec.toNat_udiv, toNat_ten hw]

/-- **`print_d` and `print_ld` print the numeral of every value but the minimum**, in a buffer with
one byte more than the digits of the largest magnitude. -/
theorem printSigned_eq (hw : 8 ≤ w) {size : ℕ} (hsize : 2 ^ w ≤ 2 * 10 ^ size)
    (hmin : val ≠ BitVec.intMin w) : printSigned (size + 1) val = .ok (numeral val.toInt) := by
  unfold printSigned numeral
  by_cases h0 : val = 0
  · subst h0
    simp
    rfl
  · have hInt : val.toInt ≠ 0 := by
      intro heq
      exact h0 (BitVec.eq_of_toInt_eq (by simpa using heq))
    have habs : (if val.slt 0 then -val else val) = val.abs := by
      rw [BitVec.abs_eq, ← BitVec.slt_zero_eq_msb]
      rfl
    have hlt := two_mul_toNat_abs_lt hmin
    have hlen : (decimalDigits val.toInt.natAbs).length ≤ size := by
      apply length_decimalDigits_le
      rw [← toNat_abs_eq_natAbs hmin]
      omega
    obtain ⟨buf, hok, hbuf, hdrop⟩ := printDigits_stackBuf (·.srem 10) (·.sdiv 10)
      ((2 ^ w + 1) / 2) hw (fun v hv => toNat_srem_ten hw (by omega))
      (fun v hv => toNat_sdiv_ten hw (by omega)) (show val.abs.toNat < _ by omega)
      (show (decimalDigits val.abs.toNat).length ≤ size + 1 by
        rw [toNat_abs_eq_natAbs hmin]; omega)
    rw [toNat_abs_eq_natAbs hmin] at hok hdrop
    have hdigits : ∀ c ∈ decimalDigits val.toInt.natAbs, c ≠ 0 := fun c hc =>
      ne_zero_of_isDigit (decimalDigits_isDigit _ c hc)
    rw [if_neg h0, if_neg hInt]
    simp only [habs]
    refine Res.bind_eq_ok.mpr ⟨_, hok, ?_⟩
    by_cases hneg : val.toInt < 0
    · -- the sign takes the byte that the digits leave
      have hslt : val.slt 0 = true := by simpa [BitVec.slt] using hneg
      obtain ⟨buf', hput, -, hdrop'⟩ := bufPut_spec
        (show size + 1 - (decimalDigits val.toInt.natAbs).length ≠ 0 by omega)
        (show _ ≤ buf.length by omega) minusByte
      rw [hdrop] at hdrop'
      simp only [hslt, if_true, if_pos hneg]
      refine Res.bind_eq_ok.mpr ⟨_, hput, ?_⟩
      show comPuts (buf'.drop _) = _
      rw [hdrop']
      have htext : ∀ c ∈ minusByte :: decimalDigits val.toInt.natAbs, c ≠ 0 := by
        rw [List.forall_mem_cons]
        exact ⟨by decide, hdigits⟩
      exact comPuts_append htext []
    · have hslt : val.slt 0 = false := by simpa [BitVec.slt] using hneg
      simp only [hslt, if_neg hneg, List.nil_append]
      show comPuts (buf.drop _) = _
      rw [hdrop]
      exact comPuts_append hdigits []

end Signed

/-- `print_d(INT32_MIN)`: every remainder is negative, so every digit `d` comes out as `'0' - d`. -/
theorem printD_intMin : printD (BitVec.intMin 32) =
    .ok [45, 46, 47, 44, 41, 44, 40, 45, 42, 44, 40] := by
  decide +kernel

/-- `print_ld(INT64_MIN)`. -/
theorem printLd_intMin : printLd (BitVec.intMin 64) =
    .ok [45, 39, 46, 46, 45, 45, 41, 46, 48, 45, 42, 40, 43, 44, 41, 41, 43, 40, 48, 40] := by
  decide +kernel

/-- A text that does not read back is no numeral. -/
theorem not_isNumeral_of_readNumeral {text : List Byte} {z : ℤ} (h : readNumeral text = none) :
    ¬IsNumeral text z := by
  intro hnum
  rw [hnum.value] at h
  cases h

/-- One width: if the minimum prints something unreadable, it is the only value that does. -/
theorem printSigned_iff {w size : ℕ} (hw : 8 ≤ w) (hsize : 2 ^ w ≤ 2 * 10 ^ size)
    {garbled : List Byte} (hprint : printSigned (size + 1) (BitVec.intMin w) = .ok garbled)
    (hread : readNumeral garbled = none) (val : BitVec w) :
    ∃ text, printSigned (size + 1) val = .ok text ∧
      (IsNumeral text val.toInt ↔ val ≠ BitVec.intMin w) := by
  by_cases hmin : val = BitVec.intMin w
  · subst hmin
    exact ⟨garbled, hprint, iff_of_false (not_isNumeral_of_readNumeral hread) (not_not.mpr rfl)⟩
  · exact ⟨_, printSigned_eq hw hsize hmin, iff_of_true (numeral_isNumeral _) hmin⟩

theorem printD_iff (val : BitVec 32) : ∃ text, printD val = .ok text ∧
    (IsNumeral text val.toInt ↔ val ≠ BitVec.intMin 32) :=
  printSigned_iff (by decide) (show 2 ^ 32 ≤ 2 * 10 ^ 10 by decide) printD_intMin (by decide) val

theorem printLd_iff (val : BitVec 64) : ∃ text, printLd val = .ok text ∧
    (IsNumeral text val.toInt ↔ val ≠ BitVec.intMin 64) :=
  printSigned_iff (by decide) (show 2 ^ 64 ≤ 2 * 10 ^ 19 by decide) printLd_intMin (by decide) val

/-- The index never leaves the buffer, whatever the value. -/
theorem printD_ok (val : BitVec 32) : ∃ text, printD val = .ok text :=
  (printD_iff val).imp fun _ h => h.1

theorem printLd_ok (val : BitVec 64) : ∃ text, printLd val = .ok text :=
  (printLd_iff val).imp fun _ h => h.1

/-- **Printing a signed number.** The index never leaves the buffer, for any value; and the text is
the canonical numeral of the value except for the one value that has no negation. -/
theorem print_signed_iff (val : BitVec 32) (val' : BitVec 64) :
    (∃ text, printD val = .ok text ∧ (IsNumeral text val.toInt ↔ val ≠ BitVec.intMin 32)) ∧
      ∃ text, printLd val' = .ok text ∧ (IsNumeral text val'.toInt ↔ val' ≠ BitVec.intMin 64) :=
  ⟨printD_iff val, printLd_iff val'⟩

/-- The minimum of either width prints no numeral at all. -/
theorem print_signed_minimum_garbled :
    (∃ text, printD 0x80000000 = .ok text ∧ ¬IsNumeral text (0x80000000 : BitVec 32).toInt ∧
      readNumeral text = none) ∧
    (∃ text, printLd 0x8000000000000000 = .ok text ∧
      ¬IsNumeral text (0x8000000000000000 : BitVec 64).toInt ∧ readNumeral text = none) :=
  ⟨⟨_, printD_intMin, not_isNumeral_of_readNumeral (by decide), by decide⟩,
    ⟨_, printLd_intMin, not_isNumeral_of_readNumeral (by decide), by decide⟩⟩

end Cerberos
