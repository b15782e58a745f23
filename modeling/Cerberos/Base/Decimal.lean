/-
# Cerberos.Base.Decimal — decimal numerals as ASCII text.

`IsNumeral text z` is the specification: `text` is the CANONICAL numeral of the integer `z`, so that
reading it gives `z` back. `numeral z` writes it, most significant digit first. `IsHexText text n v`
is the same for texts of a FIXED number of hexadecimal digits, leading zeros included.
-/
import Cerberos.Base.ByteMem

namespace Cerberos.Base

/-- The character of a digit. -/
def digitByte (d : ℕ) : Byte := BitVec.ofNat 8 (48 + d)

/-- `'-'`. -/
abbrev minusByte : Byte := 45

/-- `'0'` to `'9'`. -/
def IsDigit (c : Byte) : Prop := 48 ≤ c.toNat ∧ c.toNat ≤ 57

instance (c : Byte) : Decidable (IsDigit c) := inferInstanceAs (Decidable (_ ∧ _))

/-- The number a nonempty list of digits stands for. -/
def readDecimal (text : List Byte) : Option ℕ :=
  if text ≠ [] ∧ ∀ c ∈ text, IsDigit c then
    some (text.foldl (fun n c => 10 * n + (c.toNat - 48)) 0)
  else none

/-- The integer a text stands for. -/
def readNumeral (text : List Byte) : Option ℤ :=
  if text.head? = some minusByte then (readDecimal text.tail).map fun n : ℕ => -(n : ℤ)
  else (readDecimal text).map fun n : ℕ => (n : ℤ)

/-- **`text` is the canonical decimal numeral of `z`**: a sign if it is negative, digits without a
leading zero, and `0` for zero. -/
structure IsNumeral (text : List Byte) (z : ℤ) : Prop where
  value : readNumeral text = some z
  digits : ∃ ds, text = (if z < 0 then [minusByte] else []) ++ ds ∧ ds ≠ [] ∧
    (∀ c ∈ ds, IsDigit c) ∧ (ds.head? = some (digitByte 0) → ds = [digitByte 0])

/-- `'0'` to `'9'` and `'a'` to `'f'`. -/
def IsHexDigit (c : Byte) : Prop := IsDigit c ∨ (97 ≤ c.toNat ∧ c.toNat ≤ 102)

instance (c : Byte) : Decidable (IsHexDigit c) := inferInstanceAs (Decidable (_ ∨ _))

/-- The value of a hexadecimal digit. -/
def hexValue (c : Byte) : ℕ := if IsDigit c then c.toNat - 48 else c.toNat - 87

/-- The number a list of hexadecimal digits stands for, the most significant one first. -/
def readHex (text : List Byte) : ℕ := text.foldl (fun n c => 16 * n + hexValue c) 0

/-- **`text` writes `v` with `n` hexadecimal digits.** -/
structure IsHexText (text : List Byte) (n v : ℕ) : Prop where
  length : text.length = n
  digits : ∀ c ∈ text, IsHexDigit c
  value : readHex text = v

/-- The digits of `n`, none for zero. -/
def decimalDigits (n : ℕ) : List Byte := ((Nat.digits 10 n).reverse).map digitByte

/-- The canonical numeral. -/
def numeral (z : ℤ) : List Byte :=
  if z = 0 then [digitByte 0]
  else (if z < 0 then [minusByte] else []) ++ decimalDigits z.natAbs

theorem toNat_digitByte {d : ℕ} (h : d < 10) : (digitByte d).toNat = 48 + d := by
  unfold digitByte
  rw [BitVec.toNat_ofNat]
  omega

theorem isDigit_digitByte {d : ℕ} (h : d < 10) : IsDigit (digitByte d) := by
  unfold IsDigit
  rw [toNat_digitByte h]
  omega

theorem decimalDigits_isDigit (n : ℕ) : ∀ c ∈ decimalDigits n, IsDigit c := by
  intro c hc
  obtain ⟨d, hd, rfl⟩ := List.mem_map.mp hc
  exact isDigit_digitByte (Nat.digits_lt_base (by decide) (List.mem_reverse.mp hd))

/-- Digits can be put in front one at a time: the last one is the remainder. -/
theorem decimalDigits_eq {n : ℕ} (h : n ≠ 0) :
    decimalDigits n = decimalDigits (n / 10) ++ [digitByte (n % 10)] := by
  unfold decimalDigits
  rw [Nat.digits_def' (by decide) (Nat.pos_of_ne_zero h), List.reverse_cons, List.map_append]
  rfl

theorem length_decimalDigits (n : ℕ) : (decimalDigits n).length = (Nat.digits 10 n).length := by
  unfold decimalDigits
  rw [List.length_map, List.length_reverse]

theorem decimalDigits_ne_nil {n : ℕ} (h : n ≠ 0) : decimalDigits n ≠ [] := by
  rw [decimalDigits_eq h]
  simp

/-- Reading the digits gives the number back. -/
theorem foldl_decimalDigits (n : ℕ) :
    (decimalDigits n).foldl (fun n c => 10 * n + (c.toNat - 48)) 0 = n := by
  induction n using Nat.strong_induction_on with
  | _ n ih =>
      by_cases h : n = 0
      · subst h
        rfl
      · rw [decimalDigits_eq h, List.foldl_append, ih (n / 10) (by omega)]
        simp only [List.foldl_cons, List.foldl_nil]
        rw [toNat_digitByte (Nat.mod_lt n (by decide))]
        omega

/-- There is no leading zero. -/
theorem decimalDigits_head {n : ℕ} (h : n ≠ 0) : (decimalDigits n).head? ≠ some (digitByte 0) := by
  induction n using Nat.strong_induction_on with
  | _ n ih =>
      rw [decimalDigits_eq h]
      by_cases hn : n / 10 = 0
      · -- one digit, which is the number itself
        have hlt : n < 10 := by omega
        rw [hn, Nat.mod_eq_of_lt hlt, show decimalDigits 0 = [] from rfl, List.nil_append,
          List.head?_cons]
        intro heq
        have hnat := congrArg BitVec.toNat (Option.some.inj heq)
        rw [toNat_digitByte hlt, toNat_digitByte (by decide)] at hnat
        omega
      · rw [List.head?_append_of_ne_nil _ (decimalDigits_ne_nil hn)]
        exact ih (n / 10) (by omega) hn

theorem readDecimal_decimalDigits {n : ℕ} (h : n ≠ 0) : readDecimal (decimalDigits n) = some n := by
  unfold readDecimal
  rw [if_pos ⟨decimalDigits_ne_nil h, decimalDigits_isDigit n⟩, foldl_decimalDigits]

/-- A digit is not a sign. -/
theorem decimalDigits_head_ne_minus (n : ℕ) : (decimalDigits n).head? ≠ some minusByte := by
  intro heq
  have hdigit := decimalDigits_isDigit n _ (List.mem_of_mem_head? heq)
  exact absurd hdigit (by decide)

/-- **The numeral of an integer is canonical.** -/
theorem numeral_isNumeral (z : ℤ) : IsNumeral (numeral z) z := by
  unfold numeral
  by_cases hz : z = 0
  · subst hz
    rw [if_pos rfl]
    exact ⟨by decide, [digitByte 0], by decide, by decide, by decide, fun _ => rfl⟩
  · rw [if_neg hz]
    have habs : z.natAbs ≠ 0 := Int.natAbs_ne_zero.mpr hz
    constructor
    · unfold readNumeral
      by_cases hneg : z < 0
      · rw [if_pos hneg, List.singleton_append, List.head?_cons, if_pos rfl, List.tail_cons,
          readDecimal_decimalDigits habs, Option.map_some]
        congr 1
        omega
      · rw [if_neg hneg, List.nil_append, if_neg (decimalDigits_head_ne_minus _),
          readDecimal_decimalDigits habs, Option.map_some]
        congr 1
        omega
    · exact ⟨_, rfl, decimalDigits_ne_nil habs, decimalDigits_isDigit _,
        fun h0 => absurd h0 (decimalDigits_head habs)⟩

end Cerberos.Base
