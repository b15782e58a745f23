/-
# Cerberos.Lib.Bitmap — `lib/ds/bitmap`: a bitmap packed into bytes.

The operations of `ds/bitmap.h` and `ds/bitmap.c`, on the memory that holds the bitmap's bytes.
`bitmapBit` reads the bitmap as a function from bit numbers to Booleans; every operation is then
described by what it does to that function.
-/
import Cerberos.Lib.Sys

namespace Cerberos

open Cerberos.Base

/-- `bitmap_t`: the size in bits and the address of the first byte. -/
structure Bitmap where
  size : Word
  data : Word
  deriving DecidableEq, Repr

/-- `bitmap_set(bitmap, bit)`. -/
def bitmapSet (m : Mem) (b : Bitmap) (bit : Word) : Mem :=
  let byteIndex := bit / 8
  let bitIndex := bit % 8
  Function.update m (b.data + byteIndex) (m (b.data + byteIndex) ||| ((1 : Byte) <<< bitIndex))

/-- `bitmap_clear(bitmap, bit)`. -/
def bitmapClear (m : Mem) (b : Bitmap) (bit : Word) : Mem :=
  let byteIndex := bit / 8
  let bitIndex := bit % 8
  Function.update m (b.data + byteIndex) (m (b.data + byteIndex) &&& ~~~((1 : Byte) <<< bitIndex))

/-- `bitmap_get(bitmap, bit)`. -/
def bitmapGet (m : Mem) (b : Bitmap) (bit : Word) : Bool :=
  let byteIndex := bit / 8
  let bitIndex := bit % 8
  m (b.data + byteIndex) &&& ((1 : Byte) <<< bitIndex) != 0

/-- `for (i = 0; i < n; i++) op(bitmap, bit + i)`, the loop of both range operations. -/
def bitmapRange (op : Mem → Bitmap → Word → Mem) (m : Mem) (b : Bitmap) (bit : Word) : Nat → Mem
  | 0 => m
  | n + 1 => op (bitmapRange op m b bit n) b (bit + BitVec.ofNat 64 n)

/-- `bitmap_set_range(bitmap, bit, num_bits)`. -/
def bitmapSetRange (m : Mem) (b : Bitmap) (bit numBits : Word) : Mem :=
  bitmapRange bitmapSet m b bit numBits.toNat

/-- `bitmap_clear_range(bitmap, bit, num_bits)`. -/
def bitmapClearRange (m : Mem) (b : Bitmap) (bit numBits : Word) : Mem :=
  bitmapRange bitmapClear m b bit numBits.toNat

/-- `bitmap_size_bytes(bitmap)`. -/
def bitmapSizeBytes (b : Bitmap) : Word := b.size / 8 + (if b.size % 8 ≠ 0 then 1 else 0)

/-- The loop of `bitmap_find_range` with `n` rounds left. -/
def bitmapFindLoop (m : Mem) (b : Bitmap) (bit : Bool) (length : Word) :
    Nat → Word → Word → Word → Word
  | 0, _, _, _ => -1
  | n + 1, idx, foundLength, foundIdx =>
    let found :=
      if bitmapGet m b idx = bit then
        (foundLength + 1, if foundLength = 0 then idx else foundIdx)
      else
        (0, -1)
    if found.1 = length then found.2
    else bitmapFindLoop m b bit length n (idx + 1) found.1 found.2

/-- `bitmap_find_range(bitmap, first_idx, bit, length)`; `(size_t) -1` when nothing fits. -/
def bitmapFindRange (m : Mem) (b : Bitmap) (firstIdx : Word) (bit : Bool) (length : Word) : Word :=
  bitmapFindLoop m b bit length (b.size.toNat - firstIdx.toNat) firstIdx 0 (-1)

/-! ## The bitmap as a function -/

/-- Bit `i` of the bitmap. -/
def bitmapBit (m : Mem) (b : Bitmap) (i : ℕ) : Bool :=
  (m (b.data + BitVec.ofNat 64 (i / 8))).getLsbD (i % 8)

/-- The address of the byte that holds bit `i`. -/
def Bitmap.byteAddr (b : Bitmap) (i : ℕ) : Word := b.data + BitVec.ofNat 64 (i / 8)

theorem bitmap_word_div (bit : Word) : bit / 8 = BitVec.ofNat 64 (bit.toNat / 8) := by
  apply BitVec.eq_of_toNat_eq
  have := bit.isLt
  rw [BitVec.toNat_udiv, BitVec.toNat_ofNat, show (8 : Word).toNat = 8 from rfl,
    Nat.mod_eq_of_lt (by omega)]

theorem bitmap_shift_bit (bit : Word) (j : ℕ) (hj : j < 8) :
    ((1 : Byte) <<< (bit % 8)).getLsbD j = decide (j = bit.toNat % 8) := by
  have hmod : (bit % 8 : Word).toNat = bit.toNat % 8 := by
    rw [BitVec.toNat_umod, show (8 : Word).toNat = 8 from rfl]
  rw [BitVec.shiftLeft_eq', hmod, BitVec.getLsbD_shiftLeft]
  by_cases h : j = bit.toNat % 8
  · subst h
    simp [hj]
  · rcases Nat.lt_or_gt_of_ne h with hlt | hgt
    · simp [hlt, h]
    · have h1 : j - bit.toNat % 8 ≠ 0 := by omega
      simp [h, h1, BitVec.getLsbD_one]

/-- Bits of one bitmap in one byte are bits of one group of eight. -/
theorem Bitmap.byteAddr_eq_iff (b : Bitmap) {i j : ℕ} (hi : i < 2 ^ 64) (hj : j < 2 ^ 64) :
    b.byteAddr i = b.byteAddr j ↔ i / 8 = j / 8 := by
  unfold Bitmap.byteAddr
  rw [BitVec.add_right_inj]
  constructor
  · intro h
    have := congrArg BitVec.toNat h
    rw [BitVec.toNat_ofNat, BitVec.toNat_ofNat, Nat.mod_eq_of_lt (by omega),
      Nat.mod_eq_of_lt (by omega)] at this
    exact this
  · intro h
    rw [h]

theorem bitmapGet_eq (m : Mem) (b : Bitmap) (bit : Word) :
    bitmapGet m b bit = bitmapBit m b bit.toNat := by
  unfold bitmapGet bitmapBit
  rw [bitmap_word_div]
  have hlt : bit.toNat % 8 < 8 := by omega
  cases hx : (m (b.data + BitVec.ofNat 64 (bit.toNat / 8))).getLsbD (bit.toNat % 8) with
  | true =>
      simp only [bne_iff_ne, ne_eq]
      intro h0
      have h1 := congrArg (fun y => BitVec.getLsbD y (bit.toNat % 8)) h0
      simp only [BitVec.getLsbD_and, hx, bitmap_shift_bit bit _ hlt] at h1
      simp at h1
  | false =>
      simp only [bne_eq_false_iff_eq]
      apply BitVec.eq_of_getLsbD_eq
      intro j hj
      rw [BitVec.getLsbD_and, bitmap_shift_bit bit j hj]
      by_cases h : j = bit.toNat % 8
      · subst h
        simp [hx]
      · simp [h]

/-- The byte edit shared by `bitmap_set` and `bitmap_clear` changes one bit to `v`. -/
theorem bitmapBit_update {m : Mem} {b : Bitmap} {bit : Word} {x : Byte} {v : Bool}
    (hx : ∀ j < 8, x.getLsbD j =
      if j = bit.toNat % 8 then v else (m (b.byteAddr bit.toNat)).getLsbD j)
    {i : ℕ} (hi : i < 2 ^ 64) :
    bitmapBit (Function.update m (b.data + bit / 8) x) b i =
      if i = bit.toNat then v else bitmapBit m b i := by
  have hbit := bit.isLt
  rw [bitmap_word_div]
  show (Function.update m (b.byteAddr bit.toNat) x (b.byteAddr i)).getLsbD (i % 8) =
    if i = bit.toNat then v else (m (b.byteAddr i)).getLsbD (i % 8)
  by_cases hbyte : i / 8 = bit.toNat / 8
  · have haddr := (b.byteAddr_eq_iff hi hbit).mpr hbyte
    rw [haddr, Function.update_self, hx _ (by omega)]
    have hiff : i % 8 = bit.toNat % 8 ↔ i = bit.toNat := by omega
    simp only [hiff]
  · have haddr : b.byteAddr i ≠ b.byteAddr bit.toNat :=
      fun h => hbyte ((b.byteAddr_eq_iff hi hbit).mp h)
    have hne : i ≠ bit.toNat := fun h => hbyte (by rw [h])
    rw [Function.update_of_ne haddr, if_neg hne]

theorem bitmapBit_set (m : Mem) (b : Bitmap) (bit : Word) {i : ℕ} (hi : i < 2 ^ 64) :
    bitmapBit (bitmapSet m b bit) b i = if i = bit.toNat then true else bitmapBit m b i := by
  refine bitmapBit_update ?_ hi
  intro j hj
  rw [BitVec.getLsbD_or, bitmap_shift_bit bit j hj, bitmap_word_div]
  by_cases h : j = bit.toNat % 8
  · simp [h]
  · simp [h, Bitmap.byteAddr]

theorem bitmapBit_clear (m : Mem) (b : Bitmap) (bit : Word) {i : ℕ} (hi : i < 2 ^ 64) :
    bitmapBit (bitmapClear m b bit) b i = if i = bit.toNat then false else bitmapBit m b i := by
  refine bitmapBit_update ?_ hi
  intro j hj
  rw [BitVec.getLsbD_and, BitVec.getLsbD_not, bitmap_shift_bit bit j hj, bitmap_word_div]
  by_cases h : j = bit.toNat % 8
  · simp [h]
  · simp [h, hj, Bitmap.byteAddr]

/-! ## Ranges -/

/-- A range operation changes the bits of its range to `v`. -/
theorem bitmapBit_range {op : Mem → Bitmap → Word → Mem} {v : Bool} {b : Bitmap}
    (hop : ∀ (m : Mem) (bit : Word) (i : ℕ), i < 2 ^ 64 →
      bitmapBit (op m b bit) b i = if i = bit.toNat then v else bitmapBit m b i)
    (m : Mem) {bit : Word} {n : ℕ} (hn : bit.toNat + n ≤ 2 ^ 64) {i : ℕ} (hi : i < 2 ^ 64) :
    bitmapBit (bitmapRange op m b bit n) b i =
      if bit.toNat ≤ i ∧ i < bit.toNat + n then v else bitmapBit m b i := by
  induction n with
  | zero => rw [bitmapRange, if_neg (by omega)]
  | succ n ih =>
      have hadd : (bit + BitVec.ofNat 64 n).toNat = bit.toNat + n := by
        rw [BitVec.toNat_add, BitVec.toNat_ofNat]
        omega
      rw [bitmapRange, hop _ _ _ hi, ih (by omega), hadd]
      by_cases h : i = bit.toNat + n
      · rw [if_pos h, if_pos (by omega)]
      · rw [if_neg h]
        by_cases h2 : bit.toNat ≤ i ∧ i < bit.toNat + n
        · rw [if_pos h2, if_pos (by omega)]
        · rw [if_neg h2, if_neg (by omega)]

/-- **`bitmap_set_range` sets the bits of its range** and no other bit. -/
theorem bitmapBit_setRange (m : Mem) (b : Bitmap) {bit n : Word}
    (hn : bit.toNat + n.toNat ≤ 2 ^ 64) {i : ℕ} (hi : i < 2 ^ 64) :
    bitmapBit (bitmapSetRange m b bit n) b i =
      if bit.toNat ≤ i ∧ i < bit.toNat + n.toNat then true else bitmapBit m b i :=
  bitmapBit_range (fun m bit _ hi => bitmapBit_set m b bit hi) m hn hi

/-- A range operation stores only to the bytes that hold its range. -/
theorem bitmapRange_apply_of_outside {op : Mem → Bitmap → Word → Mem} {b : Bitmap}
    (hop : ∀ (m : Mem) (bit x : Word), x ≠ b.byteAddr bit.toNat → op m b bit x = m x)
    (m : Mem) {bit : Word} {n : ℕ} (hn : bit.toNat + n ≤ 2 ^ 64) {x : Word}
    (hx : ∀ i, bit.toNat ≤ i → i < bit.toNat + n → x ≠ b.byteAddr i) :
    bitmapRange op m b bit n x = m x := by
  induction n with
  | zero => rfl
  | succ n ih =>
      have hadd : (bit + BitVec.ofNat 64 n).toNat = bit.toNat + n := by
        rw [BitVec.toNat_add, BitVec.toNat_ofNat]
        omega
      rw [bitmapRange, hop, ih (by omega)]
      · intro i h1 h2
        exact hx i h1 (by omega)
      · rw [hadd]
        exact hx _ (by omega) (by omega)

theorem bitmapSet_apply_of_ne (m : Mem) (b : Bitmap) (bit : Word) {x : Word}
    (hx : x ≠ b.byteAddr bit.toNat) : bitmapSet m b bit x = m x := by
  unfold bitmapSet
  rw [bitmap_word_div]
  exact Function.update_of_ne hx _ _

theorem bitmapClear_apply_of_ne (m : Mem) (b : Bitmap) (bit : Word) {x : Word}
    (hx : x ≠ b.byteAddr bit.toNat) : bitmapClear m b bit x = m x := by
  unfold bitmapClear
  rw [bitmap_word_div]
  exact Function.update_of_ne hx _ _

/-! ## The search -/

/-- A run of `length` bits of value `bit` at `r`, not before `first`. -/
structure BitRun (m : Mem) (b : Bitmap) (bit : Bool) (first length r : ℕ) : Prop where
  low : first ≤ r
  fits : r + length ≤ b.size.toNat
  bits : ∀ i, r ≤ i → i < r + length → bitmapBit m b i = bit

/-- The invariant of the loop of `bitmap_find_range`: the last `foundLength` bits before `idx` have
the wanted value and start at `foundIdx`. -/
structure FindInv (m : Mem) (b : Bitmap) (bit : Bool) (first : ℕ)
    (length idx foundLength foundIdx : Word) : Prop where
  short : foundLength.toNat < length.toNat
  low : first ≤ idx.toNat
  run : foundLength ≠ 0 → first ≤ foundIdx.toNat ∧
    foundIdx.toNat + foundLength.toNat = idx.toNat ∧
    ∀ i, foundIdx.toNat ≤ i → i < idx.toNat → bitmapBit m b i = bit

/-- The run the loop is looking at ends before `idx`. -/
theorem FindInv.reach {m : Mem} {b : Bitmap} {bit : Bool} {first : ℕ}
    {length idx foundLength foundIdx : Word}
    (h : FindInv m b bit first length idx foundLength foundIdx) :
    first ≤ (if foundLength = 0 then idx else foundIdx).toNat ∧
    (if foundLength = 0 then idx else foundIdx).toNat + foundLength.toNat = idx.toNat ∧
    ∀ i, (if foundLength = 0 then idx else foundIdx).toNat ≤ i → i < idx.toNat →
      bitmapBit m b i = bit := by
  by_cases h0 : foundLength = 0
  · rw [if_pos h0, h0]
    refine ⟨h.low, rfl, ?_⟩
    intro i h1 h2
    omega
  · rw [if_neg h0]
    exact h.run h0

/-- A bit of the wanted value makes the run longer. -/
theorem FindInv.grow {m : Mem} {b : Bitmap} {bit : Bool} {first : ℕ}
    {length idx foundLength foundIdx : Word}
    (h : FindInv m b bit first length idx foundLength foundIdx)
    (hbit : bitmapBit m b idx.toNat = bit) (hnext : (idx + 1).toNat = idx.toNat + 1)
    (hlonger : (foundLength + 1).toNat = foundLength.toNat + 1) (hne : foundLength + 1 ≠ length) :
    FindInv m b bit first length (idx + 1) (foundLength + 1)
      (if foundLength = 0 then idx else foundIdx) := by
  have hshort := h.short
  have hlow := h.low
  obtain ⟨h1, h2, h3⟩ := h.reach
  have hne' : foundLength.toNat + 1 ≠ length.toNat :=
    fun heq => hne (BitVec.eq_of_toNat_eq (by rw [hlonger, heq]))
  refine ⟨by omega, by omega, fun _ => ⟨h1, by omega, ?_⟩⟩
  intro i h4 h5
  rw [hnext] at h5
  rcases Nat.lt_succ_iff_lt_or_eq.mp h5 with h6 | rfl
  · exact h3 i h4 h6
  · exact hbit

/-- Any other bit starts the search afresh behind it. -/
theorem FindInv.restart {m : Mem} {b : Bitmap} {bit : Bool} {first : ℕ}
    {length idx foundLength foundIdx : Word}
    (h : FindInv m b bit first length idx foundLength foundIdx)
    (hnext : (idx + 1).toNat = idx.toNat + 1) :
    FindInv m b bit first length (idx + 1) 0 (-1) := by
  have hshort := h.short
  have hlow := h.low
  refine ⟨?_, by omega, fun h0 => absurd rfl h0⟩
  show 0 < length.toNat
  omega

theorem FindInv.length_ne {m : Mem} {b : Bitmap} {bit : Bool} {first : ℕ}
    {length idx foundLength foundIdx : Word}
    (h : FindInv m b bit first length idx foundLength foundIdx) : (0 : Word) ≠ length := by
  intro h0
  have hshort := h.short
  rw [← h0] at hshort
  exact absurd hshort (by simp)

/-- **One round of the loop.** The run is complete, or the search goes on: with the same start, or
behind a bit of the other value with a new one. -/
theorem FindInv.step {m : Mem} {b : Bitmap} {bit : Bool} {first : ℕ}
    {length idx foundLength foundIdx : Word}
    (h : FindInv m b bit first length idx foundLength foundIdx)
    (hidx : idx.toNat < b.size.toNat) (n : ℕ) :
    (bitmapBit m b idx.toNat = bit ∧ length.toNat = foundLength.toNat + 1 ∧
      bitmapFindLoop m b bit length (n + 1) idx foundLength foundIdx =
        if foundLength = 0 then idx else foundIdx) ∨
    ∃ foundLength' foundIdx', FindInv m b bit first length (idx + 1) foundLength' foundIdx' ∧
      bitmapFindLoop m b bit length (n + 1) idx foundLength foundIdx =
        bitmapFindLoop m b bit length n (idx + 1) foundLength' foundIdx' ∧
      ((if foundLength' = 0 then idx + 1 else foundIdx') =
          (if foundLength = 0 then idx else foundIdx) ∨
        bitmapBit m b idx.toNat ≠ bit ∧
          (if foundLength' = 0 then idx + 1 else foundIdx') = idx + 1) := by
  have hsz := b.size.isLt
  have hlen := length.isLt
  have hshort := h.short
  have hnext : (idx + 1).toNat = idx.toNat + 1 := toNat_add_one (by omega)
  have hlonger : (foundLength + 1).toNat = foundLength.toNat + 1 := toNat_add_one (by omega)
  rw [bitmapFindLoop, bitmapGet_eq]
  by_cases hbit : bitmapBit m b idx.toNat = bit
  · simp only [if_pos hbit]
    by_cases hdone : foundLength + 1 = length
    · left
      rw [if_pos hdone]
      exact ⟨hbit, by rw [← hdone, hlonger], rfl⟩
    · right
      rw [if_neg hdone]
      refine ⟨_, _, h.grow hbit hnext hlonger hdone, rfl, Or.inl (if_neg ?_)⟩
      intro h0
      rw [h0] at hlonger
      cases hlonger
  · simp only [if_neg hbit]
    right
    rw [if_neg h.length_ne]
    exact ⟨_, _, h.restart hnext, rfl, Or.inr ⟨hbit, if_pos rfl⟩⟩

theorem bitmapFindLoop_spec {m : Mem} {b : Bitmap} {bit : Bool} {first : ℕ} {length : Word} :
    ∀ {n : ℕ} {idx foundLength foundIdx : Word}, idx.toNat + n = b.size.toNat →
      FindInv m b bit first length idx foundLength foundIdx →
      bitmapFindLoop m b bit length n idx foundLength foundIdx ≠ -1 →
      BitRun m b bit first length.toNat
        (bitmapFindLoop m b bit length n idx foundLength foundIdx).toNat := by
  intro n
  induction n with
  | zero =>
      intro idx foundLength foundIdx _ _ h
      exact absurd rfl h
  | succ n ih =>
      intro idx foundLength foundIdx hsize hinv
      have hsz := b.size.isLt
      rcases hinv.step (by omega) n with ⟨hbit, hl, heq⟩ | ⟨foundLength', foundIdx', hinv', heq, -⟩
      · rw [heq]
        intro _
        obtain ⟨h1, h2, h3⟩ := hinv.reach
        refine ⟨h1, by omega, ?_⟩
        intro i h4 h5
        rcases Nat.lt_or_ge i idx.toNat with h6 | h6
        · exact h3 i h4 h6
        · rw [show i = idx.toNat by omega]
          exact hbit
      · have hnext : (idx + 1).toNat = idx.toNat + 1 := toNat_add_one (by omega)
        rw [heq]
        exact ih (by omega) hinv'

/-- The search does not pass over a run: it stops at it or before it. -/
theorem bitmapFindLoop_le {m : Mem} {b : Bitmap} {bit : Bool} {first r : ℕ} {length : Word}
    (hr : BitRun m b bit first length.toNat r) :
    ∀ {n : ℕ} {idx foundLength foundIdx : Word}, idx.toNat + n = b.size.toNat →
      FindInv m b bit first length idx foundLength foundIdx →
      (if foundLength = 0 then idx else foundIdx).toNat ≤ r →
      bitmapFindLoop m b bit length n idx foundLength foundIdx ≠ -1 ∧
        (bitmapFindLoop m b bit length n idx foundLength foundIdx).toNat ≤ r := by
  have hfits := hr.fits
  intro n
  induction n with
  | zero =>
      intro idx foundLength foundIdx hsize hinv hstart
      have hshort := hinv.short
      have hreach := hinv.reach.2.1
      omega
  | succ n ih =>
      intro idx foundLength foundIdx hsize hinv hstart
      have hsz := b.size.isLt
      have hshort := hinv.short
      have hreach := hinv.reach.2.1
      rcases hinv.step (by omega) n with ⟨-, hl, heq⟩ |
        ⟨foundLength', foundIdx', hinv', heq, hstart'⟩
      · rw [heq]
        refine ⟨?_, hstart⟩
        intro hfail
        rw [hfail, show (-1 : Word).toNat = 2 ^ 64 - 1 by decide] at hstart
        omega
      · have hnext : (idx + 1).toNat = idx.toNat + 1 := toNat_add_one (by omega)
        rw [heq]
        refine ih (by omega) hinv' ?_
        rcases hstart' with hsame | ⟨hbit, hnew⟩
        · rw [hsame]
          exact hstart
        · -- `idx` is not in the run at `r`, and the run does not end before `idx`
          have hafter : idx.toNat < r := by
            by_contra hle
            exact hbit (hr.bits idx.toNat (by omega) (by omega))
          rw [hnew, hnext]
          exact hafter

/-- **`bitmap_find_range` returns a run of free bits**, or `-1`. -/
theorem bitmapFindRange_spec {m : Mem} {b : Bitmap} {bit : Bool} {firstIdx length : Word}
    (hlen : 1 ≤ length.toNat) (h : bitmapFindRange m b firstIdx bit length ≠ -1) :
    BitRun m b bit firstIdx.toNat length.toNat
      (bitmapFindRange m b firstIdx bit length).toNat := by
  unfold bitmapFindRange at h ⊢
  by_cases hle : firstIdx.toNat ≤ b.size.toNat
  · refine bitmapFindLoop_spec (by omega) ⟨?_, le_refl _, fun h => absurd rfl h⟩ h
    show 0 < length.toNat
    omega
  · rw [show b.size.toNat - firstIdx.toNat = 0 by omega] at h
    exact absurd rfl h

/-- **`bitmap_find_range` finds the first run**: it fails only when there is none. -/
theorem bitmapFindRange_le {m : Mem} {b : Bitmap} {bit : Bool} {firstIdx length : Word} {r : ℕ}
    (hlen : 1 ≤ length.toNat) (hr : BitRun m b bit firstIdx.toNat length.toNat r) :
    bitmapFindRange m b firstIdx bit length ≠ -1 ∧
      (bitmapFindRange m b firstIdx bit length).toNat ≤ r := by
  unfold bitmapFindRange
  have hlow := hr.low
  have hfits := hr.fits
  refine bitmapFindLoop_le hr (by omega) ⟨?_, le_refl _, fun h => absurd rfl h⟩ ?_
  · show 0 < length.toNat
    omega
  · rw [if_pos rfl]
    exact hlow

/-! ## What the search reads -/

/-- The loop of `bitmap_find_range` with its condition, at most `fuel` tests of it, and the bits that
it reads beside the result. -/
def bitmapFindTrace (m : Mem) (b : Bitmap) (bit : Bool) (length : Word) :
    Nat → Word → Word → Word → Res (List Word × Word)
  | 0, _, _, _ => .error .hang
  | fuel + 1, idx, foundLength, foundIdx =>
    if idx < b.size then
      let found :=
        if bitmapGet m b idx = bit then
          (foundLength + 1, if foundLength = 0 then idx else foundIdx)
        else
          (0, -1)
      if found.1 = length then .ok ([idx], found.2)
      else do
        let (reads, result) ← bitmapFindTrace m b bit length fuel (idx + 1) found.1 found.2
        .ok (idx :: reads, result)
    else .ok ([], -1)

/-- The reads are added to the loop without changing its result, and all of them are inside. -/
theorem bitmapFindTrace_eq (m : Mem) (b : Bitmap) (bit : Bool) (length : Word) :
    ∀ {n fuel : ℕ} {idx foundLength foundIdx : Word}, b.size.toNat - idx.toNat = n → n < fuel →
      ∃ reads, bitmapFindTrace m b bit length fuel idx foundLength foundIdx =
          .ok (reads, bitmapFindLoop m b bit length n idx foundLength foundIdx) ∧
        ∀ i ∈ reads, i.toNat < b.size.toNat := by
  intro n
  induction n with
  | zero =>
      intro fuel idx foundLength foundIdx hn hfuel
      obtain ⟨fuel, rfl⟩ := Nat.exists_eq_add_of_lt hfuel
      have hend : ¬idx < b.size := by
        rw [BitVec.lt_def]
        omega
      refine ⟨[], ?_, fun i hi => absurd hi List.not_mem_nil⟩
      rw [Nat.zero_add, bitmapFindTrace, if_neg hend, bitmapFindLoop]
  | succ n ih =>
      intro fuel idx foundLength foundIdx hn hfuel
      obtain ⟨fuel, rfl⟩ := Nat.exists_eq_add_of_lt (Nat.zero_lt_of_lt hfuel)
      have hinside : idx.toNat < b.size.toNat := by omega
      have hsz := b.size.isLt
      have hnext : (idx + 1).toNat = idx.toNat + 1 := toNat_add_one (by omega)
      rw [Nat.zero_add, bitmapFindTrace, if_pos (BitVec.lt_def.mpr hinside), bitmapFindLoop]
      -- both loops go on from the same pair of running length and candidate
      generalize (if bitmapGet m b idx = bit then
        (foundLength + 1, if foundLength = 0 then idx else foundIdx) else (0, -1)) = found
      by_cases hdone : found.1 = length
      · refine ⟨[idx], ?_, ?_⟩
        · rw [if_pos hdone, if_pos hdone]
        · rintro i hi
          rw [List.mem_singleton.mp hi]
          exact hinside
      · obtain ⟨reads, hrest, hreads⟩ := @ih fuel (idx + 1) found.1 found.2 (by omega) (by omega)
        refine ⟨idx :: reads, ?_, ?_⟩
        · simp only [if_neg hdone]
          exact Res.bind_eq_ok.mpr ⟨_, hrest, rfl⟩
        · rw [List.forall_mem_cons]
          exact ⟨hinside, hreads⟩

/-- **`bitmap_find_range` returns the leftmost run** of `length` bits of value `bit` at `first_idx` or
behind it, and `-1` exactly when there is none. Every bit it reads on the way is in the bitmap. -/
theorem bitmap_find_range_leftmost (m : Mem) (b : Bitmap) (firstIdx : Word) (bit : Bool)
    {length : Word} (hlen : 1 ≤ length.toNat) :
    (bitmapFindRange m b firstIdx bit length = -1 ↔
      ∀ s, ¬BitRun m b bit firstIdx.toNat length.toNat s) ∧
    (bitmapFindRange m b firstIdx bit length ≠ -1 →
      IsLeast {s | BitRun m b bit firstIdx.toNat length.toNat s}
        (bitmapFindRange m b firstIdx bit length).toNat) ∧
    ∀ fuel, b.size.toNat - firstIdx.toNat < fuel →
      ∃ reads, bitmapFindTrace m b bit length fuel firstIdx 0 (-1) =
          .ok (reads, bitmapFindRange m b firstIdx bit length) ∧
        ∀ i ∈ reads, i.toNat < b.size.toNat := by
  refine ⟨⟨?_, ?_⟩, ?_, fun fuel hfuel => bitmapFindTrace_eq m b bit length rfl hfuel⟩
  · intro hnone s hs
    exact (bitmapFindRange_le hlen hs).1 hnone
  · intro hnone
    by_contra hfound
    exact hnone _ (bitmapFindRange_spec hlen hfound)
  · intro hfound
    exact ⟨bitmapFindRange_spec hlen hfound, fun s hs => (bitmapFindRange_le hlen hs).2⟩

/-- A search in a byte `0b11101101` of six bits for two clear bits, and for one behind bit 2. -/
theorem bitmap_find_range_leftmost_byte :
    (∀ s, ¬BitRun (fun _ => 0b11101101) ⟨6, 0⟩ false 0 2 s) ∧
      IsLeast {s | BitRun (fun _ => 0b11101101) ⟨6, 0⟩ false 2 1 s} 4 := by
  have hpair := bitmap_find_range_leftmost (fun _ => 0b11101101) ⟨6, 0⟩ 0 false
    (show 1 ≤ (2 : Word).toNat by decide)
  have hsingle := bitmap_find_range_leftmost (fun _ => 0b11101101) ⟨6, 0⟩ 2 false
    (show 1 ≤ (1 : Word).toNat by decide)
  exact ⟨hpair.1.mp (by decide +kernel), hsingle.2.1 (by decide +kernel)⟩

end Cerberos
