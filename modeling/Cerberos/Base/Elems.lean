/-
# Cerberos.Base.Elems — arrays of elements of equal width in byte memory.

An array at `a` with elements of `w` bytes holds the list `items` when element `i` lies at
`a + i * w`. One lemma (`blockBytes_fillBytes_elem`) says what a fill of WHOLE elements does to every
element; appending, overwriting, opening a gap and closing one are read off it, index by index.
-/
import Cerberos.Base.Blocks

namespace Cerberos.Base

/-- The array at `a` starts with the elements `items`, of `w` bytes each. -/
def Elems (m : Mem) (a : Word) (w : ℕ) (items : List (List Byte)) : Prop :=
  ∀ i x, items[i]? = some x → blockBytes m (a + BitVec.ofNat 64 (i * w)) w = x

theorem elems_nil (m : Mem) (a : Word) (w : ℕ) : Elems m a w [] := by
  intro i x hx
  simp at hx

/-! ## Bytes -/

theorem add_ofNat_add (a : Word) (i j : ℕ) :
    a + BitVec.ofNat 64 i + BitVec.ofNat 64 j = a + BitVec.ofNat 64 (i + j) := by
  rw [BitVec.add_assoc, ← BitVec.ofNat_add]

theorem blockBytes_add (m : Mem) (a : Word) (i j : ℕ) :
    blockBytes m a (i + j) = blockBytes m a i ++ blockBytes m (a + BitVec.ofNat 64 i) j := by
  unfold blockBytes
  rw [List.range_add, List.map_append, List.map_map]
  congr 1
  apply List.map_congr_left
  intro k _
  rw [add_ofNat_add]
  rfl

/-- **The bytes of an array are its elements, one after the other.** -/
theorem Elems.flatten {m : Mem} {a : Word} {w : ℕ} {items : List (List Byte)}
    (h : Elems m a w items) : blockBytes m a (items.length * w) = items.flatten := by
  induction items using List.reverseRecOn with
  | nil => simp [blockBytes]
  | append_singleton items x ih =>
      have hinit : Elems m a w items := by
        intro i y hy
        apply h i y
        rw [List.getElem?_append_left]
        · exact hy
        · exact (List.getElem?_eq_some_iff.mp hy).1
      have hlast := h items.length x (by simp)
      rw [List.length_append, List.length_singleton, Nat.add_mul, Nat.one_mul, blockBytes_add,
        ih hinit, hlast]
      simp

/-- The array of the same bytes at another address. -/
theorem Elems.congr {m m' : Mem} {a a' : Word} {w : ℕ} {items : List (List Byte)}
    (h : Elems m a w items)
    (hbytes : ∀ i < items.length * w,
      m' (a' + BitVec.ofNat 64 i) = m (a + BitVec.ofNat 64 i)) : Elems m' a' w items := by
  intro i x hx
  rw [← h i x hx]
  apply List.map_congr_left
  intro k hk
  have hi := (List.getElem?_eq_some_iff.mp hx).1
  have hk' := List.mem_range.mp hk
  rw [add_ofNat_add, add_ofNat_add]
  apply hbytes
  calc i * w + k < i * w + w := by omega
    _ = (i + 1) * w := by ring
    _ ≤ items.length * w := Nat.mul_le_mul_right w hi

/-! ## Filling whole elements -/

section Fill

variable {m : Mem} {a : Word} {w : ℕ} {items : List (List Byte)}

/-- The distance of two addresses of one array. -/
theorem toNat_offset_sub_offset (a : Word) {x y : ℕ} (hx : x < 2 ^ 64) (hy : y ≤ 2 ^ 64) :
    (a + BitVec.ofNat 64 x - (a + BitVec.ofNat 64 y)).toNat =
      if y ≤ x then x - y else 2 ^ 64 - (y - x) := by
  have hsub : a + BitVec.ofNat 64 x - (a + BitVec.ofNat 64 y) =
      BitVec.ofNat 64 x - BitVec.ofNat 64 y := by ring
  rw [hsub, BitVec.toNat_sub, BitVec.toNat_ofNat, BitVec.toNat_ofNat]
  split <;> omega

/-- **A fill of `n` elements from element `d` on changes these elements and no other.** -/
theorem blockBytes_fillBytes_elem (bytes : ℕ → Byte) {d n i : ℕ} (hd : (d + n) * w ≤ 2 ^ 64)
    (hi : (i + 1) * w ≤ 2 ^ 64) :
    blockBytes (fillBytes m (a + BitVec.ofNat 64 (d * w)) bytes (n * w))
        (a + BitVec.ofNat 64 (i * w)) w =
      if d ≤ i ∧ i < d + n then (List.range w).map fun k => bytes ((i - d) * w + k)
      else blockBytes m (a + BitVec.ofNat 64 (i * w)) w := by
  rw [Nat.add_mul] at hd
  have hi' : i * w + w ≤ 2 ^ 64 := by rwa [Nat.add_mul, Nat.one_mul] at hi
  -- one byte of element `i`
  have hbyte : ∀ k < w, fillBytes m (a + BitVec.ofNat 64 (d * w)) bytes (n * w)
      (a + BitVec.ofNat 64 (i * w) + BitVec.ofNat 64 k) =
        if d ≤ i ∧ i < d + n then bytes ((i - d) * w + k)
        else m (a + BitVec.ofNat 64 (i * w) + BitVec.ofNat 64 k) := by
    intro k hk
    have hdist := toNat_offset_sub_offset a (show i * w + k < 2 ^ 64 by omega)
      (show d * w ≤ 2 ^ 64 by omega)
    rw [fillBytes_apply _ _ _ _ (by omega), add_ofNat_add]
    by_cases hlow : d ≤ i
    · have hle : d * w ≤ i * w := Nat.mul_le_mul_right w hlow
      have hoff : i * w + k - d * w = (i - d) * w + k := by
        rw [Nat.sub_mul]
        omega
      rw [if_pos (by omega), hoff] at hdist
      rw [hdist]
      by_cases hhigh : i < d + n
      · have hend : (i - d + 1) * w ≤ n * w := Nat.mul_le_mul_right w (by omega)
        rw [Nat.add_mul, Nat.one_mul] at hend
        rw [if_pos (by omega), if_pos ⟨hlow, hhigh⟩]
      · have hend : n * w ≤ (i - d) * w := Nat.mul_le_mul_right w (by omega)
        rw [if_neg (by omega), if_neg (by omega)]
    · have hle : (i + 1) * w ≤ d * w := Nat.mul_le_mul_right w (by omega)
      rw [Nat.add_mul, Nat.one_mul] at hle
      rw [if_neg (by omega)] at hdist
      rw [hdist, if_neg (by omega), if_neg (by omega)]
  unfold blockBytes
  split
  · rename_i hin
    apply List.map_congr_left
    intro k hk
    rw [hbyte k (List.mem_range.mp hk), if_pos hin]
  · rename_i hout
    apply List.map_congr_left
    intro k hk
    rw [hbyte k (List.mem_range.mp hk), if_neg hout]

/-- Element `i` exists and is inside an array of `cap` elements. -/
theorem elem_fits {cap i : ℕ} {x : List Byte} (hcap : cap * w ≤ 2 ^ 64) (hlen : items.length ≤ cap)
    (hx : items[i]? = some x) : (i + 1) * w ≤ 2 ^ 64 := by
  have hi := (List.getElem?_eq_some_iff.mp hx).1
  exact (Nat.mul_le_mul_right w (by omega)).trans hcap

/-- Store one element: over an old one, or behind the last. -/
theorem Elems.store (h : Elems m a w items) (data : ℕ → Byte) {j cap : ℕ} (hj : j < cap)
    (hcap : cap * w ≤ 2 ^ 64) {items' : List (List Byte)} (hlen : items'.length ≤ cap)
    (hself : ∀ x, items'[j]? = some x → x = (List.range w).map data)
    (hother : ∀ i x, items'[i]? = some x → i ≠ j → items[i]? = some x) :
    Elems (fillBytes m (a + BitVec.ofNat 64 (j * w)) data w) a w items' := by
  intro i x hx
  have hfill := blockBytes_fillBytes_elem (m := m) (a := a) (w := w) data (d := j) (n := 1) (i := i)
    ((Nat.mul_le_mul_right w (by omega)).trans hcap) (elem_fits hcap hlen hx)
  rw [Nat.one_mul] at hfill
  rw [hfill]
  by_cases hij : i = j
  · subst hij
    rw [if_pos (by omega), hself x hx]
    simp
  · rw [if_neg (by omega)]
    exact h i x (hother i x hx hij)

/-- Move `n` elements from element `src` to element `dst`. -/
theorem Elems.move (h : Elems m a w items) {src dst n cap : ℕ} (hdst : dst + n ≤ cap)
    (hcap : cap * w ≤ 2 ^ 64) {items' : List (List Byte)} (hlen : items'.length ≤ cap)
    (hin : ∀ i x, items'[i]? = some x → dst ≤ i → i < dst + n → items[i - dst + src]? = some x)
    (hout : ∀ i x, items'[i]? = some x → ¬ (dst ≤ i ∧ i < dst + n) → items[i]? = some x) :
    Elems (fillBytes m (a + BitVec.ofNat 64 (dst * w))
      (fun k => m (a + BitVec.ofNat 64 (src * w) + BitVec.ofNat 64 k)) (n * w)) a w items' := by
  intro i x hx
  rw [blockBytes_fillBytes_elem _ ((Nat.mul_le_mul_right w hdst).trans hcap)
    (elem_fits hcap hlen hx)]
  split
  · rename_i hi
    rw [← h _ x (hin i x hx hi.1 hi.2)]
    apply List.map_congr_left
    intro k _
    rw [add_ofNat_add, add_ofNat_add]
    congr 3
    ring
  · rename_i hi
    exact h i x (hout i x hx hi)

end Fill

end Cerberos.Base
