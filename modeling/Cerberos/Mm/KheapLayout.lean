/-
# Cerberos.Mm.KheapLayout — the heap as a list of blocks.

The abstract heap: what the three calls are FOR, on layouts and nothing else. Releasing a block fuses
it with its free neighbours, carving takes the upper end of a free block, growing puts a free block in
front. Two facts about each edit carry everything that is said about whole runs: which blocks are in
use afterwards, and that no two neighbours become free together.
-/
import Cerberos.Mm.KheapSteps

namespace Cerberos

open Cerberos.Base

/-- No two neighbouring blocks are both free. -/
abbrev Coalesced (L : List Blk) : Prop := NoAdjacentFree Blk.free L

/-! ## Releasing a block -/

/-- The layout `A ++ b :: C` after `b` was released. -/
def release (A : List Blk) (b : Blk) (C : List Blk) : List Blk :=
  fuseLeft A (fuseRight (b.mark true) C).1 (fuseRight (b.mark true) C).2

/-- What stays behind a fused block, and what was there before. -/
theorem fuseRight_cases (b : Blk) (C : List Blk) :
    (fuseRight b C = (b, C) ∧ ∀ r ∈ C.head?, r.free = false) ∨
      ∃ r C', C = r :: C' ∧ r.free = true ∧ fuseRight b C = (b.fuse r, C') := by
  cases C with
  | nil => exact Or.inl ⟨rfl, by simp⟩
  | cons r C =>
      cases hr : r.free with
      | true => exact Or.inr ⟨r, C, rfl, hr, if_pos hr⟩
      | false => exact Or.inl ⟨if_neg (by simp [hr]), by simpa using hr⟩

theorem fuseLeft_cases (A : List Blk) (b : Blk) (C : List Blk) :
    (fuseLeft A b C = A ++ b :: C ∧ ∀ l ∈ A.getLast?, l.free = false) ∨
      ∃ A' l, A = A' ++ [l] ∧ l.free = true ∧ fuseLeft A b C = A' ++ l.fuse b :: C := by
  rcases List.eq_nil_or_concat A with rfl | ⟨A, l, rfl⟩
  · exact Or.inl ⟨rfl, by simp⟩
  · rw [List.concat_eq_append, fuseLeft_concat]
    cases hl : l.free with
    | true => exact Or.inr ⟨A, l, rfl, hl, if_pos rfl⟩
    | false => exact Or.inl ⟨by simp, by simpa using hl⟩

theorem mem_fuseRight {b x : Blk} {C : List Blk} (hx : x.free = false) :
    x ∈ (fuseRight b C).2 ↔ x ∈ C := by
  rcases fuseRight_cases b C with ⟨heq, -⟩ | ⟨r, C', rfl, hr, heq⟩
  · rw [heq]
  · have hxr : x ≠ r := by
      rintro rfl
      rw [hx] at hr
      cases hr
    rw [heq]
    simp [hxr]

theorem mem_fuseLeft {A C : List Blk} {b x : Blk} (hb : b.free = true) (hx : x.free = false) :
    x ∈ fuseLeft A b C ↔ x ∈ A ∨ x ∈ C := by
  have hxb : x ≠ b := by
    rintro rfl
    rw [hx] at hb
    cases hb
  rcases fuseLeft_cases A b C with ⟨heq, -⟩ | ⟨A', l, rfl, hl, heq⟩
  · rw [heq]
    simp [hxb]
  · have hxl : x ≠ l := by
      rintro rfl
      rw [hx] at hl
      cases hl
    have hxf : x ≠ l.fuse b := by
      rintro rfl
      have : l.free = false := hx
      rw [this] at hl
      cases hl
    rw [heq]
    simp [hxf, hxl]

/-- **After a release the other blocks in use are in use**, and no others. -/
theorem mem_release {A C : List Blk} {b x : Blk} (hx : x.free = false) :
    x ∈ release A b C ↔ x ∈ A ∨ x ∈ C := by
  unfold release
  rw [mem_fuseLeft ((fuseRight_hdr _ C).2.trans rfl) hx, mem_fuseRight hx]

theorem Coalesced.fuseRight {b : Blk} {C : List Blk} (h : Coalesced C) :
    Coalesced (fuseRight b C).2 ∧ ∀ r ∈ (fuseRight b C).2.head?, r.free = false := by
  rcases fuseRight_cases b C with ⟨heq, hhead⟩ | ⟨r, C', rfl, hr, heq⟩
  · rw [heq]
    exact ⟨h, hhead⟩
  · obtain ⟨hC', hhead⟩ := noAdjacentFree_cons.mp h
    rw [heq]
    refine ⟨hC', ?_⟩
    intro y hy
    rcases hhead y hy with hf | hf
    · rw [hr] at hf
      cases hf
    · exact hf

theorem Coalesced.fuseLeft {A C : List Blk} {b : Blk} (hA : Coalesced A) (hC : Coalesced C)
    (hhead : ∀ r ∈ C.head?, r.free = false) : Coalesced (fuseLeft A b C) := by
  rcases fuseLeft_cases A b C with ⟨heq, hlast⟩ | ⟨A', l, rfl, hl, heq⟩
  · rw [heq]
    exact noAdjacentFree_middle.mpr
      ⟨hA, hC, fun y hy => Or.inl (hlast y hy), fun y hy => Or.inr (hhead y hy)⟩
  · obtain ⟨hA', -, hlast, -⟩ := noAdjacentFree_middle.mp hA
    rw [heq]
    refine noAdjacentFree_middle.mpr ⟨hA', hC, ?_, fun y hy => Or.inr (hhead y hy)⟩
    intro y hy
    rcases hlast y hy with hf | hf
    · exact Or.inl hf
    · rw [hl] at hf
      cases hf

/-- **A release leaves no two free neighbours.** -/
theorem Coalesced.release {A C : List Blk} {b : Blk} (h : Coalesced (A ++ b :: C)) :
    Coalesced (release A b C) := by
  obtain ⟨hA, hC, -, -⟩ := noAdjacentFree_middle.mp h
  obtain ⟨hC', hhead⟩ := Coalesced.fuseRight (b := b.mark true) hC
  exact Coalesced.fuseLeft hA hC' hhead

/-! ## Carving a block -/

/-- What is left in front of the `n` bytes taken from `b`: nothing when the block is taken whole. -/
def carveRest (b : Blk) (n : Word) : List Blk :=
  if b.size - n < hdrSize + kheapMinFreeSize then [] else [b.low n]

/-- The block in use that `n` bytes taken from `b` form. -/
def carveUsed (b : Blk) (n : Word) : Blk :=
  if b.size - n < hdrSize + kheapMinFreeSize then b.mark false else b.high n

theorem carveUsed_free (b : Blk) (n : Word) : (carveUsed b n).free = false := by
  unfold carveUsed
  split <;> rfl

theorem carveUsed_size {b : Blk} {n : Word} (hle : n.toNat ≤ b.size.toNat) :
    n.toNat ≤ (carveUsed b n).size.toNat := by
  unfold carveUsed
  split
  · exact hle
  · exact le_refl _

/-- **Carving adds one block in use** and takes none away. -/
theorem mem_carve {A C : List Blk} {b x : Blk} {n : Word} (hb : b.free = true)
    (hx : x.free = false) :
    x ∈ A ++ (carveRest b n ++ carveUsed b n :: C) ↔ x = carveUsed b n ∨ x ∈ A ++ b :: C := by
  have hxb : x ≠ b := by
    rintro rfl
    rw [hx] at hb
    cases hb
  have hxl : x ≠ b.low n := by
    rintro rfl
    have : b.free = false := hx
    rw [this] at hb
    cases hb
  have hrest : x ∉ carveRest b n := by
    unfold carveRest
    split <;> simp [hxl]
  simp only [List.mem_append, List.mem_cons, hrest, hxb, false_or]
  tauto

theorem Coalesced.carve {A C : List Blk} {b : Blk} {n : Word} (h : Coalesced (A ++ b :: C)) :
    Coalesced (A ++ (carveRest b n ++ carveUsed b n :: C)) := by
  obtain ⟨hA, hC, hlast, -⟩ := noAdjacentFree_middle.mp h
  have hu := carveUsed_free b n
  unfold carveRest
  split
  · exact noAdjacentFree_middle.mpr ⟨hA, hC, fun _ _ => Or.inr hu, fun _ _ => Or.inl hu⟩
  · refine noAdjacentFree_middle.mpr ⟨hA, ?_, hlast, ?_⟩
    · exact noAdjacentFree_cons.mpr ⟨hC, fun _ _ => Or.inl hu⟩
    · intro y hy
      have hy' : carveUsed b n = y := by simpa using hy
      exact Or.inr (hy' ▸ hu)

/-! ## Growing -/

theorem Coalesced.grow {b m : Blk} {L C : List Blk} (h : Coalesced L)
    (heq : Cerberos.fuseRight b L = (m, C)) : Coalesced (m :: C) := by
  obtain ⟨hC, hhead⟩ := Coalesced.fuseRight (b := b) h
  rw [heq] at hC hhead
  exact noAdjacentFree_cons.mpr ⟨hC, fun y hy => Or.inr (hhead y hy)⟩

theorem mem_grow {b m x : Blk} {L C : List Blk} (hb : b.free = true) (hx : x.free = false)
    (heq : fuseRight b L = (m, C)) : x ∈ m :: C ↔ x ∈ L := by
  have hm : m.free = true := by
    have := (fuseRight_hdr b L).2
    rw [heq, hb] at this
    exact this
  have hxm : x ≠ m := by
    rintro rfl
    rw [hx] at hm
    cases hm
  have hmem := mem_fuseRight (b := b) (C := L) hx
  rw [heq] at hmem
  simp only [List.mem_cons, hxm, false_or]
  exact hmem

end Cerberos
