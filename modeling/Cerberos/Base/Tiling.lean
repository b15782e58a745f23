/-
# Cerberos.Base.Tiling — lists of blocks that tile an interval.

A block has a position `pos` and an extent `ext`; a list of blocks tiles `[a, e)` when the first one
starts at `a`, each next one starts where the previous one ends, and the last one ends at `e`. The
order and the disjointness of the blocks are consequences.

`Tiles.canonical` is the rigidity fact behind full coalescing: when some blocks are marked free and
no two neighbours are both free, the whole tiling is determined by its USED blocks.
-/
import Mathlib

namespace Cerberos.Base

variable {α : Type*} {pos ext : α → ℕ}

/-- The blocks of the list tile `[a, e)`. -/
def Tiles (pos ext : α → ℕ) : ℕ → List α → ℕ → Prop
  | a, [], e => a = e
  | a, x :: t, e => pos x = a ∧ Tiles pos ext (a + ext x) t e

instance Tiles.decidable (pos ext : α → ℕ) :
    ∀ (a : ℕ) (l : List α) (e : ℕ), Decidable (Tiles pos ext a l e)
  | a, [], e => inferInstanceAs (Decidable (a = e))
  | a, x :: t, e =>
    have := Tiles.decidable pos ext (a + ext x) t e
    inferInstanceAs (Decidable (pos x = a ∧ Tiles pos ext (a + ext x) t e))

theorem tiles_append {l₁ l₂ : List α} {a e : ℕ} :
    Tiles pos ext a (l₁ ++ l₂) e ↔ ∃ c, Tiles pos ext a l₁ c ∧ Tiles pos ext c l₂ e := by
  induction l₁ generalizing a with
  | nil => simp [Tiles]
  | cons x t ih => simp [Tiles, ih, and_assoc]

/-- A block of a tiling splits it at its two ends. -/
theorem Tiles.split_at {l₁ l₂ : List α} {x : α} {a e : ℕ}
    (h : Tiles pos ext a (l₁ ++ x :: l₂) e) :
    Tiles pos ext a l₁ (pos x) ∧ Tiles pos ext (pos x + ext x) l₂ e := by
  obtain ⟨c, h₁, hx, h₂⟩ := tiles_append.mp h
  subst hx
  exact ⟨h₁, h₂⟩

theorem Tiles.join_at {l₁ l₂ : List α} {x : α} {a e : ℕ} (h₁ : Tiles pos ext a l₁ (pos x))
    (h₂ : Tiles pos ext (pos x + ext x) l₂ e) : Tiles pos ext a (l₁ ++ x :: l₂) e :=
  tiles_append.mpr ⟨pos x, h₁, rfl, h₂⟩

theorem Tiles.le {l : List α} {a e : ℕ} (h : Tiles pos ext a l e) : a ≤ e := by
  induction l generalizing a with
  | nil => exact Nat.le_of_eq h
  | cons x t ih =>
      have := ih h.2
      omega

theorem Tiles.bounds {l : List α} {a e : ℕ} (h : Tiles pos ext a l e) {x : α} (hx : x ∈ l) :
    a ≤ pos x ∧ pos x + ext x ≤ e := by
  obtain ⟨l₁, l₂, rfl⟩ := List.append_of_mem hx
  obtain ⟨h₁, h₂⟩ := h.split_at
  exact ⟨h₁.le, h₂.le⟩

theorem Tiles.pairwise {l : List α} {a e : ℕ} (h : Tiles pos ext a l e) :
    l.Pairwise (fun x y => pos x + ext x ≤ pos y) := by
  induction l generalizing a with
  | nil => exact .nil
  | cons x t ih =>
      refine List.pairwise_cons.mpr ⟨?_, ih h.2⟩
      intro y hy
      rw [h.1]
      exact (h.2.bounds hy).1

/-- Two blocks at the same position are the same block. -/
theorem Tiles.eq_of_pos {l : List α} {a e : ℕ} (h : Tiles pos ext a l e)
    (hext : ∀ x, 0 < ext x) {x y : α} (hx : x ∈ l) (hy : y ∈ l) (hp : pos x = pos y) : x = y := by
  induction l generalizing a with
  | nil => cases hx
  | cons z t ih =>
      have hz := hext z
      rcases List.mem_cons.mp hx with rfl | hx'
      · rcases List.mem_cons.mp hy with rfl | hy'
        · rfl
        · have := (h.2.bounds hy').1
          have := h.1
          omega
      · rcases List.mem_cons.mp hy with rfl | hy'
        · have := (h.2.bounds hx').1
          have := h.1
          omega
        · exact ih h.2 hx' hy'

/-- The ranges of two different blocks do not meet. -/
theorem Tiles.disjoint {l : List α} {a e : ℕ} (h : Tiles pos ext a l e) {x y : α} (hx : x ∈ l)
    (hy : y ∈ l) (hne : x ≠ y) : pos x + ext x ≤ pos y ∨ pos y + ext y ≤ pos x := by
  induction l generalizing a with
  | nil => cases hx
  | cons z t ih =>
      rcases List.mem_cons.mp hx with rfl | hx'
      · rcases List.mem_cons.mp hy with rfl | hy'
        · exact absurd rfl hne
        · exact Or.inl ((List.pairwise_cons.mp h.pairwise).1 y hy')
      · rcases List.mem_cons.mp hy with rfl | hy'
        · exact Or.inr ((List.pairwise_cons.mp h.pairwise).1 x hx')
        · exact ih h.2 hx' hy'

/-! ## Rigidity -/

/-- No two neighbours are both free. -/
def NoAdjacentFree (free : α → Bool) (l : List α) : Prop :=
  l.IsChain (fun x y => free x = false ∨ free y = false)

section Canonical

variable {free : α → Bool}

theorem noAdjacentFree_cons {l : List α} {x : α} :
    NoAdjacentFree free (x :: l) ↔ NoAdjacentFree free l ∧
      ∀ y ∈ l.head?, free x = false ∨ free y = false := by
  unfold NoAdjacentFree
  rw [List.isChain_cons]
  exact and_comm

/-- The condition at one block of the list. -/
theorem noAdjacentFree_middle {l₁ l₂ : List α} {x : α} :
    NoAdjacentFree free (l₁ ++ x :: l₂) ↔ NoAdjacentFree free l₁ ∧ NoAdjacentFree free l₂ ∧
      (∀ y ∈ l₁.getLast?, free y = false ∨ free x = false) ∧
      ∀ y ∈ l₂.head?, free x = false ∨ free y = false := by
  unfold NoAdjacentFree
  rw [List.isChain_append, List.isChain_cons]
  simp only [List.head?_cons, Option.mem_def, Option.some.injEq, forall_eq']
  tauto

/-- The free block in front of a tiling reaches up to the first used block, or to the end. -/
theorem Tiles.head_free_extent {x : α} {t : List α} {a e : ℕ}
    (h : Tiles pos ext a (x :: t) e) (hadj : NoAdjacentFree free (x :: t)) (hx : free x = true) :
    (t = [] ∧ a + ext x = e) ∨
      ∃ u ∈ t, free u = false ∧ pos u = a + ext x ∧ ∀ w ∈ t, pos u ≤ pos w := by
  cases t with
  | nil => exact Or.inl ⟨rfl, h.2⟩
  | cons u t =>
      have hu : free u = false := by
        rcases (List.isChain_cons_cons.mp hadj).1 with hf | hf
        · rw [hx] at hf; cases hf
        · exact hf
      refine Or.inr ⟨u, List.mem_cons_self, hu, h.2.1, ?_⟩
      intro w hw
      rw [h.2.1]
      exact (h.2.bounds hw).1

/-- **Rigidity.** Two fully coalesced tilings of one interval with the same used blocks are equal,
when a block is determined by its position, extent and mark. -/
theorem Tiles.canonical (hext : ∀ x, 0 < ext x)
    (hinj : ∀ x y : α, pos x = pos y → ext x = ext y → free x = free y → x = y) :
    ∀ {l l' : List α} {a e : ℕ}, Tiles pos ext a l e → Tiles pos ext a l' e →
      NoAdjacentFree free l → NoAdjacentFree free l' →
      (∀ x, free x = false → (x ∈ l ↔ x ∈ l')) → l = l' := by
  intro l
  induction l with
  | nil =>
      intro l' a e h h' _ _ _
      cases l' with
      | nil => rfl
      | cons y t' =>
          have := h'.2.le
          have := hext y
          simp only [Tiles] at h
          omega
  | cons x t ih =>
      intro l' a e h h' hadj hadj' hmem
      cases l' with
      | nil =>
          have := h.2.le
          have := hext x
          simp only [Tiles] at h'
          omega
      | cons y t' =>
          have hpos : pos x = pos y := h.1.trans h'.1.symm
          -- the two first blocks agree; the used ones decide where a free one ends
          have hxy : x = y := by
            cases hx : free x with
            | false =>
                have hx' := (hmem x hx).mp List.mem_cons_self
                exact h'.eq_of_pos hext hx' List.mem_cons_self hpos
            | true =>
                cases hy : free y with
                | false =>
                    have hy' := (hmem y hy).mpr List.mem_cons_self
                    exact h.eq_of_pos hext List.mem_cons_self hy' hpos
                | true =>
                    refine hinj x y hpos ?_ (hx.trans hy.symm)
                    have used_mem : ∀ {z : α}, free z = false → (z ∈ t ↔ z ∈ t') := by
                      intro z hz
                      have hzx : z ≠ x := by rintro rfl; rw [hx] at hz; cases hz
                      have hzy : z ≠ y := by rintro rfl; rw [hy] at hz; cases hz
                      simpa [hzx, hzy] using hmem z hz
                    rcases h.head_free_extent hadj hx with ⟨ht, hend⟩ | ⟨u, hu, hfu, hpu, hmin⟩
                    · rcases h'.head_free_extent hadj' hy with ⟨_, hend'⟩ | ⟨w, hw, hfw, _, _⟩
                      · omega
                      · have := (used_mem hfw).mpr hw
                        rw [ht] at this
                        cases this
                    · rcases h'.head_free_extent hadj' hy with ⟨ht', _⟩ | ⟨w, hw, hfw, hpw, hmin'⟩
                      · have := (used_mem hfu).mp hu
                        rw [ht'] at this
                        cases this
                      · have h1 := hmin w ((used_mem hfw).mpr hw)
                        have h2 := hmin' u ((used_mem hfu).mp hu)
                        omega
          subst hxy
          have htails : ∀ z, free z = false → (z ∈ t ↔ z ∈ t') := by
            intro z hz
            by_cases hzx : z = x
            · subst hzx
              have hz1 : z ∉ t := by
                intro hm
                have := (h.2.bounds hm).1
                have := h.1
                have := hext z
                omega
              have hz2 : z ∉ t' := by
                intro hm
                have := (h'.2.bounds hm).1
                have := h.1
                have := hext z
                omega
              simp [hz1, hz2]
            · simpa [hzx] using hmem z hz
          rw [ih h.2 h'.2 (List.IsChain.tail hadj) (List.IsChain.tail hadj') htails]

/-- A fully coalesced tiling without used blocks is one block. -/
theorem Tiles.eq_singleton_of_all_free {l : List α} {a e : ℕ} (h : Tiles pos ext a l e)
    (hlt : a < e) (hadj : NoAdjacentFree free l) (hall : ∀ x ∈ l, free x = true) :
    ∃ x, l = [x] ∧ pos x = a ∧ a + ext x = e := by
  cases l with
  | nil => exact absurd h (Nat.ne_of_lt hlt)
  | cons x t =>
      cases t with
      | nil => exact ⟨x, rfl, h.1, h.2⟩
      | cons y t =>
          have hx := hall x List.mem_cons_self
          have hy := hall y (by simp)
          rcases (List.isChain_cons_cons.mp hadj).1 with hf | hf
          · rw [hx] at hf; cases hf
          · rw [hy] at hf; cases hf

end Canonical

end Cerberos.Base
