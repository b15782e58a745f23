/-
# Cerberos.Base.Ring — circular doubly linked lists, seen through their link functions.

A ring is a list of nodes whose successor function `nx` goes from each node to the following one and
from the last back to the first, with the predecessor function `pv` as its inverse. Nothing is said
about where the links are stored: an edit is described by the new link functions `nx'` and `pv'` at
the nodes it touches, and by their agreement with the old ones everywhere else.

The two edits of an intrusive list are `Ring.push` (a new node in front of the first) and
`Ring.erase` (any node taken out); the latter is `Ring.pop` after a rotation.
-/
import Mathlib

namespace Cerberos.Base

variable {α : Type*} {nx pv nx' pv' : α → α}

/-- `b` follows `a`, in both directions. -/
def Link (nx pv : α → α) (a b : α) : Prop := nx a = b ∧ pv b = a

/-- The nodes of `l` form a circular doubly linked list in this order. -/
def Ring (nx pv : α → α) : List α → Prop
  | [] => True
  | x :: t => List.IsChain (Link nx pv) (x :: t ++ [x])

/-! ## Chains under changed links -/

/-- A chain reads `nx` everywhere but at its last node and `pv` everywhere but at its first. -/
theorem chain_congr {l : List α} (h : l.IsChain (Link nx pv))
    (hnx : ∀ a ∈ l.dropLast, nx' a = nx a) (hpv : ∀ b ∈ l.tail, pv' b = pv b) :
    l.IsChain (Link nx' pv') := by
  induction l with
  | nil => exact .nil
  | cons a l ih =>
      cases l with
      | nil => exact .singleton a
      | cons b l =>
          obtain ⟨⟨h1, h2⟩, hrest⟩ := List.isChain_cons_cons.mp h
          refine List.isChain_cons_cons.mpr ⟨⟨?_, ?_⟩, ih hrest ?_ ?_⟩
          · rw [hnx a (by simp), h1]
          · rw [hpv b (by simp), h2]
          · intro c hc
            exact hnx c (by simpa using Or.inr hc)
          · intro c hc
            exact hpv c (List.mem_cons_of_mem b hc)

theorem ring_cons_iff {x : α} {t : List α} :
    Ring nx pv (x :: t) ↔ (x :: t).IsChain (Link nx pv) ∧
      Link nx pv ((x :: t).getLast (List.cons_ne_nil x t)) x := by
  show List.IsChain _ (x :: t ++ [x]) ↔ _
  rw [List.isChain_append]
  simp [List.getLast?_eq_getLast_of_ne_nil]

theorem ne_getLast_of_mem_dropLast {l : List α} (hne : l ≠ []) (hnd : l.Nodup) {a : α}
    (ha : a ∈ l.dropLast) : a ≠ l.getLast hne := by
  have hl := List.dropLast_append_getLast hne
  rw [← hl] at hnd
  intro h
  exact (List.nodup_append.mp hnd).2.2 a ha _ (List.mem_singleton_self _) h

/-! ## Rotation -/

theorem Ring.rotate {l₁ l₂ : List α} (h : Ring nx pv (l₁ ++ l₂)) : Ring nx pv (l₂ ++ l₁) := by
  cases l₁ with
  | nil => simpa using h
  | cons x s =>
      cases l₂ with
      | nil => simpa using h
      | cons y t =>
          change List.IsChain _ ((x :: s ++ y :: t) ++ [x]) at h
          show List.IsChain _ ((y :: t ++ x :: s) ++ [y])
          rw [List.append_assoc, List.cons_append (a := y), List.isChain_split] at h
          rw [List.append_assoc, List.cons_append (a := x), List.isChain_split]
          exact ⟨h.2, h.1⟩

/-! ## Following the links -/

theorem Ring.link_of_adjacent {l₁ l₂ : List α} {a b : α} (h : Ring nx pv (l₁ ++ a :: b :: l₂)) :
    Link nx pv a b := by
  have h' : Ring nx pv (a :: b :: (l₂ ++ l₁)) := by simpa using h.rotate
  exact (List.isChain_cons_cons.mp h').1

theorem Ring.link_last {l : List α} {x z : α} (h : Ring nx pv (x :: l))
    (hz : (x :: l).getLast? = some z) : Link nx pv z x := by
  have hlast := (ring_cons_iff.mp h).2
  rw [List.getLast?_eq_getLast_of_ne_nil (List.cons_ne_nil x l), Option.some.injEq] at hz
  rwa [hz] at hlast

/-- Every node has a successor and a predecessor on the ring, and they are inverse to each other. -/
theorem Ring.neighbours {l : List α} (h : Ring nx pv l) {a : α} (ha : a ∈ l) :
    nx a ∈ l ∧ pv a ∈ l ∧ pv (nx a) = a ∧ nx (pv a) = a := by
  obtain ⟨l₁, l₂, rfl⟩ := List.append_of_mem ha
  have hrot : Ring nx pv (a :: (l₂ ++ l₁)) := by simpa using h.rotate
  have hlast := (ring_cons_iff.mp hrot).2
  have hmem : ∀ b, b ∈ a :: (l₂ ++ l₁) → b ∈ l₁ ++ a :: l₂ := by
    intro b hb
    simp only [List.mem_cons, List.mem_append] at hb ⊢
    tauto
  have hpv : pv a ∈ l₁ ++ a :: l₂ := by
    rw [hlast.2]
    exact hmem _ (List.getLast_mem _)
  cases hrest : l₂ ++ l₁ with
  | nil =>
      rw [hrest] at hlast
      have hself : nx a = a := by simpa using hlast.1
      refine ⟨?_, hpv, ?_, ?_⟩
      · rw [hself]; exact ha
      · rw [hself]; simpa using hlast.2
      · simp only [List.getLast_singleton] at hlast
        rw [hlast.2]; exact hlast.1
  | cons b t =>
      rw [hrest] at hrot hmem
      have hab := (List.isChain_cons_cons.mp hrot).1
      refine ⟨?_, hpv, ?_, ?_⟩
      · rw [hab.1]; exact hmem b (by simp)
      · rw [hab.1]; exact hab.2
      · rw [hlast.2]; exact hlast.1

/-- A node that is its own successor is alone. -/
theorem Ring.eq_singleton {l : List α} (h : Ring nx pv l) (hnd : l.Nodup) {a : α} (ha : a ∈ l)
    (hself : nx a = a) : l = [a] := by
  obtain ⟨l₁, l₂, rfl⟩ := List.append_of_mem ha
  have hrot : Ring nx pv (a :: (l₂ ++ l₁)) := by simpa using h.rotate
  cases hrest : l₂ ++ l₁ with
  | nil =>
      obtain ⟨rfl, rfl⟩ := List.append_eq_nil_iff.mp hrest
      rfl
  | cons b t =>
      rw [hrest] at hrot
      have hab := (List.isChain_cons_cons.mp hrot).1.1
      have hb : b ∈ l₂ ++ l₁ := by rw [hrest]; simp
      -- `b` would be a second occurrence of `a`
      exfalso
      rw [hself] at hab
      subst hab
      have hnd' := List.nodup_middle.mp hnd
      exact (List.nodup_cons.mp hnd').1 (by simpa [or_comm] using hb)

/-! ## The two edits -/

theorem Ring.congr {l : List α} (h : Ring nx pv l) (hnx : ∀ a ∈ l, nx' a = nx a)
    (hpv : ∀ a ∈ l, pv' a = pv a) : Ring nx' pv' l := by
  cases l with
  | nil => exact trivial
  | cons x t =>
      refine chain_congr h ?_ ?_
      · intro a ha
        rw [List.dropLast_concat] at ha
        exact hnx a ha
      · intro b hb
        exact hpv b (by simpa [or_comm] using hb)

/-- A single node linked to itself is a ring. -/
theorem ring_singleton {a : α} (h1 : nx a = a) (h2 : pv a = a) : Ring nx pv [a] :=
  List.isChain_cons_cons.mpr ⟨⟨h1, h2⟩, .singleton a⟩

/-- Link `y` in before the first node. -/
theorem Ring.push {x y : α} {t : List α} (h : Ring nx pv (x :: t)) (hnd : (x :: t).Nodup)
    (h1 : nx' y = x) (h2 : pv' x = y) (h3 : nx' (pv x) = y) (h4 : pv' y = pv x)
    (hnx : ∀ a ∈ x :: t, a ≠ pv x → nx' a = nx a) (hpv : ∀ a ∈ x :: t, a ≠ x → pv' a = pv a) :
    Ring nx' pv' (y :: x :: t) := by
  obtain ⟨hchain, hlast⟩ := ring_cons_iff.mp h
  have hchain' : (x :: t).IsChain (Link nx' pv') := by
    refine chain_congr hchain ?_ ?_
    · intro a ha
      refine hnx a (List.mem_of_mem_dropLast ha) ?_
      rw [hlast.2]
      exact ne_getLast_of_mem_dropLast (List.cons_ne_nil x t) hnd ha
    · intro b hb
      refine hpv b (List.mem_cons_of_mem x hb) ?_
      rintro rfl
      exact (List.nodup_cons.mp hnd).1 hb
  refine ring_cons_iff.mpr ⟨List.isChain_cons_cons.mpr ⟨⟨h1, h2⟩, hchain'⟩, ?_⟩
  rw [List.getLast_cons (List.cons_ne_nil x t), ← hlast.2]
  exact ⟨h3, h4⟩

/-- Take the first node out. -/
theorem Ring.pop {x y : α} {t : List α} (h : Ring nx pv (y :: x :: t)) (hnd : (y :: x :: t).Nodup)
    (h1 : nx' (pv y) = x) (h2 : pv' x = pv y)
    (hnx : ∀ a ∈ x :: t, a ≠ pv y → nx' a = nx a) (hpv : ∀ a ∈ x :: t, a ≠ x → pv' a = pv a) :
    Ring nx' pv' (x :: t) := by
  obtain ⟨hchain, hlast⟩ := ring_cons_iff.mp h
  rw [List.getLast_cons (List.cons_ne_nil x t)] at hlast
  have hnd' : (x :: t).Nodup := (List.nodup_cons.mp hnd).2
  refine ring_cons_iff.mpr ⟨chain_congr (List.isChain_cons_cons.mp hchain).2 ?_ ?_, ?_⟩
  · intro a ha
    refine hnx a (List.mem_of_mem_dropLast ha) ?_
    rw [hlast.2]
    exact ne_getLast_of_mem_dropLast (List.cons_ne_nil x t) hnd' ha
  · intro b hb
    refine hpv b (List.mem_cons_of_mem x hb) ?_
    rintro rfl
    exact (List.nodup_cons.mp hnd').1 hb
  · rw [← hlast.2]
    exact ⟨h1, h2⟩

/-- Take any node out of a ring of at least two. -/
theorem Ring.erase [DecidableEq α] {l : List α} (h : Ring nx pv l) (hnd : l.Nodup) {y : α}
    (hy : y ∈ l) (hne : l ≠ [y]) (h1 : nx' (pv y) = nx y) (h2 : pv' (nx y) = pv y)
    (hnx : ∀ a ∈ l, a ≠ y → a ≠ pv y → nx' a = nx a)
    (hpv : ∀ a ∈ l, a ≠ y → a ≠ nx y → pv' a = pv a) : Ring nx' pv' (l.erase y) := by
  obtain ⟨l₁, l₂, rfl⟩ := List.append_of_mem hy
  have hmid := List.nodup_middle.mp hnd
  have hy1 : y ∉ l₁ := fun hm => (List.nodup_cons.mp hmid).1 (by simp [hm])
  rw [List.erase_append_right _ hy1, List.erase_cons_head]
  apply Ring.rotate
  have hrot : Ring nx pv (y :: (l₂ ++ l₁)) := by simpa using h.rotate
  have hndrot : (y :: (l₂ ++ l₁)).Nodup := by
    refine List.nodup_cons.mpr ⟨?_, ?_⟩
    · have := (List.nodup_cons.mp hmid).1
      simpa [or_comm] using this
    · exact List.nodup_append_comm.mp (List.nodup_cons.mp hmid).2
  have hmem : ∀ a ∈ l₂ ++ l₁, a ∈ l₁ ++ y :: l₂ ∧ a ≠ y := by
    intro a ha
    refine ⟨?_, ?_⟩
    · simp only [List.mem_append, List.mem_cons] at ha ⊢
      tauto
    · rintro rfl
      exact (List.nodup_cons.mp hndrot).1 ha
  cases hrest : l₂ ++ l₁ with
  | nil =>
      obtain ⟨rfl, rfl⟩ := List.append_eq_nil_iff.mp hrest
      exact absurd rfl hne
  | cons x t =>
      rw [hrest] at hrot hndrot hmem
      have hyx := (List.isChain_cons_cons.mp hrot).1.1
      rw [hyx] at h1 h2 hpv
      exact hrot.pop hndrot h1 h2 (fun a ha => hnx a (hmem a ha).1 (hmem a ha).2)
        (fun a ha => hpv a (hmem a ha).1 (hmem a ha).2)

end Cerberos.Base
