/-
# Cerberos.Base.Cache — a partial map and a cache of it.

A cache holds some of the entries of a map and is asked before the map is. It may take up an entry or
drop one whenever it likes, and it takes up nothing the map does not have. So an entry can be ADDED to
the map without the cache being told; when one is removed the cache drops it as well.
-/
import Mathlib.Logic.Function.Basic

namespace Cerberos.Base

variable {κ ν : Type*} {cache store : κ → Option ν}

/-- Everything the cache holds is in the map. -/
def Coherent (cache store : κ → Option ν) : Prop := ∀ k e, cache k = some e → store k = some e

/-- A lookup that asks the cache first. -/
def cachedLookup (cache store : κ → Option ν) (k : κ) : Option ν := (cache k).or (store k)

theorem Coherent.empty (store : κ → Option ν) : Coherent (fun _ => none) store := by
  intro k e h
  cases h

/-- **A cache that is coherent cannot be seen.** -/
theorem Coherent.lookup (h : Coherent cache store) (k : κ) : cachedLookup cache store k = store k := by
  unfold cachedLookup
  cases hk : cache k with
  | none => simp
  | some e => simp [h k e hk]

variable [DecidableEq κ]

theorem Coherent.evict (h : Coherent cache store) (k : κ) :
    Coherent (Function.update cache k none) store := by
  intro k' e he
  by_cases hk : k' = k
  · subst hk
    simp at he
  · rw [Function.update_of_ne hk] at he
    exact h k' e he

theorem Coherent.fill (h : Coherent cache store) {k : κ} {e : ν} (hk : store k = some e) :
    Coherent (Function.update cache k (some e)) store := by
  intro k' e' he
  by_cases hkk : k' = k
  · subst hkk
    simp only [Function.update_self] at he
    exact hk.trans he
  · rw [Function.update_of_ne hkk] at he
    exact h k' e' he

/-- An entry is added, and the cache is not told. -/
theorem Coherent.insert (h : Coherent cache store) {k : κ} (hnone : store k = none) (e : ν) :
    Coherent cache (Function.update store k (some e)) := by
  intro k' e' he
  have hne : k' ≠ k := by
    rintro rfl
    have := h k' e' he
    simp [hnone] at this
  rw [Function.update_of_ne hne]
  exact h k' e' he

/-- An entry is removed, and the cache drops it. -/
theorem Coherent.delete (h : Coherent cache store) (k : κ) :
    Coherent (Function.update cache k none) (Function.update store k none) := by
  intro k' e he
  by_cases hk : k' = k
  · subst hk
    simp at he
  · rw [Function.update_of_ne hk] at he ⊢
    exact h k' e he

end Cerberos.Base
