/-
# Cerberos.Base.Orbit — iterating a function on a finite type.

A loop whose only cursor takes finitely many values meets everything it will EVER meet within as many
rounds as there are values, and meets a thing twice within twice as many.
-/
import Mathlib.Data.Fintype.Pigeonhole
import Mathlib.Logic.Function.Iterate

namespace Cerberos.Base

section Orbit

variable {α : Type*} [Fintype α] (f : α → α) (x : α)

/-- Among the first values there are two that are equal. -/
theorem exists_iterate_eq : ∃ a b, a < b ∧ b ≤ Fintype.card α ∧ f^[a] x = f^[b] x := by
  have hcard : Fintype.card α < Fintype.card (Fin (Fintype.card α + 1)) := by
    rw [Fintype.card_fin]
    exact Nat.lt_succ_self _
  obtain ⟨i, j, hij, heq⟩ :=
    Fintype.exists_ne_map_eq_of_card_lt (fun k : Fin (Fintype.card α + 1) => f^[k] x) hcard
  rcases Nat.lt_or_gt_of_ne (Fin.val_ne_of_ne hij) with hlt | hlt
  · exact ⟨i, j, hlt, Nat.lt_succ_iff.mp j.isLt, heq⟩
  · exact ⟨j, i, hlt, Nat.lt_succ_iff.mp i.isLt, heq.symm⟩

/-- Every value of the orbit is reached early. -/
theorem exists_early (n : ℕ) : ∃ n' ≤ n, n' < Fintype.card α ∧ f^[n'] x = f^[n] x := by
  obtain ⟨a, b, hab, hb, heq⟩ := exists_iterate_eq f x
  induction n using Nat.strong_induction_on with
  | _ n ih =>
      by_cases hn : n < Fintype.card α
      · exact ⟨n, le_rfl, hn, rfl⟩
      · -- a round trip from `a` to `b` can be left out
        have hback : f^[n - (b - a)] x = f^[n] x := by
          rw [show n - (b - a) = (n - b) + a by omega, Function.iterate_add_apply, heq,
            ← Function.iterate_add_apply, show n - b + b = n by omega]
        obtain ⟨n', hle, hlt, heq'⟩ := ih (n - (b - a)) (by omega)
        exact ⟨n', by omega, hlt, heq'.trans hback⟩

variable {f x} {p : α → Prop}

/-- **What is met at all is met within the first `card α` rounds.** -/
theorem exists_iterate_iff :
    (∃ n, p (f^[n] x)) ↔ ∃ n < Fintype.card α, p (f^[n] x) := by
  constructor
  · rintro ⟨n, hn⟩
    obtain ⟨n', -, hlt, heq⟩ := exists_early f x n
    exact ⟨n', hlt, by rw [heq]; exact hn⟩
  · rintro ⟨n, -, hn⟩
    exact ⟨n, hn⟩

/-- **What is met twice is met twice within the first `2 * card α` rounds.** -/
theorem exists_iterate_twice_iff :
    (∃ n m, n < m ∧ p (f^[n] x) ∧ p (f^[m] x)) ↔
      ∃ n m, n < m ∧ m < 2 * Fintype.card α ∧ p (f^[n] x) ∧ p (f^[m] x) := by
  constructor
  · rintro ⟨n, m, hnm, hn, hm⟩
    obtain ⟨n', hle, hlt, heq⟩ := exists_early f x n
    obtain ⟨m', -, hlt', heq'⟩ := exists_early f x m
    rw [← heq] at hn
    rw [← heq'] at hm
    rcases Nat.lt_trichotomy n' m' with hcmp | hcmp | hcmp
    · exact ⟨n', m', hcmp, by omega, hn, hm⟩
    · -- one value, which comes back: its next visit is early too
      subst hcmp
      obtain ⟨t, -, ht, hback⟩ := exists_early f (f (f^[n'] x)) (m - n - 1)
      have hm' : f^[m - n - 1] (f (f^[n'] x)) = f^[n'] x := by
        rw [heq, ← Function.iterate_succ_apply' f n, ← Function.iterate_add_apply,
          show m - n - 1 + n.succ = m by omega, ← heq', heq]
      refine ⟨n', n' + 1 + t, by omega, by omega, hn, ?_⟩
      have hvisit : f^[n' + 1 + t] x = f^[n'] x := by
        rw [Nat.add_comm, Function.iterate_add_apply, Function.iterate_succ_apply', hback, hm']
      rw [hvisit]
      exact hn
    · exact ⟨m', n', hcmp, by omega, hm, hn⟩
  · rintro ⟨n, m, hnm, -, hn, hm⟩
    exact ⟨n, m, hnm, hn, hm⟩

end Orbit

end Cerberos.Base
