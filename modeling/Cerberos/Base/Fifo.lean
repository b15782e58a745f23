/-
# Cerberos.Base.Fifo — a bounded buffer whose producer does not wait.

What is put into a full buffer is lost. What comes out is then a part of what was put in, in order; it is
ALL of it exactly if a buffer WITHOUT a bound, under the same steps, never holds more than this one can.
The length of that buffer depends on the order of the steps only, not on what is put in.
-/
import Mathlib.Data.List.Basic

namespace Cerberos.Base

/-- Something is put in at the one end, or taken out at the other. -/
inductive FifoStep (α : Type*) where
  | put (x : α)
  | take

/-- What waits, and what was taken out so far. -/
structure Fifo (α : Type*) where
  waiting : List α
  taken : List α

section Fifo

variable {α : Type*} (cap : ℕ)

/-- One step of a buffer for `cap` elements. -/
def Fifo.step (q : Fifo α) : FifoStep α → Fifo α
  | .put x => if q.waiting.length < cap then { q with waiting := q.waiting ++ [x] } else q
  | .take => ⟨q.waiting.tail, q.taken ++ q.waiting.head?.toList⟩

/-- A sequence of steps. -/
def Fifo.run (q : Fifo α) (steps : List (FifoStep α)) : Fifo α := steps.foldl (Fifo.step cap) q

/-- All that was kept, in order. -/
def Fifo.kept (q : Fifo α) : List α := q.taken ++ q.waiting

/-- What a step puts in. -/
def FifoStep.input : FifoStep α → Option α
  | .put x => some x
  | .take => none

/-- What the steps put in. -/
def inputs (steps : List (FifoStep α)) : List α := steps.filterMap FifoStep.input

/-- The length of a buffer without a bound after one more step. -/
def FifoStep.backlog (n : ℕ) : FifoStep α → ℕ
  | .put _ => n + 1
  | .take => n - 1

/-- From `n` elements on, a buffer without a bound never holds more than `cap`. -/
def StaysWithin : ℕ → List (FifoStep α) → Prop
  | _, [] => True
  | n, s :: steps => s.backlog n ≤ cap ∧ StaysWithin (s.backlog n) steps

instance StaysWithin.decidable :
    (n : ℕ) → (steps : List (FifoStep α)) → Decidable (StaysWithin cap n steps)
  | _, [] => inferInstanceAs (Decidable True)
  | n, s :: steps =>
    have := StaysWithin.decidable (s.backlog n) steps
    inferInstanceAs (Decidable (s.backlog n ≤ cap ∧ StaysWithin cap (s.backlog n) steps))

variable {cap} {q : Fifo α}

@[simp] theorem Fifo.run_nil : q.run cap [] = q := rfl

@[simp] theorem Fifo.run_cons (s : FifoStep α) (steps : List (FifoStep α)) :
    q.run cap (s :: steps) = (q.step cap s).run cap steps := rfl

@[simp] theorem inputs_nil : inputs ([] : List (FifoStep α)) = [] := rfl

@[simp] theorem inputs_put (x : α) (steps : List (FifoStep α)) :
    inputs (.put x :: steps) = x :: inputs steps := rfl

@[simp] theorem inputs_take (steps : List (FifoStep α)) : inputs (.take :: steps) = inputs steps := rfl

/-- Taking moves an element, it loses none. -/
@[simp] theorem Fifo.kept_take : (q.step cap .take).kept = q.kept := by
  unfold Fifo.step Fifo.kept
  cases q.waiting <;> simp

/-- An element for which there is room is kept. -/
theorem Fifo.kept_put {x : α} (hroom : q.waiting.length < cap) :
    (q.step cap (.put x)).kept = q.kept ++ [x] := by
  simp [Fifo.step, Fifo.kept, hroom]

/-- Without room the step does nothing. -/
theorem Fifo.put_full {x : α} (hfull : ¬ q.waiting.length < cap) : q.step cap (.put x) = q := by
  simp [Fifo.step, hfull]

/-- The bound is kept. -/
theorem Fifo.length_step (h : q.waiting.length ≤ cap) (s : FifoStep α) :
    (q.step cap s).waiting.length ≤ cap := by
  cases s with
  | put x =>
      by_cases hroom : q.waiting.length < cap
      · simp only [Fifo.step, if_pos hroom, List.length_append, List.length_singleton]
        omega
      · rw [Fifo.put_full hroom]
        exact h
  | take =>
      simp only [Fifo.step, List.length_tail]
      omega

/-- While there is room the bound does not show. -/
theorem Fifo.length_step_eq {s : FifoStep α} (h : s.backlog q.waiting.length ≤ cap) :
    (q.step cap s).waiting.length = s.backlog q.waiting.length := by
  cases s with
  | put x =>
      have hroom : q.waiting.length < cap := h
      simp [Fifo.step, FifoStep.backlog, hroom]
  | take => simp [Fifo.step, FifoStep.backlog]

/-- **What is kept is a part of what was put in, in order.** -/
theorem Fifo.run_sublist (steps : List (FifoStep α)) :
    (q.run cap steps).kept.Sublist (q.kept ++ inputs steps) := by
  induction steps generalizing q with
  | nil => simp
  | cons s steps ih =>
      have hrest := @ih (q.step cap s)
      cases s with
      | take => simpa using hrest
      | put x =>
          by_cases hroom : q.waiting.length < cap
          · rw [Fifo.kept_put hroom] at hrest
            simpa using hrest
          · rw [Fifo.put_full hroom] at hrest
            rw [Fifo.run_cons, Fifo.put_full hroom, inputs_put]
            exact hrest.trans (List.Sublist.append_left (List.sublist_cons_self x _) _)

/-- **Everything is kept exactly if a buffer without a bound never holds more.** An element that finds the
buffer full is missing from then on, and nothing after it can make up for it. -/
theorem Fifo.run_whole_iff (steps : List (FifoStep α)) (h : q.waiting.length ≤ cap) :
    (q.run cap steps).kept = q.kept ++ inputs steps ↔ StaysWithin cap q.waiting.length steps := by
  induction steps generalizing q with
  | nil => simp [StaysWithin]
  | cons s steps ih =>
      have hrest := ih (Fifo.length_step h s)
      by_cases hwithin : s.backlog q.waiting.length ≤ cap
      · rw [Fifo.length_step_eq hwithin] at hrest
        rw [StaysWithin, and_iff_right hwithin, ← hrest]
        cases s with
        | take => simp
        | put x =>
            have hroom : q.waiting.length < cap := hwithin
            rw [Fifo.kept_put hroom]
            simp
      · -- only a put can exceed the bound, and it is lost
        rw [StaysWithin]
        refine iff_of_false ?_ fun hboth => hwithin hboth.1
        cases s with
        | take => exact absurd (Nat.le_trans (Nat.sub_le _ _) h) hwithin
        | put x =>
            have hfull : ¬ q.waiting.length < cap := hwithin
            intro heq
            have hlen := (q.run_sublist steps : (q.run cap steps).kept.Sublist _).length_le
            rw [Fifo.run_cons, Fifo.put_full hfull] at heq
            rw [heq] at hlen
            simp only [inputs_put, List.length_append, List.length_cons] at hlen
            omega

end Fifo

end Cerberos.Base
