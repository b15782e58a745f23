/-
# Cerberos.Lib.Cells — `kmalloc` and `kfree` over a heap that is the explicit set of its blocks.

A pointer is `NULL` or the id of a block. Whatever touches a block that is not live FAULTS, and so does
giving one back a second time: a run that comes back has done neither.
-/
import Cerberos.Base.BlockHeap
import Cerberos.Lib.Sys

namespace Cerberos

open Cerberos.Base

variable {β : Type}

/-- `kmalloc(size)`: a request for 0 bytes gives `NULL`, which is `none`. -/
def cellMalloc (h : BlockHeap β) (size : ℕ) (b : β) : Option ℕ × BlockHeap β :=
  if size = 0 then (none, h) else (some (h.malloc b).1, (h.malloc b).2)

/-- `kfree(ptr)`: the header in front of `NULL`, or of a block that is not live, is not there. -/
def cellFree (h : BlockHeap β) : Option ℕ → Res (BlockHeap β)
  | none => .error .fault
  | some p => match h.free p with
    | none => .error .fault
    | some h => .ok h

/-- A store into a block. -/
def cellWrite (h : BlockHeap β) (p : ℕ) (b : β) : Res (BlockHeap β) :=
  match h.write p b with
  | none => .error .fault
  | some h => .ok h

theorem cellFree_eq_ok {h h' : BlockHeap β} {ptr : Option ℕ} (hf : cellFree h ptr = .ok h') :
    ∃ p, ptr = some p ∧ h.free p = some h' := by
  cases ptr with
  | none => cases hf
  | some p =>
      unfold cellFree at hf
      cases hp : h.free p with
      | none =>
          simp only [hp] at hf
          cases hf
      | some h₁ =>
          simp only [hp] at hf
          cases hf
          exact ⟨p, rfl, hp⟩

theorem cellWrite_eq_ok {h h' : BlockHeap β} {p : ℕ} {b : β} :
    cellWrite h p b = .ok h' ↔ h.write p b = some h' := by
  unfold cellWrite
  cases hp : h.write p b with
  | none => simp
  | some h₁ => simp

theorem cellMalloc_owned {h₀ h : BlockHeap β} {l : List ℕ} (ho : BlockHeap.Owned h₀ h l) {size : ℕ}
    (hsize : size ≠ 0) (b : β) :
    (cellMalloc h size b).1.isSome ∧
      BlockHeap.Owned h₀ (cellMalloc h size b).2 ((cellMalloc h size b).1.toList ++ l) := by
  unfold cellMalloc
  rw [if_neg hsize]
  exact ⟨rfl, ho.malloc b⟩

/-! ## Calls that give blocks back -/

/-- **A call that gives back exactly these blocks.** -/
def Frees (f : BlockHeap β → Res (BlockHeap β)) (blocks : List ℕ) : Prop :=
  ∀ ⦃h₀ h : BlockHeap β⦄ ⦃l : List ℕ⦄, BlockHeap.Owned h₀ h (blocks ++ l) →
    ∃ h', f h = .ok h' ∧ BlockHeap.Owned h₀ h' l

variable {α : Type} {f g : BlockHeap β → Res (BlockHeap β)} {bs cs : List ℕ}

theorem frees_cellFree (p : ℕ) : Frees (fun h : BlockHeap β => cellFree h (some p)) [p] := by
  intro h₀ h l ho
  obtain ⟨h', hf, ho'⟩ := ho.free
  refine ⟨h', ?_, ho'⟩
  show (match h.free p with | none => _ | some h => _) = _
  rw [hf]

theorem Frees.bind (hf : Frees f bs) (hg : Frees g cs) : Frees (fun h => f h >>= g) (bs ++ cs) := by
  intro h₀ h l ho
  rw [List.append_assoc] at ho
  obtain ⟨h₁, hok₁, ho₁⟩ := hf ho
  obtain ⟨h₂, hok₂, ho₂⟩ := hg ho₁
  exact ⟨h₂, Res.bind_eq_ok.mpr ⟨_, hok₁, hok₂⟩, ho₂⟩

/-- A loop that gives back the blocks of each element. -/
theorem Frees.foldlM {step : α → BlockHeap β → Res (BlockHeap β)} {blocks : α → List ℕ} {xs : List α}
    (hstep : ∀ x ∈ xs, Frees (step x) (blocks x)) :
    Frees (fun h => xs.foldlM (fun h x => step x h) h) (xs.flatMap blocks) := by
  induction xs with
  | nil => exact fun _ _ _ ho => ⟨_, rfl, ho⟩
  | cons x xs ih =>
      rw [List.forall_mem_cons] at hstep
      exact hstep.1.bind (ih hstep.2)

end Cerberos
