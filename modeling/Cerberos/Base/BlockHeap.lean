/-
# Cerberos.Base.BlockHeap — the heap as the explicit set of its blocks.

A block is an id that is handed out once and never again, with a content. Giving back, reading or writing
a block that is not live fails. The heap remembers what was given back, and carries the proof that every
block handed out so far is either live or was given back EXACTLY ONCE.

`Owned h₀ h l` is how a client accounts for what it does between `h₀` and `h`: the blocks `l` are its own,
and all others are as they were.
-/
import Mathlib.Data.List.Basic
import Mathlib.Data.List.Nodup
import Mathlib.Data.List.Perm.Basic

namespace Cerberos.Base

/-- A heap of blocks with contents in `β`. -/
structure BlockHeap (β : Type) where
  next : ℕ
  block : ℕ → Option β
  freed : List ℕ
  once : ∀ p, freed.count p + (if (block p).isSome then 1 else 0) = if p < next then 1 else 0

namespace BlockHeap

variable {β : Type} (h : BlockHeap β) {h₀ h' : BlockHeap β} {p : ℕ}

/-- The heap before anything was handed out. -/
def empty : BlockHeap β where
  next := 0
  block := fun _ => none
  freed := []
  once := fun _ => rfl

theorem lt_next_of_live (hp : (h.block p).isSome) : p < h.next := by
  have honce := h.once p
  rw [if_pos hp] at honce
  by_contra hlt
  rw [if_neg hlt] at honce
  omega

theorem block_of_next_le (hp : h.next ≤ p) : h.block p = none := by
  cases hb : h.block p with
  | none => rfl
  | some b =>
      have hlt := h.lt_next_of_live (show (h.block p).isSome by rw [hb]; rfl)
      omega

/-- Hand out a block. -/
def malloc (b : β) : ℕ × BlockHeap β :=
  (h.next,
    { next := h.next + 1
      block := Function.update h.block h.next (some b)
      freed := h.freed
      once := by
        intro p
        have honce := h.once p
        by_cases hp : p = h.next
        · subst hp
          rw [if_neg (Nat.lt_irrefl _)] at honce
          rw [Function.update_self, if_pos (Nat.lt_succ_self _)]
          simp only [Option.isSome_some, if_true]
          omega
        · rw [Function.update_of_ne hp, honce]
          have : p < h.next ↔ p < h.next + 1 := by omega
          simp only [this] })

/-- Store a content. -/
def write (p : ℕ) (b : β) : Option (BlockHeap β) :=
  if hp : (h.block p).isSome then
    some
      { h with
        block := Function.update h.block p (some b)
        once := by
          intro p'
          rw [← h.once p']
          by_cases hpp : p' = p
          · subst hpp
            rw [Function.update_self, if_pos hp]
            rfl
          · rw [Function.update_of_ne hpp] }
  else none

/-- Give a block back. -/
def free (p : ℕ) : Option (BlockHeap β) :=
  if hp : (h.block p).isSome then
    some
      { h with
        block := Function.update h.block p none
        freed := p :: h.freed
        once := by
          intro p'
          rw [← h.once p']
          by_cases hpp : p' = p
          · subst hpp
            rw [Function.update_self, if_pos hp, List.count_cons_self]
            rfl
          · rw [Function.update_of_ne hpp, List.count_cons_of_ne (Ne.symm hpp)] }
  else none

variable {h}

theorem write_eq_some {b : β} (hw : h.write p b = some h') :
    (h.block p).isSome ∧ h'.block = Function.update h.block p (some b) ∧ h'.next = h.next := by
  unfold write at hw
  split at hw
  · rename_i hp
    cases hw
    exact ⟨hp, rfl, rfl⟩
  · cases hw

theorem free_eq_some (hf : h.free p = some h') :
    (h.block p).isSome ∧ h'.block = Function.update h.block p none ∧ h'.next = h.next := by
  unfold free at hf
  split at hf
  · rename_i hp
    cases hf
    exact ⟨hp, rfl, rfl⟩
  · cases hf

theorem exists_write (hp : (h.block p).isSome) (b : β) : ∃ h', h.write p b = some h' := by
  unfold write
  rw [dif_pos hp]
  exact ⟨_, rfl⟩

theorem exists_free (hp : (h.block p).isSome) : ∃ h', h.free p = some h' := by
  unfold free
  rw [dif_pos hp]
  exact ⟨_, rfl⟩

/-! ## Accounts -/

/-- **Everything was given back**: the blocks are those of before, and every block handed out since
then was given back exactly once. -/
structure Returned (h₀ h : BlockHeap β) : Prop where
  blocks : h.block = h₀.block
  once : ∀ p, h₀.next ≤ p → p < h.next → h.freed.count p = 1

/-- **The blocks `l` are the client's own**; all others are as they were. -/
structure Owned (h₀ h : BlockHeap β) (l : List ℕ) : Prop where
  nodup : l.Nodup
  fresh : ∀ p ∈ l, h₀.next ≤ p
  live : ∀ p ∈ l, (h.block p).isSome
  frame : ∀ p, p ∉ l → h.block p = h₀.block p
  next : h₀.next ≤ h.next

namespace Owned

variable {l l' : List ℕ}

theorem refl (h : BlockHeap β) : Owned h h [] :=
  ⟨List.nodup_nil, by simp, by simp, fun _ _ => rfl, Nat.le_refl _⟩

theorem perm (ho : Owned h₀ h l) (hl : l.Perm l') : Owned h₀ h l' :=
  ⟨hl.nodup_iff.mp ho.nodup, fun p hp => ho.fresh p (hl.mem_iff.mpr hp),
    fun p hp => ho.live p (hl.mem_iff.mpr hp), fun p hp => ho.frame p fun hin => hp (hl.mem_iff.mp hin),
    ho.next⟩

theorem next_not_mem (ho : Owned h₀ h l) : h.next ∉ l := by
  intro hin
  exact Nat.lt_irrefl _ (h.lt_next_of_live (ho.live _ hin))

/-- A block that is handed out becomes the client's own. -/
theorem malloc (ho : Owned h₀ h l) (b : β) : Owned h₀ (h.malloc b).2 (h.next :: l) := by
  constructor
  case nodup => exact List.nodup_cons.mpr ⟨ho.next_not_mem, ho.nodup⟩
  case fresh =>
    rw [List.forall_mem_cons]
    exact ⟨ho.next, ho.fresh⟩
  case live =>
    rw [List.forall_mem_cons]
    refine ⟨by simp [BlockHeap.malloc], ?_⟩
    intro p hp
    have hne : p ≠ h.next := fun heq => ho.next_not_mem (heq ▸ hp)
    show (Function.update h.block h.next (some b) p).isSome
    rw [Function.update_of_ne hne]
    exact ho.live p hp
  case frame =>
    intro p hp
    rw [List.mem_cons, not_or] at hp
    show Function.update h.block h.next (some b) p = _
    rw [Function.update_of_ne hp.1]
    exact ho.frame p hp.2
  case next => exact Nat.le_succ_of_le ho.next

/-- Its own blocks can be written. -/
theorem write (ho : Owned h₀ h l) {b : β} (hp : p ∈ l) (hw : h.write p b = some h') :
    Owned h₀ h' l := by
  obtain ⟨-, hblock, hnext⟩ := write_eq_some hw
  constructor
  case nodup => exact ho.nodup
  case fresh => exact ho.fresh
  case live =>
    intro p' hp'
    rw [hblock]
    by_cases heq : p' = p
    · subst heq
      rw [Function.update_self]
      rfl
    · rw [Function.update_of_ne heq]
      exact ho.live p' hp'
  case frame =>
    intro p' hp'
    have hne : p' ≠ p := fun heq => hp' (heq ▸ hp)
    rw [hblock, Function.update_of_ne hne]
    exact ho.frame p' hp'
  case next => exact hnext ▸ ho.next

/-- **Its own blocks can be given back.** -/
theorem free (ho : Owned h₀ h (p :: l)) : ∃ h', h.free p = some h' ∧ Owned h₀ h' l := by
  obtain ⟨h', hf⟩ := exists_free (ho.live p (List.mem_cons_self ..))
  obtain ⟨-, hblock, hnext⟩ := free_eq_some hf
  obtain ⟨hpl, hnd⟩ := List.nodup_cons.mp ho.nodup
  refine ⟨h', hf, hnd, fun p' hp' => ho.fresh p' (List.mem_cons_of_mem _ hp'), ?_, ?_, hnext ▸ ho.next⟩
  · intro p' hp'
    have hne : p' ≠ p := fun heq => hpl (heq ▸ hp')
    rw [hblock, Function.update_of_ne hne]
    exact ho.live p' (List.mem_cons_of_mem _ hp')
  · intro p' hp'
    rw [hblock]
    by_cases heq : p' = p
    · subst heq
      rw [Function.update_self, h₀.block_of_next_le (ho.fresh _ (List.mem_cons_self ..))]
    · rw [Function.update_of_ne heq]
      exact ho.frame p' (by simp [heq, hp'])

/-- **A client that owns nothing any more has given everything back**, and the other way round. -/
theorem returned_iff (ho : Owned h₀ h l) : Returned h₀ h ↔ l = [] := by
  constructor
  · intro hr
    by_contra hne
    obtain ⟨p, hp⟩ := List.exists_mem_of_ne_nil l hne
    have hlive := ho.live p hp
    rw [hr.blocks, h₀.block_of_next_le (ho.fresh p hp)] at hlive
    cases hlive
  · rintro rfl
    have hblocks : h.block = h₀.block := funext fun p => ho.frame p (by simp)
    refine ⟨hblocks, ?_⟩
    intro p hle hlt
    have honce := h.once p
    rw [hblocks, h₀.block_of_next_le hle, if_pos hlt] at honce
    simpa using honce

end Owned

end BlockHeap

end Cerberos.Base
