/-
# Cerberos.Base.Stack — a descending stack of 64-bit words in byte memory.

A push moves the stack pointer down by eight bytes and stores there, a pop loads and moves it up again.
A whole list of pushes leaves the list, in REVERSE, in the words from the new stack pointer upwards, and
touches no byte outside the room it took. What lies on the stack can be popped again as long as nobody
has written to it in between, which is all that a caller's frame has to promise.
-/
import Cerberos.Base.ByteMem

namespace Cerberos.Base

/-- A stack pointer and the memory it points into. -/
structure Stack where
  sp : Word
  mem : Mem

namespace Stack

/-- Push one word. -/
def push (s : Stack) (w : Word) : Stack := ⟨s.sp - 8, write64 s.mem (s.sp - 8) w⟩

/-- The word on top. -/
def top (s : Stack) : Word := read64 s.mem s.sp

/-- Drop `n` bytes. -/
def drop (s : Stack) (n : Word) : Stack := ⟨s.sp + n, s.mem⟩

/-- Push the words of a list, the first one first. -/
def pushAll (s : Stack) (ws : List Word) : Stack := ws.foldl push s

theorem pushAll_append (s : Stack) (ws ws' : List Word) :
    s.pushAll (ws ++ ws') = (s.pushAll ws).pushAll ws' := List.foldl_append

/-- The words of `ws` lie in memory from `sp` upwards. -/
def Holds (mem : Mem) : Word → List Word → Prop
  | _, [] => True
  | sp, w :: ws => read64 mem sp = w ∧ Holds mem (sp + 8) ws

@[simp] theorem holds_nil (mem : Mem) (sp : Word) : Holds mem sp [] := trivial

theorem holds_cons {mem : Mem} {sp w : Word} {ws : List Word} :
    Holds mem sp (w :: ws) ↔ read64 mem sp = w ∧ Holds mem (sp + 8) ws := Iff.rfl

theorem holds_append {mem : Mem} {vs : List Word} :
    ∀ {us : List Word} {sp : Word}, Holds mem sp (us ++ vs) ↔
      Holds mem sp us ∧ Holds mem (sp + BitVec.ofNat 64 (8 * us.length)) vs := by
  intro us
  induction us with
  | nil =>
      intro sp
      simp
  | cons u us ih =>
      intro sp
      have hstep : sp + 8 + BitVec.ofNat 64 (8 * us.length) =
          sp + BitVec.ofNat 64 (8 * (u :: us).length) := by
        rw [List.length_cons, BitVec.add_assoc]
        congr 1
        apply BitVec.eq_of_toNat_eq
        rw [BitVec.toNat_add, BitVec.toNat_ofNat, BitVec.toNat_ofNat, show (8 : Word).toNat = 8 from rfl]
        omega
      rw [List.cons_append, holds_cons, holds_cons, ih, hstep, and_assoc]

/-- Reading one of the words. -/
theorem Holds.get {mem : Mem} {w : Word} :
    ∀ {ws : List Word} {sp : Word} {i : ℕ}, Holds mem sp ws → ws[i]? = some w →
      read64 mem (sp + BitVec.ofNat 64 (8 * i)) = w := by
  intro ws sp i h hget
  obtain ⟨hlt, rfl⟩ := List.getElem?_eq_some_iff.mp hget
  rw [← List.take_append_drop i ws, holds_append, List.length_take_of_le hlt.le,
    List.drop_eq_getElem_cons hlt] at h
  exact h.2.1

/-- What lies on the stack stays there as long as its bytes do. -/
theorem Holds.congr {mem mem' : Mem} :
    ∀ {ws : List Word} {sp : Word}, Holds mem sp ws → sp.toNat + 8 * ws.length ≤ 2 ^ 64 →
      (∀ a : Word, sp.toNat ≤ a.toNat → a.toNat < sp.toNat + 8 * ws.length → mem' a = mem a) →
      Holds mem' sp ws := by
  intro ws
  induction ws with
  | nil =>
      intro sp _ _ _
      trivial
  | cons w ws ih =>
      intro sp h hfit hsame
      rw [List.length_cons] at hfit hsame
      refine ⟨?_, ?_⟩
      · rw [← h.1]
        apply read64_congr
        intro k hk
        have hoff : (sp + BitVec.ofNat 64 k).toNat = sp.toNat + k := by bv_omega
        exact hsame _ (by omega) (by omega)
      · by_cases hlast : ws = []
        · rw [hlast]
          trivial
        · have hpos : 0 < ws.length := List.length_pos_iff.mpr hlast
          have hnext : (sp + 8).toNat = sp.toNat + 8 := by bv_omega
          refine ih h.2 (by omega) ?_
          intro a hlo hhi
          exact hsame a (by omega) (by omega)

/-- **A list of pushes**: where the stack pointer goes, what lies on the stack then, and what is not
touched. -/
theorem pushAll_spec :
    ∀ (ws : List Word) (s : Stack), 8 * ws.length ≤ s.sp.toNat →
      (s.pushAll ws).sp.toNat = s.sp.toNat - 8 * ws.length ∧
      Holds (s.pushAll ws).mem (s.pushAll ws).sp ws.reverse ∧
      ∀ a : Word, a.toNat < s.sp.toNat - 8 * ws.length ∨ s.sp.toNat ≤ a.toNat →
        (s.pushAll ws).mem a = s.mem a := by
  intro ws
  induction ws with
  | nil =>
      intro s _
      exact ⟨by simp [pushAll], trivial, fun _ _ => rfl⟩
  | cons w ws ih =>
      intro s hroom
      rw [List.length_cons] at hroom
      have hsp : (s.push w).sp.toNat = s.sp.toNat - 8 := by
        change (s.sp - 8).toNat = _
        bv_omega
      have htop : s.sp.toNat < 2 ^ 64 := s.sp.isLt
      obtain ⟨hsp', hholds, hframe⟩ := ih (s.push w) (by omega)
      have hall : s.pushAll (w :: ws) = (s.push w).pushAll ws := rfl
      rw [hall, List.length_cons]
      refine ⟨by omega, ?_, ?_⟩
      · rw [List.reverse_cons, holds_append]
        refine ⟨hholds, ?_, trivial⟩
        -- the word itself lies above the later ones
        have haddr : ((s.push w).pushAll ws).sp + BitVec.ofNat 64 (8 * ws.reverse.length) =
            s.sp - 8 := by
          apply BitVec.eq_of_toNat_eq
          rw [List.length_reverse, BitVec.toNat_add, BitVec.toNat_ofNat, hsp', hsp]
          have hback : (s.sp - 8).toNat = s.sp.toNat - 8 := hsp
          omega
        rw [haddr]
        have hself : read64 (s.push w).mem (s.sp - 8) = w := read64_write64_self _ _ _
        rw [← hself]
        apply read64_congr
        intro k hk
        have hoff : (s.sp - 8 + BitVec.ofNat 64 k).toNat = s.sp.toNat - 8 + k := by bv_omega
        rw [hself]
        exact hframe _ (Or.inr (by omega))
      · intro a ha
        rw [hframe a (by omega)]
        have hat : (s.sp - 8).toNat = s.sp.toNat - 8 := hsp
        exact write64_apply_of_outside (by omega) (by omega)

end Stack

end Cerberos.Base
