/-
# Cerberos.Base.Blocks — what a client of an allocator may rely on.

A block map says which blocks are LIVE: an address and a length. An allocator meets its contract when
the blocks it hands out are fresh and disjoint from the live ones, and when nothing it does reaches the
bytes of a live block. A client keeps records of eight-byte fields in its blocks; one lemma
(`getField_setField`) says what a store does to every field of every live block.
-/
import Cerberos.Base.ByteMem

namespace Cerberos.Base

/-! ## Block maps -/

/-- The live blocks: the length of the block at an address. -/
abbrev Blocks := Word → Option ℕ

/-- `x` is a byte of the `n` bytes from `a` on. -/
def InBlock (a : Word) (n : ℕ) (x : Word) : Prop := a.toNat ≤ x.toNat ∧ x.toNat < a.toNat + n

/-- Blocks with a proper address that do not overlap. -/
structure Blocks.Ok (B : Blocks) : Prop where
  addr : ∀ {a n}, B a = some n → a ≠ 0 ∧ a.toNat + n ≤ 2 ^ 64
  apart : ∀ {a n b m}, B a = some n → B b = some m → a ≠ b →
    a.toNat + n ≤ b.toNat ∨ b.toNat + m ≤ a.toNat

theorem Blocks.Ok.remove {B : Blocks} (h : B.Ok) (a : Word) :
    Blocks.Ok (Function.update B a none) := by
  have hof : ∀ {b n}, Function.update B a none b = some n → B b = some n := by
    intro b n hb
    by_cases hab : b = a
    · rw [hab, Function.update_self] at hb
      cases hb
    · rwa [Function.update_of_ne hab] at hb
  exact ⟨fun hb => h.addr (hof hb), fun hb hc => h.apart (hof hb) (hof hc)⟩

/-- Every block of `B` is a block of `B'`. -/
def Blocks.Sub (B B' : Blocks) : Prop := ∀ ⦃a n⦄, B a = some n → B' a = some n

theorem Blocks.Sub.refl (B : Blocks) : B.Sub B := fun _ _ h => h

theorem Blocks.Sub.trans {B₁ B₂ B₃ : Blocks} (h : B₁.Sub B₂) (h' : B₂.Sub B₃) : B₁.Sub B₃ :=
  fun _ _ hb => h' (h hb)

/-- A fresh block is added. -/
theorem Blocks.Sub.add {B : Blocks} {a : Word} (h : B a = none) (n : ℕ) :
    B.Sub (Function.update B a (some n)) := by
  intro b k hb
  rw [Function.update_of_ne]
  · exact hb
  · rintro rfl
    rw [h] at hb
    cases hb

/-- The block at `a` is not among those of `B`. -/
theorem Blocks.Sub.remove {B B' : Blocks} (h : B.Sub B') {a : Word} (ha : B a = none) :
    B.Sub (Function.update B' a none) := by
  intro b k hb
  rw [Function.update_of_ne]
  · exact h hb
  · rintro rfl
    rw [ha] at hb
    cases hb

/-- The live blocks hold the same bytes in both memories. -/
def Keeps (B : Blocks) (m m' : Mem) : Prop :=
  ∀ ⦃a n⦄, B a = some n → ∀ x, InBlock a n x → m' x = m x

theorem Keeps.trans {B : Blocks} {m₁ m₂ m₃ : Mem} (h : Keeps B m₁ m₂) (h' : Keeps B m₂ m₃) :
    Keeps B m₁ m₃ := fun _ _ hb x hx => (h' hb x hx).trans (h hb x hx)

theorem Keeps.mono {B B' : Blocks} {m m' : Mem} (h : Keeps B' m m') (hsub : B.Sub B') :
    Keeps B m m' := fun _ _ hb => h (hsub hb)

theorem inBlock_offset {a : Word} {n i : ℕ} (hfit : a.toNat + n ≤ 2 ^ 64) (hi : i < n) :
    InBlock a n (a + BitVec.ofNat 64 i) := by
  unfold InBlock
  rw [BitVec.toNat_add, BitVec.toNat_ofNat]
  omega

/-- The bytes from `a` on. -/
def blockBytes (m : Mem) (a : Word) (n : ℕ) : List Byte :=
  (List.range n).map fun i => m (a + BitVec.ofNat 64 i)

theorem blockBytes_congr {m m' : Mem} {a : Word} {n : ℕ}
    (h : ∀ i < n, m' (a + BitVec.ofNat 64 i) = m (a + BitVec.ofNat 64 i)) :
    blockBytes m' a n = blockBytes m a n := by
  apply List.map_congr_left
  intro i hi
  exact h i (List.mem_range.mp hi)

theorem Keeps.blockBytes {B : Blocks} {m m' : Mem} (h : Keeps B m m') (hB : B.Ok) {a : Word} {n : ℕ}
    (ha : B a = some n) : Base.blockBytes m' a n = Base.blockBytes m a n :=
  blockBytes_congr fun _ hi => h ha _ (inBlock_offset (hB.addr ha).2 hi)

/-! ## Records of words -/

/-- Field `i` of the record at `a`. -/
def getField (m : Mem) (a : Word) (i : ℕ) : Word := read64 m (a + BitVec.ofNat 64 (8 * i))

/-- Store field `i` of the record at `a`. -/
def setField (m : Mem) (a : Word) (i : ℕ) (w : Word) : Mem :=
  write64 m (a + BitVec.ofNat 64 (8 * i)) w

section Fields

variable {B : Blocks} {m m' : Mem} {a b : Word} {n k i j : ℕ}

theorem toNat_field (hfit : a.toNat + n ≤ 2 ^ 64) (hi : 8 * i + 8 ≤ n) :
    (a + BitVec.ofNat 64 (8 * i)).toNat = a.toNat + 8 * i := by
  rw [BitVec.toNat_add, BitVec.toNat_ofNat]
  omega

theorem Keeps.getField (h : Keeps B m m') (hB : B.Ok) (ha : B a = some n) (hi : 8 * i + 8 ≤ n) :
    Base.getField m' a i = Base.getField m a i := by
  have hfit := (hB.addr ha).2
  apply read64_congr
  intro k hk
  apply h ha
  have hfield := toNat_field hfit hi
  have hlt : (a + BitVec.ofNat 64 (8 * i) + BitVec.ofNat 64 k).toNat = a.toNat + 8 * i + k := by
    rw [BitVec.toNat_add, hfield, BitVec.toNat_ofNat]
    omega
  unfold InBlock
  omega

/-- **A store changes one field of one live block.** -/
theorem getField_setField (hB : B.Ok) (ha : B a = some n) (hi : 8 * i + 8 ≤ n) (hb : B b = some k)
    (hj : 8 * j + 8 ≤ k) (w : Word) :
    getField (setField m a i w) b j = if a = b ∧ i = j then w else getField m b j := by
  have hfa := (hB.addr ha).2
  have hfb := (hB.addr hb).2
  have hea := toNat_field hfa hi
  have heb := toNat_field hfb hj
  unfold getField setField
  by_cases hab : a = b
  · subst hab
    by_cases hij : i = j
    · rw [if_pos ⟨rfl, hij⟩, hij, read64_write64_self]
    · rw [if_neg fun h => hij h.2]
      exact read64_write64_of_disjoint (by omega) (by omega) (by omega)
  · rw [if_neg fun h => hab h.1]
    have := hB.apart ha hb hab
    exact read64_write64_of_disjoint (by omega) (by omega) (by omega)

/-- A store stays inside its block. -/
theorem setField_outside (hB : B.Ok) (ha : B a = some n) (hi : 8 * i + 8 ≤ n) (w : Word) {x : Word}
    (hx : ¬ InBlock a n x) : setField m a i w x = m x := by
  have hfit := (hB.addr ha).2
  have hea := toNat_field hfit hi
  unfold InBlock at hx
  apply write64_apply_of_outside
  · omega
  · omega

/-- A run of bytes stored into a block. -/
theorem fillBytes_outside (hB : B.Ok) (ha : B a = some n) (bytes : ℕ → Byte) {x : Word}
    (hx : ¬ InBlock a n x) : fillBytes m a bytes n x = m x := by
  unfold InBlock at hx
  exact fillBytes_apply_of_outside (hB.addr ha).2 (by omega)

theorem blockBytes_fillBytes (hB : B.Ok) (ha : B a = some n) (bytes : ℕ → Byte) :
    blockBytes (fillBytes m a bytes n) a n = (List.range n).map bytes := by
  apply List.map_congr_left
  intro i hi
  have hfit := (hB.addr ha).2
  exact fillBytes_apply_add m a bytes (by omega) (List.mem_range.mp hi)

end Fields

/-! ## Allocators -/

/-- An allocator with state `σ`: the memory its clients see, and the two calls. -/
structure Allocator (ε σ : Type) where
  mem : σ → Mem
  setMem : σ → Mem → σ
  malloc : σ → Word → Except ε (Word × σ)
  free : σ → Word → σ

/-- **The contract.** `Live s B` says that `B` are the live blocks in state `s`; `Fits n` that a block
of `n` bytes may be asked for. -/
structure Allocator.Meets {ε σ : Type} (A : Allocator ε σ) (Fits : Word → Prop)
    (Live : σ → Blocks → Prop) : Prop where
  mem_setMem : ∀ s m, A.mem (A.setMem s m) = m
  blocks : ∀ {s B}, Live s B → B.Ok
  malloc : ∀ {s s' B n p}, Live s B → Fits n → A.malloc s n = .ok (p, s') →
    B p = none ∧ Live s' (Function.update B p (some n.toNat)) ∧ Keeps B (A.mem s) (A.mem s')
  free : ∀ {s B a n}, Live s B → B a = some n → Live (A.free s a) (Function.update B a none) ∧
    Keeps (Function.update B a none) (A.mem s) (A.mem (A.free s a))
  setMem : ∀ {s B m}, Live s B → (∀ x, (∀ a n, B a = some n → ¬ InBlock a n x) →
    m x = A.mem s x) → Live (A.setMem s m) B

/-- A request for 0 bytes gives no block. -/
def Allocator.ZeroOk {ε σ : Type} (A : Allocator ε σ) (Live : σ → Blocks → Prop) : Prop :=
  ∀ {s s' B p}, Live s B → A.malloc s 0 = .ok (p, s') → Live s' B ∧ Keeps B (A.mem s) (A.mem s')

/-- **The contract of a reallocation.** `Can s a k` says that the block at `a` may be resized to `k`
bytes; it keeps what fits of its bytes and may move. -/
def Allocator.Regrows {ε σ : Type} (A : Allocator ε σ)
    (realloc : σ → Word → Word → Except ε (Word × σ)) (Can : σ → Word → Word → Prop)
    (Live : σ → Blocks → Prop) : Prop :=
  ∀ {s s' B a n k p}, Live s B → B a = some n → Can s a k → realloc s a k = .ok (p, s') →
    (p ≠ a → B p = none) ∧ Live s' (Function.update (Function.update B a none) p (some k.toNat)) ∧
    (∀ i < min n k.toNat, A.mem s' (p + BitVec.ofNat 64 i) = A.mem s (a + BitVec.ofNat 64 i)) ∧
    Keeps (Function.update B a none) (A.mem s) (A.mem s')

namespace Allocator

variable {ε σ : Type} (A : Allocator ε σ)

/-- Field `i` of the record at `a`. -/
def get (s : σ) (a : Word) (i : ℕ) : Word := getField (A.mem s) a i

/-- Store field `i` of the record at `a`. -/
def set (s : σ) (a : Word) (i : ℕ) (w : Word) : σ := A.setMem s (setField (A.mem s) a i w)

/-- Store a run of bytes. -/
def fill (s : σ) (a : Word) (bytes : ℕ → Byte) (n : ℕ) : σ :=
  A.setMem s (fillBytes (A.mem s) a bytes n)

end Allocator

/-! ## Stores of a client -/

namespace Allocator.Meets

variable {ε σ : Type} {A : Allocator ε σ} {Fits : Word → Prop} {Live : σ → Blocks → Prop} {s : σ}
  {B : Blocks} {a b : Word} {n k i j : ℕ}

/-- **A client stores inside one of its blocks**: the blocks stay live, and no other one sees it. -/
theorem within (h : A.Meets Fits Live) (hl : Live s B) (ha : B a = some n) {m : Mem}
    (hm : ∀ x, ¬ InBlock a n x → m x = A.mem s x) :
    Live (A.setMem s m) B ∧ Keeps (Function.update B a none) (A.mem s) m := by
  refine ⟨h.setMem hl fun x hx => hm x (hx a n ha), ?_⟩
  intro b k hb x hx
  have hab : b ≠ a := by
    rintro rfl
    rw [Function.update_self] at hb
    cases hb
  rw [Function.update_of_ne hab] at hb
  apply hm
  have := (h.blocks hl).apart ha hb hab.symm
  unfold InBlock at *
  omega

theorem live_set (h : A.Meets Fits Live) (hl : Live s B) (ha : B a = some n) (hi : 8 * i + 8 ≤ n)
    (w : Word) : Live (A.set s a i w) B :=
  (h.within hl ha fun _ hx => setField_outside (h.blocks hl) ha hi w hx).1

theorem get_set (h : A.Meets Fits Live) (hl : Live s B) (ha : B a = some n) (hi : 8 * i + 8 ≤ n)
    (hb : B b = some k) (hj : 8 * j + 8 ≤ k) (w : Word) :
    A.get (A.set s a i w) b j = if a = b ∧ i = j then w else A.get s b j := by
  unfold Allocator.get Allocator.set
  rw [h.mem_setMem]
  exact getField_setField (h.blocks hl) ha hi hb hj w

theorem get_set_self (h : A.Meets Fits Live) (hl : Live s B) (ha : B a = some n)
    (hi : 8 * i + 8 ≤ n) (w : Word) : A.get (A.set s a i w) a i = w := by
  rw [h.get_set hl ha hi ha hi, if_pos ⟨rfl, rfl⟩]

theorem get_set_field (h : A.Meets Fits Live) (hl : Live s B) (ha : B a = some n)
    (hi : 8 * i + 8 ≤ n) (hj : 8 * j + 8 ≤ n) (hij : i ≠ j) (w : Word) :
    A.get (A.set s a i w) a j = A.get s a j := by
  rw [h.get_set hl ha hi ha hj, if_neg fun hc => hij hc.2]

/-- A store is seen by no other block. -/
theorem keeps_set (h : A.Meets Fits Live) (hl : Live s B) (ha : B a = some n) (hi : 8 * i + 8 ≤ n)
    (w : Word) : Keeps (Function.update B a none) (A.mem s) (A.mem (A.set s a i w)) := by
  unfold Allocator.set
  rw [h.mem_setMem]
  exact (h.within hl ha fun _ hx => setField_outside (h.blocks hl) ha hi w hx).2

theorem bytes_set (h : A.Meets Fits Live) (hl : Live s B) (ha : B a = some n) (hi : 8 * i + 8 ≤ n)
    (hb : B b = some k) (hab : b ≠ a) (w : Word) :
    blockBytes (A.mem (A.set s a i w)) b k = blockBytes (A.mem s) b k := by
  apply blockBytes_congr
  intro j hj
  apply h.keeps_set hl ha hi w
  · rw [Function.update_of_ne hab]
    exact hb
  · exact inBlock_offset ((h.blocks hl).addr hb).2 hj

theorem live_fill (h : A.Meets Fits Live) (hl : Live s B) (ha : B a = some n) (bytes : ℕ → Byte) :
    Live (A.fill s a bytes n) B :=
  (h.within hl ha fun _ hx => fillBytes_outside (h.blocks hl) ha bytes hx).1

theorem keeps_fill (h : A.Meets Fits Live) (hl : Live s B) (ha : B a = some n)
    (bytes : ℕ → Byte) : Keeps (Function.update B a none) (A.mem s) (A.mem (A.fill s a bytes n)) := by
  unfold Allocator.fill
  rw [h.mem_setMem]
  exact (h.within hl ha fun _ hx => fillBytes_outside (h.blocks hl) ha bytes hx).2

theorem bytes_fill (h : A.Meets Fits Live) (hl : Live s B) (ha : B a = some n)
    (bytes : ℕ → Byte) :
    blockBytes (A.mem (A.fill s a bytes n)) a n = (List.range n).map bytes := by
  unfold Allocator.fill
  rw [h.mem_setMem]
  exact blockBytes_fillBytes (h.blocks hl) ha bytes

end Allocator.Meets

end Cerberos.Base
