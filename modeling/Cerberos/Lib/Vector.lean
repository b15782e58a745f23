/-
# Cerberos.Lib.Vector — the vector of `lib/ds/vector.c`.

A record with a buffer of `capacity` elements of `data_size` bytes, of which the first `size` are in
use. The functions are written over any allocator; `realloc` stands for `krealloc`. The caller's
buffer `data` is disjoint from the vector (`VECTOR_ADD` copies its argument into a temporary first),
so `memcpy` from it is a fill; `memmove` works inside the buffer. A full vector DOUBLES its capacity,
and the number of bytes to ask for is a product of two words: nothing looks at a capacity of 0, and
nothing at a product that wraps.

`VecState.asked` and `VecState.written` are HISTORY variables: the bytes last asked for as the buffer,
and the runs `memcpy` and `memmove` have stored so far. No function reads `written`, and `asked` is
only copied into it.
-/
import Cerberos.Base.Elems
import Cerberos.Lib.Mem

namespace Cerberos

open Cerberos.Base

/-! ## The code -/

/-- The fields of `vector_t`. -/
abbrev vectorBuf : ℕ := 0
abbrev vectorCapacity : ℕ := 1
abbrev vectorSize : ℕ := 2
abbrev vectorDataSize : ℕ := 3

/-- `len` bytes were stored from `dest` on, when the buffer was `buf` and `asked` bytes of it had been
asked for. -/
structure CopySpan where
  dest : Word
  len : Word
  buf : Word
  asked : Word

/-- The state of the allocator, the log, and the history of the vector. -/
structure VecState (σ : Type) where
  heap : σ
  log : List LogMsg
  asked : Word
  written : List CopySpan

/-- Append a log line. -/
def VecState.say {σ : Type} (s : VecState σ) (msg : LogMsg) : VecState σ :=
  { s with log := s.log ++ [msg] }

section Code

variable {σ : Type} (A : Allocator Halt σ) (realloc : σ → Word → Word → Res (Word × σ))

/-- `vector_create(data_size, capacity)`. -/
def vectorCreate (s : VecState σ) (dataSize capacity : Word) : Res (Word × VecState σ) := do
  let (vec, heap) ← A.malloc s.heap 32
  let heap := A.set heap vec vectorCapacity capacity
  let heap := A.set heap vec vectorSize 0
  let heap := A.set heap vec vectorDataSize dataSize
  let asked := dataSize * A.get heap vec vectorCapacity
  let (buf, heap) ← A.malloc heap asked
  .ok (vec, { s with heap := A.set heap vec vectorBuf buf, asked := asked })

/-- `get_elem_addr(vec, idx)`. -/
def getElemAddr (heap : σ) (vec idx : Word) : Word :=
  A.get heap vec vectorBuf + idx * A.get heap vec vectorDataSize

/-- `memcpy(dest, data, num)` from the caller's buffer. -/
def vecMemcpy (s : VecState σ) (vec dest : Word) (data : ℕ → Byte) (num : Word) : VecState σ :=
  { s with
    heap := A.fill s.heap dest data num.toNat
    written := ⟨dest, num, A.get s.heap vec vectorBuf, s.asked⟩ :: s.written }

/-- `memmove(dest, src, num)`. -/
def vecMemmove (s : VecState σ) (vec dest src num : Word) : VecState σ :=
  { s with
    heap := A.setMem s.heap (memmove (A.mem s.heap) dest src num)
    written := ⟨dest, num, A.get s.heap vec vectorBuf, s.asked⟩ :: s.written }

/-- `vec->size = size`. -/
def vecSetSize (s : VecState σ) (vec size : Word) : VecState σ :=
  { s with heap := A.set s.heap vec vectorSize size }

/-- `vector_get(vec, idx)`. -/
def vectorGet (s : VecState σ) (vec idx : Word) : Word × VecState σ :=
  if A.get s.heap vec vectorSize ≤ idx then
    (null, s.say (errorMsg "[vector_get] idx %lu is out of range. Length of vector: %lu\n"
      [idx, A.get s.heap vec vectorSize]))
  else (getElemAddr A s.heap vec idx, s)

/-- `vector_set(vec, idx, data)`. -/
def vectorSet (s : VecState σ) (vec idx : Word) (data : ℕ → Byte) : VecState σ :=
  if A.get s.heap vec vectorSize ≤ idx then
    s.say (errorMsg "[vector_set] idx %lu is out of range. Length of vector: %lu\n"
      [idx, A.get s.heap vec vectorSize])
  else
    let elem := getElemAddr A s.heap vec idx
    vecMemcpy A s vec elem data (A.get s.heap vec vectorDataSize)

/-- The growth in `vector_add` and `vector_insert`: "capacity has been reached, double it". -/
def vectorGrow (s : VecState σ) (vec : Word) : Res (VecState σ) :=
  if A.get s.heap vec vectorSize = A.get s.heap vec vectorCapacity then do
    let heap := A.set s.heap vec vectorCapacity (A.get s.heap vec vectorCapacity * 2)
    let asked := A.get heap vec vectorCapacity * A.get heap vec vectorDataSize
    let (buf, heap) ← realloc heap (A.get heap vec vectorBuf) asked
    .ok { s with heap := A.set heap vec vectorBuf buf, asked := asked }
  else .ok s

/-- `vector_add(vec, data)`. -/
def vectorAdd (s : VecState σ) (vec : Word) (data : ℕ → Byte) : Res (VecState σ) := do
  let s ← vectorGrow A realloc s vec
  let elem := getElemAddr A s.heap vec (A.get s.heap vec vectorSize)
  let s := vecMemcpy A s vec elem data (A.get s.heap vec vectorDataSize)
  .ok (vecSetSize A s vec (A.get s.heap vec vectorSize + 1))

/-- `vector_remove(vec, idx)`. Its message names `vector_set`. -/
def vectorRemove (s : VecState σ) (vec idx : Word) : VecState σ :=
  if A.get s.heap vec vectorSize ≤ idx then
    s.say (errorMsg "[vector_set] idx %lu is out of range. Length of vector: %lu\n"
      [idx, A.get s.heap vec vectorSize])
  else
    let s :=
      if idx ≠ A.get s.heap vec vectorSize - 1 then
        let elem := getElemAddr A s.heap vec idx
        let rest := getElemAddr A s.heap vec (idx + 1)
        vecMemmove A s vec elem rest
          ((A.get s.heap vec vectorSize - idx - 1) * A.get s.heap vec vectorDataSize)
      else s
    vecSetSize A s vec (A.get s.heap vec vectorSize - 1)

/-- `vector_insert(vec, idx, data)`. -/
def vectorInsert (s : VecState σ) (vec idx : Word) (data : ℕ → Byte) : Res (VecState σ) :=
  if A.get s.heap vec vectorSize < idx then
    .ok (s.say (errorMsg
      "[vector_insert] idx %lu is out of range of vector. Length of vector: %lu\n"
      [idx, A.get s.heap vec vectorSize]))
  else do
    let s ← vectorGrow A realloc s vec
    let elem := getElemAddr A s.heap vec idx
    let s :=
      if idx ≠ A.get s.heap vec vectorSize then
        let next := getElemAddr A s.heap vec (idx + 1)
        vecMemmove A s vec next elem
          ((A.get s.heap vec vectorSize - idx) * A.get s.heap vec vectorDataSize)
      else s
    let s := vecMemcpy A s vec elem data (A.get s.heap vec vectorDataSize)
    .ok (vecSetSize A s vec (A.get s.heap vec vectorSize + 1))

end Code

/-! ## The list a vector stands for -/

/-- The run lies in the bytes that were asked for. -/
def CopySpan.Within (span : CopySpan) : Prop :=
  span.buf.toNat ≤ span.dest.toNat ∧
    span.dest.toNat + span.len.toNat ≤ span.buf.toNat + span.asked.toNat

instance (span : CopySpan) : Decidable span.Within := inferInstanceAs (Decidable (_ ∧ _))

/-- The vector at `vec` has the buffer `buf` of `cap` elements, which starts with `items`; its size
field is `count`. A vector without capacity has no buffer. -/
structure VectorRep {σ : Type} (A : Allocator Halt σ) (Live : σ → Blocks → Prop) (s : VecState σ)
    (B : Blocks) (vec dataSize buf : Word) (cap count : ℕ) (items : List (List Byte)) : Prop where
  live : Live s.heap B
  block : B vec = some 32
  buffer : cap ≠ 0 → B buf = some (cap * dataSize.toNat) ∧ buf ≠ vec
  buf_eq : A.get s.heap vec vectorBuf = buf
  capacity : (A.get s.heap vec vectorCapacity).toNat = cap
  size : (A.get s.heap vec vectorSize).toNat = count
  data_size : A.get s.heap vec vectorDataSize = dataSize
  asked : s.asked.toNat = cap * dataSize.toNat
  room : items.length ≤ cap
  elems : Elems (A.mem s.heap) buf dataSize.toNat items
  within : ∀ span ∈ s.written, span.Within

namespace VectorRep

variable {σ : Type} {A : Allocator Halt σ} {Fits : Word → Prop} {Live : σ → Blocks → Prop}
  {s : VecState σ} {B : Blocks} {vec dataSize buf : Word} {cap count : ℕ} {items : List (List Byte)}

theorem elem_addr (h : VectorRep A Live s B vec dataSize buf cap count items) (idx : Word) :
    getElemAddr A s.heap vec idx = buf + BitVec.ofNat 64 (idx.toNat * dataSize.toNat) := by
  unfold getElemAddr
  rw [h.buf_eq, h.data_size, BitVec.ofNat_mul, BitVec.ofNat_toNat, BitVec.ofNat_toNat,
    BitVec.setWidth_eq, BitVec.setWidth_eq]

/-- Another value for the history or the log is not seen. -/
theorem say (h : VectorRep A Live s B vec dataSize buf cap count items) (msg : LogMsg) :
    VectorRep A Live (s.say msg) B vec dataSize buf cap count items :=
  ⟨h.live, h.block, h.buffer, h.buf_eq, h.capacity, h.size, h.data_size, h.asked, h.room, h.elems,
    h.within⟩

/-- A store into the record of the vector leaves the elements alone. -/
theorem elems_set (hA : A.Meets Fits Live) {heap : σ} (hlive : Live heap B) (hvec : B vec = some 32)
    (hbuffer : cap ≠ 0 → B buf = some (cap * dataSize.toNat) ∧ buf ≠ vec)
    (hroom : items.length ≤ cap) (helems : Elems (A.mem heap) buf dataSize.toNat items) {i : ℕ}
    (hi : 8 * i + 8 ≤ 32) (w : Word) :
    Elems (A.mem (A.set heap vec i w)) buf dataSize.toNat items := by
  by_cases hcap : cap = 0
  · have hnil : items = [] := List.length_eq_zero_iff.mp (by omega)
    rw [hnil]
    exact elems_nil _ _ _
  · obtain ⟨hbuf, hne⟩ := hbuffer hcap
    have hkeeps := hA.keeps_set hlive hvec hi w
    refine helems.congr fun k hk => ?_
    refine hkeeps (a := buf) (n := cap * dataSize.toNat) ?_ _ ?_
    · rw [Function.update_of_ne hne]
      exact hbuf
    · have hle := Nat.mul_le_mul_right dataSize.toNat hroom
      exact inBlock_offset ((hA.blocks hlive).addr hbuf).2 (by omega)

/-- `vec->buf = buf`, the last store of a creation and of a growth. -/
theorem setBuf (hA : A.Meets Fits Live) {heap : σ} {asked : Word} (hlive : Live heap B)
    (hvec : B vec = some 32) (hbuffer : cap ≠ 0 → B buf = some (cap * dataSize.toNat) ∧ buf ≠ vec)
    (hcapacity : (A.get heap vec vectorCapacity).toNat = cap)
    (hsize : (A.get heap vec vectorSize).toNat = count)
    (hdata : A.get heap vec vectorDataSize = dataSize)
    (hasked : asked.toNat = cap * dataSize.toNat) (hroom : items.length ≤ cap)
    (helems : Elems (A.mem heap) buf dataSize.toNat items)
    (hwithin : ∀ span ∈ s.written, span.Within) :
    VectorRep A Live { s with heap := A.set heap vec vectorBuf buf, asked := asked } B vec dataSize
      buf cap count items := by
  have hget : ∀ j, 8 * j + 8 ≤ 32 → vectorBuf ≠ j →
      A.get (A.set heap vec vectorBuf buf) vec j = A.get heap vec j :=
    fun j hj hne => hA.get_set_field hlive hvec (by decide) hj hne buf
  constructor
  case live => exact hA.live_set hlive hvec (by decide) buf
  case block => exact hvec
  case buffer => exact hbuffer
  case buf_eq => exact hA.get_set_self hlive hvec (by decide) buf
  case capacity =>
    exact (congrArg BitVec.toNat (hget _ (by decide) (by decide))).trans hcapacity
  case size => exact (congrArg BitVec.toNat (hget _ (by decide) (by decide))).trans hsize
  case data_size => exact (hget _ (by decide) (by decide)).trans hdata
  case asked => exact hasked
  case room => exact hroom
  case elems => exact elems_set hA hlive hvec hbuffer hroom helems (by decide) buf
  case within => exact hwithin

/-- `vec->size = w`. -/
theorem setSize (hA : A.Meets Fits Live) (h : VectorRep A Live s B vec dataSize buf cap count items)
    (w : Word) : VectorRep A Live (vecSetSize A s vec w) B vec dataSize buf cap w.toNat items := by
  have hget : ∀ j, 8 * j + 8 ≤ 32 → vectorSize ≠ j →
      A.get (A.set s.heap vec vectorSize w) vec j = A.get s.heap vec j :=
    fun j hj hne => hA.get_set_field h.live h.block (by decide) hj hne w
  constructor
  case live => exact hA.live_set h.live h.block (by decide) w
  case block => exact h.block
  case buffer => exact h.buffer
  case buf_eq => exact (hget _ (by decide) (by decide)).trans h.buf_eq
  case capacity =>
    exact (congrArg BitVec.toNat (hget _ (by decide) (by decide))).trans h.capacity
  case size => exact congrArg BitVec.toNat (hA.get_set_self h.live h.block (by decide) w)
  case data_size => exact (hget _ (by decide) (by decide)).trans h.data_size
  case asked => exact h.asked
  case room => exact h.room
  case elems => exact elems_set hA h.live h.block h.buffer h.room h.elems (by decide) w
  case within => exact h.within

/-- **A copy inside the buffer** is seen by no field of the record. -/
theorem copy (hA : A.Meets Fits Live) (h : VectorRep A Live s B vec dataSize buf cap count items)
    (hcap : cap ≠ 0) {m : Mem}
    (hm : ∀ x, ¬ InBlock buf (cap * dataSize.toNat) x → m x = A.mem s.heap x) {span : CopySpan}
    (hspan : span.Within) {items' : List (List Byte)} (hroom : items'.length ≤ cap)
    (helems : Elems m buf dataSize.toNat items') :
    VectorRep A Live { s with heap := A.setMem s.heap m, written := span :: s.written } B vec
      dataSize buf cap count items' := by
  obtain ⟨hbuf, hne⟩ := h.buffer hcap
  obtain ⟨hlive, hkeeps⟩ := hA.within h.live hbuf hm
  have hvec : Function.update B buf none vec = some 32 := by
    rw [Function.update_of_ne hne.symm]
    exact h.block
  have hget : ∀ j, 8 * j + 8 ≤ 32 → A.get (A.setMem s.heap m) vec j = A.get s.heap vec j := by
    intro j hj
    unfold Allocator.get
    rw [hA.mem_setMem]
    exact hkeeps.getField ((hA.blocks h.live).remove buf) hvec hj
  constructor
  case live => exact hlive
  case block => exact h.block
  case buffer => exact h.buffer
  case buf_eq => exact (hget _ (by decide)).trans h.buf_eq
  case capacity => exact (congrArg BitVec.toNat (hget _ (by decide))).trans h.capacity
  case size => exact (congrArg BitVec.toNat (hget _ (by decide))).trans h.size
  case data_size => exact (hget _ (by decide)).trans h.data_size
  case asked => exact h.asked
  case room => exact hroom
  case elems =>
    rw [hA.mem_setMem]
    exact helems
  case within =>
    intro sp hsp
    rcases List.mem_cons.mp hsp with rfl | hsp
    · exact hspan
    · exact h.within sp hsp

/-- A run of `n` elements from element `d` on lies in the buffer. -/
theorem run_within (hA : A.Meets Fits Live)
    (h : VectorRep A Live s B vec dataSize buf cap count items) (hds : 0 < dataSize.toNat) {d n : ℕ}
    (hd : d < cap) (hn : d + n ≤ cap) {num : Word} (hnum : num.toNat = n * dataSize.toNat) :
    (CopySpan.mk (buf + BitVec.ofNat 64 (d * dataSize.toNat)) num buf s.asked).Within ∧
      ∀ bytes x, ¬ InBlock buf (cap * dataSize.toNat) x →
        fillBytes (A.mem s.heap) (buf + BitVec.ofNat 64 (d * dataSize.toNat)) bytes num.toNat x =
          A.mem s.heap x := by
  have hfit := ((hA.blocks h.live).addr (h.buffer (by omega)).1).2
  have hstart : d * dataSize.toNat < cap * dataSize.toNat := Nat.mul_lt_mul_of_pos_right hd hds
  have hend : (d + n) * dataSize.toNat ≤ cap * dataSize.toNat := Nat.mul_le_mul_right _ hn
  rw [Nat.add_mul, ← hnum] at hend
  have haddr : (buf + BitVec.ofNat 64 (d * dataSize.toNat)).toNat =
      buf.toNat + d * dataSize.toNat := by
    rw [BitVec.toNat_add, BitVec.toNat_ofNat]
    omega
  constructor
  · unfold CopySpan.Within
    dsimp only
    rw [haddr, h.asked]
    omega
  · intro bytes x hx
    unfold InBlock at hx
    apply fillBytes_apply_of_outside
    · omega
    · omega

/-- `memcpy` of one element. -/
theorem memcpy (hA : A.Meets Fits Live) (h : VectorRep A Live s B vec dataSize buf cap count items)
    (hds : 0 < dataSize.toNat) (data : ℕ → Byte) {j : ℕ} (hj : j < cap)
    {items' : List (List Byte)} (hroom : items'.length ≤ cap)
    (hself : ∀ x, items'[j]? = some x → x = (List.range dataSize.toNat).map data)
    (hother : ∀ i x, items'[i]? = some x → i ≠ j → items[i]? = some x) :
    VectorRep A Live (vecMemcpy A s vec (buf + BitVec.ofNat 64 (j * dataSize.toNat)) data dataSize) B
      vec dataSize buf cap count items' := by
  obtain ⟨hspan, hframe⟩ := h.run_within hA hds hj (n := 1) (by omega) (Nat.one_mul _).symm
  have hcap : cap * dataSize.toNat ≤ 2 ^ 64 := by
    rw [← h.asked]
    exact s.asked.isLt.le
  unfold vecMemcpy
  rw [h.buf_eq]
  exact h.copy hA (by omega) (hframe data) hspan hroom
    (h.elems.store data hj hcap hroom hself hother)

/-- `memmove` of `n` elements from element `src` to element `dst`. -/
theorem memmove (hA : A.Meets Fits Live)
    (h : VectorRep A Live s B vec dataSize buf cap count items) (hds : 0 < dataSize.toNat)
    {src dst n : ℕ} (hdst : dst < cap) (hn : dst + n ≤ cap) {num : Word}
    (hnum : num.toNat = n * dataSize.toNat) {items' : List (List Byte)} (hroom : items'.length ≤ cap)
    (hin : ∀ i x, items'[i]? = some x → dst ≤ i → i < dst + n → items[i - dst + src]? = some x)
    (hout : ∀ i x, items'[i]? = some x → ¬ (dst ≤ i ∧ i < dst + n) → items[i]? = some x) :
    VectorRep A Live (vecMemmove A s vec (buf + BitVec.ofNat 64 (dst * dataSize.toNat))
      (buf + BitVec.ofNat 64 (src * dataSize.toNat)) num) B vec dataSize buf cap count items' := by
  obtain ⟨hspan, hframe⟩ := h.run_within hA hds hdst hn hnum
  have hcap : cap * dataSize.toNat ≤ 2 ^ 64 := by
    rw [← h.asked]
    exact s.asked.isLt.le
  have helems := h.elems.move hn hcap hroom hin hout
  rw [← hnum] at helems
  unfold vecMemmove
  rw [h.buf_eq]
  exact h.copy hA (by omega) (hframe _) hspan hroom helems

/-- Fewer elements. -/
theorem fewer (h : VectorRep A Live s B vec dataSize buf cap count items)
    {items' : List (List Byte)} (hroom : items'.length ≤ cap)
    (hsub : ∀ (i : ℕ) x, items'[i]? = some x → items[i]? = some x) :
    VectorRep A Live s B vec dataSize buf cap count items' :=
  ⟨h.live, h.block, h.buffer, h.buf_eq, h.capacity, h.size, h.data_size, h.asked, hroom,
    fun i x hx => h.elems i x (hsub i x hx), h.within⟩

theorem cap_lt (h : VectorRep A Live s B vec dataSize buf cap count items) : cap < 2 ^ 64 := by
  rw [← h.capacity]
  exact (A.get s.heap vec vectorCapacity).isLt

/-- A number of elements that fits, in bytes. -/
theorem bytes_eq (h : VectorRep A Live s B vec dataSize buf cap count items) {n : ℕ} {k : Word}
    (hk : k.toNat = n) (hn : n ≤ cap) : (k * dataSize).toNat = n * dataSize.toNat := by
  have hle := Nat.mul_le_mul_right dataSize.toNat hn
  rw [← h.asked] at hle
  rw [BitVec.toNat_mul, hk, Nat.mod_eq_of_lt (lt_of_le_of_lt hle s.asked.isLt)]

end VectorRep

/-! ## Growth -/

/-- The growth of a full vector asks for a number of bytes that does not wrap, and `Can` allows it. -/
def GrowFits {σ : Type} (A : Allocator Halt σ) (Can : σ → Word → Word → Prop) (s : VecState σ)
    (vec : Word) : Prop :=
  A.get s.heap vec vectorSize = A.get s.heap vec vectorCapacity →
    2 * (A.get s.heap vec vectorCapacity).toNat * (A.get s.heap vec vectorDataSize).toNat < 2 ^ 64 ∧
    Can (A.set s.heap vec vectorCapacity (A.get s.heap vec vectorCapacity * 2))
      (A.get s.heap vec vectorBuf)
      (A.get s.heap vec vectorCapacity * 2 * A.get s.heap vec vectorDataSize)

section Ops

variable {σ : Type} {A : Allocator Halt σ} {realloc : σ → Word → Word → Res (Word × σ)}
  {Fits : Word → Prop} {Can : σ → Word → Word → Prop} {Live : σ → Blocks → Prop}
  {s s' : VecState σ} {B : Blocks} {vec dataSize buf : Word} {cap count : ℕ}
  {items : List (List Byte)}

/-- The doubled capacity and the bytes asked for, as numbers. -/
theorem toNat_doubled {c d : Word} (hd : 0 < d.toNat) (hlt : 2 * c.toNat * d.toNat < 2 ^ 64) :
    (c * 2).toNat = 2 * c.toNat ∧ (c * 2 * d).toNat = 2 * c.toNat * d.toNat := by
  have hle : 2 * c.toNat ≤ 2 * c.toNat * d.toNat := Nat.le_mul_of_pos_right _ hd
  have hdouble : (c * 2).toNat = 2 * c.toNat := by
    rw [BitVec.toNat_mul, show (2 : Word).toNat = 2 from rfl]
    omega
  refine ⟨hdouble, ?_⟩
  rw [BitVec.toNat_mul, hdouble, Nat.mod_eq_of_lt hlt]

/-- **The growth makes room for an element** and keeps the others. -/
theorem vectorGrow_spec (hA : A.Meets Fits Live) (hR : A.Regrows realloc Can Live)
    (h : VectorRep A Live s B vec dataSize buf cap items.length items) (hds : 0 < dataSize.toNat)
    (hgrow : GrowFits A Can s vec) (hpos : items.length = cap → cap ≠ 0)
    (hok : vectorGrow A realloc s vec = .ok s') :
    ∃ B' buf' cap', VectorRep A Live s' B' vec dataSize buf' cap' items.length items ∧
      items.length < cap' ∧ cap ≤ cap' := by
  have hfull : A.get s.heap vec vectorSize = A.get s.heap vec vectorCapacity ↔
      items.length = cap := by
    rw [← BitVec.toNat_inj, h.size, h.capacity]
  unfold vectorGrow at hok
  by_cases hlen : items.length = cap
  swap
  · -- there is room
    rw [if_neg (fun hc => hlen (hfull.mp hc))] at hok
    cases hok
    have hroom := h.room
    exact ⟨B, buf, cap, h, by omega, le_refl cap⟩
  rw [if_pos (hfull.mpr hlen)] at hok
  obtain ⟨hwrap, hcan⟩ := hgrow (hfull.mpr hlen)
  have hcap := hpos hlen
  obtain ⟨hbuf, hne⟩ := h.buffer hcap
  rw [h.data_size] at hwrap hcan
  rw [h.buf_eq] at hcan
  obtain ⟨hdouble, hbytes⟩ := toNat_doubled hds hwrap
  rw [h.capacity] at hdouble hbytes
  generalize A.get s.heap vec vectorCapacity * 2 = c₂ at *
  -- the capacity is stored first
  have hlive₁ := hA.live_set h.live h.block (i := vectorCapacity) (by decide) c₂
  have hcap₁ := hA.get_set_self h.live h.block (i := vectorCapacity) (by decide) c₂
  have hfield₁ : ∀ j, 8 * j + 8 ≤ 32 → vectorCapacity ≠ j →
      A.get (A.set s.heap vec vectorCapacity c₂) vec j = A.get s.heap vec j :=
    fun j hj hj' => hA.get_set_field h.live h.block (by decide) hj hj' c₂
  have helems₁ := VectorRep.elems_set hA h.live h.block h.buffer h.room h.elems
    (i := vectorCapacity) (by decide) c₂
  generalize A.set s.heap vec vectorCapacity c₂ = heap₁ at *
  dsimp only at hok
  rw [hcap₁, hfield₁ vectorBuf (by decide) (by decide), h.buf_eq,
    hfield₁ vectorDataSize (by decide) (by decide), h.data_size] at hok
  obtain ⟨⟨p, heap₂⟩, hrealloc, hok⟩ := Res.bind_eq_ok.mp hok
  cases hok
  obtain ⟨hfresh, hlive₂, hcopied, hkeeps⟩ := hR hlive₁ hbuf hcan hrealloc
  rw [hbytes] at hlive₂ hcopied
  -- the record is none of the blocks that moved
  have hvecp : vec ≠ p := by
    rintro rfl
    have hnone := hfresh hne.symm
    rw [h.block] at hnone
    cases hnone
  have hvec₁ : Function.update B buf none vec = some 32 := by
    rw [Function.update_of_ne hne.symm]
    exact h.block
  have hvec₂ : Function.update (Function.update B buf none) p
      (some (2 * cap * dataSize.toNat)) vec = some 32 := by
    rw [Function.update_of_ne hvecp]
    exact hvec₁
  have hfield₂ : ∀ j, 8 * j + 8 ≤ 32 → A.get heap₂ vec j = A.get heap₁ vec j :=
    fun j hj => hkeeps.getField ((hA.blocks hlive₁).remove buf) hvec₁ hj
  refine ⟨Function.update (Function.update B buf none) p (some (2 * cap * dataSize.toNat)), p,
    2 * cap, ?_, by omega, by omega⟩
  apply VectorRep.setBuf hA hlive₂ hvec₂ fun _ => ⟨Function.update_self .., hvecp.symm⟩
  case hcapacity => rw [hfield₂ _ (by decide), hcap₁, hdouble]
  case hsize => rw [hfield₂ _ (by decide), hfield₁ _ (by decide) (by decide), h.size]
  case hdata => rw [hfield₂ _ (by decide), hfield₁ _ (by decide) (by decide), h.data_size]
  case hasked => exact hbytes
  case hroom => omega
  case helems =>
    -- the old buffer was full, so all its bytes were copied
    refine helems₁.congr fun i hi => hcopied i ?_
    have hnew : cap * dataSize.toNat ≤ 2 * cap * dataSize.toNat :=
      Nat.mul_le_mul_right _ (by omega)
    rw [hlen] at hi
    omega
  case hwithin => exact h.within

/-! ## The calls -/

/-- The element the caller's buffer holds. -/
abbrev elemOf (dataSize : Word) (data : ℕ → Byte) : List Byte := (List.range dataSize.toNat).map data

/-- The buffer of a new vector, if it has one. -/
theorem vectorCreate_buffer (hA : A.Meets Fits Live) {heap heap' : σ} {asked : Word}
    (hl : Live heap B) (hvec : B vec = some 32) (hzero : cap = 0 → A.ZeroOk Live)
    (hasked : asked.toNat = cap * dataSize.toNat) (hfits : cap ≠ 0 → Fits asked)
    (hok : A.malloc heap asked = .ok (buf, heap')) :
    ∃ B', Live heap' B' ∧ B' vec = some 32 ∧
      (cap ≠ 0 → B' buf = some (cap * dataSize.toNat) ∧ buf ≠ vec) ∧
      ∀ j, 8 * j + 8 ≤ 32 → A.get heap' vec j = A.get heap vec j := by
  by_cases hcap : cap = 0
  · have h0 : asked = 0 := BitVec.eq_of_toNat_eq (by rw [hasked, hcap, Nat.zero_mul]; rfl)
    rw [h0] at hok
    obtain ⟨hlive, hkeeps⟩ := hzero hcap hl hok
    exact ⟨B, hlive, hvec, fun hne => absurd hcap hne,
      fun j hj => hkeeps.getField (hA.blocks hl) hvec hj⟩
  · obtain ⟨hnone, hlive, hkeeps⟩ := hA.malloc hl (hfits hcap) hok
    have hne : buf ≠ vec := by
      rintro rfl
      rw [hvec] at hnone
      cases hnone
    rw [hasked] at hlive
    refine ⟨_, hlive, ?_, fun _ => ⟨Function.update_self .., hne⟩,
      fun j hj => hkeeps.getField (hA.blocks hl) hvec hj⟩
    rw [Function.update_of_ne hne.symm]
    exact hvec

/-- **`vector_create` makes an empty vector.** -/
theorem vectorCreate_spec (hA : A.Meets Fits Live) {capacity : Word} (hl : Live s.heap B)
    (hnew : s.written = []) (hzero : capacity = 0 → A.ZeroOk Live) (hrecord : Fits 32)
    (hfits : capacity ≠ 0 → Fits (dataSize * capacity))
    (hwrap : capacity.toNat * dataSize.toNat < 2 ^ 64)
    (hok : vectorCreate A s dataSize capacity = .ok (vec, s')) :
    ∃ B' buf, VectorRep A Live s' B' vec dataSize buf capacity.toNat 0 [] := by
  obtain ⟨⟨vec', heap₁⟩, hmalloc, hok⟩ := Res.bind_eq_ok.mp hok
  obtain ⟨-, hlive₁, -⟩ := hA.malloc hl hrecord hmalloc
  have hvec : Function.update B vec' (some (32 : Word).toNat) vec' = some 32 := Function.update_self ..
  -- three fields of the record
  have hlive₂ := hA.live_set hlive₁ hvec (i := vectorCapacity) (by decide) capacity
  have hlive₃ := hA.live_set hlive₂ hvec (i := vectorSize) (by decide) 0
  have hlive₄ := hA.live_set hlive₃ hvec (i := vectorDataSize) (by decide) dataSize
  have hcapacity : A.get (A.set (A.set (A.set heap₁ vec' vectorCapacity capacity) vec' vectorSize 0)
      vec' vectorDataSize dataSize) vec' vectorCapacity = capacity := by
    rw [hA.get_set_field hlive₃ hvec (by decide) (by decide) (by decide),
      hA.get_set_field hlive₂ hvec (by decide) (by decide) (by decide),
      hA.get_set_self hlive₁ hvec (by decide)]
  have hsize : A.get (A.set (A.set (A.set heap₁ vec' vectorCapacity capacity) vec' vectorSize 0)
      vec' vectorDataSize dataSize) vec' vectorSize = 0 := by
    rw [hA.get_set_field hlive₃ hvec (by decide) (by decide) (by decide),
      hA.get_set_self hlive₂ hvec (by decide)]
  have hdata := hA.get_set_self hlive₃ hvec (i := vectorDataSize) (by decide) dataSize
  dsimp only at hok
  rw [hcapacity] at hok
  generalize A.set (A.set (A.set heap₁ vec' vectorCapacity capacity) vec' vectorSize 0)
    vec' vectorDataSize dataSize = heap₄ at *
  obtain ⟨⟨buf, heap₅⟩, hbuffer, hok⟩ := Res.bind_eq_ok.mp hok
  cases hok
  have hasked : (dataSize * capacity).toNat = capacity.toNat * dataSize.toNat := by
    rw [BitVec.toNat_mul, Nat.mul_comm, Nat.mod_eq_of_lt hwrap]
  have hzero' : capacity.toNat = 0 → A.ZeroOk Live := fun h0 =>
    hzero (BitVec.eq_of_toNat_eq h0)
  have hfits' : capacity.toNat ≠ 0 → Fits (dataSize * capacity) := by
    intro hne
    apply hfits
    rintro rfl
    exact hne rfl
  obtain ⟨B', hlive₅, hvec₅, hbuf, hfields⟩ :=
    vectorCreate_buffer hA hlive₄ hvec hzero' hasked hfits' hbuffer
  refine ⟨B', buf, VectorRep.setBuf hA hlive₅ hvec₅ hbuf ?_ ?_ ?_ hasked (Nat.zero_le _)
    (elems_nil _ _ _) ?_⟩
  · rw [hfields _ (by decide), hcapacity]
  · rw [hfields _ (by decide), hsize]
    rfl
  · rw [hfields _ (by decide), hdata]
  · rw [hnew]
    simp

/-- `vector_set` overwrites an element, or changes nothing but the log. -/
theorem vectorSet_spec (hA : A.Meets Fits Live)
    (h : VectorRep A Live s B vec dataSize buf cap items.length items) (hds : 0 < dataSize.toNat)
    (idx : Word) (data : ℕ → Byte) :
    VectorRep A Live (vectorSet A s vec idx data) B vec dataSize buf cap
      (items.set idx.toNat (elemOf dataSize data)).length
      (items.set idx.toNat (elemOf dataSize data)) := by
  unfold vectorSet
  have hroom := h.room
  by_cases hidx : A.get s.heap vec vectorSize ≤ idx
  · have hout : items.length ≤ idx.toNat := by
      rw [← h.size]
      exact hidx
    rw [if_pos hidx, List.set_eq_of_length_le hout]
    exact h.say _
  · have hin : idx.toNat < items.length := by
      rw [← h.size]
      exact BitVec.not_le.mp hidx
    rw [if_neg hidx, List.length_set]
    dsimp only
    rw [h.elem_addr, h.data_size]
    refine h.memcpy hA hds data (by omega) (by simpa using hroom) ?_ ?_
    · intro x hx
      rw [List.getElem?_set_self hin] at hx
      cases hx
      rfl
    · intro i x hx hne
      rwa [List.getElem?_set_ne (Ne.symm hne)] at hx

/-- The last step of an insertion: the element is stored and the size counted up. -/
theorem VectorRep.storeNew (hA : A.Meets Fits Live) {n : ℕ}
    (h : VectorRep A Live s B vec dataSize buf cap n items) (hds : 0 < dataSize.toNat)
    (data : ℕ → Byte) {elem : Word} {j : ℕ} (hj : j ≤ n) (hn : n < cap)
    (helem : elem = buf + BitVec.ofNat 64 (j * dataSize.toNat)) {items' : List (List Byte)}
    (hlen : items'.length = n + 1)
    (hself : ∀ x, items'[j]? = some x → x = elemOf dataSize data)
    (hother : ∀ i x, items'[i]? = some x → i ≠ j → items[i]? = some x) :
    VectorRep A Live
      (vecSetSize A (vecMemcpy A s vec elem data (A.get s.heap vec vectorDataSize)) vec
        (A.get (vecMemcpy A s vec elem data (A.get s.heap vec vectorDataSize)).heap vec vectorSize
          + 1)) B vec dataSize buf cap items'.length items' := by
  have hcap := h.cap_lt
  rw [helem, h.data_size]
  have hcopy := h.memcpy hA hds data (by omega) (by omega) hself hother
  have hset := hcopy.setSize hA
    (A.get (vecMemcpy A s vec (buf + BitVec.ofNat 64 (j * dataSize.toNat)) data dataSize).heap vec
      vectorSize + 1)
  have hcount : (A.get (vecMemcpy A s vec (buf + BitVec.ofNat 64 (j * dataSize.toNat)) data
      dataSize).heap vec vectorSize + 1).toNat = items'.length := by
    rw [BitVec.toNat_add, hcopy.size, show (1 : Word).toNat = 1 from rfl, hlen]
    omega
  rwa [hcount] at hset

/-- **`vector_add` appends.** -/
theorem vectorAdd_spec (hA : A.Meets Fits Live) (hR : A.Regrows realloc Can Live)
    (h : VectorRep A Live s B vec dataSize buf cap items.length items) (hds : 0 < dataSize.toNat)
    (hgrow : GrowFits A Can s vec) (hpos : items.length = cap → cap ≠ 0) (data : ℕ → Byte)
    (hok : vectorAdd A realloc s vec data = .ok s') :
    ∃ B' buf' cap', VectorRep A Live s' B' vec dataSize buf' cap'
      (items ++ [elemOf dataSize data]).length (items ++ [elemOf dataSize data]) ∧ cap ≤ cap' := by
  obtain ⟨s₁, hgrown, hok⟩ := Res.bind_eq_ok.mp hok
  obtain ⟨B', buf', cap', h₁, hlt, hle⟩ := vectorGrow_spec hA hR h hds hgrow hpos hgrown
  dsimp only at hok
  cases hok
  refine ⟨B', buf', cap', ?_, hle⟩
  refine h₁.storeNew hA hds data (le_refl _) hlt ?_ (by simp) ?_ ?_
  · rw [h₁.elem_addr, h₁.size]
  · intro x hx
    rw [List.getElem?_concat_length] at hx
    cases hx
    rfl
  · intro i x hx hne
    have hi := (List.getElem?_eq_some_iff.mp hx).1
    rw [List.length_append, List.length_singleton] at hi
    rwa [List.getElem?_append_left (by omega)] at hx

/-- The elements behind an insertion point move up by one. -/
theorem VectorRep.openGap (hA : A.Meets Fits Live)
    (h : VectorRep A Live s B vec dataSize buf cap items.length items) (hds : 0 < dataSize.toNat)
    {idx : Word} (hidx : idx.toNat < items.length) (hlt : items.length < cap) {y : List Byte}
    (hy : items[idx.toNat]? = some y) :
    VectorRep A Live (vecMemmove A s vec (getElemAddr A s.heap vec (idx + 1))
      (getElemAddr A s.heap vec idx)
      ((A.get s.heap vec vectorSize - idx) * A.get s.heap vec vectorDataSize)) B vec dataSize buf cap
      items.length (items.insertIdx idx.toNat y) := by
  have hcap := h.cap_lt
  have hnext : (idx + 1).toNat = idx.toNat + 1 := toNat_add_one (by omega)
  have hcount : (A.get s.heap vec vectorSize - idx).toNat = items.length - idx.toNat := by
    rw [BitVec.toNat_sub_of_le, h.size]
    rw [BitVec.le_def, h.size]
    omega
  rw [h.elem_addr, h.elem_addr, hnext, h.data_size]
  refine h.memmove hA hds (n := items.length - idx.toNat) (by omega) (by omega)
    (h.bytes_eq hcount (by omega)) ?_ ?_ ?_
  · rw [List.length_insertIdx_of_le_length (by omega)]
    omega
  · intro i x hx hlow hhigh
    rw [List.getElem?_insertIdx, if_neg (by omega), if_neg (by omega)] at hx
    rw [← hx]
    congr 1
    omega
  · intro i x hx hout
    rw [List.getElem?_insertIdx] at hx
    split_ifs at hx with h1 h2
    · exact hx
    · rw [h2, hy]
      exact hx
    · -- behind the last element
      have hi := (List.getElem?_eq_some_iff.mp hx).1
      omega

/-- **`vector_insert` inserts**, or changes nothing but the log. -/
theorem vectorInsert_spec (hA : A.Meets Fits Live) (hR : A.Regrows realloc Can Live)
    (h : VectorRep A Live s B vec dataSize buf cap items.length items) (hds : 0 < dataSize.toNat)
    {idx : Word} (hgrow : idx ≤ A.get s.heap vec vectorSize → GrowFits A Can s vec)
    (hpos : idx.toNat ≤ items.length → items.length = cap → cap ≠ 0) (data : ℕ → Byte)
    (hok : vectorInsert A realloc s vec idx data = .ok s') :
    ∃ B' buf' cap', VectorRep A Live s' B' vec dataSize buf' cap'
      (items.insertIdx idx.toNat (elemOf dataSize data)).length
      (items.insertIdx idx.toNat (elemOf dataSize data)) ∧ cap ≤ cap' := by
  unfold vectorInsert at hok
  by_cases hidx : A.get s.heap vec vectorSize < idx
  · have hout : items.length < idx.toNat := by
      rw [← h.size]
      exact hidx
    rw [if_pos hidx] at hok
    cases hok
    rw [List.insertIdx_of_length_lt hout]
    exact ⟨B, buf, cap, h.say _, le_refl cap⟩
  · have hin : idx.toNat ≤ items.length := by
      rw [← h.size]
      exact BitVec.not_lt.mp hidx
    rw [if_neg hidx] at hok
    obtain ⟨s₁, hgrown, hok⟩ := Res.bind_eq_ok.mp hok
    obtain ⟨B', buf', cap', h₁, hlt, hle⟩ :=
      vectorGrow_spec hA hR h hds (hgrow (BitVec.not_lt.mp hidx)) (hpos hin) hgrown
    dsimp only at hok
    have hlen := List.length_insertIdx_of_le_length hin (a := elemOf dataSize data)
    have hself : ∀ x, (items.insertIdx idx.toNat (elemOf dataSize data))[idx.toNat]? = some x →
        x = elemOf dataSize data := by
      intro x hx
      rw [List.getElem?_insertIdx_self, if_pos hin] at hx
      exact (Option.some.inj hx).symm
    by_cases hlast : idx ≠ A.get s₁.heap vec vectorSize
    · have hlow : idx.toNat < items.length := by
        have hne : idx.toNat ≠ items.length := by
          intro heq
          apply hlast
          rw [← BitVec.toNat_inj, heq, h₁.size]
        omega
      rw [if_pos hlast] at hok
      cases hok
      have hgap := h₁.openGap hA hds hlow hlt (List.getElem?_eq_getElem hlow)
      refine ⟨B', buf', cap', ?_, hle⟩
      refine hgap.storeNew hA hds data hin hlt (h₁.elem_addr idx) hlen hself ?_
      intro i x hx hne
      rw [List.getElem?_insertIdx, if_neg hne] at hx ⊢
      exact hx
    · have heq : idx.toNat = items.length := by
        rw [not_not.mp hlast, h₁.size]
      rw [if_neg hlast] at hok
      cases hok
      refine ⟨B', buf', cap', ?_, hle⟩
      refine h₁.storeNew hA hds data hin hlt (h₁.elem_addr idx) hlen hself ?_
      intro i x hx hne
      rw [List.getElem?_insertIdx, if_neg hne] at hx
      split_ifs at hx with h1
      · exact hx
      · have hi := (List.getElem?_eq_some_iff.mp hx).1
        omega

/-- **`vector_remove` deletes**, or changes nothing but the log. -/
theorem vectorRemove_spec (hA : A.Meets Fits Live)
    (h : VectorRep A Live s B vec dataSize buf cap items.length items) (hds : 0 < dataSize.toNat)
    (idx : Word) :
    VectorRep A Live (vectorRemove A s vec idx) B vec dataSize buf cap
      (items.eraseIdx idx.toNat).length (items.eraseIdx idx.toNat) := by
  unfold vectorRemove
  have hroom := h.room
  have hcap := h.cap_lt
  by_cases hidx : A.get s.heap vec vectorSize ≤ idx
  · have hout : items.length ≤ idx.toNat := by
      rw [← h.size]
      exact hidx
    rw [if_pos hidx, List.eraseIdx_of_length_le hout]
    exact h.say _
  have hin : idx.toNat < items.length := by
    rw [← h.size]
    exact BitVec.not_le.mp hidx
  rw [if_neg hidx]
  have hlen := List.length_eraseIdx_of_lt hin
  -- the elements behind the gap are moved down, if there are any
  have hmoved : VectorRep A Live
      (if idx ≠ A.get s.heap vec vectorSize - 1 then
        vecMemmove A s vec (getElemAddr A s.heap vec idx) (getElemAddr A s.heap vec (idx + 1))
          ((A.get s.heap vec vectorSize - idx - 1) * A.get s.heap vec vectorDataSize)
      else s) B vec dataSize buf cap items.length (items.eraseIdx idx.toNat) := by
    split
    · rename_i hlast
      have hnext : (idx + 1).toNat = idx.toNat + 1 := toNat_add_one (by omega)
      have hcount : (A.get s.heap vec vectorSize - idx - 1).toNat =
          items.length - idx.toNat - 1 := by
        have hsize := h.size
        bv_omega
      rw [h.elem_addr, h.elem_addr, hnext, h.data_size]
      refine h.memmove hA hds (n := items.length - idx.toNat - 1) (by omega) (by omega)
        (h.bytes_eq hcount (by omega)) (by omega) ?_ ?_
      · intro i x hx hlow hhigh
        rw [List.getElem?_eraseIdx, if_neg (by omega)] at hx
        rw [← hx]
        congr 1
        omega
      · intro i x hx hout
        rw [List.getElem?_eraseIdx] at hx
        split_ifs at hx with h1
        · exact hx
        · have hi := (List.getElem?_eq_some_iff.mp hx).1
          omega
    · rename_i hlast
      have hlast' : idx.toNat = items.length - 1 := by
        have hsize := h.size
        have heq := not_not.mp hlast
        bv_omega
      refine h.fewer (by omega) ?_
      intro i x hx
      rw [List.getElem?_eraseIdx] at hx
      split_ifs at hx with h1
      · exact hx
      · have hi := (List.getElem?_eq_some_iff.mp hx).1
        omega
  dsimp only
  generalize (if idx ≠ A.get s.heap vec vectorSize - 1 then
    vecMemmove A s vec (getElemAddr A s.heap vec idx) (getElemAddr A s.heap vec (idx + 1))
      ((A.get s.heap vec vectorSize - idx - 1) * A.get s.heap vec vectorDataSize) else s) = s₁ at *
  have hset := hmoved.setSize hA (A.get s₁.heap vec vectorSize - 1)
  have hcount : (A.get s₁.heap vec vectorSize - 1).toNat = (items.eraseIdx idx.toNat).length := by
    have hsize := hmoved.size
    rw [hlen]
    bv_omega
  rwa [hcount] at hset

end Ops

end Cerberos
