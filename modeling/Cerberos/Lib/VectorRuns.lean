/-
# Cerberos.Lib.VectorRuns — runs of calls on one vector.

A run creates a vector and then adds, inserts, overwrites, removes and looks up elements, at any index;
beside the state it carries the LIST the calls should have produced. In every run whose growths fit, the
vector is that list. What a growth has to meet is a parameter of the runs (`May`): the doubling of a
capacity of 0 is 0, and a product of two words may wrap, so that fewer bytes are asked for than are
written.
-/
import Cerberos.Lib.Vector
import Cerberos.Mm.KheapClient

namespace Cerberos

open Cerberos.Base

/-! ## Runs -/

/-- The states of a vector `vec` that was created with `dataSize` and `capacity`, and its list. `May s`
restricts the states in which an element may be added. -/
inductive VectorRun {σ : Type} (A : Allocator Halt σ)
    (realloc : σ → Word → Word → Res (Word × σ)) (Fits : Word → Prop) (Live : σ → Blocks → Prop)
    (May : VecState σ → Prop) (dataSize capacity vec : Word) :
    VecState σ → List (List Byte) → Prop
  | create {s s' : VecState σ} {B : Blocks} :
      Live s.heap B → s.written = [] → Fits 32 → (capacity ≠ 0 → Fits (dataSize * capacity)) →
      capacity.toNat * dataSize.toNat < 2 ^ 64 →
      vectorCreate A s dataSize capacity = .ok (vec, s') →
      VectorRun A realloc Fits Live May dataSize capacity vec s' []
  | add {s s' : VecState σ} {items : List (List Byte)} (data : ℕ → Byte) :
      VectorRun A realloc Fits Live May dataSize capacity vec s items → May s →
      vectorAdd A realloc s vec data = .ok s' →
      VectorRun A realloc Fits Live May dataSize capacity vec s' (items ++ [elemOf dataSize data])
  | insert {s s' : VecState σ} {items : List (List Byte)} (idx : Word) (data : ℕ → Byte) :
      VectorRun A realloc Fits Live May dataSize capacity vec s items →
      (idx ≤ A.get s.heap vec vectorSize → May s) →
      vectorInsert A realloc s vec idx data = .ok s' →
      VectorRun A realloc Fits Live May dataSize capacity vec s'
        (items.insertIdx idx.toNat (elemOf dataSize data))
  | set {s : VecState σ} {items : List (List Byte)} (idx : Word) (data : ℕ → Byte) :
      VectorRun A realloc Fits Live May dataSize capacity vec s items →
      VectorRun A realloc Fits Live May dataSize capacity vec (vectorSet A s vec idx data)
        (items.set idx.toNat (elemOf dataSize data))
  | remove {s : VecState σ} {items : List (List Byte)} (idx : Word) :
      VectorRun A realloc Fits Live May dataSize capacity vec s items →
      VectorRun A realloc Fits Live May dataSize capacity vec (vectorRemove A s vec idx)
        (items.eraseIdx idx.toNat)
  | get {s : VecState σ} {items : List (List Byte)} (idx : Word) :
      VectorRun A realloc Fits Live May dataSize capacity vec s items →
      VectorRun A realloc Fits Live May dataSize capacity vec (vectorGet A s vec idx).2 items

section Runs

variable {σ : Type} {A : Allocator Halt σ} {realloc : σ → Word → Word → Res (Word × σ)}
  {Fits : Word → Prop} {Can : σ → Word → Word → Prop} {Live : σ → Blocks → Prop}
  {May : VecState σ → Prop} {s : VecState σ} {B : Blocks} {dataSize capacity vec buf : Word}
  {cap : ℕ} {items : List (List Byte)}

theorem VectorRun.mono {May' : VecState σ → Prop} (hmay : ∀ s, May s → May' s)
    (h : VectorRun A realloc Fits Live May dataSize capacity vec s items) :
    VectorRun A realloc Fits Live May' dataSize capacity vec s items := by
  induction h with
  | create hlive hnew hrecord hbuffer hwrap hok => exact .create hlive hnew hrecord hbuffer hwrap hok
  | add data _ hs hok ih => exact .add data ih (hmay _ hs) hok
  | insert idx data _ hs hok ih => exact .insert idx data ih (fun hidx => hmay _ (hs hidx)) hok
  | set idx data _ ih => exact .set idx data ih
  | remove idx _ ih => exact .remove idx ih
  | get idx _ ih => exact .get idx ih

/-- **The invariant of a run.** A growth that starts from no capacity must be ruled out, by the first
capacity or by `May`. -/
theorem VectorRun.rep (hA : A.Meets Fits Live) (hR : A.Regrows realloc Can Live)
    (hds : 0 < dataSize.toNat) (hzero : capacity = 0 → A.ZeroOk Live)
    (hfits : ∀ s, May s → GrowFits A Can s vec)
    (hpos : capacity ≠ 0 ∨ ∀ s, May s → A.get s.heap vec vectorSize =
      A.get s.heap vec vectorCapacity → A.get s.heap vec vectorCapacity ≠ 0)
    (h : VectorRun A realloc Fits Live May dataSize capacity vec s items) :
    ∃ B buf cap, VectorRep A Live s B vec dataSize buf cap items.length items ∧
      capacity.toNat ≤ cap := by
  -- an element is added to a full vector only if the vector has a capacity
  have hgrows : ∀ {s B buf cap} {items : List (List Byte)},
      VectorRep A Live s B vec dataSize buf cap items.length items → capacity.toNat ≤ cap → May s →
      items.length = cap → cap ≠ 0 := by
    intro s B buf cap items hrep hle hmay hlen hcap
    rcases hpos with hne | hne
    · apply hne
      apply BitVec.eq_of_toNat_eq
      show capacity.toNat = 0
      omega
    · refine hne s hmay ?_ ?_
      · rw [← BitVec.toNat_inj, hrep.size, hrep.capacity, hlen]
      · apply BitVec.eq_of_toNat_eq
        rw [hrep.capacity, hcap]
        rfl
  induction h with
  | create hlive hnew hrecord hbuffer hwrap hok =>
      obtain ⟨B', buf', hrep⟩ := vectorCreate_spec hA hlive hnew hzero hrecord hbuffer hwrap hok
      exact ⟨B', buf', _, hrep, le_refl _⟩
  | add data _ hmay hok ih =>
      obtain ⟨B, buf, cap, hrep, hle⟩ := ih
      obtain ⟨B', buf', cap', hrep', hle'⟩ := vectorAdd_spec hA hR hrep hds (hfits _ hmay)
        (hgrows hrep hle hmay) data hok
      exact ⟨B', buf', cap', hrep', hle.trans hle'⟩
  | insert idx data _ hmay hok ih =>
      obtain ⟨B, buf, cap, hrep, hle⟩ := ih
      have hmay' : idx.toNat ≤ _ → _ := fun hidx => hmay (by rw [BitVec.le_def, hrep.size]; exact hidx)
      obtain ⟨B', buf', cap', hrep', hle'⟩ := vectorInsert_spec hA hR hrep hds
        (fun hidx => hfits _ (hmay hidx)) (fun hidx => hgrows hrep hle (hmay' hidx)) data hok
      exact ⟨B', buf', cap', hrep', hle.trans hle'⟩
  | set idx data _ ih =>
      obtain ⟨B, buf, cap, hrep, hle⟩ := ih
      exact ⟨B, buf, cap, vectorSet_spec hA hrep hds idx data, hle⟩
  | remove idx _ ih =>
      obtain ⟨B, buf, cap, hrep, hle⟩ := ih
      exact ⟨B, buf, cap, vectorRemove_spec hA hrep hds idx, hle⟩
  | get idx _ ih =>
      obtain ⟨B, buf, cap, hrep, hle⟩ := ih
      refine ⟨B, buf, cap, ?_, hle⟩
      unfold vectorGet
      split
      · exact hrep.say _
      · exact hrep

/-! ## The vector is a list -/

/-- **The vector behaves as the list `items`.** Its buffer starts with the elements, one after the
other; `vector_get` addresses them; a call with an index out of range only writes to the log; and the
calls that grow return whenever the reallocation does. -/
structure IsVector (A : Allocator Halt σ) (realloc : σ → Word → Word → Res (Word × σ))
    (s : VecState σ) (vec dataSize : Word) (items : List (List Byte)) : Prop where
  size : (A.get s.heap vec vectorSize).toNat = items.length
  width : ∀ x ∈ items, x.length = dataSize.toNat
  bytes : blockBytes (A.mem s.heap) (A.get s.heap vec vectorBuf) (items.length * dataSize.toNat) =
    items.flatten
  get : ∀ idx : Word, idx.toNat < items.length →
    vectorGet A s vec idx =
      (A.get s.heap vec vectorBuf + BitVec.ofNat 64 (idx.toNat * dataSize.toNat), s) ∧
    items[idx.toNat]? = some (blockBytes (A.mem s.heap) (vectorGet A s vec idx).1 dataSize.toNat)
  out_of_range : ∀ idx : Word, items.length ≤ idx.toNat →
    (∃ msg, vectorGet A s vec idx = (null, s.say msg)) ∧
    (∃ msg, ∀ data, vectorSet A s vec idx data = s.say msg) ∧
    ∃ msg, vectorRemove A s vec idx = s.say msg
  insert_out_of_range : ∀ idx : Word, items.length < idx.toNat →
    ∃ msg, ∀ data, vectorInsert A realloc s vec idx data = .ok (s.say msg)
  returns : (∀ heap ptr size, ∃ r, realloc heap ptr size = .ok r) → ∀ (idx : Word) (data : ℕ → Byte),
    (∃ s', vectorAdd A realloc s vec data = .ok s') ∧
    ∃ s', vectorInsert A realloc s vec idx data = .ok s'

theorem vectorGrow_returns (hret : ∀ heap ptr size, ∃ r, realloc heap ptr size = .ok r)
    (s : VecState σ) (vec : Word) : ∃ s', vectorGrow A realloc s vec = .ok s' := by
  unfold vectorGrow
  split
  · obtain ⟨r, hr⟩ := hret _ _ _
    exact ⟨_, Res.bind_eq_ok.mpr ⟨r, hr, rfl⟩⟩
  · exact ⟨s, rfl⟩

theorem VectorRep.isVector (h : VectorRep A Live s B vec dataSize buf cap items.length items) :
    IsVector A realloc s vec dataSize items := by
  constructor
  case size => exact h.size
  case width =>
    intro x hx
    obtain ⟨i, hi⟩ := List.mem_iff_getElem?.mp hx
    rw [← h.elems i x hi, blockBytes, List.length_map, List.length_range]
  case bytes =>
    rw [h.buf_eq]
    exact h.elems.flatten
  case get =>
    intro idx hidx
    have hin : ¬ A.get s.heap vec vectorSize ≤ idx := by
      rw [BitVec.le_def, h.size]
      omega
    have hget : vectorGet A s vec idx =
        (A.get s.heap vec vectorBuf + BitVec.ofNat 64 (idx.toNat * dataSize.toNat), s) := by
      unfold vectorGet
      rw [if_neg hin, h.elem_addr, h.buf_eq]
    refine ⟨hget, ?_⟩
    rw [hget, h.buf_eq, h.elems idx.toNat _ (List.getElem?_eq_getElem hidx)]
    exact List.getElem?_eq_getElem hidx
  case out_of_range =>
    intro idx hidx
    have hout : A.get s.heap vec vectorSize ≤ idx := by
      rw [BitVec.le_def, h.size]
      exact hidx
    unfold vectorGet vectorSet vectorRemove
    simp only [if_pos hout]
    exact ⟨⟨_, rfl⟩, ⟨_, fun _ => rfl⟩, ⟨_, rfl⟩⟩
  case insert_out_of_range =>
    intro idx hidx
    have hout : A.get s.heap vec vectorSize < idx := by
      rw [BitVec.lt_def, h.size]
      exact hidx
    unfold vectorInsert
    simp only [if_pos hout]
    exact ⟨_, fun _ => rfl⟩
  case returns =>
    intro hret idx data
    obtain ⟨s₁, hgrown⟩ := vectorGrow_returns (A := A) hret s vec
    refine ⟨⟨_, Res.bind_eq_ok.mpr ⟨s₁, hgrown, rfl⟩⟩, ?_⟩
    unfold vectorInsert
    split
    · exact ⟨_, rfl⟩
    · exact ⟨_, Res.bind_eq_ok.mpr ⟨s₁, hgrown, rfl⟩⟩

/-- **A vector is a list.** In every run of a vector with a positive element size and first capacity,
whose growths do not wrap and meet the contract of the allocator, every state behaves as the list that
appending, inserting, overwriting and deleting give. -/
theorem vectorRun_isVector (hA : A.Meets Fits Live) (hR : A.Regrows realloc Can Live)
    (hds : 1 ≤ dataSize.toNat) (hcap : 1 ≤ capacity.toNat)
    (h : VectorRun A realloc Fits Live (fun s => GrowFits A Can s vec) dataSize capacity vec s items) :
    IsVector A realloc s vec dataSize items := by
  have hne : capacity ≠ 0 := by
    rintro rfl
    exact absurd hcap (by decide)
  obtain ⟨B, buf, cap, hrep, -⟩ := h.rep hA hR hds (fun h0 => absurd h0 hne) (fun _ hs => hs) (.inl hne)
  exact hrep.isVector

end Runs

/-! ## The vector on the kernel heap -/

/-- If the vector is full, it has a capacity, the growth does not wrap, and `krealloc` serves it without
a cut. -/
def GrowthOk (vec : Word) (s : VecState Kernel) : Prop :=
  (kernelHeap.get s.heap vec vectorSize = kernelHeap.get s.heap vec vectorCapacity →
    kernelHeap.get s.heap vec vectorCapacity ≠ 0) ∧ GrowFits kernelHeap ReallocOk s vec

instance (vec : Word) (s : VecState Kernel) : Decidable (GrowthOk vec s) := by
  unfold GrowthOk GrowFits
  infer_instance

/-- Runs of a vector over `kmalloc` and `krealloc`. -/
abbrev KernelVectorRun (May : VecState Kernel → Prop) (dataSize capacity vec : Word) :
    VecState Kernel → List (List Byte) → Prop :=
  VectorRun kernelHeap krealloc SizeOk ClientLive May dataSize capacity vec

/-- **The writes of the vector stay inside the buffer**: its size is at most its capacity, and every
byte that was stored so far was one of the bytes last asked for. -/
def InBuffer (vec : Word) (s : VecState Kernel) : Prop :=
  kernelHeap.get s.heap vec vectorSize ≤ kernelHeap.get s.heap vec vectorCapacity ∧
    ∀ span ∈ s.written, span.Within

/-- **In every run whose growths are served the writes stay inside the buffer**, from every first
capacity. -/
theorem kernelVectorRun_inBuffer {dataSize capacity vec : Word} (hds : 1 ≤ dataSize.toNat)
    {s : VecState Kernel} {items : List (List Byte)}
    (h : KernelVectorRun (GrowthOk vec) dataSize capacity vec s items) : InBuffer vec s := by
  obtain ⟨B, buf, cap, hrep, -⟩ := h.rep clientOk_heapInv.meets kernelHeap_regrows hds
    (fun _ => kernelHeap_zeroOk) (fun _ hs => hs.2) (.inr fun _ hs => hs.1)
  refine ⟨?_, hrep.within⟩
  rw [BitVec.le_def, hrep.size, hrep.capacity]
  exact hrep.room

/-! ### On the small machine -/

/-- A vector of eight-byte elements with room for one: one is added, and one is inserted before it. -/
def smallVector : Res (VecState Kernel) := do
  let k ← kheapInit smallKernel smallHandover 1
  let (vec, s₁) ← vectorCreate kernelHeap ⟨k, [], 0, []⟩ 8 1
  let s₂ ← vectorAdd kernelHeap krealloc s₁ vec fun _ => 7
  let s₃ ← vectorInsert kernelHeap krealloc s₂ vec 0 fun _ => 9
  if GrowthOk vec s₁ ∧ GrowthOk vec s₂ then .ok s₃ else .error .fault

theorem smallVector_run : ∃ vec s, KernelVectorRun (GrowthOk vec) 8 1 vec s
    [List.replicate 8 9, List.replicate 8 7] := by
  obtain ⟨r, h⟩ := Res.exists_of_isOk (x := smallVector) (by decide +kernel)
  obtain ⟨k, hinit, h⟩ := Res.bind_eq_ok.mp h
  obtain ⟨⟨vec, s₁⟩, hcreate, h⟩ := Res.bind_eq_ok.mp h
  obtain ⟨s₂, hadd, h⟩ := Res.bind_eq_ok.mp h
  obtain ⟨s₃, hinsert, h⟩ := Res.bind_eq_ok.mp h
  have hgrow := Res.of_check h
  have hlive := clientLive_init smallPmm_booted (by decide) hinit
  have hrun₁ : KernelVectorRun (GrowthOk vec) 8 1 vec s₁ [] :=
    .create hlive rfl (by decide) (fun _ => by decide) (by decide) hcreate
  have hrun₂ := VectorRun.add (fun _ => 7) hrun₁ hgrow.1 hadd
  exact ⟨vec, s₃, .insert 0 (fun _ => 9) hrun₂ (fun _ => hgrow.2) hinsert⟩

/-- The insertion grows the vector and puts the new element first. -/
theorem vectorRun_isVector_small : ∃ vec s, IsVector kernelHeap krealloc s vec 8
    [List.replicate 8 9, List.replicate 8 7] := by
  obtain ⟨vec, s, hrun⟩ := smallVector_run
  exact ⟨vec, s, vectorRun_isVector clientOk_heapInv.meets kernelHeap_regrows (by decide) (by decide)
    (hrun.mono fun _ hs => hs.2)⟩

/-- The same run stays inside the buffer. -/
theorem kernelVectorRun_inBuffer_small : ∃ vec s, KernelVectorRun (GrowthOk vec) 8 1 vec s
    [List.replicate 8 9, List.replicate 8 7] ∧ InBuffer vec s := by
  obtain ⟨vec, s, hrun⟩ := smallVector_run
  exact ⟨vec, s, hrun, kernelVectorRun_inBuffer (by decide) hrun⟩

/-- **A product that wraps.** For `2 ^ 61 + 1` elements of eight bytes `vector_create` asks for eight bytes.
The vector is far from full, so nothing grows, and its second element is stored behind them. -/
theorem vector_product_wraps : ∃ k vec s₁ s₂ s₃, kheapInit smallKernel smallHandover 1 = .ok k ∧
    vectorCreate kernelHeap ⟨k, [], 0, []⟩ 8 (2 ^ 61 + 1) = .ok (vec, s₁) ∧
    vectorAdd kernelHeap krealloc s₁ vec (fun _ => 7) = .ok s₂ ∧
    vectorAdd kernelHeap krealloc s₂ vec (fun _ => 9) = .ok s₃ ∧
    ∃ span ∈ s₃.written, ¬ span.Within := by
  have hcall : (do
      let k ← kheapInit smallKernel smallHandover 1
      let (vec, s₁) ← vectorCreate kernelHeap ⟨k, [], 0, []⟩ 8 (2 ^ 61 + 1)
      let s₂ ← vectorAdd kernelHeap krealloc s₁ vec fun _ => 7
      let s₃ ← vectorAdd kernelHeap krealloc s₂ vec fun _ => 9
      if ∃ span ∈ s₃.written, ¬ span.Within then .ok () else .error .fault : Res Unit).isOk = true := by
    decide +kernel
  obtain ⟨r, h⟩ := Res.exists_of_isOk hcall
  obtain ⟨k, hinit, h⟩ := Res.bind_eq_ok.mp h
  obtain ⟨⟨vec, s₁⟩, hcreate, h⟩ := Res.bind_eq_ok.mp h
  obtain ⟨s₂, hadd, h⟩ := Res.bind_eq_ok.mp h
  obtain ⟨s₃, hadd', h⟩ := Res.bind_eq_ok.mp h
  exact ⟨k, vec, s₁, s₂, s₃, hinit, hcreate, hadd, hadd', Res.of_check h⟩

end Cerberos
