/-
# Cerberos.Mm.KheapReallocRuns — what a client of `krealloc` can rely on.

`split` returns the UPPER part of a block and puts it on the free list: right for `kmalloc`, which
takes it off again, wrong for `krealloc`, which hands it to the caller as it is. So a reallocation that
cuts returns a block that is free and holds other bytes. Both facts about `krealloc` below are exact in
this: data is preserved for every payload exactly when nothing is cut, and in runs that never cut the
result belongs to the caller until it is freed.
-/
import Cerberos.Mm.KheapRuns

namespace Cerberos

open Cerberos.Base

/-! ## Filling a payload -/

/-- The kernel with the bytes `c` in the payload of `n` bytes at `ptr`. -/
def Kernel.fill (k : Kernel) (ptr : Word) (c : ℕ → Byte) (n : ℕ) : Kernel :=
  { k with heap := k.heap.withMem (fillBytes k.heap.mem ptr c n) }

theorem fillBytes_payload {m : Mem} {b : Blk}
    (hfit : b.hdr.toNat + 40 + b.size.toNat ≤ 2 ^ 64) (c : ℕ → Byte) :
    (∀ i < b.size.toNat, fillBytes m (blockStartAddr b.hdr) c b.size.toNat
      (blockStartAddr b.hdr + BitVec.ofNat 64 i) = c i) ∧
      ∀ x, ¬ b.Payload x → fillBytes m (blockStartAddr b.hdr) c b.size.toNat x = m x := by
  refine ⟨fun i hi => fillBytes_apply_add _ _ _ (by omega) hi, ?_⟩
  intro x hx
  rcases Nat.eq_zero_or_pos b.size.toNat with hz | hpos
  · rw [hz]
    rfl
  · have hstart : (blockStartAddr b.hdr).toNat = b.hdr.toNat + 40 := by
      rw [blockStartAddr, BitVec.toNat_add, show hdrSize.toNat = 40 from rfl]
      omega
    apply fillBytes_apply_of_outside (by omega)
    unfold Blk.Payload at hx
    omega

theorem Rep.fill {s : Kheap} {L : List Blk} {F : List Word} (h : Rep s L F) {b : Blk} (hb : b ∈ L)
    (c : ℕ → Byte) :
    Rep (s.withMem (fillBytes s.mem (blockStartAddr b.hdr) c b.size.toNat)) L F := by
  refine h.congr ?_ rfl rfl rfl
  intro x hx g
  refine h.tiled.get_of_outside ?_ hx g
  rintro y ⟨z, hz, h1, h2⟩
  refine (fillBytes_payload (h.tiled.fits hb).2 c).2 y fun hy => ?_
  have := h.tiled.payload_outside hb hy z hz
  omega

/-! ## The byte a cut returns first -/

theorem read64_first_byte (m : Mem) (a : Word) : (read64 m a).extractLsb' 0 8 = m a := by
  apply BitVec.eq_of_getLsbD_eq
  intro i hi
  rw [BitVec.getLsbD_extractLsb', Nat.zero_add, read64_getLsbD _ _ (by omega),
    Nat.div_eq_of_lt hi, Nat.mod_eq_of_lt hi]
  simp [hi]

/-- A word of a header, by its distance from the header. -/
theorem Field.exists_offset {d : ℕ} (hd : d < 40) (h8 : d % 8 = 0) :
    ∃ g : Field, g.offset = BitVec.ofNat 64 d := by
  have hcases : d = 0 ∨ d = 8 ∨ d = 16 ∨ d = 24 ∨ d = 32 := by omega
  rcases hcases with rfl | rfl | rfl | rfl | rfl
  · exact ⟨.next, rfl⟩
  · exact ⟨.prev, rfl⟩
  · exact ⟨.freeNext, rfl⟩
  · exact ⟨.freePrev, rfl⟩
  · exact ⟨.size, rfl⟩

/-- Beyond the old payload, the bytes of the widened block do not depend on the old payload. -/
theorem mergeRight_beyond {s : Kheap} {A C : List Blk} {b : Blk} {F : List Word}
    (h : Rep s (A ++ b :: C) F) {d : ℕ} (hd : d % 8 = 0) (hlow : b.size.toNat ≤ d)
    (hhigh : d < (fuseRight b C).1.size.toNat) :
    ∃ v : Byte, ∀ c : ℕ → Byte,
      (mergeRight (s.withMem (fillBytes s.mem (blockStartAddr b.hdr) c b.size.toNat)) b.hdr).2.mem
        (blockStartAddr b.hdr + BitVec.ofNat 64 d) = v := by
  have hbm : b ∈ A ++ b :: C := by simp
  have hfitb := (h.tiled.fits hbm).2
  rcases fuseRight_cases b C with ⟨heq, -⟩ | ⟨r, C', rfl, hr, heq⟩
  · rw [heq] at hhigh
    exact absurd hhigh (Nat.not_lt.mpr hlow)
  · rw [heq, h.tiled.fuse.1] at hhigh
    have hrm : r ∈ A ++ b :: r :: C' := by simp
    have hfitr := (h.tiled.fits hrm).2
    have hb8 := h.sizes b hbm
    have hrhdr : r.hdr = b.hdr + hdrSize + b.size := h.tiled.firstHdr_eq
    have hrpos : r.hdr.toNat = b.hdr.toNat + 40 + b.size.toNat := by
      have := (h.tiled.split_at).2.1
      simp only [Blk.pos, Blk.ext] at this
      omega
    have hx : (blockStartAddr b.hdr + BitVec.ofNat 64 d).toNat = b.hdr.toNat + 40 + d := by
      rw [blockStartAddr, BitVec.toNat_add, BitVec.toNat_add, BitVec.toNat_ofNat,
        show hdrSize.toNat = 40 from rfl]
      omega
    by_cases hin : d < b.size.toNat + 40
    · -- a word of the swallowed header
      obtain ⟨g, hg⟩ := Field.exists_offset (d := d - b.size.toNat) (by omega) (by omega)
      have haddr : blockStartAddr b.hdr + BitVec.ofNat 64 d = r.hdr + g.offset := by
        apply BitVec.eq_of_toNat_eq
        rw [hx, hg, BitVec.toNat_add, BitVec.toNat_ofNat, hrpos]
        omega
      refine ⟨(if g = .freeNext ∨ g = .freePrev then null else s.get r.hdr g).extractLsb' 0 8, ?_⟩
      intro c
      have hc := h.fill hbm c
      have hsw := hc.mergeRight_swallowed hr g
      have hsame : (s.withMem (fillBytes s.mem (blockStartAddr b.hdr) c b.size.toNat)).get r.hdr g =
          s.get r.hdr g := by
        refine h.tiled.get_of_outside ?_ hrm g
        rintro y ⟨z, hz, h1, h2⟩
        refine (fillBytes_payload hfitb c).2 y fun hy => ?_
        have := h.tiled.payload_outside hbm hy z hz
        omega
      rw [hsame] at hsw
      rw [haddr, ← hsw]
      exact (read64_first_byte _ _).symm
    · refine ⟨s.mem (blockStartAddr b.hdr + BitVec.ofNat 64 d), ?_⟩
      intro c
      obtain ⟨s', -, hmerge, -, hedit⟩ := (h.fill hbm c).mergeRight_spec
      have hpay : r.Payload (blockStartAddr b.hdr + BitVec.ofNat 64 d) := by
        refine ⟨?_, ?_⟩ <;> rw [hx] <;> omega
      rw [hmerge, hedit.frame _ (h.tiled.payload_outside hrm hpay)]
      refine (fillBytes_payload hfitb c).2 _ ?_
      rintro ⟨-, h2⟩
      rw [hx] at h2
      omega

/-! ## Data -/

/-- **`krealloc(ptr, size)` preserves data**: the block it returns has `size` bytes, its first bytes
are those of the old payload, and the other live payloads are unchanged. -/
def ReallocPreserves (k : Kernel) (live : List (Word × Word)) (ptr size : Word) : Prop :=
  ∀ q k', krealloc k ptr size = .ok (q, k') →
    (∃ b ∈ blockList k'.heap, q = blockStartAddr b.hdr ∧ size.toNat ≤ b.size.toNat) ∧
    (∀ i < min (k.heap.get (ptr - hdrSize) .size).toNat size.toNat,
      k'.heap.mem (q + BitVec.ofNat 64 i) = k.heap.mem (ptr + BitVec.ofNat 64 i)) ∧
    ∀ a ∈ live, a.1 ≠ ptr → ∀ i < a.2.toNat,
      k'.heap.mem (a.1 + BitVec.ofNat 64 i) = k.heap.mem (a.1 + BitVec.ofNat 64 i)

/-- Without a cut the data is preserved. -/
theorem reallocPreserves_of_noSplit {k : Kernel} {live : List (Word × Word)} {L : List Blk}
    {F : List Word} (h : Rep k.heap L F) (hroom : HeapRoom k) (hlive : LiveOk live L) {b : Blk}
    (hb : b ∈ L) (hused : b.free = false) {size : Word} (hsize : SizeOk size)
    (hns : NoSplit k.heap (blockStartAddr b.hdr) size) :
    ReallocPreserves k live (blockStartAddr b.hdr) size := by
  intro q k' hok
  obtain ⟨L', F', u, hr⟩ := (krealloc_noSplit h hroom hb hused hsize hns).2 q k' hok
  refine ⟨?_, ?_, ?_⟩
  · rw [hr.rep.blockList_eq]
    exact ⟨u, hr.mem, hr.ptr, hr.fits⟩
  · intro i hi
    rw [blockStartAddr_sub, h.get_size hb] at hi
    exact hr.copied i (lt_of_lt_of_le hi (Nat.min_le_left _ _))
  · intro a ha hne i hi
    obtain ⟨x, hx, hocc⟩ := hlive.block a ha
    have hxb : x ≠ b := by
      rintro rfl
      exact hne hocc.2.1
    exact hr.keeps x hx hocc.1 hxb _ (hocc.payload (h.tiled.fits hx).2 hi)

/-- The widened block fits the address space. -/
theorem fuseRight_fits {s : Kheap} {A C : List Blk} {b : Blk} {F : List Word}
    (h : Rep s (A ++ b :: C) F) : s.kheapTop.toNat ≤ (fuseRight b C).1.hdr.toNat ∧
      (fuseRight b C).1.hdr.toNat + 40 + (fuseRight b C).1.size.toNat ≤ 2 ^ 64 := by
  obtain ⟨s', F', -, hrep, hedit⟩ := h.mergeRight_spec
  rw [← hedit.top]
  exact hrep.tiled.fits (by simp)

/-- With a cut some payload is lost: the first byte returned does not depend on the first byte of
the old payload. -/
theorem not_reallocPreserves_of_cut {k : Kernel} (live : List (Word × Word)) {A C : List Blk}
    {b : Blk} {F : List Word} (h : Rep k.heap (A ++ b :: C) F) (hused : b.free = false)
    (hpos : 0 < b.size.toNat) {size : Word} (hsize : SizeOk size)
    (hle : size ≤ (fuseRight b C).1.size)
    (hcut : ¬ (fuseRight b C).1.size - alignUp size 8 < hdrSize + kheapMinFreeSize) :
    ∃ c : ℕ → Byte, ¬ ReallocPreserves (k.fill (blockStartAddr b.hdr) c b.size.toNat) live
      (blockStartAddr b.hdr) size := by
  have hbm : b ∈ A ++ b :: C := by simp
  have hfitb := (h.tiled.fits hbm).2
  have hn := hsize.toNat_alignUp
  have h1 := hsize.1
  -- the first byte returned is `d` bytes into the widened block
  generalize hd : (fuseRight b C).1.size.toNat - (alignUp size 8).toNat = d
  have hS8 : (fuseRight b C).1.size.toNat % 8 = 0 := by
    obtain ⟨s', F', -, hrep, -⟩ := h.mergeRight_spec
    exact hrep.sizes _ (by simp)
  have hle' : size.toNat ≤ (fuseRight b C).1.size.toNat := hle
  have hnle : (alignUp size 8).toNat ≤ (fuseRight b C).1.size.toNat := by omega
  have hd48 : 41 ≤ d := by
    rw [BitVec.lt_def, BitVec.toNat_sub_of_le hnle, hd,
      show (hdrSize + kheapMinFreeSize).toNat = 41 from rfl] at hcut
    omega
  have hfirst : ∃ v : Byte, ∀ c : ℕ → Byte, (d < b.size.toNat → c d = v) →
      (mergeRight (k.fill (blockStartAddr b.hdr) c b.size.toNat).heap b.hdr).2.mem
        (blockStartAddr b.hdr + BitVec.ofNat 64 d) = v := by
    by_cases hin : d < b.size.toNat
    · refine ⟨0, ?_⟩
      intro c hc
      obtain ⟨s', -, hmerge, -, hedit⟩ := (h.fill hbm c).mergeRight_spec
      have hpay := (Blk.payload_index hfitb hin).1
      have hfr := hedit.frame _ (h.tiled.payload_outside hbm hpay)
      have hfill := (fillBytes_payload (m := k.heap.mem) hfitb c).1 d hin
      show (mergeRight (k.heap.withMem _) b.hdr).2.mem _ = 0
      rw [hmerge]
      exact hfr.trans (hfill.trans (hc hin))
    · obtain ⟨v, hv⟩ := mergeRight_beyond h (d := d) (by omega) (by omega) (by omega)
      exact ⟨v, fun c _ => hv c⟩
  obtain ⟨v, hv⟩ := hfirst
  refine ⟨fun i => if i = 0 then v + 1 else v, ?_⟩
  intro hpres
  have hc := h.fill hbm (fun i => if i = 0 then v + 1 else v)
  have hv := hv (fun i => if i = 0 then v + 1 else v) fun _ => if_neg (by omega)
  obtain ⟨s₁, F₁, s', hmerge, -, hcall, hrep', hedit'⟩ := krealloc_cut (k := k.fill _ _ _) hc hused
    hsize hle hcut
  rw [hmerge] at hv
  obtain ⟨-, hbytes, -⟩ := hpres _ _ hcall
  have hget : (k.fill (blockStartAddr b.hdr) (fun i => if i = 0 then v + 1 else v)
      b.size.toNat).heap.get (blockStartAddr b.hdr - hdrSize) .size = b.size := by
    rw [blockStartAddr_sub]
    exact hc.get_size hbm
  have hzero := hbytes 0 (by rw [hget]; omega)
  have hold : (k.fill (blockStartAddr b.hdr) (fun i => if i = 0 then v + 1 else v)
      b.size.toNat).heap.mem (blockStartAddr b.hdr + BitVec.ofNat 64 0) = v + 1 :=
    (fillBytes_payload (m := k.heap.mem) hfitb _).1 0 hpos
  have hnew : s'.mem (blockStartAddr ((fuseRight b C).1.high (alignUp size 8)).hdr +
      BitVec.ofNat 64 0) = v := by
    have hmem : ((fuseRight b C).1.high (alignUp size 8)).mark true ∈
        A ++ (fuseRight b C).1.low (alignUp size 8) ::
          ((fuseRight b C).1.high (alignUp size 8)).mark true :: (fuseRight b C).2 := by simp
    have hfit' := (hrep'.tiled.fits hmem).2
    obtain ⟨hpay, haddr⟩ := Blk.payload_index hfit' (i := 0) (by
      show 0 < (alignUp size 8).toNat
      omega)
    have hout := hrep'.tiled.payload_outside hmem hpay
    have hhdrs := hdrs_mark (A ++ [(fuseRight b C).1.low (alignUp size 8)]) (fuseRight b C).2
      ((fuseRight b C).1.high (alignUp size 8)) true
    simp only [List.append_assoc, List.singleton_append] at hhdrs
    rw [hhdrs] at hout
    refine (hedit'.frame _ hout).trans ?_
    rw [← hv]
    congr 1
    apply BitVec.eq_of_toNat_eq
    have hplace := (Blk.payload_index (fuseRight_fits h).2 (i := d) (by omega)).2
    have hhigh := Blk.high_hdr (b := (fuseRight b C).1) (n := alignUp size 8) (by omega)
      (fuseRight_fits h).2
    rw [(fuseRight_hdr b C).1] at hhigh hplace
    rw [haddr, hplace]
    show ((fuseRight b C).1.high (alignUp size 8)).hdr.toNat + 40 + 0 = _
    rw [hhigh]
    omega
  have hcontra : v = v + 1 := hnew.symm.trans (hzero.trans hold)
  have hone := congrArg (· - v) hcontra
  simp at hone

/-- **`krealloc` preserves every payload exactly when it cuts nothing.** -/
theorem krealloc_preserves_iff {k : Kernel} {live : List (Word × Word)} (h : AllocRun k live)
    {a : Word × Word} (ha : a ∈ live) {size : Word} (hsize : SizeOk size) :
    (∀ c : ℕ → Byte, ReallocPreserves
      (k.fill a.1 c (k.heap.get (a.1 - hdrSize) .size).toNat) live a.1 size) ↔
      NoSplit k.heap a.1 size := by
  obtain ⟨L, F, hrun⟩ := h.ok
  obtain ⟨b, hb, hocc⟩ := hrun.live_ok.block a ha
  have hpos := h.size_pos a ha
  have hbpos : 0 < b.size.toNat := by
    have := hocc.2.2
    omega
  obtain ⟨A, C, rfl⟩ := List.append_of_mem hb
  rw [hocc.2.1, blockStartAddr_sub, hrun.rep.get_size hb]
  constructor
  · intro hall
    by_contra hns
    unfold NoSplit at hns
    rw [blockStartAddr_sub, hrun.rep.mergedSize_eq, not_or, BitVec.not_lt] at hns
    obtain ⟨c, hc⟩ := not_reallocPreserves_of_cut live hrun.rep hocc.1 hbpos hsize hns.1 hns.2
    exact hc (hall c)
  · intro hns c
    have hrep := hrun.rep.fill hb c
    refine reallocPreserves_of_noSplit (k := k.fill _ c _) hrep (hrun.room.of_eq rfl rfl)
      hrun.live_ok hb hocc.1 hsize ?_
    unfold NoSplit at hns ⊢
    rw [blockStartAddr_sub, hrun.rep.mergedSize_eq] at hns
    rw [blockStartAddr_sub]
    exact hrep.mergedSize_eq ▸ hns

/-- The small machine after an allocation of 2048 bytes into which the client stored a first byte. -/
def smallStored : Res (Word × Kernel) := do
  let (p, k) ← smallMalloc
  .ok (p, k.store p 1)

theorem smallStored_run : ∃ p k, smallStored = .ok (p, k) ∧ AllocRun k [(p, 2048)] := by
  obtain ⟨k, p, k', hk, hp⟩ := smallMalloc_returns
  have hrun : AllocRun k' [(p, 2048)] :=
    .kmalloc (.init smallPmm_booted (by decide) hk) (by decide) hp
  have hwrite := AllocRun.write (i := 0) 1 hrun List.mem_cons_self
    (show 0 < (2048 : Word).toNat by decide)
  refine ⟨p, k'.store p 1, ?_, ?_⟩
  · have hm : smallMalloc = .ok (p, k') := Res.bind_eq_ok.mpr ⟨k, hk, hp⟩
    unfold smallStored
    rw [hm]
    rfl
  · simpa using hwrite

/-- On the small machine the second block cannot grow in place: its reallocation to 128 bytes cuts
nothing and moves it. -/
theorem smallMallocs_grow {p q : Word} {k : Kernel} (h : smallMallocs = .ok (p, q, k)) :
    NoSplit k.heap q 128 ∧ ∃ r k', krealloc k q 128 = .ok (r, k') ∧ r ≠ null ∧ r ≠ q := by
  have hcall : (do
      -- the block above `q` is in use, so there is nothing to merge with
      let (_, q, k) ← smallMallocs
      let (r, _) ← krealloc k q 128
      .ok (decide (NoSplit k.heap q 128 ∧ r ≠ null ∧ r ≠ q)) : Res Bool) = .ok true := by
    decide +kernel
  replace hcall := Res.after h hcall
  obtain ⟨⟨r, k'⟩, hcall, hmoves⟩ := Res.bind_eq_ok.mp hcall
  injection hmoves with hmoves
  obtain ⟨hns, hmoved⟩ := of_decide_eq_true hmoves
  exact ⟨hns, r, k', hcall, hmoved⟩

/-- The second of two live blocks grows from 64 to 128 bytes by moving, whatever its contents. -/
theorem krealloc_preserves_iff_small : ∃ k p q, AllocRun k [(q, 64), (p, 2048)] ∧
    NoSplit k.heap q 128 ∧ (∃ r k', krealloc k q 128 = .ok (r, k') ∧ r ≠ null ∧ r ≠ q) ∧
    ∀ c : ℕ → Byte, ReallocPreserves (k.fill q c (k.heap.get (q - hdrSize) .size).toNat)
      [(q, 64), (p, 2048)] q 128 := by
  obtain ⟨p, q, k, hok, hrun⟩ := smallMallocs_run
  obtain ⟨hns, hmoves⟩ := smallMallocs_grow hok
  exact ⟨k, p, q, hrun, hns, hmoves,
    (krealloc_preserves_iff hrun List.mem_cons_self (by decide)).mpr hns⟩

/-- **Shrinking to 8 bytes loses the first byte.** -/
theorem krealloc_loses_data : ∃ k p, AllocRun k [(p, 2048)] ∧
    ¬ ReallocPreserves k [(p, 2048)] p 8 := by
  obtain ⟨p, k, hok, hrun⟩ := smallStored_run
  refine ⟨k, p, hrun, ?_⟩
  intro hpres
  have hrealloc : (do
      let (p, k) ← smallStored
      let (q, k') ← krealloc k p 8
      .ok (decide (0 < min (k.heap.get (p - hdrSize) .size).toNat 8 ∧
        k'.heap.mem q ≠ k.heap.mem p)) : Res Bool) = .ok true := by
    decide +kernel
  replace hrealloc := Res.after hok hrealloc
  obtain ⟨⟨q, k'⟩, hcall, hdiff⟩ := Res.bind_eq_ok.mp hrealloc
  injection hdiff with hdiff
  obtain ⟨hpos, hne⟩ := of_decide_eq_true hdiff
  have hbyte := (hpres q k' hcall).2.1 0 hpos
  apply hne
  simpa using hbyte

/-! ## Ownership -/

/-- A call of the client, or a store into one of its allocations. -/
inductive ClientCall where
  | kmalloc (size : Word)
  | kfree (ptr : Word)
  | krealloc (ptr size : Word)
  | write (x : Word) (v : Byte)
  deriving DecidableEq, Repr

/-- One call on live pointers; `ok` restricts the reallocations. A `krealloc` that returns `NULL`
leaves the old pointer live. -/
inductive ClientStep (ok : Kheap → Word → Word → Prop) :
    ClientCall → Kernel → List (Word × Word) → Kernel → List (Word × Word) → Prop
  | kmalloc {k k' : Kernel} {live : List (Word × Word)} {size ptr : Word} :
      SizeOk size → kmalloc k size = .ok (ptr, k') →
      ClientStep ok (.kmalloc size) k live k' ((ptr, size) :: live)
  | kfree {k : Kernel} {live : List (Word × Word)} {a : Word × Word} :
      a ∈ live →
      ClientStep ok (.kfree a.1) k live { k with heap := kfree k.heap a.1 } (live.erase a)
  | krealloc {k k' : Kernel} {live : List (Word × Word)} {a : Word × Word} {size q : Word} :
      a ∈ live → SizeOk size → ok k.heap a.1 size → krealloc k a.1 size = .ok (q, k') →
      ClientStep ok (.krealloc a.1 size) k live k'
        (if q = null then live else (q, size) :: live.erase a)
  | write {k : Kernel} {live : List (Word × Word)} {a : Word × Word} {i : ℕ} (v : Byte) :
      a ∈ live → i < a.2.toNat →
      ClientStep ok (.write (a.1 + BitVec.ofNat 64 i) v) k live
        (k.store (a.1 + BitVec.ofNat 64 i) v) live

/-- The states of a client that also reallocates. -/
inductive ClientRun (ok : Kheap → Word → Word → Prop) : Kernel → List (Word × Word) → Prop
  | init {k₀ k : Kernel} {handover : Handover} {numPages : Word} :
      PmmBooted k₀.mmu.pmm → 1 ≤ numPages.toNat → kheapInit k₀ handover numPages = .ok k →
      ClientRun ok k []
  | step {k k' : Kernel} {live live' : List (Word × Word)} {call : ClientCall} :
      ClientRun ok k live → ClientStep ok call k live k' live' → ClientRun ok k' live'

/-- Later states, reached without giving `q` to `kfree` or `krealloc`. -/
inductive Keeping (ok : Kheap → Word → Word → Prop) (q : Word) (k : Kernel)
    (live : List (Word × Word)) : Kernel → List (Word × Word) → Prop
  | refl : Keeping ok q k live k live
  | step {k₁ k₂ : Kernel} {live₁ live₂ : List (Word × Word)} {call : ClientCall} :
      Keeping ok q k live k₁ live₁ → ClientStep ok call k₁ live₁ k₂ live₂ →
      call ≠ .kfree q → (∀ size, call ≠ .krealloc q size) → Keeping ok q k live k₂ live₂

/-- **The result `q` of a reallocation of `p` is allocated**: its header is in use, the old block is
not unless it is the same, and no later `kmalloc` returns a range that meets `[q, q + size)` before
`q` is freed. -/
def ReallocOwned (ok : Kheap → Word → Word → Prop) (k' : Kernel) (live' : List (Word × Word))
    (p q size : Word) : Prop :=
  (∃ b ∈ blockList k'.heap, b.hdr = q - hdrSize ∧ b.free = false) ∧
  (q ≠ p → ∀ b ∈ blockList k'.heap, b.hdr = p - hdrSize → b.free = true) ∧
  ∀ k₂ live₂, Keeping ok q k' live' k₂ live₂ → ∀ size₂ r k₃, SizeOk size₂ →
    kmalloc k₂ size₂ = .ok (r, k₃) → RangesDisjoint (q, size) (r, size₂)

/-- What holds along every run that never cuts. -/
structure ClientOk (k : Kernel) (live : List (Word × Word)) (L : List Blk) (F : List Word) :
    Prop where
  rep : Rep k.heap L F
  room : HeapRoom k
  live_ok : LiveOk live L
  sizes : ∀ a ∈ live, 0 < a.2.toNat

/-- The block of an allocation is replaced by the block `u`. -/
theorem LiveOk.realloc {live : List (Word × Word)} {L L' : List Blk} {b u : Blk} {size : Word}
    (h : LiveOk live L) {a : Word × Word} (ha : a ∈ live) (hocc : Occupies a b)
    {top : ℕ} (ht : Tiled top L') (hu : u ∈ L') (hused : u.free = false)
    (hfits : size.toNat ≤ u.size.toNat) (hnew : ∀ x ∈ L, x.free = false → x ≠ b → x ≠ u)
    (hothers : ∀ x ∈ L, x.free = false → x ≠ b → x ∈ L') :
    LiveOk ((blockStartAddr u.hdr, size) :: live.erase a) L' := by
  -- the blocks of the allocations that stay
  generalize hM : L.filter (fun x => !x.free && x != b) = M
  have hmem : ∀ x, x ∈ M ↔ x ∈ L ∧ x.free = false ∧ x ≠ b := by
    intro x
    rw [← hM]
    simp
  have hmid : LiveOk (live.erase a) M :=
    h.free ha hocc fun x hx hf hne => (hmem x).mpr ⟨hx, hf, hne⟩
  refine hmid.alloc ht hu hused ?_ hfits ?_
  · intro huM
    obtain ⟨huL, -, hne⟩ := (hmem u).mp huM
    exact hnew u huL hused hne rfl
  · intro x hx hf
    obtain ⟨hxL, -, hne⟩ := (hmem x).mp hx
    exact hothers x hxL hf hne

theorem ClientOk.kmalloc {k k' : Kernel} {live : List (Word × Word)} {L : List Blk} {F : List Word}
    (h : ClientOk k live L F) {size ptr : Word} (hsize : SizeOk size)
    (hok : Cerberos.kmalloc k size = .ok (ptr, k')) :
    ∃ L' F', ClientOk k' ((ptr, size) :: live) L' F' ∧ KeepsUsed L k.heap.mem k'.heap.mem := by
  obtain ⟨L', F', u, hm⟩ := (kmalloc_spec h.rep h.room hsize).2 _ _ hok
  have hfits : size.toNat ≤ u.size.toNat := by
    have h1 := hm.fits
    have h2 := hsize.toNat_alignUp
    omega
  refine ⟨L', F', ⟨hm.rep, hm.room, ?_, ?_⟩, hm.keeps⟩
  · rw [hm.ptr]
    exact h.live_ok.alloc hm.rep.tiled hm.mem hm.used hm.new hfits
      fun x hx hf => (hm.others x hf).mpr (Or.inr hx)
  · intro a ha
    rcases List.mem_cons.mp ha with rfl | ha
    · exact hsize.1
    · exact h.sizes a ha

theorem ClientOk.kfree {k : Kernel} {live : List (Word × Word)} {L : List Blk} {F : List Word}
    (h : ClientOk k live L F) {a : Word × Word} (ha : a ∈ live) :
    ∃ L' F', ClientOk { k with heap := Cerberos.kfree k.heap a.1 } (live.erase a) L' F' ∧
      KeepsUsed L k.heap.mem (Cerberos.kfree k.heap a.1).mem := by
  obtain ⟨b, hb, hocc⟩ := h.live_ok.block _ ha
  obtain ⟨L', F', hrel⟩ := kfree_released h.rep hb hocc.1
  rw [hocc.2.1]
  refine ⟨L', F', ⟨hrel.rep, h.room.of_eq rfl hrel.top, ?_, ?_⟩, hrel.keeps⟩
  · exact h.live_ok.free ha hocc fun x hx hf hne => (hrel.others x hf).mpr ⟨hx, hne⟩
  · exact fun c hc => h.sizes c (List.mem_of_mem_erase hc)

theorem ClientOk.krealloc {k k' : Kernel} {live : List (Word × Word)} {L : List Blk} {F : List Word}
    (h : ClientOk k live L F) {a : Word × Word} (ha : a ∈ live) {size q : Word}
    (hsize : SizeOk size) (hns : NoSplit k.heap a.1 size)
    (hok : Cerberos.krealloc k a.1 size = .ok (q, k')) :
    ∃ b ∈ L, Occupies a b ∧ ∃ L' F' u, Realloced k L b size q k' L' F' u ∧
      ClientOk k' ((q, size) :: live.erase a) L' F' := by
  obtain ⟨b, hb, hocc⟩ := h.live_ok.block a ha
  rw [hocc.2.1] at hns hok
  obtain ⟨L', F', u, hr⟩ := (krealloc_noSplit h.rep h.room hb hocc.1 hsize hns).2 q k' hok
  refine ⟨b, hb, hocc, L', F', u, hr, hr.rep, hr.room, ?_, ?_⟩
  · rw [hr.ptr]
    exact h.live_ok.realloc ha hocc hr.rep.tiled hr.mem hr.used hr.fits hr.new
      fun x hx hf hne => (hr.others x hf).mpr (Or.inr ⟨hx, hne⟩)
  · intro c hc
    rcases List.mem_cons.mp hc with rfl | hc
    · exact hsize.1
    · exact h.sizes c (List.mem_of_mem_erase hc)

/-- A block in use at the old header is the new block. -/
theorem Realloced.eq_of_hdr {k k' : Kernel} {L L' : List Blk} {F F' : List Word} {b u x : Blk}
    {size q : Word} (h : Realloced k L b size q k' L' F' u) (hrep : Rep k.heap L F) (hb : b ∈ L)
    (hx : x ∈ L') (hf : x.free = false) (hhdr : x.hdr = b.hdr) : q = blockStartAddr b.hdr := by
  rcases (h.others x hf).mp hx with rfl | ⟨hxL, hxb⟩
  · rw [h.ptr, hhdr]
  · exact absurd (hrep.tiled.eq_of_hdr hxL hb hhdr) hxb

/-- **One call keeps the invariant.** -/
theorem ClientStep.ok {call : ClientCall} {k k' : Kernel} {live live' : List (Word × Word)}
    (hstep : ClientStep NoSplit call k live k' live') {L : List Blk} {F : List Word}
    (h : ClientOk k live L F) : ∃ L' F', ClientOk k' live' L' F' := by
  cases hstep with
  | kmalloc hsize hok =>
      obtain ⟨L', F', hclient, -⟩ := h.kmalloc hsize hok
      exact ⟨L', F', hclient⟩
  | kfree ha =>
      obtain ⟨L', F', hclient, -⟩ := h.kfree ha
      exact ⟨L', F', hclient⟩
  | krealloc ha hsize hns hok =>
      obtain ⟨-, -, -, L', F', -, -, hclient⟩ := h.krealloc ha hsize hns hok
      refine ⟨L', F', ?_⟩
      split
      · -- the address 0 lies in no block
        rename_i hq
        obtain ⟨b, hb, hocc⟩ := hclient.live_ok.block _ List.mem_cons_self
        have hrange := (hocc.range hclient.rep.tiled hb (hclient.sizes _ List.mem_cons_self)).1
        rw [hq] at hrange
        exact absurd hrange (by show ¬ (0 : ℕ) = _; omega)
      · exact hclient
  | write v ha hi =>
      obtain ⟨b, hb, hocc⟩ := h.live_ok.block _ ha
      have hpay := hocc.payload (h.rep.tiled.fits hb).2 hi
      exact ⟨L, F, h.rep.write hb hpay v, h.room.of_eq rfl rfl, h.live_ok, h.sizes⟩

theorem ClientRun.ok {k : Kernel} {live : List (Word × Word)} (h : ClientRun NoSplit k live) :
    ∃ L F, ClientOk k live L F := by
  induction h with
  | init hboot hn hok =>
      have spec := kheapInit_spec hboot.zones (numPages_ne_zero hn) hok
      obtain ⟨size, hrep⟩ := spec.rep
      exact ⟨_, _, hrep, spec.room, ⟨List.nodup_nil, by simp⟩, by simp⟩
  | step _ hstep ih =>
      obtain ⟨L, F, hclient⟩ := ih
      exact hstep.ok hclient

/-- A call that is not about `a` leaves it live. -/
theorem ClientStep.keeps {ok : Kheap → Word → Word → Prop} {call : ClientCall} {k k' : Kernel}
    {live live' : List (Word × Word)} (hstep : ClientStep ok call k live k' live')
    {a : Word × Word} (ha : a ∈ live) (hfree : call ≠ .kfree a.1)
    (hrealloc : ∀ size, call ≠ .krealloc a.1 size) : a ∈ live' := by
  cases hstep with
  | kmalloc => exact List.mem_cons_of_mem _ ha
  | kfree hc =>
      refine (List.mem_erase_of_ne ?_).mpr ha
      rintro rfl
      exact hfree rfl
  | krealloc hc hsize =>
      split
      · exact ha
      · refine List.mem_cons_of_mem _ ((List.mem_erase_of_ne ?_).mpr ha)
        rintro rfl
        exact hrealloc _ rfl
  | write => exact ha

theorem Keeping.ok {k k₂ : Kernel} {live live₂ : List (Word × Word)} {a : Word × Word}
    (hkeep : Keeping NoSplit a.1 k live k₂ live₂) {L : List Blk} {F : List Word}
    (h : ClientOk k live L F) (ha : a ∈ live) :
    a ∈ live₂ ∧ ∃ L₂ F₂, ClientOk k₂ live₂ L₂ F₂ := by
  induction hkeep with
  | refl => exact ⟨ha, L, F, h⟩
  | step _ hstep hfree hrealloc ih =>
      obtain ⟨ha₁, L₁, F₁, h₁⟩ := ih
      exact ⟨hstep.keeps ha₁ hfree hrealloc, hstep.ok h₁⟩

/-- **In runs that never cut, the result of a reallocation belongs to the caller** until it is freed
or reallocated. -/
theorem clientRun_realloc_owned {k k' : Kernel} {live : List (Word × Word)}
    (h : ClientRun NoSplit k live) {a : Word × Word} (ha : a ∈ live) {size q : Word}
    (hsize : SizeOk size) (hns : NoSplit k.heap a.1 size)
    (hok : krealloc k a.1 size = .ok (q, k')) :
    ReallocOwned NoSplit k' ((q, size) :: live.erase a) a.1 q size := by
  obtain ⟨L, F, hclient⟩ := h.ok
  obtain ⟨b₀, hb₀, hocc₀, L', F', u, hr, hclient'⟩ := hclient.krealloc ha hsize hns hok
  unfold ReallocOwned
  rw [hclient'.rep.blockList_eq]
  refine ⟨?_, ?_, ?_⟩
  · obtain ⟨u, hu, hocc⟩ := hclient'.live_ok.block _ List.mem_cons_self
    refine ⟨u, hu, ?_, hocc.1⟩
    rw [show q = blockStartAddr u.hdr from hocc.2.1, blockStartAddr_sub]
  · intro hne b hb hhdr
    cases hf : b.free with
    | true => rfl
    | false =>
        rw [hocc₀.2.1, blockStartAddr_sub] at hhdr
        exact absurd ((hr.eq_of_hdr hclient.rep hb₀ hb hf hhdr).trans hocc₀.2.1.symm) hne
  · intro k₂ live₂ hkeep size₂ r k₃ hsize₂ hok₂
    obtain ⟨hlive, L₂, F₂, hclient₂⟩ := hkeep.ok (a := (q, size)) hclient' List.mem_cons_self
    obtain ⟨L₃, F₃, hclient₃, -⟩ := hclient₂.kmalloc hsize₂ hok₂
    have hdisj := hclient₃.live_ok.disjoint hclient₃.rep.tiled hclient₃.sizes
    exact (List.rel_of_pairwise_cons hdisj hlive).symm

/-- The second of two live blocks grows by moving, and the new one belongs to the client. -/
theorem clientRun_realloc_owned_small : ∃ k p q r k',
    ClientRun NoSplit k [(q, 64), (p, 2048)] ∧ NoSplit k.heap q 128 ∧
    krealloc k q 128 = .ok (r, k') ∧ r ≠ q ∧
    ReallocOwned NoSplit k' [(r, 128), (p, 2048)] q r 128 := by
  obtain ⟨k, p, k₁, q, k₂, hk, hp, hq, hall⟩ := smallMallocs_returns
  obtain ⟨hns, r, k', hcall, -, hmoved⟩ := smallMallocs_grow hall
  have hinit : ClientRun NoSplit k [] := .init smallPmm_booted (by decide) hk
  have hrun := (hinit.step (.kmalloc (by decide) hp)).step (.kmalloc (by decide) hq)
  have howned := clientRun_realloc_owned hrun List.mem_cons_self (by decide) hns hcall
  rw [List.erase_cons_head] at howned
  exact ⟨k₂, p, q, r, k', hrun, hns, hcall, hmoved, howned⟩

/-- **Shrinking to 8 bytes returns a free block.** -/
theorem krealloc_returns_free : ∃ k p q k', ClientRun (fun _ _ _ => True) k [(p, 2048)] ∧
    krealloc k p 8 = .ok (q, k') ∧ q ≠ null ∧
    ¬ ReallocOwned (fun _ _ _ => True) k' [(q, 8)] p q 8 := by
  obtain ⟨k₀, p, k, hk, hp⟩ := smallMalloc_returns
  have hmalloc : smallMalloc = .ok (p, k) := Res.bind_eq_ok.mpr ⟨k₀, hk, hp⟩
  have hrun : ClientRun (fun _ _ _ => True) k [(p, 2048)] :=
    .step (.init smallPmm_booted (by decide) hk) (.kmalloc (by decide) hp)
  have hcall : (do
      let (p, k) ← smallMalloc
      let (q, k') ← krealloc k p 8
      .ok (decide (q ≠ null ∧
        ∀ b ∈ blockList k'.heap, b.hdr = q - hdrSize → b.free = true)) : Res Bool) = .ok true := by
    decide +kernel
  replace hcall := Res.after hmalloc hcall
  obtain ⟨⟨q, k'⟩, hcall, hfree⟩ := Res.bind_eq_ok.mp hcall
  injection hfree with hfree
  obtain ⟨hq, hfree⟩ := of_decide_eq_true hfree
  refine ⟨k, p, q, k', hrun, hcall, hq, ?_⟩
  rintro ⟨⟨b, hb, hhdr, hused⟩, -, -⟩
  rw [hfree b hb hhdr] at hused
  cases hused

end Cerberos
