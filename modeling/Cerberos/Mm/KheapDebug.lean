/-
# Cerberos.Mm.KheapDebug — the two dumps of the heap (`parse_blocklist`, `parse_freelist`).

Both walk a list in memory and print a line for each header. The block list ends with `NULL` and the
free list where it began. On every heap the allocator can reach both walks end; and the dumps can be
checked against each other and against themselves, since the lines of the first tile the heap and the
lines of the second are, in another order, the lines of the first that say `free`.
-/
import Cerberos.Mm.KheapDoubleFree

namespace Cerberos

open Cerberos.Base

/-! ## The code -/

/-- The line `parse_blocklist` prints for a header. -/
def blockLine (hdr size : Word) (free : Bool) : LogMsg :=
  plainMsg "[parse_blocklist] header addr: 0x%lx, size: 0x%lx, free?: %u\n"
    [hdr, size, if free then 1 else 0]

/-- The line `parse_freelist` prints for a header. -/
def freeLine (hdr size : Word) : LogMsg :=
  plainMsg "[parse_freelist] header addr: 0x%lx, size: 0x%lx\n" [hdr, size]

/-- The loop of `parse_blocklist` from `curr` on. It changes nothing but the log, so a walk that outlives
one round per address never ends. -/
def parseBlocklistLoop : ℕ → Kheap → Word → Res Kheap
  | 0, _, _ => .error .hang
  | n + 1, s, curr =>
    if curr = null then .ok s
    else
      let s := s.say (blockLine curr (s.get curr .size) (isFree s curr))
      let curr := s.get curr .next
      if curr ≠ null then parseBlocklistLoop n s curr else .ok s

/-- `parse_blocklist()`. -/
def parseBlocklist (s : Kheap) : Res Kheap :=
  let s := s.say (infoMsg "parsing kheap block (header) list ...\n")
  parseBlocklistLoop (2 ^ 64) s s.blockHead

/-- The loop of `parse_freelist` from `curr` on. -/
def parseFreelistLoop : ℕ → Kheap → Word → Res Kheap
  | 0, _, _ => .error .hang
  | n + 1, s, curr =>
    if curr = null then .ok s
    else
      let s := s.say (freeLine curr (s.get curr .size))
      let curr := s.get curr .freeNext
      if curr ≠ null ∧ curr ≠ s.freeHead then parseFreelistLoop n s curr else .ok s

/-- `parse_freelist()`. -/
def parseFreelist (s : Kheap) : Res Kheap :=
  let s := s.say (infoMsg "parsing kheap freelist ...\n")
  parseFreelistLoop (2 ^ 64) s s.freeHead

/-! ## The walks -/

/-- The state with more lines in its log. -/
def Kheap.print (s : Kheap) (lines : List LogMsg) : Kheap := { s with log := s.log ++ lines }

@[simp] theorem Kheap.print_get (s : Kheap) (lines : List LogMsg) (hdr : Word) (f : Field) :
    (s.print lines).get hdr f = s.get hdr f := rfl

@[simp] theorem Kheap.print_isFree (s : Kheap) (lines : List LogMsg) (hdr : Word) :
    isFree (s.print lines) hdr = isFree s hdr := rfl

@[simp] theorem Kheap.print_freeHead (s : Kheap) (lines : List LogMsg) :
    (s.print lines).freeHead = s.freeHead := rfl

@[simp] theorem Kheap.print_say (s : Kheap) (lines : List LogMsg) (msg : LogMsg) :
    (s.print lines).say msg = s.print (lines ++ [msg]) := by
  simp [Kheap.print, Kheap.say]

/-- The walk along the block list prints the layout. -/
theorem parseBlocklistLoop_eq {s : Kheap} :
    ∀ {L : List Blk} {p : Word} {n : ℕ} (lines : List LogMsg), BlockLinks s p L null →
      (∀ b ∈ L, b.hdr ≠ null) → (∀ b ∈ L, isFree s b.hdr = b.free) → L.length < n →
      parseBlocklistLoop n (s.print lines) (firstHdr L null) =
        .ok (s.print (lines ++ L.map fun b => blockLine b.hdr b.size b.free)) := by
  intro L
  induction L with
  | nil =>
      intro p n lines _ _ _ hn
      obtain ⟨m, rfl⟩ : ∃ m, n = m + 1 := ⟨n - 1, by simp at hn; omega⟩
      simp [parseBlocklistLoop, firstHdr]
  | cons b L ih =>
      intro p n lines hlinks hne hfree hn
      obtain ⟨m, rfl⟩ : ∃ m, n = m + 1 := ⟨n - 1, by simp at hn; omega⟩
      obtain ⟨-, hnext, hsize, hrest⟩ := hlinks
      rw [List.forall_mem_cons] at hne hfree
      have hrec := ih (n := m) (lines ++ [blockLine b.hdr b.size b.free]) hrest hne.2 hfree.2
        (by simp at hn; omega)
      rw [show firstHdr (b :: L) null = b.hdr from rfl, parseBlocklistLoop, if_neg hne.1]
      simp only [Kheap.print_get, Kheap.print_isFree, Kheap.print_say, hsize, hnext, hfree.1]
      cases L with
      | nil => simp [firstHdr]
      | cons c L =>
          -- there is a next block, and its header is not `NULL`
          have hc : firstHdr (c :: L) null ≠ null := hne.2 c List.mem_cons_self
          rw [if_pos hc, hrec]
          simp

/-- The walk around the free list prints the rest of the ring. -/
theorem parseFreelistLoop_suffix {s : Kheap} {F : List Word} (hF : FreeRing s F) :
    ∀ {T P : List Word} {x : Word} {n : ℕ} (lines : List LogMsg), F = P ++ x :: T → T.length < n →
      parseFreelistLoop n (s.print lines) x =
        .ok (s.print (lines ++ (x :: T).map fun y => freeLine y (s.get y .size))) := by
  intro T
  induction T with
  | nil =>
      intro P x n lines hsplit hn
      obtain ⟨m, rfl⟩ : ∃ m, n = m + 1 := ⟨n - 1, by simp at hn; omega⟩
      have hx : x ≠ null := fun h => hF.nonnull (by rw [hsplit, h]; simp)
      rw [parseFreelistLoop, if_neg hx]
      simp [hF.last_next hsplit]
  | cons y T ih =>
      intro P x n lines hsplit hn
      obtain ⟨m, rfl⟩ : ∃ m, n = m + 1 := ⟨n - 1, by simp at hn; omega⟩
      have hx : x ≠ null := fun h => hF.nonnull (by rw [hsplit, h]; simp)
      have hy : y ≠ null := fun h => hF.nonnull (by rw [hsplit, h]; simp)
      obtain ⟨hnext, hyhead⟩ := hF.inner_next hsplit
      have hrec := ih (P := P ++ [x]) (x := y) (n := m) (lines ++ [freeLine x (s.get x .size)])
        (by simpa using hsplit) (by simp at hn; omega)
      rw [parseFreelistLoop, if_neg hx]
      simp only [Kheap.print_get, Kheap.print_freeHead, Kheap.print_say, hnext]
      rw [if_pos ⟨hy, hyhead⟩, hrec]
      simp

theorem FreeRing.parseFreelist_eq {s : Kheap} {F : List Word} (hF : FreeRing s F) :
    parseFreelist s = .ok (s.print (infoMsg "parsing kheap freelist ...\n" ::
      F.map fun y => freeLine y (s.get y .size))) := by
  have hlen := nodup_length_le hF.nodup
  unfold parseFreelist
  have hstart : s.say (infoMsg "parsing kheap freelist ...\n") =
      s.print [infoMsg "parsing kheap freelist ...\n"] := rfl
  rw [hstart]
  have hhead := hF.head
  cases F with
  | nil =>
      rw [show 2 ^ 64 = (2 ^ 64 - 1) + 1 by norm_num, parseFreelistLoop]
      simp [hhead]
  | cons x T =>
      simp only [Kheap.print_freeHead, hhead, List.headD_cons]
      rw [parseFreelistLoop_suffix hF (P := []) _ rfl (by simp at hlen; omega)]
      simp

namespace Rep

variable {s : Kheap} {L : List Blk} {F : List Word}

theorem parseBlocklist_eq (h : Rep s L F) :
    parseBlocklist s = .ok (s.print (infoMsg "parsing kheap block (header) list ...\n" ::
      L.map fun b => blockLine b.hdr b.size b.free)) := by
  -- `NULL` is an address without a header, so there are fewer blocks than addresses
  have hlen : L.length < 2 ^ 64 := by
    have hnull : null ∉ L.map Blk.hdr := by
      intro hmem
      obtain ⟨b, hb, hhdr⟩ := List.mem_map.mp hmem
      exact h.hdr_ne_null hb hhdr
    have hmore := nodup_length_le (List.nodup_cons.mpr ⟨hnull, h.tiled.hdrs_nodup⟩)
    rw [List.length_cons, List.length_map] at hmore
    omega
  have hstart : s.say (infoMsg "parsing kheap block (header) list ...\n") =
      s.print [infoMsg "parsing kheap block (header) list ...\n"] := rfl
  have hhead : (s.print [infoMsg "parsing kheap block (header) list ...\n"]).blockHead =
      firstHdr L null := h.head.trans h.firstHdr_eq_top.1.symm
  unfold parseBlocklist
  rw [hstart]
  dsimp only
  rw [hhead, parseBlocklistLoop_eq _ h.links (fun b hb => h.hdr_ne_null hb)
    (fun b hb => h.isFree_eq hb) hlen]
  simp

/-- The ring is, in some order, the blocks that are free. -/
theorem free_perm (h : Rep s L F) : F.Perm ((L.filter Blk.free).map Blk.hdr) := by
  refine (List.perm_ext_iff_of_nodup h.ring.nodup ?_).mpr ?_
  · exact h.tiled.hdrs_nodup.sublist (List.filter_sublist.map _)
  · intro x
    rw [h.free x]
    simp [and_assoc]

theorem free_lines (h : Rep s L F) :
    (F.map fun y => (y, s.get y .size)).Perm
      ((L.filter Blk.free).map fun b => (b.hdr, b.size)) := by
  have hmap := h.free_perm.map fun y => (y, s.get y .size)
  rw [List.map_map] at hmap
  refine hmap.trans (List.Perm.of_eq (List.map_congr_left ?_))
  intro b hb
  obtain ⟨A, C, hL⟩ := List.append_of_mem (List.mem_filter.mp hb).1
  subst hL
  simp [h.fields.2.2]

end Rep

/-- **The dumps are a picture of the heap.** In every reachable state both walks end and change nothing
but the log. `parse_blocklist` prints one line for each block, in the order of addresses, and the blocks
tile the memory from `kheap_top` to the end of the address space, each with its header; `parse_freelist`
prints address and size of exactly the blocks that the first dump shows as free, each once. -/
theorem heapReach_dumps {k : Kernel} (h : HeapReach k) :
    ∃ (blocks : List Blk) (frees : List (Word × Word)),
      parseBlocklist k.heap = .ok (k.heap.print
        (infoMsg "parsing kheap block (header) list ...\n" ::
          blocks.map fun b => blockLine b.hdr b.size b.free)) ∧
      parseFreelist k.heap = .ok (k.heap.print
        (infoMsg "parsing kheap freelist ...\n" :: frees.map fun f => freeLine f.1 f.2)) ∧
      Tiled k.heap.kheapTop.toNat blocks ∧
      frees.Perm ((blocks.filter Blk.free).map fun b => (b.hdr, b.size)) := by
  obtain ⟨L, F, hrep, -⟩ := h.rep
  refine ⟨L, F.map fun y => (y, k.heap.get y .size), hrep.parseBlocklist_eq, ?_, hrep.tiled,
    hrep.free_lines⟩
  rw [hrep.ring.parseFreelist_eq, List.map_map]
  rfl

/-- The small machine after an allocation. -/
theorem heapReach_dumps_small : ∃ p k, smallMalloc = .ok (p, k) ∧
    ∃ (blocks : List Blk) (s : Kheap), parseBlocklist k.heap = .ok s ∧
      s.log.length = k.heap.log.length + 1 + blocks.length ∧
      Tiled k.heap.kheapTop.toNat blocks := by
  obtain ⟨k, p, k', hk, hp⟩ := smallMalloc_returns
  obtain ⟨blocks, frees, hblocks, -, htiled, -⟩ :=
    heapReach_dumps (.kmalloc (.init smallPmm_booted (by decide) hk) (by decide) hp)
  refine ⟨p, k', Res.bind_eq_ok.mpr ⟨k, hk, hp⟩, blocks, _, hblocks, ?_, htiled⟩
  simp only [Kheap.print, List.length_append, List.length_cons, List.length_map]
  omega

end Cerberos
