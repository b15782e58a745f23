/-
# Cerberos.Mm.KheapChecks — the self-checks of the kernel heap.

`freelist_remove`, `merge_right`, `merge_left` and `split` check what they are called on, and write an
error line when a check fails. `alarms` are those lines. A call that panics leaves no state behind to
read a log from, so the ENTRY POINTS are also unfolded into the calls they make: `kmallocCalls`,
`kfreeCalls` and `kreallocCalls` list them in order, each with the heap it starts from. The lists are
complete: every alarm in the log of a returning call was raised by a call on its list.

On a heap that represents a layout no check fails. There are no gaps between blocks, so where
`merge_left` does not merge it MOVES a header to the address that it already has.
-/
import Cerberos.Mm.KheapRuns

namespace Cerberos

open Cerberos.Base

/-! ## Alarms -/

/-- The lines that the error branches write. `merge_left` uses the texts of `merge_right` for its first
two. -/
def selfChecks : List LogMsg :=
  [errorMsg "[freelist_remove] removal attempted on empty freelist.\n",
    errorMsg "[freelist_remove] hdr is not free.\n",
    errorMsg "[freelist_remove] one element in freelist, but it's not hdr\n",
    errorMsg "[merge_right] header is NULL.\n",
    errorMsg "[merge_right] merge_right attempt on non-free header.\n",
    errorMsg "[merge_left] no header on the left, but header is no head of block list\n",
    errorMsg "[split] hdr is NULL\n"]

/-- The failed checks in the log. -/
def Kheap.alarms (s : Kheap) : List LogMsg := s.log.filter (· ∈ selfChecks)

/-! ## Calls -/

/-- The checking functions that the entry points call. `merge_left` is called by `merge` alone. -/
inductive HeapOp where
  | freelistRemove (hdr : Word)
  | mergeRight (header : Word)
  | merge (header : Word)
  | split (hdr numBytes : Word)

/-- A call and the heap it starts from. -/
structure HeapCall where
  before : Kheap
  op : HeapOp

/-- The heap that the call leaves. -/
def HeapCall.after (c : HeapCall) : Kheap :=
  match c.op with
  | .freelistRemove hdr => freelistRemove c.before hdr
  | .mergeRight header => (mergeRight c.before header).2
  | .merge header => (merge c.before header).2
  | .split hdr numBytes => (split c.before hdr numBytes).2

/-- The alarms that the call raises. -/
def HeapCall.alarms (c : HeapCall) : List LogMsg := c.after.alarms.drop c.before.alarms.length

/-- The calls of what follows a computation; none when the computation does not return. -/
def callsAfter {α : Type} (x : Res α) (f : α → List HeapCall) : List HeapCall :=
  match x with
  | .ok a => f a
  | .error _ => []

/-- The calls of `kmalloc` on the block its search stopped at. -/
def kmallocTakeCalls (s : Kheap) (size curr : Word) : List HeapCall :=
  if s.get curr .size = size then [⟨s, .freelistRemove curr⟩]
  else
    let (newHdr, s') := split s curr size
    [⟨s, .split curr size⟩, ⟨s', .freelistRemove newHdr⟩]

/-- The call in the tail of `kheap_expand`. -/
def kheapPushCalls (s : Kheap) : List HeapCall :=
  let header := s.kheapTop
  [⟨freelistInsert (pushStores s header s.blockHead) header, .mergeRight header⟩]

/-- The calls of `kheap_expand(num_pages)`. -/
def kheapExpandCalls (k : Kernel) (numPages : Word) : List HeapCall :=
  if numPages = 0 then []
  else
    callsAfter (kheapMapPages k.mmu (k.heap.kheapTop - pageSize) numPages.toNat) fun _ =>
      let heap := { k.heap with kheapTop := k.heap.kheapTop - numPages * pageSize }
      if heap.kheapTop < heap.kheapMax then [] else kheapPushCalls heap

/-- The calls of `kmalloc(size)` with at most `depth` nested calls of itself. -/
def kmallocDepthCalls : Nat → Kernel → Word → List HeapCall
  | 0, _, _ => []
  | depth + 1, k, size =>
    if size = 0 then []
    else
      let size := alignUp size 8
      match kmallocSearch k.heap size (2 ^ 64) k.heap.freeHead with
      | none => []
      | some curr =>
        if curr ≠ null then kmallocTakeCalls k.heap size curr
        else
          let newPages := kmallocPages k.heap size
          let k := k.announce size
          kheapExpandCalls k newPages ++
            callsAfter (kheapExpand k newPages) fun k => kmallocDepthCalls depth k size

/-- The calls of `kmalloc(size)`. -/
def kmallocCalls (k : Kernel) (size : Word) : List HeapCall := kmallocDepthCalls (2 ^ 64) k size

/-- The calls of `kfree(ptr)`. -/
def kfreeCalls (s : Kheap) (ptr : Word) : List HeapCall :=
  let header := ptr - hdrSize
  if isFree s header then [] else [⟨freelistInsert s header, .merge header⟩]

/-- The calls of `krealloc(ptr, size)`. -/
def kreallocCalls (k : Kernel) (ptr size : Word) : List HeapCall :=
  let header := ptr - hdrSize
  if isFree k.heap header then []
  else
    let (header', heap) := mergeRight k.heap header
    ⟨k.heap, .mergeRight header⟩ ::
      if size ≤ heap.get header' .size then [⟨heap, .split header' size⟩]
      else
        kmallocCalls { k with heap := heap } size ++
          callsAfter (kmalloc { k with heap := heap } size) fun (newPtr, k) =>
            if newPtr = null then []
            else kfreeCalls (k.heap.withMem
              (memcpy k.heap.mem newPtr ptr (k.heap.get header' .size))) ptr

/-! ## The lists are complete -/

theorem Kheap.alarms_of_log {s s' : Kheap} (h : s'.log = s.log) : s'.alarms = s.alarms := by
  unfold Kheap.alarms
  rw [h]

/-- The entry points' own lines are no alarms. -/
theorem Kheap.alarms_say {s : Kheap} {msg : LogMsg} (h : msg ∉ selfChecks) :
    (s.say msg).alarms = s.alarms := by
  unfold Kheap.alarms Kheap.say
  rw [List.filter_append, List.filter_singleton, decide_eq_false h]
  exact List.append_nil _

theorem freelistInsert_log (s : Kheap) (hdr : Word) : (freelistInsert s hdr).log = s.log := by
  unfold freelistInsert
  split <;> rfl

theorem freelistRemove_log (s : Kheap) (hdr : Word) : s.log <+: (freelistRemove s hdr).log := by
  unfold freelistRemove
  split
  · exact List.prefix_append _ _
  split
  · exact List.prefix_append _ _
  split
  · split
    · exact List.prefix_append _ _
    · exact List.prefix_rfl
  · dsimp only
    split <;> exact List.prefix_rfl

theorem absorbStores_log (s : Kheap) (l r : Word) : (absorbStores s l r).log = s.log := by
  unfold absorbStores
  dsimp only
  split <;> rfl

theorem absorb_log (s : Kheap) (l r : Word) :
    s.log <+: (freelistRemove (absorbStores s l r) r).log := by
  rw [← absorbStores_log s l r]
  exact freelistRemove_log _ r

theorem mergeRight_log (s : Kheap) (header : Word) : s.log <+: (mergeRight s header).2.log := by
  unfold mergeRight
  split
  · exact List.prefix_append _ _
  dsimp only
  split
  · exact absorb_log s header _
  split <;> exact List.prefix_rfl

theorem mergeLeft_log (s : Kheap) (header : Word) : s.log <+: (mergeLeft s header).2.log := by
  unfold mergeLeft
  split
  · exact List.prefix_append _ _
  split
  · exact List.prefix_append _ _
  dsimp only
  split
  · exact absorb_log s _ header
  split
  · split
    · exact List.prefix_append _ _
    · exact List.prefix_rfl
  · exact List.prefix_rfl

theorem split_log (s : Kheap) (hdr numBytes : Word) : s.log <+: (split s hdr numBytes).2.log := by
  unfold split
  split
  · exact List.prefix_append _ _
  dsimp only
  split
  · exact List.prefix_rfl
  · rw [freelistInsert_log]
    split <;> exact List.prefix_rfl

/-- A call only adds lines to the log. -/
theorem HeapCall.log_prefix (c : HeapCall) : c.before.log <+: c.after.log := by
  obtain ⟨s, op⟩ := c
  cases op with
  | freelistRemove hdr => exact freelistRemove_log s hdr
  | mergeRight header => exact mergeRight_log s header
  | merge header => exact (mergeRight_log s header).trans (mergeLeft_log _ _)
  | split hdr numBytes => exact split_log s hdr numBytes

theorem HeapCall.alarms_after (c : HeapCall) : c.after.alarms = c.before.alarms ++ c.alarms :=
  (List.prefix_iff_eq_append.mp (c.log_prefix.filter _)).symm

/-- One call more. -/
theorem HeapCall.alarms_step {c : HeapCall} {s s' : Kheap} {cs : List HeapCall}
    (hbefore : c.before.log = s.log) (hrest : s'.alarms = c.after.alarms ++ cs.flatMap alarms) :
    s'.alarms = s.alarms ++ (c :: cs).flatMap alarms := by
  rw [hrest, c.alarms_after, Kheap.alarms_of_log hbefore, List.flatMap_cons, List.append_assoc]

theorem HeapCall.alarms_single {c : HeapCall} {s s' : Kheap} (hbefore : c.before.log = s.log)
    (hafter : s' = c.after) : s'.alarms = s.alarms ++ [c].flatMap alarms := by
  refine alarms_step hbefore ?_
  rw [hafter]
  exact (List.append_nil _).symm

theorem kmallocTake_alarms (s : Kheap) (size curr : Word) :
    (kmallocTake s size curr).2.alarms =
      s.alarms ++ (kmallocTakeCalls s size curr).flatMap HeapCall.alarms := by
  unfold kmallocTake kmallocTakeCalls
  split
  · exact HeapCall.alarms_single rfl rfl
  · exact HeapCall.alarms_step rfl (HeapCall.alarms_single rfl rfl)

theorem kheapPush_alarms (s : Kheap) :
    (kheapPush s).alarms = s.alarms ++ (kheapPushCalls s).flatMap HeapCall.alarms := by
  rw [kheapPush_eq_stores rfl rfl]
  exact HeapCall.alarms_single (freelistInsert_log _ _) rfl

theorem kheapExpand_alarms {k k' : Kernel} {numPages : Word}
    (hok : kheapExpand k numPages = .ok k') :
    k'.heap.alarms = k.heap.alarms ++ (kheapExpandCalls k numPages).flatMap HeapCall.alarms := by
  unfold kheapExpand at hok
  unfold kheapExpandCalls
  split at hok
  · rename_i h0
    cases hok
    rw [if_pos h0, List.flatMap_nil, List.append_nil]
    exact Kheap.alarms_say (by simp [selfChecks, errorMsg, warningMsg])
  · rename_i h0
    obtain ⟨mmu, hmap, hok⟩ := Res.bind_eq_ok.mp hok
    dsimp only at hok
    split at hok
    · cases hok
    · rename_i hmax
      cases hok
      rw [if_neg h0, hmap]
      simp only [callsAfter, if_neg hmax]
      exact kheapPush_alarms _

theorem kmallocDepth_alarms : ∀ {depth : ℕ} {k k' : Kernel} {size p : Word},
    kmallocDepth depth k size = .ok (p, k') →
      k'.heap.alarms =
        k.heap.alarms ++ (kmallocDepthCalls depth k size).flatMap HeapCall.alarms := by
  intro depth
  induction depth with
  | zero =>
      intro k k' size p hok
      cases hok
  | succ depth ih =>
      intro k k' size p hok
      unfold kmallocDepth at hok
      unfold kmallocDepthCalls
      split at hok
      · rename_i h0
        cases hok
        rw [if_pos h0, List.flatMap_nil, List.append_nil]
        exact Kheap.alarms_say (by simp [selfChecks, errorMsg])
      · rename_i h0
        rw [if_neg h0]
        dsimp only at hok ⊢
        cases hsearch : kmallocSearch k.heap (alignUp size 8) (2 ^ 64) k.heap.freeHead with
        | none =>
            rw [hsearch] at hok
            cases hok
        | some curr =>
            simp only [hsearch] at hok ⊢
            by_cases hcurr : curr ≠ null
            · rw [if_pos hcurr] at hok ⊢
              cases hok
              exact kmallocTake_alarms _ _ _
            · -- the heap grows, and the nested call goes on from there
              rw [if_neg hcurr] at hok ⊢
              obtain ⟨k₁, hexp, hok⟩ := Res.bind_eq_ok.mp hok
              have hexp' : kheapExpand (k.announce (alignUp size 8))
                  (kmallocPages k.heap (alignUp size 8)) = .ok k₁ := hexp
              have hsay : (k.announce (alignUp size 8)).heap.alarms = k.heap.alarms :=
                Kheap.alarms_say (by simp [selfChecks, errorMsg, plainMsg])
              rw [ih hok, kheapExpand_alarms hexp', hsay, hexp', List.flatMap_append,
                List.append_assoc]
              rfl

theorem kmalloc_alarms {k k' : Kernel} {size p : Word} (hok : kmalloc k size = .ok (p, k')) :
    k'.heap.alarms = k.heap.alarms ++ (kmallocCalls k size).flatMap HeapCall.alarms :=
  kmallocDepth_alarms hok

theorem kfree_alarms (s : Kheap) (ptr : Word) :
    (kfree s ptr).alarms = s.alarms ++ (kfreeCalls s ptr).flatMap HeapCall.alarms := by
  unfold kfree kfreeCalls
  dsimp only
  split
  · rw [List.flatMap_nil, List.append_nil]
    exact Kheap.alarms_say (by simp [selfChecks, errorMsg])
  · exact HeapCall.alarms_single (freelistInsert_log _ _) rfl

theorem krealloc_alarms {k k' : Kernel} {ptr size q : Word}
    (hok : krealloc k ptr size = .ok (q, k')) :
    k'.heap.alarms = k.heap.alarms ++ (kreallocCalls k ptr size).flatMap HeapCall.alarms := by
  unfold krealloc at hok
  unfold kreallocCalls
  dsimp only at hok ⊢
  split at hok
  · rename_i hfree
    cases hok
    rw [if_pos hfree, List.flatMap_nil, List.append_nil]
    exact Kheap.alarms_say (by simp [selfChecks, errorMsg])
  · rename_i hfree
    rw [if_neg hfree]
    refine HeapCall.alarms_step rfl ?_
    split at hok
    · rename_i hle
      cases hok
      rw [if_pos hle]
      exact HeapCall.alarms_single rfl rfl
    · rename_i hle
      obtain ⟨⟨newPtr, k₁⟩, hmalloc, hok⟩ := Res.bind_eq_ok.mp hok
      have hfirst := kmalloc_alarms hmalloc
      rw [if_neg hle, hmalloc, List.flatMap_append]
      simp only [callsAfter]
      dsimp only at hok
      split at hok
      · rename_i hnull
        cases hok
        rw [if_pos hnull, List.flatMap_nil, List.append_nil]
        exact hfirst
      · rename_i hnull
        cases hok
        rw [if_neg hnull, ← List.append_assoc]
        exact (kfree_alarms _ ptr).trans (congrArg (· ++ _) hfirst)

/-! ## No check fails -/

/-- `merge_left` finds a free block on the left. -/
def MergesLeft (s : Kheap) (header : Word) : Prop :=
  s.get header .prev ≠ null ∧ isFree s (s.get header .prev) = true

/-- **`merge_left` moves the header to its old address**: it returns it, its size is the old one, and
with the rest of the heap unchanged whatever points to it still does. -/
structure StaysPut (s : Kheap) (header : Word) : Prop where
  addr : (mergeLeft s header).1 = header
  size : (mergeLeft s header).2.get header .size = s.get header .size
  heap : (mergeLeft s header).2 = s

/-- **No check of the call fails**, it merges to no `NULL`, and a header that is not merged to the left
stays where it is. -/
structure HeapCall.Safe (c : HeapCall) : Prop where
  quiet : c.after.log = c.before.log
  merged : ∀ header, c.op = .merge header → (merge c.before header).1 ≠ null
  stays : ∀ header, c.op = .merge header → ∀ h s, mergeRight c.before header = (h, s) →
    ¬MergesLeft s h → StaysPut s h

/-- A call other than `merge` has only its checks. -/
theorem HeapCall.Safe.of_quiet {c : HeapCall} (hop : ∀ header, c.op ≠ .merge header)
    (h : c.after.log = c.before.log) : c.Safe :=
  ⟨h, fun header heq => absurd heq (hop header), fun header heq => absurd heq (hop header)⟩

theorem HeapCall.Safe.alarms_eq {c : HeapCall} (h : c.Safe) : c.alarms = [] := by
  unfold HeapCall.alarms
  rw [Kheap.alarms_of_log h.quiet, List.drop_length]

/-- Safe calls raise no alarm. -/
theorem flatMap_alarms_of_safe {cs : List HeapCall} (h : ∀ c ∈ cs, c.Safe) :
    cs.flatMap HeapCall.alarms = [] :=
  List.flatMap_eq_nil_iff.mpr fun c hc => (h c hc).alarms_eq

namespace Rep

variable {s : Kheap} {A C : List Blk} {F : List Word} {b : Blk}

theorem freelistRemove_safe (h : Rep s (A ++ b :: C) F) (hb : b.free = true) :
    HeapCall.Safe ⟨s, .freelistRemove b.hdr⟩ :=
  .of_quiet (fun _ => by simp) (h.remove hb).2.log

theorem mergeRight_safe (h : Rep s (A ++ b :: C) F) :
    HeapCall.Safe ⟨s, .mergeRight b.hdr⟩ := by
  obtain ⟨s', F', hmerge, -, hedit⟩ := h.mergeRight_spec
  refine .of_quiet (fun _ => by simp) ?_
  show (mergeRight s b.hdr).2.log = s.log
  rw [hmerge]
  exact hedit.log

/-- `merge_left` of a free block: swallowed by a free block on the left, or not moved at all. -/
theorem mergeLeft_safe (h : Rep s (A ++ b :: C) F) (hb : b.free = true) :
    (mergeLeft s b.hdr).1 ≠ null ∧ (mergeLeft s b.hdr).2.log = s.log ∧
      (¬MergesLeft s b.hdr → StaysPut s b.hdr) := by
  have hkeep : mergeLeft s b.hdr = (b.hdr, s) → (mergeLeft s b.hdr).1 ≠ null ∧
      (mergeLeft s b.hdr).2.log = s.log ∧ (¬MergesLeft s b.hdr → StaysPut s b.hdr) := by
    intro heq
    have hput : StaysPut s b.hdr := by
      constructor <;> rw [heq]
    exact ⟨by rw [heq]; exact h.hdr_ne_null (by simp), by rw [heq], fun _ => hput⟩
  rcases List.eq_nil_or_concat A with rfl | ⟨A, l, rfl⟩
  · exact hkeep (h.mergeLeft_keep hb (by simp))
  · rw [List.concat_eq_append] at h
    cases hl : l.free with
    | false => exact hkeep (h.mergeLeft_keep hb (by simpa using hl))
    | true =>
        -- the merging branch: nothing is claimed about where the header goes
        obtain ⟨hprev, -, -⟩ := h.fields
        rw [lastHdr_concat] at hprev
        have hln : l.hdr ≠ null := h.hdr_ne_null (by simp)
        have hlf : isFree s l.hdr = true := (h.isFree_eq (by simp)).trans hl
        have h' : Rep s (A ++ l :: b :: C) F := by simpa using h
        obtain ⟨s', heq, -, hedit⟩ := h'.mergeLeft_absorb hl hb
        rw [heq]
        refine ⟨hln, hedit.log, fun hno => absurd ?_ hno⟩
        exact ⟨by rw [hprev]; exact hln, by rw [hprev]; exact hlf⟩

theorem merge_safe (h : Rep s (A ++ b :: C) F) (hb : b.free = true) :
    HeapCall.Safe ⟨s, .merge b.hdr⟩ := by
  obtain ⟨s₁, F₁, hright, hrep, hedit⟩ := h.mergeRight_spec
  obtain ⟨hhdr, hfree⟩ := fuseRight_hdr b C
  have hleft := hrep.mergeLeft_safe (hfree.trans hb)
  rw [hhdr] at hleft
  obtain ⟨hnonnull, hlog, hstays⟩ := hleft
  have hmerge : merge s b.hdr = mergeLeft s₁ b.hdr := by
    unfold merge
    rw [hright]
  refine ⟨?_, ?_, ?_⟩
  · show (merge s b.hdr).2.log = s.log
    rw [hmerge, hlog, hedit.log]
  · intro header hop
    cases hop
    rw [hmerge]
    exact hnonnull
  · intro header hop h' s' heq
    cases hop
    rw [hright] at heq
    cases heq
    exact hstays

theorem split_safe (h : Rep s (A ++ b :: C) F) {num : Word}
    (hle : (alignUp num 8).toNat ≤ b.size.toNat) : HeapCall.Safe ⟨s, .split b.hdr num⟩ := by
  refine .of_quiet (fun _ => by simp) ?_
  show (split s b.hdr num).2.log = s.log
  by_cases hroom : b.size - alignUp num 8 < hdrSize + kheapMinFreeSize
  · rw [h.split_keep hroom]
  · obtain ⟨s', hsplit, -, hedit⟩ := h.split_cut rfl hle hroom
    rw [hsplit]
    exact hedit.log

/-- `kmalloc` splits the block it found and takes the part that it wants off the free list. -/
theorem kmallocTake_safe (h : Rep s (A ++ b :: C) F) (hb : b.free = true) {n : Word}
    (h8 : n.toNat % 8 = 0) (hle : n.toNat ≤ b.size.toNat) :
    ∀ c ∈ kmallocTakeCalls s n b.hdr, c.Safe := by
  have hn : alignUp n 8 = n := alignUp_eight_of_mod h8
  have hsplit : HeapCall.Safe ⟨s, .split b.hdr n⟩ := h.split_safe (by rwa [hn])
  have hremove := h.freelistRemove_safe hb
  unfold kmallocTakeCalls
  split
  · simpa using hremove
  · by_cases hroom : b.size - n < hdrSize + kheapMinFreeSize
    · -- `split` gives the block itself back, which is on the free list
      rw [h.split_keep (by rwa [hn])]
      simpa using ⟨hsplit, hremove⟩
    · -- `split` puts the upper part on the free list before it is taken off
      obtain ⟨s₁, heq, hrep₁, -⟩ := h.split_cut hn hle hroom
      have hrep₁' : Rep s₁ ((A ++ [b.low n]) ++ (b.high n).mark true :: C)
          ((b.high n).hdr :: F) := by simpa using hrep₁
      rw [heq]
      have hremove₁ := hrep₁'.freelistRemove_safe rfl
      simpa using ⟨hsplit, hremove₁⟩

theorem kheapPush_safe {L : List Blk} (h : Rep s L F) {top : Word} (hpos : 0 < top.toNat)
    (h8 : top.toNat % 8 = 0) (hroom : top.toNat + 40 ≤ s.kheapTop.toNat) :
    ∀ c ∈ kheapPushCalls { s with kheapTop := top }, c.Safe := by
  obtain ⟨hlaid, -, hused⟩ := h.pushStores_laid hpos h8 hroom rfl
  obtain ⟨hrep, -⟩ := Laid.insert (A := []) hlaid hused rfl
  have hsafe := hrep.mergeRight_safe (A := [])
  intro c hc
  rw [kheapPushCalls, List.mem_singleton] at hc
  dsimp only at hc
  rw [hc, h.head]
  exact hsafe

end Rep

/-- The expansion inside `kmalloc`, panicking or not. -/
theorem kheapExpand_safe {k : Kernel} {L : List Blk} {F : List Word} (h : Rep k.heap L F)
    (hroom : HeapRoom k) (numPages : Word) : ∀ c ∈ kheapExpandCalls k numPages, c.Safe := by
  intro c hc
  unfold kheapExpandCalls at hc
  split at hc
  · cases hc
  · rename_i h0
    cases hmap : kheapMapPages k.mmu (k.heap.kheapTop - pageSize) numPages.toNat with
    | error e =>
        rw [hmap] at hc
        cases hc
    | ok mmu =>
        rw [hmap] at hc
        simp only [callsAfter] at hc
        split at hc
        · cases hc
        · obtain ⟨hpos, htop, -⟩ := hroom.grow h0 hmap
          have halign := hroom.align
          have hn : 0 < numPages.toNat := toNat_pos_of_ne_zero h0
          exact h.kheapPush_safe hpos (by omega) (by omega) c hc

/-- One level of `kmalloc` whose search succeeds. -/
theorem kmallocDepthCalls_found {k : Kernel} {L : List Blk} {F : List Word} (h : Rep k.heap L F)
    {size n : Word} (h0 : size ≠ 0) (hn : alignUp size 8 = n) (hfit : firstFit k.heap n F ≠ null)
    (depth : ℕ) : ∀ c ∈ kmallocDepthCalls (depth + 1) k size, c.Safe := by
  obtain ⟨A, b, C, rfl, hb, hhdr, hle⟩ := h.firstFit_mem hfit
  have h8 : n.toNat % 8 = 0 := hn ▸ toNat_alignUp_eight_mod size
  rw [kmallocDepthCalls, if_neg h0]
  simp only [hn, kmallocSearch_spec h.ring n (le_refl (2 ^ 64)), if_pos hfit]
  rw [← hhdr]
  exact h.kmallocTake_safe hb h8 hle

/-- One level of `kmalloc` whose search fails. -/
theorem kmallocDepthCalls_none {k : Kernel} {F : List Word} (hF : FreeRing k.heap F) {size n : Word}
    (h0 : size ≠ 0) (hn : alignUp size 8 = n) (hfit : firstFit k.heap n F = null) (depth : ℕ) :
    kmallocDepthCalls (depth + 1) k size =
      kheapExpandCalls (k.announce n) (kmallocPages k.heap n) ++
        callsAfter (kheapExpand (k.announce n) (kmallocPages k.heap n)) fun k =>
          kmallocDepthCalls depth k n := by
  rw [kmallocDepthCalls, if_neg h0]
  simp only [hn, kmallocSearch_spec hF n (le_refl (2 ^ 64)), hfit, ne_eq, not_true_eq_false,
    if_false]

theorem forall_mem_callsAfter {α : Type} {x : Res α} {f : α → List HeapCall}
    (h : ∀ a, x = .ok a → ∀ c ∈ f a, c.Safe) : ∀ c ∈ callsAfter x f, c.Safe := by
  intro c hc
  cases hx : x with
  | error e =>
      rw [hx] at hc
      cases hc
  | ok a =>
      rw [hx] at hc
      exact h a hx c hc

theorem kmallocCalls_safe {k : Kernel} {L : List Blk} {F : List Word} (h : Rep k.heap L F)
    (hroom : HeapRoom k) {size : Word} (hsize : SizeOk size) :
    ∀ c ∈ kmallocCalls k size, c.Safe := by
  have hwrap := hsize.alignUp_lt
  have haa : alignUp (alignUp size 8) 8 = alignUp size 8 :=
    alignUp_eight_of_mod (toNat_alignUp_eight_mod size)
  -- as for `kmalloc_spec`, the nested call is the last one
  obtain ⟨depth, hdepth⟩ : ∃ depth, kmallocCalls k size = kmallocDepthCalls (depth + 1 + 1) k size :=
    ⟨2 ^ 64 - 2, by rw [kmallocCalls]; norm_num⟩
  rw [hdepth]
  by_cases hfit : firstFit k.heap (alignUp size 8) F = null
  · rw [kmallocDepthCalls_none h.ring hsize.ne_zero rfl hfit, List.forall_mem_append]
    have hgrow := kheapExpand_safe (k := k.announce (alignUp size 8)) (h.say _)
      (hroom.of_eq rfl rfl) (kmallocPages k.heap (alignUp size 8))
    refine ⟨hgrow, forall_mem_callsAfter ?_⟩
    intro k₁ hok
    obtain ⟨b, C, F', hexp⟩ :=
      kheapExpand_expanded h hroom (kmallocPages_ne_zero h hwrap hfit) hok
    exact kmallocDepthCalls_found hexp.rep hsize.alignUp.ne_zero haa (hexp.fits h hwrap hfit) depth
  · exact kmallocDepthCalls_found h hsize.ne_zero rfl hfit (depth + 1)

theorem kfreeCalls_safe {s : Kheap} {L : List Blk} {F : List Word} (h : Rep s L F) {b : Blk}
    (hb : b ∈ L) : ∀ c ∈ kfreeCalls s (blockStartAddr b.hdr), c.Safe := by
  obtain ⟨A, C, rfl⟩ := List.append_of_mem hb
  unfold kfreeCalls
  simp only [blockStartAddr_sub, h.isFree_eq hb]
  cases hf : b.free with
  | true => simp
  | false =>
      obtain ⟨hrep, -⟩ := h.toLaid.insert (fun x hx _ => h.used x hx) hf
      have hsafe : HeapCall.Safe ⟨freelistInsert s b.hdr, .merge b.hdr⟩ := hrep.merge_safe rfl
      simpa using hsafe

theorem kreallocCalls_safe {k : Kernel} {L : List Blk} {F : List Word} (h : Rep k.heap L F)
    (hroom : HeapRoom k) {b : Blk} (hb : b ∈ L) {size : Word} (hsize : SizeOk size) :
    ∀ c ∈ kreallocCalls k (blockStartAddr b.hdr) size, c.Safe := by
  unfold kreallocCalls
  simp only [blockStartAddr_sub, h.isFree_eq hb]
  cases hused : b.free with
  | true => simp
  | false =>
      obtain ⟨A, C, rfl⟩ := List.append_of_mem hb
      have hright := h.mergeRight_safe
      obtain ⟨s₁, F₁, hmerge, hrep, hedit, -⟩ := krealloc_eq h hused size
      obtain ⟨hhdr, hfree⟩ := fuseRight_hdr b C
      have hb' : (fuseRight b C).1 ∈ A ++ (fuseRight b C).1 :: (fuseRight b C).2 := by simp
      have hget := hrep.get_size hb'
      rw [hhdr] at hget
      simp only [hmerge, hget, Bool.false_eq_true, if_false]
      rw [List.forall_mem_cons]
      refine ⟨hright, ?_⟩
      by_cases hle : size ≤ (fuseRight b C).1.size
      · have hsplit := hrep.split_safe (hrep.alignUp_le hb' hsize hle)
        rw [hhdr] at hsplit
        rw [if_pos hle]
        simpa using hsplit
      · have hroom₁ : HeapRoom { k with heap := s₁ } := hroom.of_eq rfl hedit.top
        rw [if_neg hle, List.forall_mem_append]
        refine ⟨kmallocCalls_safe (k := { k with heap := s₁ }) hrep hroom₁ hsize,
          forall_mem_callsAfter ?_⟩
        rintro ⟨newPtr, k₂⟩ hok
        -- the copy goes into the new payload, so `kfree` still finds the old header
        obtain ⟨L₂, F₂, u, hm⟩ :=
          (kmalloc_spec (k := { k with heap := s₁ }) hrep hroom₁ hsize).2 _ _ hok
        obtain ⟨hptr, hb'₂, hne, hfits, hsame⟩ := hm.moves hb' (hfree.trans hused) hsize hle
        have hcopied := hm.rep.copied hb'₂ hm.mem hne hfits
        have hsafe := kfreeCalls_safe hcopied hb'₂
        rw [hhdr] at hsame
        dsimp only
        rw [if_neg hptr, hsame, hm.ptr, ← hhdr]
        exact hsafe

/-- **The self-checks of the heap never fire.** From every reachable heap, whatever `kmalloc`, `kfree`
and `krealloc` call on the way takes none of its error branches, also when the call ends in a panic;
`merge` never returns `NULL`, and a header that `merge_left` does not merge stays where it is. So a call
that returns leaves no new alarm in the log. -/
theorem heapReach_checks_never_fire {k : Kernel} (h : HeapReach k) :
    (∀ size, SizeOk size →
      (∀ c ∈ kmallocCalls k size, c.Safe) ∧
        ∀ p k', kmalloc k size = .ok (p, k') → k'.heap.alarms = k.heap.alarms) ∧
    (∀ ptr, InBlockList k.heap ptr →
      (∀ c ∈ kfreeCalls k.heap ptr, c.Safe) ∧ (kfree k.heap ptr).alarms = k.heap.alarms) ∧
    ∀ ptr size, InBlockList k.heap ptr → SizeOk size →
      (∀ c ∈ kreallocCalls k ptr size, c.Safe) ∧
        ∀ q k', krealloc k ptr size = .ok (q, k') → k'.heap.alarms = k.heap.alarms := by
  obtain ⟨L, F, hrep, hroom⟩ := h.rep
  refine ⟨?_, ?_, ?_⟩
  · intro size hsize
    have hsafe := kmallocCalls_safe hrep hroom hsize
    refine ⟨hsafe, fun p k' hok => ?_⟩
    have hlog := kmalloc_alarms hok
    rwa [flatMap_alarms_of_safe hsafe, List.append_nil] at hlog
  · intro ptr hptr
    obtain ⟨b, hb, rfl⟩ := hptr.block hrep
    have hsafe := kfreeCalls_safe hrep hb
    refine ⟨hsafe, ?_⟩
    rw [kfree_alarms, flatMap_alarms_of_safe hsafe, List.append_nil]
  · intro ptr size hptr hsize
    obtain ⟨b, hb, rfl⟩ := hptr.block hrep
    have hsafe := kreallocCalls_safe hrep hroom hb hsize
    refine ⟨hsafe, fun q k' hok => ?_⟩
    have hlog := krealloc_alarms hok
    rwa [flatMap_alarms_of_safe hsafe, List.append_nil] at hlog

/-- With two live blocks on the small machine, freeing the second merges it with its free left
neighbour; that call and a later allocation raise no alarm. -/
theorem heapReach_checks_never_fire_small : ∃ p q k, smallMallocs = .ok (p, q, k) ∧
    (kfreeCalls k.heap q).length = 1 ∧ (blockList k.heap).length = 3 ∧
    (blockList (kfree k.heap q)).length = 2 ∧
    (∀ c ∈ kfreeCalls k.heap q, c.Safe) ∧ (kfree k.heap q).alarms = k.heap.alarms ∧
    ∀ c ∈ kmallocCalls { k with heap := kfree k.heap q } 2048, c.Safe := by
  obtain ⟨k₀, p, k₁, q, k, hk, hp, hq, hall⟩ := smallMallocs_returns
  have hinit : HeapReach k₀ := .init smallPmm_booted (by decide) hk
  have hreach : HeapReach k := .kmalloc (.kmalloc hinit (by decide) hp) (by decide) hq
  have hcall : (do
      let (_, q, k) ← smallMallocs
      .ok (decide (q - hdrSize ∈ (blockList k.heap).map Blk.hdr ∧
        (kfreeCalls k.heap q).length = 1 ∧ (blockList k.heap).length = 3 ∧
        (blockList (kfree k.heap q)).length = 2)) : Res Bool) = .ok true := by
    decide +kernel
  replace hcall := Res.after hall hcall
  obtain ⟨hptr, hone, hthree, htwo⟩ := of_decide_eq_true (Except.ok.inj hcall)
  obtain ⟨hsafe, hquiet⟩ := (heapReach_checks_never_fire hreach).2.1 q hptr
  exact ⟨p, q, k, hall, hone, hthree, htwo, hsafe, hquiet,
    ((heapReach_checks_never_fire (.kfree hreach hptr)).1 2048 (by decide)).1⟩

end Cerberos
