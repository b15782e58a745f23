/-
# Cerberos.Lib.Queue — the queue of `lib/ds/queue.c`.

A doubly linked list in blocks of the heap: elements enter at `head` and leave at `tail`, and walking
`next` from `head` goes from the newest element to the oldest. The functions are written over any
allocator; what is proved assumes that it meets its contract. `queue_dequeue` never touches `head`, so
taking the LAST element out leaves `head` at a freed node.
-/
import Cerberos.Base.Blocks
import Cerberos.Lib.Sys

namespace Cerberos

open Cerberos.Base

/-! ## The records -/

/-- The fields of `qnode_t`. -/
abbrev qnodeNext : ℕ := 0
abbrev qnodePrev : ℕ := 1
abbrev qnodeData : ℕ := 2

/-- The fields of `queue_t`. -/
abbrev queueHead : ℕ := 0
abbrev queueTail : ℕ := 1
abbrev queueDataSize : ℕ := 2
abbrev queueSize : ℕ := 3

section Code

variable {σ : Type} (A : Allocator Halt σ)

/-- `queue_create(data_size)`. -/
def queueCreate (s : σ) (dataSize : Word) : Res (Word × σ) := do
  let (q, s) ← A.malloc s 32
  let s := A.set s q queueHead null
  let s := A.set s q queueTail null
  let s := A.set s q queueDataSize dataSize
  let s := A.set s q queueSize 0
  .ok (q, s)

/-- `queue_front(q)`: the pointer and the log lines. -/
def queueFront (s : σ) (q : Word) : Word × List LogMsg :=
  if A.get s q queueTail = null then
    (null, if A.get s q queueSize ≠ 0 then
      [errorMsg
        "[queue_front] access attempt on non-empty queue with no tail. Size of queue: %lu\n"
        [A.get s q queueSize]]
    else [])
  else (A.get s (A.get s q queueTail) qnodeData, [])

/-- `queue_back(q)`. -/
def queueBack (s : σ) (q : Word) : Word × List LogMsg :=
  if A.get s q queueHead = null then
    (null, if A.get s q queueSize ≠ 0 then
      [errorMsg
        "[queue_back] access attempt on non-empty queue with no head. Size of queue: %lu\n"
        [A.get s q queueSize]]
    else [])
  else (A.get s (A.get s q queueHead) qnodeData, [])

/-- The end of `queue_dequeue`: the tail is freed and the fields of the queue are stored. -/
def queueDrop (s : σ) (q tail prev : Word) : σ :=
  let s := A.free s tail
  let s := A.set s q queueTail prev
  A.set s q queueSize (A.get s q queueSize - 1)

/-- `queue_dequeue(q)`. -/
def queueDequeue (s : σ) (q : Word) : σ × List LogMsg :=
  if A.get s q queueTail = null then
    (s, [errorMsg "[queue_dequeue] dequeue attempt on queue with no tail. Size of queue: %lu\n"
      [A.get s q queueSize]])
  else
    let prev := A.get s (A.get s q queueTail) qnodePrev
    let s := if prev ≠ null then A.set s prev qnodeNext null else s
    (queueDrop A s q (A.get s q queueTail) prev, [])

/-- The first half of `queue_enqueue`: a node with a copy of the caller's buffer `data`. -/
def queueNode (s : σ) (q : Word) (data : ℕ → Byte) : Res (Word × σ) := do
  let (node, s) ← A.malloc s 24
  let s := A.set s node qnodePrev null
  let (buf, s) ← A.malloc s (A.get s q queueDataSize)
  let s := A.set s node qnodeData buf
  -- memcpy(node->data, data, q->data_size)
  let s := A.fill s (A.get s node qnodeData) data (A.get s q queueDataSize).toNat
  .ok (node, A.set s q queueSize (A.get s q queueSize + 1))

/-- The second half: the node becomes the head. -/
def queueLink (s : σ) (q node : Word) : σ :=
  if A.get s q queueHead = null then
    let s := A.set s node qnodeNext null
    let s := A.set s q queueHead node
    A.set s q queueTail node
  else
    let s := A.set s node qnodeNext (A.get s q queueHead)
    let s := A.set s (A.get s q queueHead) qnodePrev node
    A.set s q queueHead node

/-- `queue_enqueue(q, data)`. -/
def queueEnqueue (s : σ) (q : Word) (data : ℕ → Byte) : Res σ := do
  let (node, s) ← queueNode A s q data
  .ok (queueLink A s q node)

end Code

/-! ## The list a queue stands for -/

/-- The queue at `q` has the nodes `nodes`, newest first, and the elements `items`, oldest first; its
count is `count`. -/
structure QueueRep {σ : Type} (A : Allocator Halt σ) (s : σ) (B : Blocks) (q dataSize : Word)
    (count : ℕ) (nodes : List Word) (items : List (List Byte)) : Prop where
  block : B q = some 32
  node : ∀ a ∈ nodes, B a = some 24 ∧ a ≠ q
  once : nodes.Nodup
  data : ∀ a ∈ nodes, B (A.get s a qnodeData) = some dataSize.toNat ∧
    A.get s a qnodeData ≠ q ∧ A.get s a qnodeData ∉ nodes
  head : A.get s q queueHead = nodes.head?.getD null
  tail : A.get s q queueTail = nodes.getLast?.getD null
  data_size : A.get s q queueDataSize = dataSize
  size : A.get s q queueSize = BitVec.ofNat 64 count
  links : nodes.IsChain fun a b => A.get s a qnodeNext = b ∧ A.get s b qnodePrev = a
  first : ∀ a ∈ nodes.head?, A.get s a qnodePrev = null
  last : ∀ a ∈ nodes.getLast?, A.get s a qnodeNext = null
  items_eq : items = (nodes.map fun a =>
    blockBytes (A.mem s) (A.get s a qnodeData) dataSize.toNat).reverse

namespace QueueRep

variable {σ : Type} {A : Allocator Halt σ} {s s' : σ} {B B' : Blocks} {q dataSize : Word} {count : ℕ}
  {nodes : List Word} {items : List (List Byte)}

/-- Stores that agree on the fields of the queue and of its nodes, and on the data, are not seen. -/
theorem congr {count' : ℕ} (h : QueueRep A s B q dataSize count nodes items)
    (hsub : B.Sub B')
    (hq : ∀ i < queueSize, A.get s' q i = A.get s q i)
    (hsize : A.get s' q queueSize = BitVec.ofNat 64 count')
    (hnode : ∀ a ∈ nodes, ∀ i, 8 * i + 8 ≤ 24 → A.get s' a i = A.get s a i)
    (hdata : ∀ a ∈ nodes, blockBytes (A.mem s') (A.get s a qnodeData) dataSize.toNat =
      blockBytes (A.mem s) (A.get s a qnodeData) dataSize.toNat) :
    QueueRep A s' B' q dataSize count' nodes items := by
  constructor
  case block => exact hsub h.block
  case node => exact fun a ha => ⟨hsub (h.node a ha).1, (h.node a ha).2⟩
  case once => exact h.once
  case data =>
    intro a ha
    rw [hnode a ha _ (by decide)]
    exact ⟨hsub (h.data a ha).1, (h.data a ha).2⟩
  case head => exact (hq _ (by decide)).trans h.head
  case tail => exact (hq _ (by decide)).trans h.tail
  case data_size => exact (hq _ (by decide)).trans h.data_size
  case size => exact hsize
  case links =>
    refine h.links.imp_of_mem_imp ?_
    intro a b ha hb hab
    rw [hnode a ha _ (by decide), hnode b hb _ (by decide)]
    exact hab
  case first =>
    intro a ha
    rw [hnode a (List.mem_of_mem_head? ha) _ (by decide)]
    exact h.first a ha
  case last =>
    intro a ha
    rw [hnode a (List.mem_of_mem_getLast? ha) _ (by decide)]
    exact h.last a ha
  case items_eq =>
    rw [h.items_eq]
    congr 1
    apply List.map_congr_left
    intro a ha
    rw [hnode a ha _ (by decide), hdata a ha]

/-- What keeps the live blocks keeps the queue. -/
theorem keeps (h : QueueRep A s B q dataSize count nodes items) (hB : B.Ok)
    (hsub : B.Sub B') (hkeep : Keeps B (A.mem s) (A.mem s')) :
    QueueRep A s' B' q dataSize count nodes items := by
  have hq : ∀ i, 8 * i + 8 ≤ 32 → A.get s' q i = A.get s q i :=
    fun i hi => hkeep.getField hB h.block hi
  refine h.congr hsub ?_ ?_ ?_ ?_
  · exact fun i hi => hq i (by unfold queueSize at hi; omega)
  · exact (hq _ (by decide)).trans h.size
  · exact fun a ha i hi => hkeep.getField hB (h.node a ha).1 hi
  · exact fun a ha => hkeep.blockBytes hB (h.data a ha).1

/-- The count is stored. -/
theorem set_size {Fits : Word → Prop} {Live : σ → Blocks → Prop} (hA : A.Meets Fits Live)
    (hl : Live s B') (hsub : B.Sub B') (h : QueueRep A s B q dataSize count nodes items) (c : ℕ) :
    QueueRep A (A.set s q queueSize (BitVec.ofNat 64 c)) B q dataSize c nodes items := by
  have hblock := hsub h.block
  refine h.congr (Blocks.Sub.refl B) ?_ ?_ ?_ ?_
  · intro i hi
    have hi' : i < 3 := hi
    rw [hA.get_set hl hblock (by decide) hblock (by omega), if_neg]
    rintro ⟨-, rfl⟩
    exact absurd hi (by decide)
  · rw [hA.get_set hl hblock (by decide) hblock (by decide), if_pos ⟨rfl, rfl⟩]
  · intro a ha i hi
    rw [hA.get_set hl hblock (by decide) (hsub (h.node a ha).1) hi, if_neg]
    exact fun heq => (h.node a ha).2 heq.1.symm
  · intro a ha
    obtain ⟨hdata, hne, -⟩ := h.data a ha
    exact hA.bytes_set hl hblock (by decide) (hsub hdata) hne _

end QueueRep

section Steps

variable {σ : Type} {A : Allocator Halt σ} {Fits : Word → Prop} {Live : σ → Blocks → Prop} {s s' : σ}
  {B : Blocks} {q dataSize : Word} {count : ℕ} {nodes : List Word} {items : List (List Byte)}

/-- The blocks with the new node. -/
abbrev withNode (B : Blocks) (node buf dataSize : Word) : Blocks :=
  Function.update (Function.update B node (some 24)) buf (some dataSize.toNat)

/-- What `queue_enqueue` has before it links the new node. -/
structure NewNode (A : Allocator Halt σ) (Live : σ → Blocks → Prop) (B : Blocks) (q dataSize : Word)
    (data : ℕ → Byte) (node buf : Word) (s' : σ) : Prop where
  fresh : B node = none
  fresh_buf : B buf = none
  ne : buf ≠ node
  live : Live s' (withNode B node buf dataSize)
  prev : A.get s' node qnodePrev = null
  data_eq : A.get s' node qnodeData = buf
  bytes : blockBytes (A.mem s') buf dataSize.toNat = (List.range dataSize.toNat).map data

theorem queueNode_spec (hA : A.Meets Fits Live) (hl : Live s B)
    (h : QueueRep A s B q dataSize count nodes items) (hnode : Fits 24) (hdata : Fits dataSize)
    {data : ℕ → Byte} {node : Word} (hok : queueNode A s q data = .ok (node, s')) :
    ∃ buf, NewNode A Live B q dataSize data node buf s' ∧
      QueueRep A s' B q dataSize (count + 1) nodes items := by
  obtain ⟨⟨node', s₁⟩, hmalloc, hok⟩ := Res.bind_eq_ok.mp hok
  dsimp only at hok
  obtain ⟨⟨buf, s₃⟩, hmalloc', hok⟩ := Res.bind_eq_ok.mp hok
  injection hok with hok
  injection hok with hnn hs'
  subst hnn
  have hB := hA.blocks hl
  obtain ⟨hfresh, hl₁, hk₁⟩ := hA.malloc hl hnode hmalloc
  obtain ⟨B₁, hB₁⟩ : ∃ B₁ : Blocks, B₁ = Function.update B node' (some 24) := ⟨_, rfl⟩
  rw [show (24 : Word).toNat = 24 from rfl, ← hB₁] at hl₁
  have hself₁ : B₁ node' = some 24 := by rw [hB₁, Function.update_self]
  have hsub₁ : B.Sub B₁ := hB₁ ▸ Blocks.Sub.add hfresh 24
  -- nothing before the count is stored reaches a block of the queue
  obtain ⟨s₂, hs₂⟩ : ∃ s₂, s₂ = A.set s₁ node' qnodePrev null := ⟨_, rfl⟩
  rw [← hs₂] at hmalloc'
  have hl₂ : Live s₂ B₁ := hs₂ ▸ hA.live_set hl₁ hself₁ (by decide) _
  have hk₂ : Keeps B (A.mem s₁) (A.mem s₂) :=
    hs₂ ▸ (hA.keeps_set hl₁ hself₁ (by decide) _).mono (hsub₁.remove hfresh)
  have hprev₂ : A.get s₂ node' qnodePrev = null := by
    rw [hs₂, hA.get_set hl₁ hself₁ (by decide) hself₁ (by decide), if_pos ⟨rfl, rfl⟩]
  have hsize₂ : A.get s₂ q queueDataSize = dataSize :=
    ((hk₁.trans hk₂).getField hB h.block (by decide)).trans h.data_size
  rw [hsize₂] at hmalloc'
  obtain ⟨hfresh', hl₃, hk₃⟩ := hA.malloc hl₂ hdata hmalloc'
  obtain ⟨B₃, hB₃⟩ : ∃ B₃ : Blocks, B₃ = Function.update B₁ buf (some dataSize.toNat) := ⟨_, rfl⟩
  rw [← hB₃] at hl₃
  have hne : buf ≠ node' := by
    rintro rfl
    rw [hself₁] at hfresh'
    cases hfresh'
  have hsub₃ : B₁.Sub B₃ := hB₃ ▸ Blocks.Sub.add hfresh' _
  have hself₃ : B₃ buf = some dataSize.toNat := by rw [hB₃, Function.update_self]
  have hnode₃ : B₃ node' = some 24 := hsub₃ hself₁
  have hbuf : B buf = none := by
    rw [hB₁, Function.update_of_ne hne] at hfresh'
    exact hfresh'
  obtain ⟨s₄, hs₄⟩ : ∃ s₄, s₄ = A.set s₃ node' qnodeData buf := ⟨_, rfl⟩
  rw [← hs₄] at hs'
  have hl₄ : Live s₄ B₃ := hs₄ ▸ hA.live_set hl₃ hnode₃ (by decide) _
  have hk₄ : Keeps B (A.mem s₃) (A.mem s₄) := hs₄ ▸ (hA.keeps_set hl₃ hnode₃ (by decide) _).mono
    ((hsub₁.trans hsub₃).remove hfresh)
  have hdata₄ : A.get s₄ node' qnodeData = buf := by
    rw [hs₄, hA.get_set hl₃ hnode₃ (by decide) hnode₃ (by decide), if_pos ⟨rfl, rfl⟩]
  have hprev₄ : A.get s₄ node' qnodePrev = null := by
    rw [hs₄, hA.get_set hl₃ hnode₃ (by decide) hnode₃ (by decide), if_neg (by simp)]
    exact (hk₃.getField (hA.blocks hl₂) hself₁ (by decide)).trans hprev₂
  have hsize₄ : A.get s₄ q queueDataSize = dataSize :=
    (((hk₃.mono hsub₁).trans hk₄).getField hB h.block (by decide)).trans hsize₂
  rw [hdata₄, hsize₄] at hs'
  obtain ⟨s₅, hs₅⟩ : ∃ s₅, s₅ = A.fill s₄ buf data dataSize.toNat := ⟨_, rfl⟩
  rw [← hs₅] at hs'
  have hl₅ : Live s₅ B₃ := hs₅ ▸ hA.live_fill hl₄ hself₃ data
  have hk₅ := hA.keeps_fill hl₄ hself₃ data
  rw [← hs₅] at hk₅
  have hk : Keeps B (A.mem s) (A.mem s₅) :=
    (hk₁.trans hk₂).trans (((hk₃.mono hsub₁).trans hk₄).trans
      (hk₅.mono ((hsub₁.trans hsub₃).remove hbuf)))
  have h₅ := h.keeps hB (Blocks.Sub.refl B) hk
  have hblock := (hsub₁.trans hsub₃) h.block
  have hcount : A.get s₅ q queueSize + 1 = BitVec.ofNat 64 (count + 1) := by
    rw [h₅.size, BitVec.ofNat_add]
    rfl
  rw [hcount] at hs'
  -- the node is not the queue, so its fields are as they were stored
  have hnq : node' ≠ q := by
    rintro rfl
    rw [h.block] at hfresh
    cases hfresh
  have hnode₅ : ∀ i, 8 * i + 8 ≤ 24 → A.get s' node' i = A.get s₄ node' i := by
    intro i hi
    rw [← hs', hA.get_set hl₅ hblock (by decide) hnode₃ hi, if_neg fun heq => hnq heq.1.symm]
    have hrem : Function.update B₃ buf none node' = some 24 := by
      rw [Function.update_of_ne hne.symm]
      exact hnode₃
    have hBr : Blocks.Ok (Function.update B₃ buf none) := (hA.blocks hl₅).remove buf
    exact hk₅.getField hBr hrem hi
  have hbq : buf ≠ q := by
    rintro rfl
    rw [h.block] at hbuf
    cases hbuf
  refine ⟨buf, ⟨hfresh, hbuf, hne, ?_, ?_, ?_, ?_⟩, ?_⟩
  · unfold withNode
    rw [← hB₁, ← hB₃, ← hs']
    exact hA.live_set hl₅ hblock (by decide) _
  · exact (hnode₅ _ (by decide)).trans hprev₄
  · exact (hnode₅ _ (by decide)).trans hdata₄
  · rw [← hs', hA.bytes_set hl₅ hblock (by decide) hself₃ hbq, hs₅]
    exact hA.bytes_fill hl₄ hself₃ data
  · rw [← hs']
    exact h₅.set_size hA hl₅ (hsub₁.trans hsub₃) (count + 1)

section Link

variable {data : ℕ → Byte} {node buf : Word} (hnew : NewNode A Live B q dataSize data node buf s)
include hnew

theorem NewNode.sub : B.Sub (withNode B node buf dataSize) := by
  have hfresh : Function.update B node (some 24) buf = none := by
    rw [Function.update_of_ne hnew.ne]
    exact hnew.fresh_buf
  exact (Blocks.Sub.add hnew.fresh 24).trans (Blocks.Sub.add hfresh _)

theorem NewNode.node_block : withNode B node buf dataSize node = some 24 := by
  unfold withNode
  rw [Function.update_of_ne hnew.ne.symm, Function.update_self]

theorem NewNode.ne_of_live {a : Word} {k : ℕ} (ha : B a = some k) : a ≠ node ∧ a ≠ buf := by
  constructor
  · rintro rfl
    rw [hnew.fresh] at ha
    cases ha
  · rintro rfl
    rw [hnew.fresh_buf] at ha
    cases ha

/-- The new node in front of the others. -/
theorem QueueRep.cons (h : QueueRep A s B q dataSize count nodes items)
    (hhead : A.get s' q queueHead = node)
    (htail : A.get s' q queueTail = (node :: nodes).getLast?.getD null)
    (hdsize : A.get s' q queueDataSize = A.get s q queueDataSize)
    (hsize : A.get s' q queueSize = A.get s q queueSize)
    (hnext : A.get s' node qnodeNext = nodes.head?.getD null)
    (hprev : A.get s' node qnodePrev = null) (hdata : A.get s' node qnodeData = buf)
    (hold : ∀ a ∈ nodes, A.get s' a qnodeNext = A.get s a qnodeNext ∧
      A.get s' a qnodeData = A.get s a qnodeData ∧
      A.get s' a qnodePrev = if a ∈ nodes.head? then node else A.get s a qnodePrev)
    (hbytes : ∀ b, withNode B node buf dataSize b = some dataSize.toNat → b ≠ q → b ≠ node →
      b ∉ nodes → blockBytes (A.mem s') b dataSize.toNat = blockBytes (A.mem s) b dataSize.toNat) :
    QueueRep A s' (withNode B node buf dataSize) q dataSize count (node :: nodes)
      (items ++ [(List.range dataSize.toNat).map data]) := by
  have hsub := hnew.sub
  obtain ⟨hnq, hbq⟩ := hnew.ne_of_live h.block
  have hmem : ∀ a ∈ nodes, a ≠ node ∧ a ≠ buf := fun a ha => hnew.ne_of_live (h.node a ha).1
  have hnn : node ∉ nodes := fun hin => (hmem node hin).1 rfl
  have hbn : buf ∉ nodes := fun hin => (hmem buf hin).2 rfl
  have hself : withNode B node buf dataSize buf = some dataSize.toNat := Function.update_self ..
  constructor
  case block => exact hsub h.block
  case node =>
    rw [List.forall_mem_cons]
    exact ⟨⟨hnew.node_block, hnq.symm⟩, fun a ha => ⟨hsub (h.node a ha).1, (h.node a ha).2⟩⟩
  case once => exact List.nodup_cons.mpr ⟨hnn, h.once⟩
  case data =>
    rw [List.forall_mem_cons, hdata]
    refine ⟨⟨hself, hbq.symm, by simp [hnew.ne, hbn]⟩, ?_⟩
    intro a ha
    obtain ⟨h1, h2, h3⟩ := h.data a ha
    rw [(hold a ha).2.1]
    have := (hnew.ne_of_live h1).1
    exact ⟨hsub h1, h2, by simp [this, h3]⟩
  case head => exact hhead
  case tail => exact htail
  case data_size => exact hdsize.trans h.data_size
  case size => exact hsize.trans h.size
  case links =>
    rw [List.isChain_cons]
    constructor
    · intro y hy
      rw [(hold y (List.mem_of_mem_head? hy)).2.2, if_pos hy, hnext, Option.mem_def.mp hy]
      exact ⟨rfl, rfl⟩
    · refine h.links.imp_of_mem_tail_imp ?_
      intro a b ha hb hab
      -- only the head has a new predecessor
      have hbh : b ∉ nodes.head? := by
        intro hh
        have hsplit := List.cons_head?_tail hh
        have hnd := h.once
        rw [← hsplit] at hnd
        exact (List.nodup_cons.mp hnd).1 hb
      rw [(hold a ha).1, (hold b (List.mem_of_mem_tail hb)).2.2, if_neg hbh]
      exact hab
  case first =>
    intro a ha
    have heq : node = a := by simpa using ha
    rw [← heq]
    exact hprev
  case last =>
    intro a ha
    cases nodes with
    | nil =>
        have heq : node = a := by simpa using ha
        rw [← heq, hnext]
        rfl
    | cons c rest =>
        rw [List.getLast?_cons_cons] at ha
        rw [(hold a (List.mem_of_mem_getLast? ha)).1]
        exact h.last a ha
  case items_eq =>
    rw [List.map_cons, List.reverse_cons, hdata, hbytes buf hself hbq.symm hnew.ne hbn, hnew.bytes,
      h.items_eq]
    congr 2
    apply List.map_congr_left
    intro a ha
    obtain ⟨h1, h2, h3⟩ := h.data a ha
    rw [(hold a ha).2.1, hbytes _ (hsub h1) h2 (hnew.ne_of_live h1).1 h3]

/-- The links of a queue with no nodes. -/
theorem queueLink_nil (hA : A.Meets Fits Live) (h : QueueRep A s B q dataSize count [] items) :
    Live (queueLink A s q node) (withNode B node buf dataSize) ∧
      A.get (queueLink A s q node) node qnodeData = buf ∧
      QueueRep A (queueLink A s q node) (withNode B node buf dataSize) q dataSize count
        [node] (items ++ [(List.range dataSize.toNat).map data]) := by
  have hl := hnew.live
  have hn := hnew.node_block
  have hq := hnew.sub h.block
  obtain ⟨hnq, -⟩ := hnew.ne_of_live h.block
  have hhead : A.get s q queueHead = null := h.head
  unfold queueLink
  rw [if_pos hhead]
  have hl₁ := hA.live_set hl hn (i := qnodeNext) (by decide) null
  have hl₂ := hA.live_set hl₁ hq (i := queueHead) (by decide) node
  have hl₃ := hA.live_set hl₂ hq (i := queueTail) (by decide) node
  have hget : ∀ {b k j}, withNode B node buf dataSize b = some k → 8 * j + 8 ≤ k →
      A.get (A.set (A.set (A.set s node qnodeNext null) q queueHead node) q queueTail node) b j =
        if q = b ∧ queueTail = j then node else if q = b ∧ queueHead = j then node else
          if node = b ∧ qnodeNext = j then null else A.get s b j := by
    intro b k j hb hj
    rw [hA.get_set hl₂ hq (by decide) hb hj, hA.get_set hl₁ hq (by decide) hb hj,
      hA.get_set hl hn (by decide) hb hj]
  have hbytes : ∀ {b k}, withNode B node buf dataSize b = some k → b ≠ q → b ≠ node →
      blockBytes (A.mem (A.set (A.set (A.set s node qnodeNext null) q queueHead node) q queueTail
        node)) b k = blockBytes (A.mem s) b k := by
    intro b k hb hbq hbn
    rw [hA.bytes_set hl₂ hq (by decide) hb hbq, hA.bytes_set hl₁ hq (by decide) hb hbq,
      hA.bytes_set hl hn (by decide) hb hbn]
  generalize A.set (A.set (A.set s node qnodeNext null) q queueHead node) q queueTail node = s₃
    at hl₃ hget hbytes ⊢
  have hdata : A.get s₃ node qnodeData = buf := by
    simp [hget hn (show 8 * qnodeData + 8 ≤ 24 by decide), hnq, hnew.data_eq]
  refine ⟨hl₃, hdata, ?_⟩
  apply QueueRep.cons hnew h
  case hhead => simp [hget hq (show 8 * queueHead + 8 ≤ 32 by decide)]
  case htail => simp [hget hq (show 8 * queueTail + 8 ≤ 32 by decide)]
  case hdsize => simp [hget hq (show 8 * queueDataSize + 8 ≤ 32 by decide)]
  case hsize => simp [hget hq (show 8 * queueSize + 8 ≤ 32 by decide)]
  case hnext => simp [hget hn (show 8 * qnodeNext + 8 ≤ 24 by decide), hnq]
  case hprev => simp [hget hn (show 8 * qnodePrev + 8 ≤ 24 by decide), hnq, hnew.prev]
  case hdata => exact hdata
  case hold => simp
  case hbytes => exact fun b hb hbq hbn _ => hbytes hb hbq hbn

/-- The links of a queue whose head is `c`. -/
theorem queueLink_cons (hA : A.Meets Fits Live) {c : Word} {rest : List Word}
    (h : QueueRep A s B q dataSize count (c :: rest) items) :
    Live (queueLink A s q node) (withNode B node buf dataSize) ∧
      A.get (queueLink A s q node) node qnodeData = buf ∧
      QueueRep A (queueLink A s q node) (withNode B node buf dataSize) q dataSize count
        (node :: c :: rest) (items ++ [(List.range dataSize.toNat).map data]) := by
  have hl := hnew.live
  have hn := hnew.node_block
  have hq := hnew.sub h.block
  obtain ⟨hnq, -⟩ := hnew.ne_of_live h.block
  have hhead : A.get s q queueHead = c := h.head
  obtain ⟨hcB, hcq⟩ := h.node c List.mem_cons_self
  have hc := hnew.sub hcB
  have hcn := (hnew.ne_of_live hcB).1
  unfold queueLink
  -- a live node is not at address zero
  rw [hhead, if_neg ((hA.blocks hl).addr hc).1]
  have hl₁ := hA.live_set hl hn (i := qnodeNext) (by decide) c
  have hhead₁ : A.get (A.set s node qnodeNext c) q queueHead = c := by
    rw [hA.get_set hl hn (by decide) hq (by decide), if_neg fun heq => hnq heq.1.symm]
    exact hhead
  dsimp only
  rw [hhead₁]
  have hl₂ := hA.live_set hl₁ hc (i := qnodePrev) (by decide) node
  have hl₃ := hA.live_set hl₂ hq (i := queueHead) (by decide) node
  have hget : ∀ {b k j}, withNode B node buf dataSize b = some k → 8 * j + 8 ≤ k →
      A.get (A.set (A.set (A.set s node qnodeNext c) c qnodePrev node) q queueHead node) b j =
        if q = b ∧ queueHead = j then node else if c = b ∧ qnodePrev = j then node else
          if node = b ∧ qnodeNext = j then c else A.get s b j := by
    intro b k j hb hj
    rw [hA.get_set hl₂ hq (by decide) hb hj, hA.get_set hl₁ hc (by decide) hb hj,
      hA.get_set hl hn (by decide) hb hj]
  have hbytes : ∀ {b k}, withNode B node buf dataSize b = some k → b ≠ q → b ≠ node → b ≠ c →
      blockBytes (A.mem (A.set (A.set (A.set s node qnodeNext c) c qnodePrev node) q queueHead
        node)) b k = blockBytes (A.mem s) b k := by
    intro b k hb hbq hbn hbc
    rw [hA.bytes_set hl₂ hq (by decide) hb hbq, hA.bytes_set hl₁ hc (by decide) hb hbc,
      hA.bytes_set hl hn (by decide) hb hbn]
  generalize A.set (A.set (A.set s node qnodeNext c) c qnodePrev node) q queueHead node = s₃
    at hl₃ hget hbytes ⊢
  have hdata : A.get s₃ node qnodeData = buf := by
    simp [hget hn (show 8 * qnodeData + 8 ≤ 24 by decide), hnq, hnew.data_eq]
  refine ⟨hl₃, hdata, ?_⟩
  apply QueueRep.cons hnew h
  case hhead => simp [hget hq (show 8 * queueHead + 8 ≤ 32 by decide)]
  case htail =>
    rw [hget hq (show 8 * queueTail + 8 ≤ 32 by decide), if_neg (by simp),
      if_neg fun heq => hcq heq.1, if_neg fun heq => hnq heq.1.symm, h.tail,
      List.getLast?_cons_cons]
  case hdsize => simp [hget hq (show 8 * queueDataSize + 8 ≤ 32 by decide), hnq.symm]
  case hsize => simp [hget hq (show 8 * queueSize + 8 ≤ 32 by decide), hnq.symm]
  case hnext => simp [hget hn (show 8 * qnodeNext + 8 ≤ 24 by decide), hnq]
  case hprev => simp [hget hn (show 8 * qnodePrev + 8 ≤ 24 by decide), hnq, hcn, hnew.prev]
  case hdata => exact hdata
  case hold =>
    intro a ha
    obtain ⟨haB, haq⟩ := h.node a ha
    have han := (hnew.ne_of_live haB).1
    have ha' := hnew.sub haB
    refine ⟨?_, ?_, ?_⟩
    · simp [hget ha' (show 8 * qnodeNext + 8 ≤ 24 by decide), haq.symm, han.symm]
    · simp [hget ha' (show 8 * qnodeData + 8 ≤ 24 by decide), haq.symm]
    · simp [hget ha' (show 8 * qnodePrev + 8 ≤ 24 by decide), haq.symm]
  case hbytes =>
    intro b hb hbq hbn hnot
    exact hbytes hb hbq hbn fun heq => hnot (heq ▸ List.mem_cons_self)

/-- **The new node becomes the head.** -/
theorem queueLink_spec (hA : A.Meets Fits Live)
    (h : QueueRep A s B q dataSize count nodes items) :
    Live (queueLink A s q node) (withNode B node buf dataSize) ∧
      A.get (queueLink A s q node) node qnodeData = buf ∧
      QueueRep A (queueLink A s q node) (withNode B node buf dataSize) q dataSize count
        (node :: nodes) (items ++ [(List.range dataSize.toNat).map data]) := by
  cases nodes with
  | nil => exact queueLink_nil hnew hA h
  | cons c rest => exact queueLink_cons hnew hA h

end Link

/-! ## Taking an element out -/

/-- What the end of `queue_dequeue` does to the blocks that stay. -/
theorem queueDrop_spec (hA : A.Meets Fits Live) (hl : Live s B) (hq : B q = some 32) {tail : Word}
    (ht : B tail = some 24) (hne : tail ≠ q) (prev : Word) :
    Live (queueDrop A s q tail prev) (Function.update B tail none) ∧
      (∀ {b k j}, B b = some k → b ≠ tail → 8 * j + 8 ≤ k →
        A.get (queueDrop A s q tail prev) b j = if q = b ∧ queueSize = j then
          A.get s q queueSize - 1 else if q = b ∧ queueTail = j then prev else A.get s b j) ∧
      ∀ {b k}, B b = some k → b ≠ tail → b ≠ q →
        blockBytes (A.mem (queueDrop A s q tail prev)) b k = blockBytes (A.mem s) b k := by
  obtain ⟨hl₁, hk⟩ := hA.free hl ht
  have hB := hA.blocks hl₁
  have hstay : ∀ {b k}, B b = some k → b ≠ tail → Function.update B tail none b = some k := by
    intro b k hb hbt
    rw [Function.update_of_ne hbt]
    exact hb
  have hq₁ := hstay hq hne.symm
  have hl₂ := hA.live_set hl₁ hq₁ (i := queueTail) (by decide) prev
  have hget₁ : ∀ {b k j}, B b = some k → b ≠ tail → 8 * j + 8 ≤ k →
      A.get (A.free s tail) b j = A.get s b j :=
    fun hb hbt hj => hk.getField hB (hstay hb hbt) hj
  have hsize : A.get (A.set (A.free s tail) q queueTail prev) q queueSize = A.get s q queueSize := by
    rw [hA.get_set hl₁ hq₁ (by decide) hq₁ (by decide), if_neg (by simp),
      hget₁ hq hne.symm (by decide)]
  unfold queueDrop
  dsimp only
  rw [hsize]
  refine ⟨hA.live_set hl₂ hq₁ (by decide) _, ?_, ?_⟩
  · intro b k j hb hbt hj
    rw [hA.get_set hl₂ hq₁ (by decide) (hstay hb hbt) hj,
      hA.get_set hl₁ hq₁ (by decide) (hstay hb hbt) hj, hget₁ hb hbt hj]
  · intro b k hb hbt hbq
    rw [hA.bytes_set hl₂ hq₁ (by decide) (hstay hb hbt) hbq,
      hA.bytes_set hl₁ hq₁ (by decide) (hstay hb hbt) hbq]
    exact hk.blockBytes hB (hstay hb hbt)

/-- The fields and bytes that stay when the last node goes: the queue without it. -/
theorem QueueRep.dropLast {ys : List Word} {prev tail : Word}
    (h : QueueRep A s B q dataSize (count + 1) (ys ++ [prev, tail]) items)
    (hget : ∀ {b k j}, B b = some k → b ≠ tail → 8 * j + 8 ≤ k →
      A.get s' b j = if q = b ∧ queueSize = j then A.get s q queueSize - 1 else
        if q = b ∧ queueTail = j then prev else
          if prev = b ∧ qnodeNext = j then null else A.get s b j)
    (hbytes : ∀ {b k}, B b = some k → b ≠ tail → b ≠ q → b ≠ prev →
      blockBytes (A.mem s') b k = blockBytes (A.mem s) b k) :
    QueueRep A s' (Function.update B tail none) q dataSize count (ys ++ [prev]) items.tail := by
  have hsplit : ys ++ [prev, tail] = (ys ++ [prev]) ++ [tail] := by simp
  obtain ⟨hys, -, hlink⟩ := List.isChain_append.mp h.links
  have hqt : q ≠ tail := (h.node tail (by simp)).2.symm
  have hpq : prev ≠ q := (h.node prev (by simp)).2
  have honce := h.once
  rw [hsplit] at honce
  have hnot : ∀ a ∈ ys ++ [prev], a ≠ tail := by
    rintro a ha rfl
    exact (List.nodup_append.mp honce).2.2 a ha a (List.mem_singleton_self a) rfl
  have hpys : prev ∉ ys := by
    intro hin
    exact (List.nodup_append.mp h.once).2.2 prev hin prev (by simp) rfl
  have hin : ∀ a ∈ ys ++ [prev], a ∈ ys ++ [prev, tail] := by
    intro a ha
    rw [hsplit]
    exact List.mem_append_left _ ha
  -- only the `next` of the new last node changes
  have hnodes : ∀ a ∈ ys ++ [prev], ∀ j, 8 * j + 8 ≤ 24 →
      A.get s' a j = if prev = a ∧ qnodeNext = j then null else A.get s a j := by
    intro a ha j hj
    obtain ⟨haB, haq⟩ := h.node a (hin a ha)
    rw [hget haB (hnot a ha) hj, if_neg fun heq => haq heq.1.symm,
      if_neg fun heq => haq heq.1.symm]
  have hstay : ∀ {b k}, B b = some k → b ≠ tail → Function.update B tail none b = some k := by
    intro b k hb hbt
    rw [Function.update_of_ne hbt]
    exact hb
  have hdata : ∀ a ∈ ys ++ [prev], A.get s' a qnodeData = A.get s a qnodeData := by
    intro a ha
    rw [hnodes a ha _ (by decide), if_neg (by simp)]
  constructor
  case block => exact hstay h.block hqt
  case node =>
    exact fun a ha => ⟨hstay (h.node a (hin a ha)).1 (hnot a ha), (h.node a (hin a ha)).2⟩
  case once => exact (List.nodup_append.mp honce).1
  case data =>
    intro a ha
    obtain ⟨h1, h2, h3⟩ := h.data a (hin a ha)
    rw [hdata a ha]
    refine ⟨hstay h1 ?_, h2, fun hmem => h3 (hin _ hmem)⟩
    rintro heq
    exact h3 (by rw [heq]; simp)
  case head =>
    rw [hget h.block hqt (by decide), if_neg (by simp), if_neg (by simp),
      if_neg fun heq => hpq heq.1, h.head]
    cases ys <;> rfl
  case tail =>
    rw [hget h.block hqt (by decide), if_neg (by simp), if_pos ⟨rfl, rfl⟩]
    simp
  case data_size =>
    rw [hget h.block hqt (by decide), if_neg (by simp), if_neg (by simp),
      if_neg fun heq => hpq heq.1]
    exact h.data_size
  case size =>
    rw [hget h.block hqt (by decide), if_pos ⟨rfl, rfl⟩, h.size, BitVec.ofNat_add]
    exact BitVec.add_sub_cancel _ _
  case links =>
    rw [List.isChain_append]
    refine ⟨?_, List.isChain_singleton _, ?_⟩
    · refine hys.imp_of_mem_imp ?_
      intro a b ha hb hab
      rw [hnodes a (by simp [ha]) _ (by decide), hnodes b (by simp [hb]) _ (by decide),
        if_neg (by rintro ⟨rfl, -⟩; exact hpys ha), if_neg (by simp)]
      exact hab
    · intro a ha b hb
      have hpb : prev = b := by simpa using hb
      subst hpb
      have hays := List.mem_of_mem_getLast? ha
      rw [hnodes a (by simp [hays]) _ (by decide), hnodes prev (by simp) _ (by decide),
        if_neg (by rintro ⟨rfl, -⟩; exact hpys hays), if_neg (by simp)]
      exact hlink a ha prev (by simp)
  case first =>
    intro a ha
    have hamem := List.mem_of_mem_head? ha
    rw [hnodes a hamem _ (by decide), if_neg (by simp)]
    apply h.first a
    cases ys with
    | nil => exact ha
    | cons y ys => exact ha
  case last =>
    intro a ha
    have hpa : prev = a := by simpa using ha
    subst hpa
    rw [hnodes prev (by simp) _ (by decide), if_pos ⟨rfl, rfl⟩]
  case items_eq =>
    rw [h.items_eq, hsplit, List.map_append, List.reverse_append, List.map_singleton,
      List.reverse_singleton, List.singleton_append, List.tail_cons]
    congr 1
    apply List.map_congr_left
    intro a ha
    obtain ⟨h1, h2, h3⟩ := h.data a (hin a ha)
    rw [hdata a ha, hbytes h1 (fun heq => h3 (by rw [heq]; simp)) h2
      (fun heq => h3 (by rw [heq]; simp))]

/-- **The oldest of several elements is taken out.** -/
theorem queueDequeue_spec (hA : A.Meets Fits Live) (hl : Live s B) {ys : List Word} {prev tail : Word}
    (h : QueueRep A s B q dataSize (count + 1) (ys ++ [prev, tail]) items) :
    ∃ s', queueDequeue A s q = (s', []) ∧ Live s' (Function.update B (A.get s q queueTail) none) ∧
      QueueRep A s' (Function.update B (A.get s q queueTail) none) q dataSize count (ys ++ [prev])
        items.tail := by
  have htail : A.get s q queueTail = tail := by rw [h.tail]; simp
  obtain ⟨htB, htq⟩ := h.node tail (by simp)
  obtain ⟨hpB, hpq⟩ := h.node prev (by simp)
  obtain ⟨-, hpt, -⟩ := List.isChain_append.mp h.links
  have hprev : A.get s tail qnodePrev = prev := (List.isChain_cons_cons.mp hpt).1.2
  have hB := hA.blocks hl
  have hl₁ := hA.live_set hl hpB (i := qnodeNext) (by decide) null
  have htail₁ : A.get (A.set s prev qnodeNext null) q queueTail = tail := by
    rw [hA.get_set hl hpB (by decide) h.block (by decide), if_neg fun heq => hpq heq.1]
    exact htail
  have hsize₁ : A.get (A.set s prev qnodeNext null) q queueSize = A.get s q queueSize := by
    rw [hA.get_set hl hpB (by decide) h.block (by decide), if_neg fun heq => hpq heq.1]
  have hdeq : queueDequeue A s q = (queueDrop A (A.set s prev qnodeNext null) q tail prev, []) := by
    unfold queueDequeue
    rw [htail, hprev, if_neg (hB.addr htB).1]
    dsimp only
    rw [if_pos (hB.addr hpB).1, htail₁]
  obtain ⟨hl', hget, hbytes⟩ := queueDrop_spec hA hl₁ h.block htB htq prev
  rw [htail]
  refine ⟨_, hdeq, hl', h.dropLast ?_ ?_⟩
  · intro b k j hb hbt hj
    rw [hget hb hbt hj, hA.get_set hl hpB (by decide) hb hj, hsize₁]
  · intro b k hb hbt hbq hbp
    rw [hbytes hb hbt hbq, hA.bytes_set hl hpB (by decide) hb hbp]

/-- **Taking out the only element leaves `head` at the freed node.** -/
theorem queueDequeue_last (hA : A.Meets Fits Live) (hl : Live s B) {node : Word}
    (h : QueueRep A s B q dataSize 1 [node] items) :
    let s' := (queueDequeue A s q).1
    A.get s' q queueSize = 0 ∧ A.get s' q queueTail = null ∧ A.get s' q queueHead = node ∧
      node ≠ null ∧ Live s' (Function.update B node none) := by
  have htail : A.get s q queueTail = node := h.tail
  have hprev : A.get s node qnodePrev = null := h.first node rfl
  obtain ⟨hnB, hnq⟩ := h.node node (List.mem_singleton_self node)
  have hne := ((hA.blocks hl).addr hnB).1
  have hdeq : queueDequeue A s q = (queueDrop A s q node null, []) := by
    unfold queueDequeue
    rw [htail, hprev, if_neg hne]
    dsimp only
    rw [if_neg (by simp), htail]
  obtain ⟨hl', hget, -⟩ := queueDrop_spec hA hl h.block hnB hnq null
  rw [hdeq]
  refine ⟨?_, ?_, ?_, hne, hl'⟩
  · rw [hget h.block hnq.symm (by decide), if_pos ⟨rfl, rfl⟩, h.size]
    rfl
  · rw [hget h.block hnq.symm (by decide), if_neg (by simp), if_pos ⟨rfl, rfl⟩]
  · rw [hget h.block hnq.symm (by decide), if_neg (by simp), if_neg (by simp)]
    exact h.head

end Steps

end Cerberos
