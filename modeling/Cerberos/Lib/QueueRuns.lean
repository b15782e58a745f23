/-
# Cerberos.Lib.QueueRuns — the queue is a FIFO until it is drained.

A run carries the list the queue should stand for and the live blocks as ghosts. As long as no
`queue_dequeue` meets a queue with exactly ONE element, every state is a FIFO. The condition cannot be
weakened: from any such state, taking the only element out leaves a `head` that is not `NULL`.
-/
import Cerberos.Lib.Queue
import Cerberos.Mm.KheapClient

namespace Cerberos

open Cerberos.Base

section Runs

variable {σ : Type} {A : Allocator Halt σ} {Fits : Word → Prop} {Live : σ → Blocks → Prop}

/-- `queue_create`, then any calls that return; no `queue_dequeue` on a queue of one element. The
elements are listed oldest first. -/
inductive QueueRun (A : Allocator Halt σ) (Live : σ → Blocks → Prop) (dataSize q : Word) :
    σ → Blocks → List (List Byte) → Prop
  | create {s s' : σ} {B : Blocks} :
      Live s B → queueCreate A s dataSize = .ok (q, s') →
      QueueRun A Live dataSize q s' (Function.update B q (some 32)) []
  | enqueue {s s' : σ} {B : Blocks} {items : List (List Byte)} (data : ℕ → Byte) :
      QueueRun A Live dataSize q s B items → queueEnqueue A s q data = .ok s' →
      QueueRun A Live dataSize q s'
        (withNode B (A.get s' q queueHead) (A.get s' (A.get s' q queueHead) qnodeData) dataSize)
        (items ++ [(List.range dataSize.toNat).map data])
  | dequeue {s : σ} {B : Blocks} {items : List (List Byte)} :
      QueueRun A Live dataSize q s B items → A.get s q queueSize ≠ 1 →
      QueueRun A Live dataSize q (queueDequeue A s q).1
        (Function.update B (A.get s q queueTail) none) items.tail

/-- `n` nodes along `next`. -/
def queueWalk (A : Allocator Halt σ) (s : σ) : ℕ → Word → List Word
  | 0, _ => []
  | n + 1, node => node :: queueWalk A s n (A.get s node qnodeNext)

/-- The queue at `q` behaves as the list `items`. -/
structure IsFifo (A : Allocator Halt σ) (s : σ) (B : Blocks) (q dataSize : Word)
    (items : List (List Byte)) : Prop where
  size : (A.get s q queueSize).toNat = items.length
  front : items.head? = if (queueFront A s q).1 = null then none else
    some (blockBytes (A.mem s) (queueFront A s q).1 dataSize.toNat)
  back : items.getLast? = if (queueBack A s q).1 = null then none else
    some (blockBytes (A.mem s) (queueBack A s q).1 dataSize.toNat)
  head_null : A.get s q queueHead = null ↔ A.get s q queueSize = 0
  tail_null : A.get s q queueTail = null ↔ A.get s q queueSize = 0
  reaches : items ≠ [] →
    (queueWalk A s items.length (A.get s q queueHead)).getLast? = some (A.get s q queueTail)
  not_freed : ∀ node ∈ queueWalk A s items.length (A.get s q queueHead), B node = some 24
  once : (queueWalk A s items.length (A.get s q queueHead)).Nodup
  empty : items = [] → (queueDequeue A s q).1 = s

theorem queueCreate_spec (hA : A.Meets Fits Live) {s s' : σ} {B : Blocks} {q dataSize : Word}
    (hl : Live s B) (hfits : Fits 32) (hok : queueCreate A s dataSize = .ok (q, s')) :
    Live s' (Function.update B q (some 32)) ∧
      QueueRep A s' (Function.update B q (some 32)) q dataSize 0 [] [] := by
  obtain ⟨⟨q', s₁⟩, hmalloc, hok⟩ := Res.bind_eq_ok.mp hok
  injection hok with hok
  injection hok with hqq hs'
  subst hqq
  obtain ⟨-, hl₁, -⟩ := hA.malloc hl hfits hmalloc
  have hq : Function.update B q' (some (32 : Word).toNat) q' = some 32 := Function.update_self ..
  have hl₂ := hA.live_set hl₁ hq (i := queueHead) (by decide) null
  have hl₃ := hA.live_set hl₂ hq (i := queueTail) (by decide) null
  have hl₄ := hA.live_set hl₃ hq (i := queueDataSize) (by decide) dataSize
  have hl₅ := hA.live_set hl₄ hq (i := queueSize) (by decide) 0
  have hget : ∀ j, 8 * j + 8 ≤ 32 → A.get s' q' j = if queueSize = j then 0 else
      if queueDataSize = j then dataSize else if queueTail = j then null else
        if queueHead = j then null else A.get s₁ q' j := by
    intro j hj
    rw [← hs', hA.get_set hl₄ hq (by decide) hq hj, hA.get_set hl₃ hq (by decide) hq hj,
      hA.get_set hl₂ hq (by decide) hq hj, hA.get_set hl₁ hq (by decide) hq hj]
    simp
  refine ⟨hs' ▸ hl₅, ?_⟩
  constructor
  case block => exact hq
  case head => exact hget queueHead (by decide)
  case tail => exact hget queueTail (by decide)
  case data_size => exact hget queueDataSize (by decide)
  case size => exact hget queueSize (by decide)
  case links => exact List.isChain_nil
  all_goals simp

/-- Live nodes have distinct addresses other than zero, so they can be counted in a word. -/
theorem QueueRep.length_lt {s : σ} {B : Blocks} {q dataSize : Word} {count : ℕ} {nodes : List Word}
    {items : List (List Byte)} (h : QueueRep A s B q dataSize count nodes items) (hB : B.Ok) :
    nodes.length < 2 ^ 64 := by
  have hsub : (nodes.map BitVec.toNat).toFinset ⊆ Finset.Ico 1 (2 ^ 64) := by
    intro x hx
    obtain ⟨a, ha, rfl⟩ := List.mem_map.mp (List.mem_toFinset.mp hx)
    exact Finset.mem_Ico.mpr ⟨toNat_pos_of_ne_zero (hB.addr (h.node a ha).1).1, a.isLt⟩
  have hcard := Finset.card_le_card hsub
  have hinj : Function.Injective (BitVec.toNat : Word → ℕ) := fun _ _ => BitVec.eq_of_toNat_eq
  rw [List.toFinset_card_of_nodup (h.once.map hinj), Nat.card_Ico, List.length_map] at hcard
  omega

/-- **What every run keeps.** -/
theorem QueueRun.rep (hA : A.Meets Fits Live) {dataSize q : Word} (hqueue : Fits 32) (hnode : Fits 24)
    (hdata : Fits dataSize) {s : σ} {B : Blocks} {items : List (List Byte)}
    (h : QueueRun A Live dataSize q s B items) :
    Live s B ∧ ∃ nodes : List Word, QueueRep A s B q dataSize nodes.length nodes items := by
  induction h with
  | create hl hok =>
      obtain ⟨hl', hrep⟩ := queueCreate_spec hA hl hqueue hok
      exact ⟨hl', [], hrep⟩
  | enqueue data _ hok ih =>
      obtain ⟨hl, nodes, hrep⟩ := ih
      obtain ⟨⟨node, s₁⟩, hnew, hok⟩ := Res.bind_eq_ok.mp hok
      injection hok with hok
      obtain ⟨buf, hnn, hrep₁⟩ := queueNode_spec hA hl hrep hnode hdata hnew
      obtain ⟨hl', hbuf, hrep'⟩ := queueLink_spec hnn hA hrep₁
      rw [hok] at hl' hbuf hrep'
      -- the new node and its buffer can be read off the final state
      have hhead : A.get _ q queueHead = node := hrep'.head
      rw [hhead, hbuf]
      exact ⟨hl', node :: nodes, hrep'⟩
  | dequeue _ hone ih =>
      rename_i s B items _
      obtain ⟨hl, nodes, hrep⟩ := ih
      have hB := hA.blocks hl
      rcases List.eq_nil_or_concat nodes with rfl | ⟨ms, tail, rfl⟩
      · -- the empty queue: nothing happens, and `NULL` is no block
        have htail : A.get s q queueTail = null := hrep.tail
        have hnull : B null = none := by
          cases h0 : B null with
          | none => rfl
          | some n => exact absurd rfl (hB.addr h0).1
        have hitems : items = [] := hrep.items_eq
        subst hitems
        unfold queueDequeue
        rw [if_pos htail, htail]
        have hsame : Function.update B null none = B := by
          rw [← hnull, Function.update_eq_self]
        rw [hsame]
        exact ⟨hl, [], hrep⟩
      · rcases List.eq_nil_or_concat ms with rfl | ⟨ys, prev, rfl⟩
        · exact absurd hrep.size hone
        · rw [List.concat_eq_append, List.concat_eq_append, List.append_assoc] at hrep
          have hlen : ((ys ++ ([prev] ++ [tail])).length) = (ys ++ [prev]).length + 1 := by simp
          rw [hlen] at hrep
          obtain ⟨s', hdeq, hl', hrep'⟩ := queueDequeue_spec hA hl hrep
          rw [hdeq]
          exact ⟨hl', ys ++ [prev], hrep'⟩

/-- The nodes are what a walk from the head finds. -/
theorem queueWalk_eq {s : σ} :
    ∀ {nodes : List Word}, nodes.IsChain (fun a b => A.get s a qnodeNext = b ∧
      A.get s b qnodePrev = a) → queueWalk A s nodes.length (nodes.head?.getD null) = nodes := by
  intro nodes
  induction nodes with
  | nil => exact fun _ => rfl
  | cons a nodes ih =>
      intro hchain
      rw [List.isChain_cons] at hchain
      show a :: queueWalk A s nodes.length (A.get s a qnodeNext) = a :: nodes
      congr 1
      cases nodes with
      | nil => rfl
      | cons b nodes =>
          rw [(hchain.1 b rfl).1]
          exact ih hchain.2

theorem QueueRep.isFifo (hA : A.Meets Fits Live) {s : σ} {B : Blocks} {q dataSize : Word}
    {nodes : List Word} {items : List (List Byte)} (hl : Live s B)
    (h : QueueRep A s B q dataSize nodes.length nodes items) : IsFifo A s B q dataSize items := by
  have hB := hA.blocks hl
  have hlen : items.length = nodes.length := by rw [h.items_eq]; simp
  have hlt := h.length_lt hB
  have hsize : (A.get s q queueSize).toNat = nodes.length := by
    rw [h.size, BitVec.toNat_ofNat, Nat.mod_eq_of_lt hlt]
  have hzero : A.get s q queueSize = 0 ↔ nodes = [] := by
    rw [← List.length_eq_zero_iff, ← hsize]
    exact ⟨fun h0 => by rw [h0]; rfl, fun h0 => BitVec.eq_of_toNat_eq h0⟩
  have hlive : ∀ a ∈ nodes, a ≠ null := fun a ha => (hB.addr (h.node a ha).1).1
  have hdata : ∀ a ∈ nodes, A.get s a qnodeData ≠ null := fun a ha => (hB.addr (h.data a ha).1).1
  have hwalk : queueWalk A s items.length (A.get s q queueHead) = nodes := by
    rw [hlen, h.head]
    exact queueWalk_eq h.links
  have hnil : items = [] ↔ nodes = [] := by
    rw [← List.length_eq_zero_iff, hlen, List.length_eq_zero_iff]
  have hhead : A.get s q queueHead = null ↔ nodes = [] := by
    rw [h.head]
    cases nodes with
    | nil => simp
    | cons a nodes => simpa using hlive a List.mem_cons_self
  have htail : A.get s q queueTail = null ↔ nodes = [] := by
    rw [h.tail]
    cases hlast : nodes.getLast? with
    | none => simpa using hlast
    | some a =>
        have ha := List.mem_of_mem_getLast? hlast
        exact iff_of_false (hlive a ha) (List.ne_nil_of_mem ha)
  constructor
  case size => rw [hsize, hlen]
  case front =>
    unfold queueFront
    rcases List.eq_nil_or_concat nodes with rfl | ⟨ms, a, rfl⟩
    · rw [if_pos (htail.mpr rfl), if_pos rfl, hnil.mpr rfl]
      rfl
    · have hta : A.get s q queueTail = a := by rw [h.tail]; simp
      have hne := hlive a (by simp)
      rw [hta, if_neg hne, if_neg (hdata a (by simp)), h.items_eq]
      simp
  case back =>
    unfold queueBack
    cases nodes with
    | nil =>
        rw [if_pos (hhead.mpr rfl), if_pos rfl, hnil.mpr rfl]
        rfl
    | cons a nodes =>
        have hha : A.get s q queueHead = a := h.head
        rw [hha, if_neg (hlive a List.mem_cons_self), if_neg (hdata a List.mem_cons_self), h.items_eq]
        simp
  case head_null => rw [hhead, hzero]
  case tail_null => rw [htail, hzero]
  case reaches =>
    intro hne
    rw [hwalk, h.tail]
    cases hlast : nodes.getLast? with
    | none =>
        rw [List.getLast?_eq_none_iff] at hlast
        exact absurd (hnil.mpr hlast) hne
    | some a => rfl
  case not_freed =>
    rw [hwalk]
    exact fun a ha => (h.node a ha).1
  case once =>
    rw [hwalk]
    exact h.once
  case empty =>
    intro h0
    unfold queueDequeue
    rw [if_pos (htail.mpr (hnil.mp h0))]

/-- **The queue is a FIFO until it is drained.** In every run in which no `queue_dequeue` meets a queue
with exactly one element, every state behaves as the list of the run; and a `queue_dequeue` on a queue
with exactly one element always ends in a state that behaves as no list. -/
theorem queueRun_fifo (hA : A.Meets Fits Live) {dataSize q : Word} (hqueue : Fits 32)
    (hnode : Fits 24) (hdata : Fits dataSize) {s : σ} {B : Blocks} {items : List (List Byte)}
    (h : QueueRun A Live dataSize q s B items) :
    IsFifo A s B q dataSize items ∧ (A.get s q queueSize = 1 →
      ∀ B' items', ¬ IsFifo A (queueDequeue A s q).1 B' q dataSize items') := by
  obtain ⟨hl, nodes, hrep⟩ := h.rep hA hqueue hnode hdata
  have hfifo := hrep.isFifo hA hl
  refine ⟨hfifo, ?_⟩
  intro hone B' items' hbad
  have hlen : nodes.length = 1 := by
    have hlt := hrep.length_lt (hA.blocks hl)
    have hsize := congrArg BitVec.toNat hrep.size
    rw [hone, BitVec.toNat_ofNat, Nat.mod_eq_of_lt hlt] at hsize
    exact hsize.symm
  obtain ⟨node, rfl⟩ := List.length_eq_one_iff.mp hlen
  obtain ⟨hsize, -, hhead, hne, -⟩ := queueDequeue_last hA hl hrep
  apply hne
  rw [← hhead, hbad.head_null]
  exact hsize

end Runs

/-! ### On the small machine -/

/-- A queue of eight-byte elements: one goes in, is taken out, and another one goes in. -/
def smallQueue : Res (Kernel × Word × Kernel × Kernel × Kernel) := do
  let k₀ ← kheapInit smallKernel smallHandover 1
  let (q, k₁) ← queueCreate kernelHeap k₀ 8
  let k₂ ← queueEnqueue kernelHeap k₁ q fun _ => 7
  let k₃ ← queueEnqueue kernelHeap (queueDequeue kernelHeap k₂ q).1 q fun _ => 9
  .ok (k₀, q, k₁, k₂, k₃)

/-- What is seen of the queue after it was drained, and after the next element went in. -/
def smallQueueSeen : Res (Word × Bool × Word × Word) := do
  let (_, q, _, k₂, k₃) ← smallQueue
  let k := (queueDequeue kernelHeap k₂ q).1
  .ok (kernelHeap.get k q queueSize, kernelHeap.get k q queueHead == null,
    kernelHeap.get k₃ q queueSize, (queueFront kernelHeap k₃ q).1)

theorem smallQueue_returns : ∃ k₀ q k₁ k₂ k₃, smallQueue = .ok (k₀, q, k₁, k₂, k₃) ∧
    KernelLive k₀ (fun _ => none) ∧ queueCreate kernelHeap k₀ 8 = .ok (q, k₁) ∧
    queueEnqueue kernelHeap k₁ q (fun _ => 7) = .ok k₂ ∧
    queueEnqueue kernelHeap (queueDequeue kernelHeap k₂ q).1 q (fun _ => 9) = .ok k₃ := by
  obtain ⟨⟨k₀, q, k₁, k₂, k₃⟩, h⟩ := Res.exists_of_isOk (x := smallQueue) (by decide +kernel)
  refine ⟨k₀, q, k₁, k₂, k₃, h, ?_⟩
  obtain ⟨k₀', hinit, h⟩ := Res.bind_eq_ok.mp h
  obtain ⟨⟨q', k₁'⟩, hcreate, h⟩ := Res.bind_eq_ok.mp h
  obtain ⟨k₂', henq, h⟩ := Res.bind_eq_ok.mp h
  obtain ⟨k₃', henq', h⟩ := Res.bind_eq_ok.mp h
  cases h
  exact ⟨kernelLive_init smallPmm_booted (by decide) hinit, hcreate, henq, henq'⟩

/-- Two elements go into the queue of the small machine and the older one is taken out: what is left
behaves as the younger one, until that is taken out as well. -/
theorem queueRun_fifo_small : ∃ q k B,
    QueueRun kernelHeap KernelLive 8 q k B [List.replicate 8 9] ∧
    IsFifo kernelHeap k B q 8 [List.replicate 8 9] ∧
    ∀ B' items, ¬ IsFifo kernelHeap (queueDequeue kernelHeap k q).1 B' q 8 items := by
  obtain ⟨k₀, q, k₁, k₂, k₃, hall, hlive, hcreate, henq, -⟩ := smallQueue_returns
  have hcall : (do
      let (_, q, _, k, _) ← smallQueue
      let k' ← queueEnqueue kernelHeap k q fun _ => 9
      .ok (decide (kernelHeap.get k' q queueSize = 2 ∧
        kernelHeap.get (queueDequeue kernelHeap k' q).1 q queueSize = 1)) : Res Bool) = .ok true := by
    decide +kernel
  replace hcall := Res.after hall hcall
  obtain ⟨k₄, henq', hcall⟩ := Res.bind_eq_ok.mp hcall
  obtain ⟨htwo, hone⟩ := of_decide_eq_true (Except.ok.inj hcall)
  have hrun := QueueRun.enqueue (fun _ => 9)
    (QueueRun.enqueue (fun _ => 7) (QueueRun.create hlive hcreate) henq) henq'
  -- the queue has two elements, so this is no draining
  have hleft := hrun.dequeue (by rw [htwo]; decide)
  obtain ⟨hfifo, hdrained⟩ := queueRun_fifo kernelHeap_meets (by decide) (by decide) (by decide) hleft
  exact ⟨q, _, _, hleft, hfifo, hdrained hone⟩

/-- Once drained, the queue of the small machine is no FIFO, and it loses the next element. -/
theorem queue_drained : ∃ k₀ q k₁ k₂ k₃, KernelLive k₀ (fun _ => none) ∧
    queueCreate kernelHeap k₀ 8 = .ok (q, k₁) ∧
    queueEnqueue kernelHeap k₁ q (fun _ => 7) = .ok k₂ ∧
    queueEnqueue kernelHeap (queueDequeue kernelHeap k₂ q).1 q (fun _ => 9) = .ok k₃ ∧
    (∀ B items, ¬ IsFifo kernelHeap (queueDequeue kernelHeap k₂ q).1 B q 8 items) ∧
    (∀ B items, ¬ IsFifo kernelHeap k₃ B q 8 items) := by
  obtain ⟨k₀, q, k₁, k₂, k₃, hall, hlive, hcreate, henq, henq'⟩ := smallQueue_returns
  have hseen : smallQueueSeen = .ok (0, false, 1, null) := by decide +kernel
  unfold smallQueueSeen at hseen
  rw [hall] at hseen
  injection hseen with hseen
  simp only [Prod.mk.injEq] at hseen
  obtain ⟨hsize, hhead, hsize', hfront⟩ := hseen
  refine ⟨k₀, q, k₁, k₂, k₃, hlive, hcreate, henq, henq', ?_, ?_⟩
  · intro B items h
    exact beq_eq_false_iff_ne.mp hhead (h.head_null.mpr hsize)
  · intro B items h
    have hnone := h.front
    rw [if_pos hfront, List.head?_eq_none_iff] at hnone
    have hlen := h.size
    rw [hsize', hnone] at hlen
    cases hlen

end Cerberos
