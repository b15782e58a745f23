/-
# Cerberos.Lib.QueueMemory — who owns the blocks of the queue (`lib/ds/queue.c`).

The queue again, over a heap that is the explicit set of its blocks and in which every access is
checked: reading, writing or freeing a block that is not live faults. An element is a node and a copy
of the caller's data, and `queue_destroy` gives both back. `queue_dequeue` gives back the NODE only: no
pointer to the copy is left, so the copy stays allocated whatever comes after.
-/
import Cerberos.Lib.Cells

namespace Cerberos

open Cerberos.Base

/-! ## The records -/

/-- `qnode_t`. -/
structure CellNode where
  next : Option ℕ
  prev : Option ℕ
  data : Option ℕ

/-- `queue_t`. The size never wraps: what it counts are blocks of the heap. -/
structure CellQueue where
  head : Option ℕ
  tail : Option ℕ
  dataSize : ℕ
  size : ℕ

/-- What a block holds. -/
inductive QueueCell where
  | queue (queue : CellQueue)
  | node (node : CellNode)
  | data (bytes : List Byte)

abbrev QueueHeap := BlockHeap QueueCell

section Access

variable (h : QueueHeap)

/-- A load through a pointer to a queue. -/
def readQueue (q : ℕ) : Res CellQueue :=
  match h.block q with
  | some (.queue queue) => .ok queue
  | _ => .error .fault

/-- A load through a pointer to a node. -/
def readNode : Option ℕ → Res CellNode
  | none => .error .fault
  | some p => match h.block p with
    | some (.node node) => .ok node
    | _ => .error .fault

/-- A store into a field of a queue. -/
def setQueue (q : ℕ) (f : CellQueue → CellQueue) : Res QueueHeap := do
  let queue ← readQueue h q
  cellWrite h q (.queue (f queue))

/-- A store into a field of a node. -/
def setNode (p : ℕ) (f : CellNode → CellNode) : Res QueueHeap := do
  let node ← readNode h (some p)
  cellWrite h p (.node (f node))

/-- `memcpy(ptr, bytes, n)`: copying 0 bytes touches nothing. -/
def copyData (ptr : Option ℕ) (bytes : List Byte) (n : ℕ) : Res QueueHeap :=
  if n = 0 then .ok h
  else match ptr with
    | none => .error .fault
    | some p => cellWrite h p (.data (bytes.take n))

end Access

/-! ## The functions -/

/-- `queue_create(data_size)`. -/
def cellQueueCreate (h : QueueHeap) (dataSize : ℕ) : ℕ × QueueHeap :=
  h.malloc (.queue ⟨none, none, dataSize, 0⟩)

/-- The first half of `queue_enqueue`: a node with a copy of the data. -/
def cellQueueNode (h : QueueHeap) (q : ℕ) (data : List Byte) : Res (ℕ × QueueHeap) := do
  -- what `kmalloc` leaves in the fields is not read before they are stored
  let (node, h) := h.malloc (.node ⟨none, none, none⟩)
  let h ← setNode h node fun n => { n with prev := none }
  let queue ← readQueue h q
  let (buf, h) := cellMalloc h queue.dataSize (.data [])
  let h ← setNode h node fun n => { n with data := buf }
  let h ← copyData h buf data queue.dataSize
  let h ← setQueue h q fun queue => { queue with size := queue.size + 1 }
  .ok (node, h)

/-- The second half: the node becomes the head. -/
def cellQueueLink (h : QueueHeap) (q node : ℕ) : Res QueueHeap := do
  let queue ← readQueue h q
  match queue.head with
  | none =>
      let h ← setNode h node fun n => { n with next := none }
      setQueue h q fun queue => { queue with head := some node, tail := some node }
  | some head =>
      let h ← setNode h node fun n => { n with next := some head }
      let h ← setNode h head fun n => { n with prev := some node }
      setQueue h q fun queue => { queue with head := some node }

/-- `queue_enqueue(q, data)`. -/
def cellQueueEnqueue (h : QueueHeap) (q : ℕ) (data : List Byte) : Res QueueHeap := do
  let (node, h) ← cellQueueNode h q data
  cellQueueLink h q node

/-- `prev->next = NULL`, for a `prev` that is not `NULL`. -/
def cellQueueCut (h : QueueHeap) : Option ℕ → Res QueueHeap
  | none => .ok h
  | some prev => setNode h prev fun n => { n with next := none }

/-- `queue_dequeue(q)`; the line it logs on a queue with no tail touches no block. -/
def cellQueueDequeue (h : QueueHeap) (q : ℕ) : Res QueueHeap := do
  let queue ← readQueue h q
  match queue.tail with
  | none => .ok h
  | some tail =>
      let node ← readNode h (some tail)
      let h ← cellQueueCut h node.prev
      -- `q->tail->data` is not given back
      let h ← cellFree h (some tail)
      setQueue h q fun queue => { queue with tail := node.prev, size := queue.size - 1 }

/-- The loop of `queue_destroy`, with `n` elements to go. -/
def cellQueueDrain (q : ℕ) : ℕ → Option ℕ → QueueHeap → Res QueueHeap
  | 0, _, h => .ok h
  | n + 1, temp, h => do
      -- q->head = q->head->next
      let queue ← readQueue h q
      let head ← readNode h queue.head
      let h ← setQueue h q fun queue => { queue with head := head.next }
      -- kfree(temp->data); kfree(temp)
      let node ← readNode h temp
      let h ← cellFree h node.data
      let h ← cellFree h temp
      let queue ← readQueue h q
      cellQueueDrain q n queue.head h

/-- `queue_destroy(q)`. -/
def cellQueueDestroy (h : QueueHeap) (q : ℕ) : Res QueueHeap := do
  let queue ← readQueue h q
  let h ← cellQueueDrain q queue.size queue.head h
  cellFree h (some q)

/-- The calls between `queue_create` and `queue_destroy`. -/
inductive QueueOp where
  | enqueue (data : List Byte)
  | dequeue

def cellQueueStep (q : ℕ) (h : QueueHeap) : QueueOp → Res QueueHeap
  | .enqueue data => cellQueueEnqueue h q data
  | .dequeue => cellQueueDequeue h q

/-- A queue from `queue_create` to `queue_destroy`. -/
def cellQueueLife (h : QueueHeap) (dataSize : ℕ) (ops : List QueueOp) : Res QueueHeap := do
  let (q, h) := cellQueueCreate h dataSize
  let h ← ops.foldlM (cellQueueStep q) h
  cellQueueDestroy h q

/-! ## Checked accesses -/

section Access

variable {h₀ h h' : QueueHeap} {l : List ℕ} {p q : ℕ}

theorem readQueue_eq_ok {queue : CellQueue} :
    readQueue h q = .ok queue ↔ h.block q = some (.queue queue) := by
  unfold readQueue
  split
  · rename_i heq
    simp [heq]
  · rename_i hne
    constructor
    · intro hok
      cases hok
    · intro heq
      exact absurd heq (hne queue)

theorem readNode_eq_ok {node : CellNode} :
    readNode h (some p) = .ok node ↔ h.block p = some (.node node) := by
  show (match h.block p with | some (.node node) => (.ok node : Res CellNode) | _ => .error .fault) = _
    ↔ _
  split
  · rename_i heq
    simp [heq]
  · rename_i hne
    constructor
    · intro hok
      cases hok
    · intro heq
      exact absurd heq (hne node)

theorem setQueue_eq_ok {f : CellQueue → CellQueue} : setQueue h q f = .ok h' ↔
    ∃ queue, h.block q = some (.queue queue) ∧ h.write q (.queue (f queue)) = some h' := by
  unfold setQueue
  rw [Res.bind_eq_ok]
  simp only [readQueue_eq_ok, cellWrite_eq_ok]

theorem setNode_eq_ok {f : CellNode → CellNode} : setNode h p f = .ok h' ↔
    ∃ node, h.block p = some (.node node) ∧ h.write p (.node (f node)) = some h' := by
  unfold setNode
  rw [Res.bind_eq_ok]
  simp only [readNode_eq_ok, cellWrite_eq_ok]

/-- A store into a block of one's own comes back. -/
theorem owned_write (ho : BlockHeap.Owned h₀ h l) (hp : p ∈ l) (b : QueueCell) :
    ∃ h', h.write p b = some h' ∧ BlockHeap.Owned h₀ h' l ∧
      h'.block = Function.update h.block p (some b) := by
  obtain ⟨h', hw⟩ := BlockHeap.exists_write (ho.live p hp) b
  exact ⟨h', hw, ho.write hp hw, (BlockHeap.write_eq_some hw).2.1⟩

theorem owned_setQueue (ho : BlockHeap.Owned h₀ h l) (hq : q ∈ l) {queue : CellQueue}
    (hb : h.block q = some (.queue queue)) (f : CellQueue → CellQueue) :
    ∃ h', setQueue h q f = .ok h' ∧ BlockHeap.Owned h₀ h' l ∧
      h'.block = Function.update h.block q (some (.queue (f queue))) := by
  obtain ⟨h', hw, ho', hblock⟩ := owned_write ho hq (.queue (f queue))
  exact ⟨h', setQueue_eq_ok.mpr ⟨queue, hb, hw⟩, ho', hblock⟩

theorem owned_setNode (ho : BlockHeap.Owned h₀ h l) (hp : p ∈ l) {node : CellNode}
    (hb : h.block p = some (.node node)) (f : CellNode → CellNode) :
    ∃ h', setNode h p f = .ok h' ∧ BlockHeap.Owned h₀ h' l ∧
      h'.block = Function.update h.block p (some (.node (f node))) := by
  obtain ⟨h', hw, ho', hblock⟩ := owned_write ho hp (.node (f node))
  exact ⟨h', setNode_eq_ok.mpr ⟨node, hb, hw⟩, ho', hblock⟩

theorem owned_free (ho : BlockHeap.Owned h₀ h (p :: l)) :
    ∃ h', cellFree h (some p) = .ok h' ∧ BlockHeap.Owned h₀ h' l ∧
      h'.block = Function.update h.block p none := by
  obtain ⟨h', hf, ho'⟩ := frees_cellFree p ho
  obtain ⟨_, hp, hfree⟩ := cellFree_eq_ok hf
  cases hp
  exact ⟨h', hf, ho', (BlockHeap.free_eq_some hfree).2.1⟩

end Access

/-! ## A queue that owns its elements -/

/-- The two blocks of an element. -/
structure QueueElem where
  node : ℕ
  data : ℕ

def QueueElem.blocks (e : QueueElem) : List ℕ := [e.data, e.node]

/-- The blocks of an element are apart from each other, from the queue and from the other elements. -/
theorem QueueElem.apart {e : QueueElem} {es : List QueueElem} {q : ℕ}
    (hnd : ((e :: es).flatMap QueueElem.blocks ++ [q]).Nodup) :
    e.data ≠ e.node ∧ e.data ≠ q ∧ e.node ≠ q ∧
      ∀ p ∈ es.flatMap QueueElem.blocks, p ≠ e.data ∧ p ≠ e.node ∧ p ≠ q := by
  rw [List.flatMap_cons, QueueElem.blocks, List.append_assoc] at hnd
  simp only [List.cons_append, List.nil_append, List.nodup_cons, List.mem_cons, List.mem_append,
    List.not_mem_nil, not_or, or_false] at hnd
  obtain ⟨⟨hdn, hdrest, hdq⟩, ⟨hnrest, hnq⟩, hrest⟩ := hnd
  refine ⟨hdn, hdq, hnq, ?_⟩
  intro p hp
  refine ⟨fun heq => hdrest (heq ▸ hp), fun heq => hnrest (heq ▸ hp), ?_⟩
  exact (List.nodup_append.mp hrest).2.2 p hp q (List.mem_singleton_self q)

/-- What `q->head` is when these are the elements, newest first. -/
def queueFirst (es : List QueueElem) : Option ℕ := es.head?.map QueueElem.node

/-- **The elements hang together by their links**, the first of them after `prev`. -/
def QueueLinked (h : QueueHeap) : Option ℕ → List QueueElem → Prop
  | _, [] => True
  | prev, e :: es => h.block e.node = some (.node ⟨queueFirst es, prev, some e.data⟩) ∧
      (∃ bytes, h.block e.data = some (.data bytes)) ∧ QueueLinked h (some e.node) es

/-- Writes elsewhere are not seen. -/
theorem QueueLinked.congr {h h' : QueueHeap} : ∀ {es : List QueueElem} {prev : Option ℕ},
    QueueLinked h prev es → (∀ p ∈ es.flatMap QueueElem.blocks, h'.block p = h.block p) →
    QueueLinked h' prev es := by
  intro es
  induction es with
  | nil => exact fun _ _ => trivial
  | cons e es ih =>
      intro prev hl hsame
      obtain ⟨hnode, hdata, hrest⟩ := hl
      rw [List.flatMap_cons] at hsame
      refine ⟨?_, ?_, ih hrest fun p hp => hsame p (List.mem_append_right _ hp)⟩
      · rw [hsame e.node (by simp [QueueElem.blocks])]
        exact hnode
      · rw [hsame e.data (by simp [QueueElem.blocks])]
        exact hdata

/-- **The queue at `q` and its elements are all that was handed out and not given back.** -/
structure QueueOwns (h₀ h : QueueHeap) (q dataSize : ℕ) (es : List QueueElem) : Prop where
  owned : BlockHeap.Owned h₀ h (es.flatMap QueueElem.blocks ++ [q])
  queue : h.block q = some (.queue ⟨queueFirst es, es.getLast?.map QueueElem.node, dataSize, es.length⟩)
  linked : QueueLinked h none es

theorem cellQueueCreate_owns (h : QueueHeap) (dataSize : ℕ) :
    QueueOwns h (cellQueueCreate h dataSize).2 (cellQueueCreate h dataSize).1 dataSize [] := by
  constructor
  case owned => exact (BlockHeap.Owned.refl h).malloc _
  case queue => exact Function.update_self ..
  case linked => trivial

/-! ### `queue_destroy` -/

section Destroy

variable {h₀ : QueueHeap} {q dataSize : ℕ}

/-- **The loop gives back both blocks of every element.** -/
theorem cellQueueDrain_spec {tail : Option ℕ} {size : ℕ} :
    ∀ {es : List QueueElem} {h : QueueHeap} {prev : Option ℕ},
      BlockHeap.Owned h₀ h (es.flatMap QueueElem.blocks ++ [q]) →
      h.block q = some (.queue ⟨queueFirst es, tail, dataSize, size⟩) → QueueLinked h prev es →
      ∃ h', cellQueueDrain q es.length (queueFirst es) h = .ok h' ∧ BlockHeap.Owned h₀ h' [q] := by
  intro es
  induction es with
  | nil => exact fun ho _ _ => ⟨_, rfl, ho⟩
  | cons e es ih =>
      intro h prev ho hq hl
      obtain ⟨hnode, -, hrest⟩ := hl
      obtain ⟨-, hdq, hnq, hother⟩ := QueueElem.apart ho.nodup
      obtain ⟨h₁, hset, ho₁, hb₁⟩ := owned_setQueue ho (by simp) hq fun queue =>
        { queue with head := queueFirst es }
      obtain ⟨h₂, hfree, ho₂, hb₂⟩ := owned_free ho₁
      obtain ⟨h₃, hfree', ho₃, hb₃⟩ := owned_free ho₂
      have hnode₁ : h₁.block e.node = some (.node ⟨queueFirst es, prev, some e.data⟩) := by
        rw [hb₁, Function.update_of_ne hnq, hnode]
      have hq₃ : h₃.block q = some (.queue ⟨queueFirst es, tail, dataSize, size⟩) := by
        rw [hb₃, Function.update_of_ne (Ne.symm hnq), hb₂, Function.update_of_ne (Ne.symm hdq), hb₁,
          Function.update_self]
      have hrest₃ : QueueLinked h₃ (some e.node) es := by
        refine hrest.congr ?_
        intro p hp
        obtain ⟨hpd, hpn, hpq⟩ := hother p hp
        rw [hb₃, Function.update_of_ne hpn, hb₂, Function.update_of_ne hpd, hb₁,
          Function.update_of_ne hpq]
      obtain ⟨h', hok, ho'⟩ := ih ho₃ hq₃ hrest₃
      refine ⟨h', ?_, ho'⟩
      -- the round itself, access by access
      refine Res.bind_eq_ok.mpr ⟨_, readQueue_eq_ok.mpr hq, ?_⟩
      refine Res.bind_eq_ok.mpr ⟨_, readNode_eq_ok.mpr hnode, ?_⟩
      refine Res.bind_eq_ok.mpr ⟨_, hset, ?_⟩
      refine Res.bind_eq_ok.mpr ⟨_, readNode_eq_ok.mpr hnode₁, ?_⟩
      refine Res.bind_eq_ok.mpr ⟨_, hfree, ?_⟩
      refine Res.bind_eq_ok.mpr ⟨_, hfree', ?_⟩
      exact Res.bind_eq_ok.mpr ⟨_, readQueue_eq_ok.mpr hq₃, hok⟩

theorem QueueOwns.destroy {h : QueueHeap} {es : List QueueElem}
    (ho : QueueOwns h₀ h q dataSize es) :
    ∃ h', cellQueueDestroy h q = .ok h' ∧ BlockHeap.Owned h₀ h' [] := by
  obtain ⟨h₁, hdrain, ho₁⟩ := cellQueueDrain_spec ho.owned ho.queue ho.linked
  obtain ⟨h', hfree, ho', -⟩ := owned_free ho₁
  refine ⟨h', ?_, ho'⟩
  refine Res.bind_eq_ok.mpr ⟨_, readQueue_eq_ok.mpr ho.queue, ?_⟩
  exact Res.bind_eq_ok.mpr ⟨_, hdrain, hfree⟩

end Destroy

/-! ### `queue_enqueue` -/

section Enqueue

variable {h₀ h : QueueHeap} {q dataSize : ℕ} {es : List QueueElem}

/-- The queue between the two halves: the new element `e` is counted and not linked yet. -/
structure QueueFresh (h₀ h : QueueHeap) (q dataSize : ℕ) (e : QueueElem) (es : List QueueElem) :
    Prop where
  owned : BlockHeap.Owned h₀ h ((e :: es).flatMap QueueElem.blocks ++ [q])
  node : h.block e.node = some (.node ⟨none, none, some e.data⟩)
  data : ∃ bytes, h.block e.data = some (.data bytes)
  queue : h.block q =
    some (.queue ⟨queueFirst es, es.getLast?.map QueueElem.node, dataSize, es.length + 1⟩)
  linked : QueueLinked h none es

theorem QueueOwns.node (ho : QueueOwns h₀ h q dataSize es) (hsize : dataSize ≠ 0)
    (data : List Byte) :
    ∃ e h', cellQueueNode h q data = .ok (e.node, h') ∧ QueueFresh h₀ h' q dataSize e es := by
  have hmalloc := ho.owned.malloc (.node ⟨none, none, none⟩)
  have hq : h.next ≠ q := by
    intro heq
    exact ho.owned.next_not_mem (by simp [heq])
  obtain ⟨h₂, hset₂, ho₂, hb₂⟩ := owned_setNode hmalloc (List.mem_cons_self ..)
    (Function.update_self ..) fun n => { n with prev := none }
  have hq₂ : h₂.block q =
      some (.queue ⟨queueFirst es, es.getLast?.map QueueElem.node, dataSize, es.length⟩) := by
    rw [hb₂, Function.update_of_ne (Ne.symm hq)]
    show Function.update h.block h.next _ q = _
    rw [Function.update_of_ne (Ne.symm hq), ho.queue]
  -- the two new blocks are the element
  let e : QueueElem := ⟨h.next, h₂.next⟩
  have ho₃ : BlockHeap.Owned h₀ (h₂.malloc (.data [])).2
      ((e :: es).flatMap QueueElem.blocks ++ [q]) := ho₂.malloc _
  obtain ⟨hdn, hdq, -, hother⟩ := QueueElem.apart ho₃.nodup
  have hnode₃ : (h₂.malloc (.data [])).2.block e.node = some (.node ⟨none, none, none⟩) := by
    show Function.update h₂.block h₂.next _ e.node = _
    rw [Function.update_of_ne (Ne.symm hdn), hb₂]
    exact Function.update_self ..
  obtain ⟨h₄, hset₄, ho₄, hb₄⟩ := owned_setNode ho₃ (by simp [QueueElem.blocks]) hnode₃
    fun n => { n with data := some e.data }
  obtain ⟨h₅, hcopy, ho₅, hb₅⟩ := owned_write (p := e.data) ho₄ (by simp [QueueElem.blocks])
    (.data (data.take dataSize))
  have hq₅ : h₅.block q =
      some (.queue ⟨queueFirst es, es.getLast?.map QueueElem.node, dataSize, es.length⟩) := by
    rw [hb₅, Function.update_of_ne (Ne.symm hdq), hb₄, Function.update_of_ne (Ne.symm hq)]
    show Function.update h₂.block e.data _ q = _
    rw [Function.update_of_ne (Ne.symm hdq), hq₂]
  obtain ⟨h₆, hset₆, ho₆, hb₆⟩ := owned_setQueue ho₅ (by simp) hq₅
    fun queue => { queue with size := queue.size + 1 }
  refine ⟨e, h₆, ?_, ho₆, ?_, ⟨data.take dataSize, ?_⟩, ?_, ?_⟩
  · refine Res.bind_eq_ok.mpr ⟨_, hset₂, ?_⟩
    refine Res.bind_eq_ok.mpr ⟨_, readQueue_eq_ok.mpr hq₂, ?_⟩
    have hbuf : cellMalloc h₂ dataSize (.data []) = (some e.data, (h₂.malloc (.data [])).2) :=
      if_neg hsize
    simp only [hbuf]
    refine Res.bind_eq_ok.mpr ⟨_, hset₄, ?_⟩
    refine Res.bind_eq_ok.mpr ⟨h₅, ?_, Res.bind_eq_ok.mpr ⟨_, hset₆, rfl⟩⟩
    unfold copyData
    rw [if_neg hsize]
    exact cellWrite_eq_ok.mpr hcopy
  · rw [hb₆, Function.update_of_ne hq, hb₅, Function.update_of_ne (Ne.symm hdn), hb₄,
      Function.update_self]
  · rw [hb₆, Function.update_of_ne hdq, hb₅, Function.update_self]
  · rw [hb₆, Function.update_self]
  · refine ho.linked.congr ?_
    intro p hp
    obtain ⟨hpd, hpn, hpq⟩ := hother p hp
    rw [hb₆, Function.update_of_ne hpq, hb₅, Function.update_of_ne hpd, hb₄,
      Function.update_of_ne hpn]
    show Function.update h₂.block e.data _ p = _
    rw [Function.update_of_ne hpd, hb₂, Function.update_of_ne hpn]
    exact Function.update_of_ne hpn ..

theorem QueueFresh.link {e : QueueElem} (hf : QueueFresh h₀ h q dataSize e es) :
    ∃ h', cellQueueLink h q e.node = .ok h' ∧ QueueOwns h₀ h' q dataSize (e :: es) := by
  obtain ⟨bytes, hdata⟩ := hf.data
  obtain ⟨hdn, hdq, hnq, hother⟩ := QueueElem.apart hf.owned.nodup
  cases es with
  | nil =>
      obtain ⟨h₁, hset₁, ho₁, hb₁⟩ := owned_setNode hf.owned (by simp [QueueElem.blocks]) hf.node
        fun n => { n with next := none }
      have hq₁ : h₁.block q = some (.queue ⟨none, none, dataSize, 1⟩) := by
        rw [hb₁, Function.update_of_ne (Ne.symm hnq), hf.queue]
        rfl
      obtain ⟨h₂, hset₂, ho₂, hb₂⟩ := owned_setQueue ho₁ (by simp) hq₁
        fun queue => { queue with head := some e.node, tail := some e.node }
      refine ⟨h₂, ?_, ho₂, ?_, ?_, ⟨bytes, ?_⟩, trivial⟩
      · refine Res.bind_eq_ok.mpr ⟨_, readQueue_eq_ok.mpr hf.queue, ?_⟩
        exact Res.bind_eq_ok.mpr ⟨_, hset₁, hset₂⟩
      · rw [hb₂, Function.update_self]
        rfl
      · rw [hb₂, Function.update_of_ne hnq, hb₁, Function.update_self]
        rfl
      · rw [hb₂, Function.update_of_ne hdq, hb₁, Function.update_of_ne hdn, hdata]
  | cons e' es =>
      obtain ⟨hnode', ⟨bytes', hdata'⟩, hrest⟩ := hf.linked
      obtain ⟨hpd, hpn, hpq⟩ := hother e'.node (by simp [QueueElem.blocks])
      obtain ⟨hpd', hpn', hpq'⟩ := hother e'.data (by simp [QueueElem.blocks])
      -- the old head is the only other node that is written
      have hnd := hf.owned.nodup
      rw [List.flatMap_cons, List.append_assoc] at hnd
      obtain ⟨hdn', -, -, hother'⟩ := QueueElem.apart hnd.of_append_right
      obtain ⟨h₁, hset₁, ho₁, hb₁⟩ := owned_setNode hf.owned (by simp [QueueElem.blocks]) hf.node
        fun n => { n with next := some e'.node }
      have hnode₁ : h₁.block e'.node = some (.node ⟨queueFirst es, none, some e'.data⟩) := by
        rw [hb₁, Function.update_of_ne hpn, hnode']
      obtain ⟨h₂, hset₂, ho₂, hb₂⟩ := owned_setNode ho₁ (by simp [QueueElem.blocks]) hnode₁
        fun n => { n with prev := some e.node }
      have hq₂ := hf.queue
      rw [← Function.update_of_ne (Ne.symm hnq) _ h.block, ← hb₁,
        ← Function.update_of_ne (Ne.symm hpq) _ h₁.block, ← hb₂] at hq₂
      obtain ⟨h₃, hset₃, ho₃, hb₃⟩ := owned_setQueue ho₂ (by simp) hq₂
        fun queue => { queue with head := some e.node }
      refine ⟨h₃, ?_, ho₃, ?_, ?_, ⟨bytes, ?_⟩, ?_, ⟨bytes', ?_⟩, ?_⟩
      · refine Res.bind_eq_ok.mpr ⟨_, readQueue_eq_ok.mpr hf.queue, ?_⟩
        refine Res.bind_eq_ok.mpr ⟨_, hset₁, ?_⟩
        exact Res.bind_eq_ok.mpr ⟨_, hset₂, hset₃⟩
      · rw [hb₃, Function.update_self]
        rfl
      · rw [hb₃, Function.update_of_ne hnq, hb₂, Function.update_of_ne (Ne.symm hpn), hb₁,
          Function.update_self]
        rfl
      · rw [hb₃, Function.update_of_ne hdq, hb₂, Function.update_of_ne (Ne.symm hpd), hb₁,
          Function.update_of_ne hdn, hdata]
      · rw [hb₃, Function.update_of_ne hpq, hb₂, Function.update_self]
      · rw [hb₃, Function.update_of_ne hpq', hb₂, Function.update_of_ne hdn', hb₁,
          Function.update_of_ne hpn', hdata']
      · refine hrest.congr ?_
        intro p hp
        obtain ⟨-, hpn₂, hpq₂⟩ := hother' p hp
        obtain ⟨-, hpn₁, -⟩ := hother p (by
          rw [List.flatMap_cons]
          exact List.mem_append_right _ hp)
        rw [hb₃, Function.update_of_ne hpq₂, hb₂, Function.update_of_ne hpn₂, hb₁,
          Function.update_of_ne hpn₁]

/-- **`queue_enqueue` comes back and the queue owns the new element.** -/
theorem QueueOwns.enqueue (ho : QueueOwns h₀ h q dataSize es) (hsize : dataSize ≠ 0)
    (data : List Byte) :
    ∃ e h', cellQueueEnqueue h q data = .ok h' ∧ QueueOwns h₀ h' q dataSize (e :: es) := by
  obtain ⟨e, h₁, hnode, hfresh⟩ := ho.node hsize data
  obtain ⟨h', hlink, ho'⟩ := hfresh.link
  exact ⟨e, h', Res.bind_eq_ok.mpr ⟨_, hnode, hlink⟩, ho'⟩

end Enqueue

/-! ## A copy that nothing points to -/

section Leak

variable {base b q : ℕ} {h h' : QueueHeap}

/-- A cell that does not point to the copy `b`, and whose links stay among the blocks from `base` on. -/
def CellAway (base b : ℕ) : QueueCell → Prop
  | .queue queue => (∀ p ∈ queue.head, base ≤ p) ∧ ∀ p ∈ queue.tail, base ≤ p
  | .node node => node.data ≠ some b ∧ (∀ p ∈ node.next, base ≤ p) ∧ ∀ p ∈ node.prev, base ≤ p
  | .data _ => True

/-- **The copy `b` is allocated and no block from `base` on points to it.** -/
structure QueueLeaks (base b : ℕ) (h : QueueHeap) : Prop where
  fresh : base ≤ b
  next : base ≤ h.next
  data : ∃ bytes, h.block b = some (.data bytes)
  away : ∀ p c, base ≤ p → h.block p = some c → CellAway base b c

namespace QueueLeaks

theorem ne_of_block (hl : QueueLeaks base b h) {p : ℕ} {c : QueueCell} (hp : h.block p = some c)
    (hc : ∀ bytes, c ≠ .data bytes) : p ≠ b := by
  rintro rfl
  obtain ⟨bytes, hdata⟩ := hl.data
  rw [hdata] at hp
  cases hp
  exact hc bytes rfl

theorem lt_next (hl : QueueLeaks base b h) : b < h.next := by
  obtain ⟨bytes, hdata⟩ := hl.data
  apply h.lt_next_of_live
  rw [hdata]
  rfl

/-- One block changes, and it is not the copy. -/
theorem update (hl : QueueLeaks base b h) {p : ℕ} {x : Option QueueCell}
    (hblock : h'.block = Function.update h.block p x) (hnext : h.next ≤ h'.next)
    (hx : ∀ c ∈ x, CellAway base b c) (hp : p ≠ b) : QueueLeaks base b h' := by
  constructor
  case fresh => exact hl.fresh
  case next => exact Nat.le_trans hl.next hnext
  case data =>
    rw [hblock, Function.update_of_ne (Ne.symm hp)]
    exact hl.data
  case away =>
    intro p' c' hle hp'
    rw [hblock] at hp'
    by_cases heq : p' = p
    · subst heq
      rw [Function.update_self] at hp'
      exact hx c' hp'
    · rw [Function.update_of_ne heq] at hp'
      exact hl.away p' c' hle hp'

theorem write (hl : QueueLeaks base b h) {p : ℕ} {c : QueueCell} (hw : h.write p c = some h')
    (hc : CellAway base b c) (hp : p ≠ b) : QueueLeaks base b h' := by
  obtain ⟨-, hblock, hnext⟩ := BlockHeap.write_eq_some hw
  exact hl.update hblock (Nat.le_of_eq hnext.symm) (by simpa using hc) hp

theorem malloc (hl : QueueLeaks base b h) {c : QueueCell} (hc : CellAway base b c) :
    QueueLeaks base b (h.malloc c).2 :=
  hl.update rfl (Nat.le_succ _) (by simpa using hc) (Nat.ne_of_gt hl.lt_next)

theorem cellMalloc (hl : QueueLeaks base b h) (size : ℕ) {c : QueueCell} (hc : CellAway base b c) :
    QueueLeaks base b (Cerberos.cellMalloc h size c).2 ∧ (Cerberos.cellMalloc h size c).1 ≠ some b := by
  unfold Cerberos.cellMalloc
  split
  · exact ⟨hl, nofun⟩
  · refine ⟨hl.malloc hc, ?_⟩
    intro heq
    exact Nat.ne_of_gt hl.lt_next (Option.some.inj heq)

theorem free (hl : QueueLeaks base b h) {ptr : Option ℕ} (hf : cellFree h ptr = .ok h')
    (hp : ptr ≠ some b) : QueueLeaks base b h' := by
  obtain ⟨p, rfl, hfree⟩ := cellFree_eq_ok hf
  obtain ⟨-, hblock, hnext⟩ := BlockHeap.free_eq_some hfree
  exact hl.update hblock (Nat.le_of_eq hnext.symm) (by simp) fun heq => hp (congrArg some heq)

theorem setQueue (hl : QueueLeaks base b h) {f : CellQueue → CellQueue}
    (hs : Cerberos.setQueue h q f = .ok h') (hq : base ≤ q)
    (hf : ∀ queue, CellAway base b (.queue queue) → CellAway base b (.queue (f queue))) :
    QueueLeaks base b h' := by
  obtain ⟨queue, hb, hw⟩ := setQueue_eq_ok.mp hs
  exact hl.write hw (hf queue (hl.away q _ hq hb)) (hl.ne_of_block hb fun _ heq => by cases heq)

theorem setNode (hl : QueueLeaks base b h) {p : ℕ} {f : CellNode → CellNode}
    (hs : Cerberos.setNode h p f = .ok h') (hp : base ≤ p)
    (hf : ∀ node, CellAway base b (.node node) → CellAway base b (.node (f node))) :
    QueueLeaks base b h' := by
  obtain ⟨node, hb, hw⟩ := setNode_eq_ok.mp hs
  exact hl.write hw (hf node (hl.away p _ hp hb)) (hl.ne_of_block hb fun _ heq => by cases heq)

theorem copyData (hl : QueueLeaks base b h) {ptr : Option ℕ} {bytes : List Byte} {n : ℕ}
    (hc : Cerberos.copyData h ptr bytes n = .ok h') (hp : ptr ≠ some b) : QueueLeaks base b h' := by
  unfold Cerberos.copyData at hc
  split at hc
  · cases hc
    exact hl
  · cases ptr with
    | none => cases hc
    | some p => exact hl.write (cellWrite_eq_ok.mp hc) trivial fun heq => hp (congrArg some heq)

theorem node (hl : QueueLeaks base b h) (hq : base ≤ q) {data : List Byte} {node : ℕ}
    (hok : cellQueueNode h q data = .ok (node, h')) : QueueLeaks base b h' ∧ base ≤ node := by
  obtain ⟨h₂, hset₂, hok⟩ := Res.bind_eq_ok.mp hok
  obtain ⟨queue, -, hok⟩ := Res.bind_eq_ok.mp hok
  obtain ⟨h₄, hset₄, hok⟩ := Res.bind_eq_ok.mp hok
  obtain ⟨h₅, hcopy, hok⟩ := Res.bind_eq_ok.mp hok
  obtain ⟨h₆, hset₆, hok⟩ := Res.bind_eq_ok.mp hok
  cases hok
  have hl₁ : QueueLeaks base b (h.malloc (.node ⟨none, none, none⟩)).2 :=
    hl.malloc ⟨nofun, nofun, nofun⟩
  have hl₂ := hl₁.setNode hset₂ hl.next fun _ haway => ⟨haway.1, haway.2.1, nofun⟩
  obtain ⟨hl₃, hbuf⟩ := hl₂.cellMalloc queue.dataSize (c := .data []) trivial
  have hl₄ := hl₃.setNode hset₄ hl.next fun _ haway => ⟨hbuf, haway.2⟩
  have hl₅ := hl₄.copyData hcopy hbuf
  exact ⟨hl₅.setQueue hset₆ hq fun _ haway => haway, hl.next⟩

theorem link (hl : QueueLeaks base b h) (hq : base ≤ q) {node : ℕ} (hnode : base ≤ node)
    (hok : cellQueueLink h q node = .ok h') : QueueLeaks base b h' := by
  obtain ⟨queue, hqueue, hok⟩ := Res.bind_eq_ok.mp hok
  obtain ⟨hhead, -⟩ := hl.away q _ hq (readQueue_eq_ok.mp hqueue)
  have hsome : ∀ p ∈ some node, base ≤ p := by simpa using hnode
  cases hcase : queue.head with
  | none =>
      rw [hcase] at hok
      obtain ⟨h₁, hset₁, hset₂⟩ := Res.bind_eq_ok.mp hok
      have hl₁ := hl.setNode hset₁ hnode fun _ haway => ⟨haway.1, nofun, haway.2.2⟩
      exact hl₁.setQueue hset₂ hq fun _ _ => ⟨hsome, hsome⟩
  | some head =>
      rw [hcase] at hok hhead
      obtain ⟨h₁, hset₁, hok⟩ := Res.bind_eq_ok.mp hok
      obtain ⟨h₂, hset₂, hset₃⟩ := Res.bind_eq_ok.mp hok
      have hl₁ := hl.setNode hset₁ hnode fun _ haway => ⟨haway.1, hhead, haway.2.2⟩
      have hl₂ := hl₁.setNode hset₂ (hhead head rfl) fun _ haway => ⟨haway.1, haway.2.1, hsome⟩
      exact hl₂.setQueue hset₃ hq fun _ haway => ⟨hsome, haway.2⟩

theorem dequeue (hl : QueueLeaks base b h) (hq : base ≤ q) (hok : cellQueueDequeue h q = .ok h') :
    QueueLeaks base b h' := by
  obtain ⟨queue, hqueue, hok⟩ := Res.bind_eq_ok.mp hok
  obtain ⟨-, htail⟩ := hl.away q _ hq (readQueue_eq_ok.mp hqueue)
  cases hcase : queue.tail with
  | none =>
      rw [hcase] at hok
      cases hok
      exact hl
  | some tail =>
      rw [hcase] at hok htail
      obtain ⟨node, hnode, hok⟩ := Res.bind_eq_ok.mp hok
      obtain ⟨h₁, hcut, hok⟩ := Res.bind_eq_ok.mp hok
      obtain ⟨h₂, hfree, hset⟩ := Res.bind_eq_ok.mp hok
      have hblock := readNode_eq_ok.mp hnode
      obtain ⟨-, -, hprev⟩ := hl.away tail _ (htail tail rfl) hblock
      have htb : tail ≠ b := hl.ne_of_block hblock nofun
      have hl₁ : QueueLeaks base b h₁ := by
        cases hp : node.prev with
        | none =>
            rw [hp] at hcut
            cases hcut
            exact hl
        | some prev =>
            rw [hp] at hcut hprev
            exact hl.setNode hcut (hprev prev rfl) fun _ haway => ⟨haway.1, nofun, haway.2.2⟩
      have hl₂ := hl₁.free hfree fun heq => htb (Option.some.inj heq)
      exact hl₂.setQueue hset hq fun _ haway => ⟨haway.1, hprev⟩

/-- The loop frees nodes and what nodes point to: not the copy. -/
theorem drain (hq : base ≤ q) : ∀ {n : ℕ} {temp : Option ℕ} {h h' : QueueHeap},
    QueueLeaks base b h → (∀ p ∈ temp, base ≤ p) → cellQueueDrain q n temp h = .ok h' →
    QueueLeaks base b h' := by
  intro n
  induction n with
  | zero =>
      intro temp h h' hl _ hok
      cases hok
      exact hl
  | succ n ih =>
      intro temp h h' hl htemp hok
      obtain ⟨queue, hqueue, hok⟩ := Res.bind_eq_ok.mp hok
      obtain ⟨head, hhead, hok⟩ := Res.bind_eq_ok.mp hok
      obtain ⟨h₁, hset, hok⟩ := Res.bind_eq_ok.mp hok
      obtain ⟨node, hnode, hok⟩ := Res.bind_eq_ok.mp hok
      obtain ⟨h₂, hfree, hok⟩ := Res.bind_eq_ok.mp hok
      obtain ⟨h₃, hfree', hok⟩ := Res.bind_eq_ok.mp hok
      obtain ⟨queue', hqueue', hrest⟩ := Res.bind_eq_ok.mp hok
      have hnext : ∀ p ∈ head.next, base ≤ p := by
        cases hcase : queue.head with
        | none =>
            rw [hcase] at hhead
            cases hhead
        | some p =>
            rw [hcase] at hhead
            have hle := (hl.away q _ hq (readQueue_eq_ok.mp hqueue)).1 p hcase
            exact (hl.away p _ hle (readNode_eq_ok.mp hhead)).2.1
      have hl₁ := hl.setQueue hset hq fun _ haway => ⟨hnext, haway.2⟩
      cases temp with
      | none => cases hnode
      | some p =>
          -- `temp` is a node, and the copy is not what it points to
          have hblock := readNode_eq_ok.mp hnode
          have hpb : p ≠ b := hl₁.ne_of_block hblock nofun
          have hl₂ := hl₁.free hfree (hl₁.away p _ (htemp p rfl) hblock).1
          have hl₃ := hl₂.free hfree' fun heq => hpb (Option.some.inj heq)
          exact ih hl₃ (hl₃.away q _ hq (readQueue_eq_ok.mp hqueue')).1 hrest

theorem destroy (hl : QueueLeaks base b h) (hq : base ≤ q) (hok : cellQueueDestroy h q = .ok h') :
    QueueLeaks base b h' := by
  obtain ⟨queue, hqueue, hok⟩ := Res.bind_eq_ok.mp hok
  obtain ⟨h₁, hdrain, hfree⟩ := Res.bind_eq_ok.mp hok
  have hblock := readQueue_eq_ok.mp hqueue
  have hqb : q ≠ b := hl.ne_of_block hblock nofun
  have hl₁ := drain hq hl (hl.away q _ hq hblock).1 hdrain
  exact hl₁.free hfree fun heq => hqb (Option.some.inj heq)

theorem step (hl : QueueLeaks base b h) (hq : base ≤ q) {op : QueueOp}
    (hok : cellQueueStep q h op = .ok h') : QueueLeaks base b h' := by
  cases op with
  | enqueue data =>
      obtain ⟨⟨node, h₁⟩, hnode, hlink⟩ := Res.bind_eq_ok.mp hok
      obtain ⟨hl₁, hle⟩ := hl.node hq hnode
      exact hl₁.link hq hle hlink
  | dequeue => exact hl.dequeue hq hok

/-- **Along every run that comes back the copy stays where it is.** -/
theorem run (hq : base ≤ q) : ∀ {ops : List QueueOp} {h h' : QueueHeap}, QueueLeaks base b h →
    ops.foldlM (cellQueueStep q) h = .ok h' → QueueLeaks base b h' := by
  intro ops
  induction ops with
  | nil =>
      intro h h' hl hok
      cases hok
      exact hl
  | cons op ops ih =>
      intro h h' hl hok
      rw [List.foldlM_cons] at hok
      obtain ⟨h₁, hstep, hrun⟩ := Res.bind_eq_ok.mp hok
      exact ih (hl.step hq hstep) hrun

theorem not_returned {h₀ : QueueHeap} (hl : QueueLeaks h₀.next b h) : ¬h₀.Returned h := by
  intro hret
  obtain ⟨bytes, hdata⟩ := hl.data
  rw [hret.blocks, h₀.block_of_next_le hl.fresh] at hdata
  cases hdata

end QueueLeaks

end Leak

/-! ## `queue_dequeue` on a queue that owns its elements -/

section Dequeue

variable {h₀ h h' : QueueHeap} {q dataSize : ℕ} {es : List QueueElem}

theorem queueFirst_mem {p : ℕ} (hp : p ∈ queueFirst es) : ∃ e ∈ es, e.node = p := by
  cases es with
  | nil => cases hp
  | cons e es =>
      cases hp
      exact ⟨e, List.mem_cons_self .., rfl⟩

/-- What an element of the chain looks like. -/
theorem QueueLinked.block_of_mem {h : QueueHeap} : ∀ {es : List QueueElem} {prev : Option ℕ},
    QueueLinked h prev es → ∀ e ∈ es, (∃ bytes, h.block e.data = some (.data bytes)) ∧
      ∃ next prev', h.block e.node = some (.node ⟨next, prev', some e.data⟩) ∧
        (∀ p ∈ next, ∃ e ∈ es, e.node = p) ∧ ∀ p ∈ prev', prev = some p ∨ ∃ e ∈ es, e.node = p := by
  intro es
  induction es with
  | nil => exact fun _ _ he => by cases he
  | cons e es ih =>
      intro prev hl
      obtain ⟨hnode, hdata, hrest⟩ := hl
      rw [List.forall_mem_cons]
      constructor
      · refine ⟨hdata, _, _, hnode, ?_, fun p hp => .inl hp⟩
        intro p hp
        obtain ⟨e', he', heq⟩ := queueFirst_mem hp
        exact ⟨e', List.mem_cons_of_mem _ he', heq⟩
      · intro e₁ he₁
        obtain ⟨hdata₁, next, prev', hnode₁, hnext, hprev⟩ := ih hrest e₁ he₁
        refine ⟨hdata₁, next, prev', hnode₁, ?_, ?_⟩
        · intro p hp
          obtain ⟨e', he', heq⟩ := hnext p hp
          exact ⟨e', List.mem_cons_of_mem _ he', heq⟩
        · intro p hp
          obtain heq | ⟨e', he', heq⟩ := hprev p hp
          · exact .inr ⟨e, List.mem_cons_self .., Option.some.inj heq⟩
          · exact .inr ⟨e', List.mem_cons_of_mem _ he', heq⟩

namespace QueueOwns

theorem fresh (ho : QueueOwns h₀ h q dataSize es) {e : QueueElem} (he : e ∈ es) :
    h₀.next ≤ e.node ∧ h₀.next ≤ e.data := by
  have hmem : ∀ p ∈ e.blocks, p ∈ es.flatMap QueueElem.blocks ++ [q] :=
    fun p hp => List.mem_append_left _ (List.mem_flatMap.mpr ⟨e, he, hp⟩)
  exact ⟨ho.owned.fresh _ (hmem _ (by simp [QueueElem.blocks])),
    ho.owned.fresh _ (hmem _ (by simp [QueueElem.blocks]))⟩

/-- Two elements that share the copy are one. -/
theorem node_eq_of_data (ho : QueueOwns h₀ h q dataSize es) {e e' : QueueElem} (he : e ∈ es)
    (he' : e' ∈ es) (hdata : e'.data = e.data) : e'.node = e.node := by
  by_contra hne
  have hpair := (List.nodup_flatMap.mp (List.Nodup.of_append_left ho.owned.nodup)).2
  have hsymm : Std.Symm (Function.onFun List.Disjoint QueueElem.blocks) :=
    ⟨fun _ _ hdisj => List.Disjoint.symm hdisj⟩
  have hdisj := hpair.forall he' he fun heq => hne (congrArg QueueElem.node heq)
  exact hdisj (a := e.data) (by simp [QueueElem.blocks, hdata]) (by simp [QueueElem.blocks])

/-- **No block but its node points to the copy of an element.** -/
theorem away (ho : QueueOwns h₀ h q dataSize es) {e : QueueElem} (he : e ∈ es) :
    ∀ p c, h₀.next ≤ p → p ≠ e.node → h.block p = some c → CellAway h₀.next e.data c := by
  intro p c hle hne hp
  -- a live block from `h₀.next` on is one of the queue's
  have hmem : p ∈ es.flatMap QueueElem.blocks ++ [q] := by
    by_contra hout
    rw [ho.owned.frame p hout, h₀.block_of_next_le hle] at hp
    cases hp
  have hnodes : ∀ p, (∃ e ∈ es, e.node = p) → h₀.next ≤ p := by
    rintro _ ⟨e', he', rfl⟩
    exact (ho.fresh he').1
  rw [List.mem_append, List.mem_singleton] at hmem
  obtain hmem | rfl := hmem
  · obtain ⟨e', he', hp'⟩ := List.mem_flatMap.mp hmem
    obtain ⟨⟨bytes, hdata⟩, next, prev, hnode, hnext, hprev⟩ := ho.linked.block_of_mem e' he'
    simp only [QueueElem.blocks, List.mem_cons, List.not_mem_nil, or_false] at hp'
    obtain rfl | rfl := hp'
    · rw [hdata] at hp
      cases hp
      trivial
    · rw [hnode] at hp
      cases hp
      refine ⟨?_, fun p hp => hnodes p (hnext p hp), ?_⟩
      · intro heq
        exact hne (ho.node_eq_of_data he he' (Option.some.inj heq))
      · intro p hp
        obtain heq | hin := hprev p hp
        · cases heq
        · exact hnodes p hin
  · rw [ho.queue] at hp
    cases hp
    refine ⟨fun p hp => hnodes p (queueFirst_mem hp), ?_⟩
    intro p hp
    obtain ⟨e', he', heq⟩ := Option.map_eq_some_iff.mp hp
    exact hnodes p ⟨e', List.mem_of_getLast? he', heq⟩

/-- Cutting the tail off leaves the copy of `e` as it is, and only its node points to it. -/
theorem cut (ho : QueueOwns h₀ h q dataSize es) {e : QueueElem} (he : e ∈ es) {prev : Option ℕ}
    (hcut : cellQueueCut h prev = .ok h') :
    h'.next = h.next ∧ h'.block e.data = h.block e.data ∧
      ∀ p c, h₀.next ≤ p → p ≠ e.node → h'.block p = some c → CellAway h₀.next e.data c := by
  cases prev with
  | none =>
      cases hcut
      exact ⟨rfl, rfl, ho.away he⟩
  | some prev =>
      obtain ⟨node, hnode, hw⟩ := setNode_eq_ok.mp hcut
      obtain ⟨-, hblock, hnext⟩ := BlockHeap.write_eq_some hw
      obtain ⟨⟨bytes, hdata⟩, -⟩ := ho.linked.block_of_mem e he
      have hdp : e.data ≠ prev := by
        rintro rfl
        rw [hdata] at hnode
        cases hnode
      refine ⟨hnext, by rw [hblock, Function.update_of_ne hdp], ?_⟩
      intro p c hle hne hp
      rw [hblock] at hp
      by_cases heq : p = prev
      · subst heq
        rw [Function.update_self] at hp
        cases hp
        obtain ⟨hd, -, hprev⟩ := ho.away he p _ hle hne hnode
        exact ⟨hd, nofun, hprev⟩
      · rw [Function.update_of_ne heq] at hp
        exact ho.away he p c hle hne hp

/-- **Taking an element out leaves its copy behind.** -/
theorem dequeue_leaks (ho : QueueOwns h₀ h q dataSize es) (hne : es ≠ [])
    (hok : cellQueueDequeue h q = .ok h') : ∃ b, QueueLeaks h₀.next b h' := by
  obtain ⟨e, he⟩ := Option.isSome_iff_exists.mp (List.getLast?_isSome.mpr hne)
  have hmem := List.mem_of_getLast? he
  obtain ⟨⟨bytes, hdata⟩, next, prev, hnode, -, hprev⟩ := ho.linked.block_of_mem e hmem
  obtain ⟨queue, hqueue, hok⟩ := Res.bind_eq_ok.mp hok
  rw [readQueue_eq_ok, ho.queue, he] at hqueue
  cases hqueue
  obtain ⟨node, hread, hok⟩ := Res.bind_eq_ok.mp hok
  rw [readNode_eq_ok, hnode] at hread
  cases hread
  obtain ⟨h₁, hcut, hok⟩ := Res.bind_eq_ok.mp hok
  obtain ⟨h₂, hfree, hset⟩ := Res.bind_eq_ok.mp hok
  obtain ⟨hnext₁, hdata₁, haway₁⟩ := ho.cut hmem hcut
  obtain ⟨_, htail, hfree⟩ := cellFree_eq_ok hfree
  cases htail
  obtain ⟨-, hblock₂, hnext₂⟩ := BlockHeap.free_eq_some hfree
  have hdn : e.data ≠ e.node := by
    intro heq
    rw [heq, hnode] at hdata
    cases hdata
  -- the node was the last block that pointed to the copy
  have hl₂ : QueueLeaks h₀.next e.data h₂ := by
    constructor
    case fresh => exact (ho.fresh hmem).2
    case next =>
      rw [hnext₂, hnext₁]
      exact ho.owned.next
    case data => exact ⟨bytes, by rw [hblock₂, Function.update_of_ne hdn, hdata₁, hdata]⟩
    case away =>
      intro p c hle hp
      rw [hblock₂] at hp
      by_cases heq : p = e.node
      · subst heq
        rw [Function.update_self] at hp
        cases hp
      · rw [Function.update_of_ne heq] at hp
        exact haway₁ p c hle heq hp
  refine ⟨e.data, hl₂.setQueue hset (ho.owned.fresh q (by simp)) fun _ haway => ⟨haway.1, ?_⟩⟩
  intro p hp
  obtain heq | ⟨e', he', rfl⟩ := hprev p hp
  · cases heq
  · exact (ho.fresh he').1

theorem dequeue_nil (ho : QueueOwns h₀ h q dataSize []) : cellQueueDequeue h q = .ok h :=
  Res.bind_eq_ok.mpr ⟨_, readQueue_eq_ok.mpr ho.queue, rfl⟩

end QueueOwns

end Dequeue

/-! ## Whole runs -/

/-- What a queue does from some state on: the calls, then `queue_destroy`. -/
def queueReturns (h₀ : QueueHeap) (q : ℕ) (h : QueueHeap) (ops : List QueueOp) : Prop :=
  ∃ h', (ops.foldlM (cellQueueStep q) h >>= fun h => cellQueueDestroy h q) = .ok h' ∧ h₀.Returned h'

/-- `queue_dequeue` never follows `queue_enqueue`. -/
def NoDequeueAfter (ops : List QueueOp) : Prop :=
  ops.Pairwise fun op op' => op' = .dequeue → op = .dequeue

theorem queueReturns_cons {h₀ h h₁ : QueueHeap} {q : ℕ} {op : QueueOp} {ops : List QueueOp}
    (hstep : cellQueueStep q h op = .ok h₁) :
    queueReturns h₀ q h (op :: ops) ↔ queueReturns h₀ q h₁ ops := by
  unfold queueReturns
  rw [List.foldlM_cons, hstep]
  rfl

/-- **From a queue that owns its elements on**, everything comes back exactly when no element is
taken out: not one of those that are there, and not one of those that are still to come. -/
theorem QueueOwns.returns_iff {h₀ : QueueHeap} {q dataSize : ℕ} :
    ∀ {ops : List QueueOp}, (∀ data, QueueOp.enqueue data ∈ ops → dataSize ≠ 0) →
      ∀ {h : QueueHeap} {es : List QueueElem}, QueueOwns h₀ h q dataSize es →
        (queueReturns h₀ q h ops ↔ (es ≠ [] → .dequeue ∉ ops) ∧ NoDequeueAfter ops) := by
  intro ops
  induction ops with
  | nil =>
      intro _ h es ho
      obtain ⟨h', hdestroy, ho'⟩ := ho.destroy
      have hret : queueReturns h₀ q h [] := ⟨h', hdestroy, ho'.returned_iff.mpr rfl⟩
      exact iff_of_true hret ⟨fun _ => List.not_mem_nil, List.Pairwise.nil⟩
  | cons op ops ih =>
      intro hsize h es ho
      have hlater : ∀ data, QueueOp.enqueue data ∈ ops → dataSize ≠ 0 :=
        fun data hmem => hsize data (List.mem_cons_of_mem _ hmem)
      unfold NoDequeueAfter
      rw [List.pairwise_cons]
      cases op with
      | enqueue data =>
          obtain ⟨e, h₁, henqueue, ho₁⟩ := ho.enqueue (hsize data (List.mem_cons_self ..)) data
          have hstep : cellQueueStep q h (.enqueue data) = .ok h₁ := henqueue
          rw [queueReturns_cons hstep, ih hlater ho₁]
          simp only [List.mem_cons, reduceCtorEq, false_or]
          constructor
          · rintro ⟨hout, hpair⟩
            have hout := hout (List.cons_ne_nil e es)
            exact ⟨fun _ => hout, fun op' hop heq => hout (heq ▸ hop), hpair⟩
          · rintro ⟨-, hafter, hpair⟩
            exact ⟨fun _ hin => hafter _ hin rfl, hpair⟩
      | dequeue =>
          cases es with
          | nil =>
              have hstep : cellQueueStep q h .dequeue = .ok h := ho.dequeue_nil
              rw [queueReturns_cons hstep, ih hlater ho]
              simp only [ne_eq, not_true_eq_false, false_implies, true_and, implies_true]
              rfl
          | cons e es =>
              -- the copy of the tail is lost here, and no later call finds it
              refine iff_of_false ?_ fun hout => hout.1 (List.cons_ne_nil e es) (List.mem_cons_self ..)
              rintro ⟨h', hrun, hret⟩
              have hq : h₀.next ≤ q := ho.owned.fresh q (by simp)
              rw [List.foldlM_cons] at hrun
              obtain ⟨h₂, hrun, hdestroy⟩ := Res.bind_eq_ok.mp hrun
              obtain ⟨h₁, hstep, hrun⟩ := Res.bind_eq_ok.mp hrun
              obtain ⟨b, hl⟩ := ho.dequeue_leaks (List.cons_ne_nil e es) hstep
              exact ((QueueLeaks.run hq hl hrun).destroy hq hdestroy).not_returned hret

/-- **The queue returns its memory exactly when no `queue_dequeue` comes after a `queue_enqueue`.**
Coming back at all says that no block was touched or given back after it was freed. An element size of
0 is allowed to a queue that nothing is put into: a copy of 0 bytes would be `NULL`. -/
theorem queue_returns_memory_iff (h : QueueHeap) {dataSize : ℕ} (ops : List QueueOp)
    (hsize : ∀ data, QueueOp.enqueue data ∈ ops → dataSize ≠ 0) :
    (∃ h', cellQueueLife h dataSize ops = .ok h' ∧ h.Returned h') ↔ NoDequeueAfter ops := by
  have hiff := @QueueOwns.returns_iff _ _ _ ops hsize _ _ (cellQueueCreate_owns h dataSize)
  simp only [ne_eq, not_true_eq_false, false_implies, true_and] at hiff
  exact hiff

/-- A queue that is filled and destroyed. -/
theorem queue_returns_memory_filled : ∃ h', cellQueueLife BlockHeap.empty 1
      [.dequeue, .enqueue [7], .enqueue [8]] = .ok h' ∧ BlockHeap.empty.Returned h' :=
  (queue_returns_memory_iff BlockHeap.empty _ fun _ _ => by decide).mpr (by simp [NoDequeueAfter])

/-- An element put in and taken out: its copy is still there after `queue_destroy`. And the next
`queue_enqueue` after such a drain writes into the freed node that `head` was left at. -/
theorem queue_dequeue_leaks :
    (∃ h', cellQueueLife BlockHeap.empty 1 [.enqueue [7], .dequeue] = .ok h' ∧
      (h'.block 2).isSome ∧ ¬BlockHeap.empty.Returned h') ∧
    ¬(cellQueueLife BlockHeap.empty 1 [.enqueue [7], .dequeue, .enqueue [8]]).isOk := by
  constructor
  · have hrun : (cellQueueLife BlockHeap.empty 1 [.enqueue [7], .dequeue] >>= fun h' =>
        if (h'.block 2).isSome then .ok () else .error .fault).isOk = true := by
      decide +kernel
    obtain ⟨_, hok⟩ := Res.exists_of_isOk hrun
    obtain ⟨h', hlife, hok⟩ := Res.bind_eq_ok.mp hok
    have hlive := Res.of_check hok
    refine ⟨h', hlife, hlive, ?_⟩
    intro hret
    rw [hret.blocks] at hlive
    cases hlive
  · decide +kernel

end Cerberos
