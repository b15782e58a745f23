/-
# Cerberos.Lib.MapMemory — who owns the blocks of the hashmap (`lib/ds/map.c`).

The map of `Cerberos.Lib.Map` again, with the block of every record, buffer and copy, over a heap that
is the explicit set of its blocks. What the blocks hold stays in the records themselves: the map is a
tree, and no two pointers of it are to the same block. Forgetting the blocks gives `HashMap` and its
functions back, call by call.

`map_insert` frees the pair it replaces and `map_resize` the buckets it copied, but `map_remove` only
takes the pair OUT of its bucket: the two copies are never given back.
-/
import Cerberos.Lib.Cells
import Cerberos.Lib.Map

namespace Cerberos

open Cerberos.Base

/-! ## The heap -/

/-- The blocks handed out by `kmalloc` and not yet given to `kfree`. -/
abbrev CellHeap := BlockHeap Unit

/-- `krealloc(ptr, size)`: `keeps` says where the block stays in place; elsewhere it moves. -/
def cellRealloc (keeps : CellHeap → ℕ → Bool) (h : CellHeap) (p : ℕ) : Res (ℕ × CellHeap) :=
  if keeps h p then
    if (h.block p).isSome then .ok (p, h) else .error .fault
  else do
    let (q, h) := h.malloc ()
    let h ← cellFree h (some p)
    .ok (q, h)

/-! ## The records -/

/-- `vector_t`: its own block and that of its buffer. -/
structure CellVec (α : Type) where
  vec : ℕ
  buf : ℕ
  capacity : ℕ
  elems : List α

/-- `map_pair_t`: the bytes and the blocks of the two copies. -/
structure CellPair where
  key : List Byte
  val : List Byte
  keyPtr : Option ℕ
  valPtr : Option ℕ

/-- `map_bucket_t`. -/
abbrev CellBucket := CellVec CellPair

/-- `map_bucket_list_t`. -/
abbrev CellBucketList := CellVec CellBucket

/-- `map_t`. -/
structure CellMap where
  map : ℕ
  bucketList : CellBucketList
  size : ℕ
  keyDataSize : ℕ
  valDataSize : ℕ
  log : List LogMsg

section Code

variable {α : Type}

/-- `vector_create(data_size, capacity)`; the capacities here are never 0. -/
def cellVecCreate (h : CellHeap) (capacity : ℕ) : CellVec α × CellHeap :=
  let (vec, h) := h.malloc ()
  let (buf, h) := h.malloc ()
  (⟨vec, buf, capacity, []⟩, h)

/-- `vector_add(vec, data)`. -/
def cellVecAdd (keeps : CellHeap → ℕ → Bool) (h : CellHeap) (v : CellVec α) (x : α) :
    Res (CellVec α × CellHeap) :=
  if v.elems.length = v.capacity then do
    let (buf, h) ← cellRealloc keeps h v.buf
    .ok ({ v with buf := buf, capacity := 2 * v.capacity, elems := v.elems ++ [x] }, h)
  else .ok ({ v with elems := v.elems ++ [x] }, h)

/-- `vector_destroy(vec)`. -/
def cellVecDestroy (v : CellVec α) (h : CellHeap) : Res CellHeap := do
  let h ← cellFree h (some v.buf)
  cellFree h (some v.vec)

/-- `map_pair_create(key, key_data_size, val, val_data_size)`. -/
def cellPairCreate (h : CellHeap) (key : List Byte) (keyDataSize : ℕ) (val : List Byte)
    (valDataSize : ℕ) : CellPair × CellHeap :=
  let (keyPtr, h) := cellMalloc h keyDataSize ()
  let (valPtr, h) := cellMalloc h valDataSize ()
  (⟨key, val, keyPtr, valPtr⟩, h)

/-- `PAIR_FREE(pair)`. -/
def cellPairFree (pair : CellPair) (h : CellHeap) : Res CellHeap := do
  let h ← cellFree h pair.keyPtr
  cellFree h pair.valPtr

/-- `BUCKET_FREE(bucket)`. -/
def cellBucketFree (bucket : CellBucket) (h : CellHeap) : Res CellHeap := do
  let h ← bucket.elems.foldlM (fun h pair => cellPairFree pair h) h
  cellVecDestroy bucket h

/-- `BUCKET_LIST_FREE(bucket_list)`. -/
def cellBucketListFree (bucketList : CellBucketList) (h : CellHeap) : Res CellHeap := do
  let h ← bucketList.elems.foldlM (fun h bucket => cellBucketFree bucket h) h
  cellVecDestroy bucketList h

end Code

section Ops

variable (keeps : CellHeap → ℕ → Bool)

/-- The loop of `map_create_bucket_list`, with `n` buckets to go. -/
def cellAddBuckets : ℕ → CellBucketList → CellHeap → Res (CellBucketList × CellHeap)
  | 0, bucketList, h => .ok (bucketList, h)
  | n + 1, bucketList, h => do
    let (bucket, h) := cellVecCreate h 2
    let (bucketList, h) ← cellVecAdd keeps h bucketList bucket
    cellAddBuckets n bucketList h

/-- `map_create_bucket_list(num_buckets)`. -/
def cellCreateBucketList (h : CellHeap) (numBuckets : ℕ) : Res (CellBucketList × CellHeap) :=
  let (bucketList, h) := cellVecCreate h numBuckets
  cellAddBuckets keeps numBuckets bucketList h

/-- `map_create(key_data_size, val_data_size)`. -/
def cellMapCreate (h : CellHeap) (keyDataSize valDataSize : ℕ) : Res (CellMap × CellHeap) := do
  let (map, h) := h.malloc ()
  let (bucketList, h) ← cellCreateBucketList keeps h mapInitialNumBuckets
  .ok (⟨map, bucketList, 0, keyDataSize, valDataSize, []⟩, h)

/-- `BUCKET_ADD(BUCKET_LIST_GET(bucket_list, hash), pair)`. -/
def cellBucketAdd (h : CellHeap) (bucketList : CellBucketList) (hash : ℕ) (pair : CellPair) :
    Res (CellBucketList × CellHeap) :=
  match bucketList.elems[hash]? with
  | none => .error .fault
  | some bucket => do
    let (bucket, h) ← cellVecAdd keeps h bucket pair
    .ok ({ bucketList with elems := bucketList.elems.set hash bucket }, h)

/-- One round of the inner loop of `map_resize`. -/
def cellRehash (map : CellMap) (new : CellBucketList × CellHeap) (kv : CellPair) :
    Res (CellBucketList × CellHeap) :=
  let hash := (djbHash kv.key).toNat % new.1.elems.length
  let (kv, h) := cellPairCreate new.2 kv.key map.keyDataSize kv.val map.valDataSize
  cellBucketAdd keeps h new.1 hash kv

/-- `map_resize(map)`. -/
def cellMapResize (map : CellMap) (h : CellHeap) : Res (CellMap × CellHeap) := do
  let new ← cellCreateBucketList keeps h (2 * map.bucketList.elems.length)
  let (new, h) ← map.bucketList.elems.foldlM
    (fun new bucket => bucket.elems.foldlM (cellRehash keeps map) new) new
  let h ← cellBucketListFree map.bucketList h
  .ok ({ map with bucketList := new }, h)

/-- `map_needs_resize(map)` and the first lines of `map_insert`. -/
def cellMapGrow (map : CellMap) (h : CellHeap) : Res (CellMap × CellHeap) :=
  if map.size + 1 > (map.bucketList.elems.length >>> 2) + (map.bucketList.elems.length >>> 1) then
    cellMapResize keeps map h
  else .ok (map, h)

/-- `map_bucket_find(bucket, key, key_data_size)`. -/
def cellBucketFind (bucket : CellBucket) (key : List Byte) (keyDataSize : ℕ) : Option ℕ :=
  bucket.elems.findIdx? fun pair => keyEq key pair.key keyDataSize

/-- `BUCKET_REMOVE(bucket, idx)`, for the bucket at `hash`. -/
def cellBucketRemove (bucketList : CellBucketList) (hash : ℕ) (bucket : CellBucket) (idx : ℕ) :
    CellBucketList :=
  { bucketList with
    elems := bucketList.elems.set hash { bucket with elems := bucket.elems.eraseIdx idx } }

/-- The end of `map_insert`: a new pair is added and counted. -/
def cellMapPut (map : CellMap) (h : CellHeap) (hash : ℕ) (key val : List Byte) :
    Res (CellMap × CellHeap) := do
  let (pair, h) := cellPairCreate h key map.keyDataSize val map.valDataSize
  let (bucketList, h) ← cellBucketAdd keeps h map.bucketList hash pair
  .ok ({ map with bucketList := bucketList, size := map.size + 1 }, h)

/-- `map_insert` behind its first lines. -/
def cellMapStore (map : CellMap) (h : CellHeap) (key val : List Byte) (replace : Bool) :
    Res (CellMap × CellHeap) :=
  let hash := (djbHash key).toNat % map.bucketList.elems.length
  match map.bucketList.elems[hash]? with
  | none => .error .fault
  | some bucket =>
    match cellBucketFind bucket key map.keyDataSize with
    | none => cellMapPut keeps map h hash key val
    | some idx =>
      if replace then
        match bucket.elems[idx]? with
        | none => .error .fault
        | some oldPair => do
          -- PAIR_FREE, then BUCKET_REMOVE
          let h ← cellPairFree oldPair h
          cellMapPut keeps { map with bucketList := cellBucketRemove map.bucketList hash bucket idx }
            h hash key val
      else
        .ok ({ map with
          log := map.log ++ [warningMsg
            "[map_insert] encountered insert attempt with no replace and the key already exists in the map. Insertion failed.\n"] }, h)

/-- `map_insert(map, key, val, replace)`. -/
def cellMapInsert (map : CellMap) (h : CellHeap) (key val : List Byte) (replace : Bool) :
    Res (CellMap × CellHeap) := do
  let (map, h) ← cellMapGrow keeps map h
  cellMapStore keeps map h key val replace

/-- `map_remove(map, key)`: the heap is not touched. -/
def cellMapRemove (map : CellMap) (key : List Byte) : Res CellMap :=
  let hash := (djbHash key).toNat % map.bucketList.elems.length
  match map.bucketList.elems[hash]? with
  | none => .error .fault
  | some bucket =>
    match cellBucketFind bucket key map.keyDataSize with
    | none =>
      .ok { map with
        log := map.log ++ [warningMsg
          "[map_remove] attempt to remove from map, but pair was not found with specified key\n"] }
    | some idx =>
      -- BUCKET_REMOVE alone
      .ok { map with
        bucketList := cellBucketRemove map.bucketList hash bucket idx
        size := map.size - 1 }

/-- `map_destroy(map)`. -/
def cellMapDestroy (map : CellMap) (h : CellHeap) : Res CellHeap := do
  let h ← cellBucketListFree map.bucketList h
  cellFree h (some map.map)

/-- A call of the map's interface between `map_create` and `map_destroy`. -/
inductive MapOp where
  | insert (key val : List Byte) (replace : Bool)
  | remove (key : List Byte)
  | get (key : List Byte)

/-- One call; `map_get` only reads. -/
def cellStep (s : CellMap × CellHeap) : MapOp → Res (CellMap × CellHeap)
  | .insert key val replace => cellMapInsert keeps s.1 s.2 key val replace
  | .remove key => do
    let map ← cellMapRemove s.1 key
    .ok (map, s.2)
  | .get _ => .ok s

/-- **The whole life of a map**: `map_create`, the calls `ops`, and `map_destroy`. -/
def cellMapLife (h : CellHeap) (keyDataSize valDataSize : ℕ) (ops : List MapOp) : Res CellHeap := do
  let s ← cellMapCreate keeps h keyDataSize valDataSize
  let s ← ops.foldlM (cellStep keeps) s
  cellMapDestroy s.1 s.2

end Ops

/-! ## Accounts -/

/-- The blocks of a pair. -/
def CellPair.blocks (pair : CellPair) : List ℕ := pair.keyPtr.toList ++ pair.valPtr.toList

/-- The blocks of a bucket. -/
def cellBucketBlocks (bucket : CellBucket) : List ℕ :=
  bucket.elems.flatMap CellPair.blocks ++ [bucket.buf, bucket.vec]

/-- The blocks of a bucket list. -/
def cellListBlocks (bucketList : CellBucketList) : List ℕ :=
  bucketList.elems.flatMap cellBucketBlocks ++ [bucketList.buf, bucketList.vec]

/-- The blocks of a map. -/
def CellMap.blocks (map : CellMap) : List ℕ := cellListBlocks map.bucketList ++ [map.map]

/-- Both copies are there. -/
def CellPair.Full (pair : CellPair) : Prop := pair.keyPtr.isSome ∧ pair.valPtr.isSome

/-- The pairs of a bucket list all have their copies. -/
def CellsFull (bucketList : CellBucketList) : Prop :=
  ∀ bucket ∈ bucketList.elems, ∀ pair ∈ bucket.elems, CellPair.Full pair

section Frees

variable {α : Type}

theorem frees_cellVecDestroy (v : CellVec α) : Frees (cellVecDestroy v) [v.buf, v.vec] :=
  (frees_cellFree v.buf).bind (frees_cellFree v.vec)

theorem CellPair.Full.frees {pair : CellPair} (h : pair.Full) :
    Frees (cellPairFree pair) pair.blocks := by
  obtain ⟨key, val, keyPtr, valPtr⟩ := pair
  obtain ⟨k, rfl⟩ := Option.isSome_iff_exists.mp h.1
  obtain ⟨v, rfl⟩ := Option.isSome_iff_exists.mp h.2
  exact (frees_cellFree k).bind (frees_cellFree v)

theorem frees_cellBucketFree {bucket : CellBucket} (h : ∀ pair ∈ bucket.elems, CellPair.Full pair) :
    Frees (cellBucketFree bucket) (cellBucketBlocks bucket) :=
  (Frees.foldlM fun pair hpair => (h pair hpair).frees).bind (frees_cellVecDestroy bucket)

theorem CellsFull.frees {bucketList : CellBucketList} (h : CellsFull bucketList) :
    Frees (cellBucketListFree bucketList) (cellListBlocks bucketList) :=
  (Frees.foldlM fun bucket hbucket => frees_cellBucketFree (h bucket hbucket)).bind
    (frees_cellVecDestroy bucketList)

/-- **`map_destroy` gives back every block the map still has.** -/
theorem frees_cellMapDestroy {map : CellMap} (h : CellsFull map.bucketList) :
    Frees (cellMapDestroy map) map.blocks :=
  h.frees.bind (frees_cellFree map.map)

end Frees

/-! ## What the calls hand out -/

section Makes

variable {α : Type} {keeps : CellHeap → ℕ → Bool} {h₀ h : CellHeap} {l : List ℕ}

theorem cellRealloc_spec {p : ℕ} (ho : BlockHeap.Owned h₀ h (p :: l)) :
    ∃ q h', cellRealloc keeps h p = .ok (q, h') ∧ BlockHeap.Owned h₀ h' (q :: l) := by
  unfold cellRealloc
  split
  · rw [if_pos (ho.live p (List.mem_cons_self ..))]
    exact ⟨p, h, rfl, ho⟩
  · have ho₁ := (ho.malloc ()).perm (List.Perm.swap ..)
    obtain ⟨h', hf, ho'⟩ := frees_cellFree p ho₁
    exact ⟨_, h', Res.bind_eq_ok.mpr ⟨_, hf, rfl⟩, ho'⟩

theorem cellVecAdd_spec {v : CellVec α} (x : α) (ho : BlockHeap.Owned h₀ h (v.buf :: l)) :
    ∃ v' h', cellVecAdd keeps h v x = .ok (v', h') ∧ BlockHeap.Owned h₀ h' (v'.buf :: l) ∧
      v'.vec = v.vec ∧ v'.elems = v.elems ++ [x] := by
  unfold cellVecAdd
  split
  · obtain ⟨q, h', hok, ho'⟩ := cellRealloc_spec ho
    exact ⟨_, h', Res.bind_eq_ok.mpr ⟨_, hok, rfl⟩, ho', rfl, rfl⟩
  · exact ⟨_, h, rfl, ho, rfl, rfl⟩

theorem cellVecCreate_owned (ho : BlockHeap.Owned h₀ h l) (capacity : ℕ) :
    BlockHeap.Owned h₀ (cellVecCreate (α := α) h capacity).2
      ((cellVecCreate (α := α) h capacity).1.buf :: (cellVecCreate (α := α) h capacity).1.vec :: l) :=
  (ho.malloc ()).malloc ()

theorem cellPairCreate_owned (ho : BlockHeap.Owned h₀ h l) {keyDataSize valDataSize : ℕ}
    (hkey : keyDataSize ≠ 0) (hval : valDataSize ≠ 0) (key val : List Byte) :
    (cellPairCreate h key keyDataSize val valDataSize).1.Full ∧
      BlockHeap.Owned h₀ (cellPairCreate h key keyDataSize val valDataSize).2
        ((cellPairCreate h key keyDataSize val valDataSize).1.blocks ++ l) := by
  obtain ⟨hk, ho₁⟩ := cellMalloc_owned ho hkey ()
  obtain ⟨hv, ho₂⟩ := cellMalloc_owned ho₁ hval ()
  refine ⟨⟨hk, hv⟩, ho₂.perm ?_⟩
  unfold CellPair.blocks
  rw [List.append_assoc]
  exact (List.perm_append_comm_assoc ..)

end Makes

/-! ## Buckets -/

/-- Forgetting the blocks of a bucket. -/
def CellVec.erase (bucket : CellBucket) : List MapPair := bucket.elems.map fun pair => (pair.key, pair.val)

/-- Forgetting the blocks of a map. -/
def CellMap.erase (map : CellMap) : HashMap where
  bucketList := map.bucketList.elems.map CellVec.erase
  size := map.size
  keyDataSize := map.keyDataSize
  valDataSize := map.valDataSize
  log := map.log

/-- Replacing an element replaces its blocks. -/
theorem count_flatMap_set {α : Type} (f : α → List ℕ) {l : List α} {i : ℕ} {x : α} (y : α)
    (h : l[i]? = some x) (a : ℕ) :
    ((l.set i y).flatMap f).count a + (f x).count a = (l.flatMap f).count a + (f y).count a := by
  induction l generalizing i with
  | nil => cases h
  | cons z l ih =>
      cases i with
      | zero =>
          cases h
          rw [List.set_cons_zero, List.flatMap_cons, List.flatMap_cons, List.count_append,
            List.count_append]
          omega
      | succ i =>
          have hrest := ih (show l[i]? = some x from h)
          rw [List.set_cons_succ, List.flatMap_cons, List.flatMap_cons, List.count_append,
            List.count_append]
          omega

/-- Taking an element out takes its blocks out. -/
theorem count_flatMap_eraseIdx {α : Type} (f : α → List ℕ) {l : List α} {i : ℕ} {x : α}
    (h : l[i]? = some x) (a : ℕ) :
    (l.flatMap f).count a = (f x).count a + ((l.eraseIdx i).flatMap f).count a := by
  induction l generalizing i with
  | nil => cases h
  | cons z l ih =>
      cases i with
      | zero =>
          cases h
          rw [List.flatMap_cons, List.count_append]
          rfl
      | succ i =>
          have hrest := ih (show l[i]? = some x from h)
          rw [List.eraseIdx_cons_succ, List.flatMap_cons, List.flatMap_cons, List.count_append,
            List.count_append]
          omega

section Buckets

variable {keeps : CellHeap → ℕ → Bool} {h₀ h : CellHeap} {l : List ℕ} {bucketList : CellBucketList}

theorem cellBucketAdd_spec {hash : ℕ} {bucket : CellBucket} {pair : CellPair}
    (hbucket : bucketList.elems[hash]? = some bucket)
    (ho : BlockHeap.Owned h₀ h (pair.blocks ++ (cellListBlocks bucketList ++ l))) :
    ∃ bucket' h', cellBucketAdd keeps h bucketList hash pair =
        .ok ({ bucketList with elems := bucketList.elems.set hash bucket' }, h') ∧
      bucket'.elems = bucket.elems ++ [pair] ∧
      BlockHeap.Owned h₀ h'
        (cellListBlocks { bucketList with elems := bucketList.elems.set hash bucket' } ++ l) := by
  have hmem : bucket.buf ∈ pair.blocks ++ (cellListBlocks bucketList ++ l) := by
    refine List.mem_append_right _ (List.mem_append_left _ (List.mem_append_left _ ?_))
    exact List.mem_flatMap.mpr ⟨bucket, List.mem_of_getElem? hbucket, by simp [cellBucketBlocks]⟩
  -- the buffer is what may move; everything else stays
  have hperm := List.perm_cons_erase hmem
  obtain ⟨bucket', h', hok, ho', hvec, helems⟩ := cellVecAdd_spec pair (ho.perm hperm)
  refine ⟨bucket', h', ?_, helems, ho'.perm ?_⟩
  · unfold cellBucketAdd
    rw [hbucket]
    exact Res.bind_eq_ok.mpr ⟨_, hok, rfl⟩
  · rw [List.perm_iff_count]
    intro a
    have hcount := hperm.count_eq a
    have hset := count_flatMap_set cellBucketBlocks bucket' hbucket a
    simp only [cellListBlocks, cellBucketBlocks, helems, hvec, List.count_append, List.count_cons,
      List.count_nil, List.flatMap_append, List.flatMap_cons, List.flatMap_nil] at hcount hset ⊢
    omega

theorem CellsFull.add (h : CellsFull bucketList) {hash : ℕ} {bucket bucket' : CellBucket}
    {pair : CellPair} (hbucket : bucketList.elems[hash]? = some bucket)
    (helems : bucket'.elems = bucket.elems ++ [pair]) (hfull : pair.Full) :
    CellsFull { bucketList with elems := bucketList.elems.set hash bucket' } := by
  intro b hb p hp
  rcases List.mem_or_eq_of_mem_set hb with hb | rfl
  · exact h b hb p hp
  · rw [helems, List.mem_append, List.mem_singleton] at hp
    rcases hp with hp | rfl
    · exact h bucket (List.mem_of_getElem? hbucket) p hp
    · exact hfull

/-- Forgetting the blocks of what `BUCKET_ADD` did. -/
theorem erase_set_add {elems : List CellBucket} {hash : ℕ} {bucket bucket' : CellBucket}
    {pair : CellPair} (hbucket : elems[hash]? = some bucket)
    (helems : bucket'.elems = bucket.elems ++ [pair]) :
    (elems.set hash bucket').map CellVec.erase = (elems.map CellVec.erase).set hash
      ((elems.map CellVec.erase).getD hash [] ++ [(pair.key, pair.val)]) := by
  have hget : (elems.map CellVec.erase).getD hash [] = CellVec.erase bucket := by
    rw [List.getD_eq_getElem?_getD, List.getElem?_map, hbucket]
    rfl
  rw [List.map_set, hget]
  congr 1
  unfold CellVec.erase
  rw [helems, List.map_append]
  rfl

theorem cellAddBuckets_spec : ∀ {n : ℕ} {bucketList : CellBucketList} {h : CellHeap},
    CellsFull bucketList → BlockHeap.Owned h₀ h (cellListBlocks bucketList ++ l) →
    ∃ bucketList' h', cellAddBuckets keeps n bucketList h = .ok (bucketList', h') ∧
      CellsFull bucketList' ∧ BlockHeap.Owned h₀ h' (cellListBlocks bucketList' ++ l) ∧
      bucketList'.elems.map CellVec.erase =
        bucketList.elems.map CellVec.erase ++ List.replicate n [] := by
  intro n
  induction n with
  | zero =>
      intro bucketList h hfull ho
      exact ⟨bucketList, h, rfl, hfull, ho, (List.append_nil _).symm⟩
  | succ n ih =>
      intro bucketList h hfull ho
      have ho₁ := cellVecCreate_owned (α := CellPair) ho 2
      generalize hb : (cellVecCreate h 2 : CellBucket × CellHeap) = r at ho₁
      obtain ⟨bucket, h₁⟩ := r
      have hempty : bucket.elems = [] := by
        have := congrArg (fun r => r.1.elems) hb
        exact this.symm
      dsimp only at ho₁
      -- only the buffer of the list may move when the bucket is added
      have hperm : (bucket.buf :: bucket.vec :: (cellListBlocks bucketList ++ l)).Perm
          (bucketList.buf :: (bucketList.elems.flatMap cellBucketBlocks ++
            (bucketList.vec :: bucket.buf :: bucket.vec :: l))) := by
        rw [List.perm_iff_count]
        intro a
        simp only [cellListBlocks, List.count_append, List.count_cons, List.count_nil]
        omega
      obtain ⟨bucketList₁, h₂, hadd, ho₂, hvec, helems⟩ := cellVecAdd_spec bucket (ho₁.perm hperm)
      have hfull₁ : CellsFull bucketList₁ := by
        intro b hb p hp
        rw [helems, List.mem_append, List.mem_singleton] at hb
        rcases hb with hb | rfl
        · exact hfull b hb p hp
        · rw [hempty] at hp
          cases hp
      have hperm₁ : (bucketList₁.buf :: (bucketList.elems.flatMap cellBucketBlocks ++
            (bucketList.vec :: bucket.buf :: bucket.vec :: l))).Perm
          (cellListBlocks bucketList₁ ++ l) := by
        rw [List.perm_iff_count]
        intro a
        simp only [cellListBlocks, cellBucketBlocks, helems, hvec, hempty, List.count_append,
          List.count_cons, List.count_nil, List.flatMap_append, List.flatMap_cons, List.flatMap_nil]
        omega
      obtain ⟨bucketList₂, h₃, hrest, hfull₂, ho₃, herase⟩ := ih hfull₁ (ho₂.perm hperm₁)
      refine ⟨bucketList₂, h₃, ?_, hfull₂, ho₃, ?_⟩
      · rw [cellAddBuckets, hb]
        exact Res.bind_eq_ok.mpr ⟨_, hadd, hrest⟩
      · rw [herase, helems, List.map_append, List.append_assoc, List.replicate_succ]
        have : CellVec.erase bucket = [] := by
          unfold CellVec.erase
          rw [hempty]
          rfl
        rw [List.map_singleton, this]
        rfl

/-- **`map_create_bucket_list` hands out a list of empty buckets.** -/
theorem cellCreateBucketList_spec (ho : BlockHeap.Owned h₀ h l) (numBuckets : ℕ) :
    ∃ bucketList' h', cellCreateBucketList keeps h numBuckets = .ok (bucketList', h') ∧
      CellsFull bucketList' ∧ BlockHeap.Owned h₀ h' (cellListBlocks bucketList' ++ l) ∧
      bucketList'.elems.map CellVec.erase = mapCreateBucketList numBuckets := by
  have ho₁ := cellVecCreate_owned (α := CellBucket) ho numBuckets
  obtain ⟨bucketList', h', hok, hfull, ho', herase⟩ := @cellAddBuckets_spec keeps h₀ l numBuckets
    (cellVecCreate h numBuckets).1 _ (fun b hb => by cases hb) ho₁
  exact ⟨bucketList', h', hok, hfull, ho', herase⟩

end Buckets

/-! ## The map -/

section Maps

variable {keeps : CellHeap → ℕ → Bool} {stores : Prop} {h₀ h : CellHeap} {map : CellMap}

/-- **The account of a map**: it owns its blocks, the client's account also holds `leaked`, and the
copies of all stored pairs are there. If the map is to store pairs, neither copy is of 0 bytes. -/
structure CellOk (stores : Prop) (h₀ h : CellHeap) (map : CellMap) (leaked : List ℕ) : Prop where
  owned : BlockHeap.Owned h₀ h (map.blocks ++ leaked)
  full : CellsFull map.bucketList
  pos : 0 < map.bucketList.elems.length
  sizes : stores → map.keyDataSize ≠ 0 ∧ map.valDataSize ≠ 0

theorem cellRehash_spec (hkey : map.keyDataSize ≠ 0) (hval : map.valDataSize ≠ 0) {l : List ℕ}
    {new : CellBucketList} (kv : CellPair) (hpos : 0 < new.elems.length) (hfull : CellsFull new)
    (ho : BlockHeap.Owned h₀ h (cellListBlocks new ++ l)) :
    ∃ new' h', cellRehash keeps map (new, h) kv = .ok (new', h') ∧ CellsFull new' ∧
      BlockHeap.Owned h₀ h' (cellListBlocks new' ++ l) ∧
      new'.elems.length = new.elems.length ∧
      new'.elems.map CellVec.erase =
        (new.elems.map CellVec.erase).set (mapSlot (new.elems.map CellVec.erase) kv.key)
          ((new.elems.map CellVec.erase).getD (mapSlot (new.elems.map CellVec.erase) kv.key) [] ++
            [(kv.key, kv.val)]) := by
  obtain ⟨hpair, ho₁⟩ := cellPairCreate_owned ho hkey hval kv.key kv.val
  have hslot : mapSlot (new.elems.map CellVec.erase) kv.key =
      (djbHash kv.key).toNat % new.elems.length := by
    unfold mapSlot
    rw [List.length_map]
  -- there are buckets, so the hash selects one of them
  have hlt : (djbHash kv.key).toNat % new.elems.length < new.elems.length := Nat.mod_lt _ hpos
  obtain ⟨bucket, hbucket⟩ : ∃ bucket,
      new.elems[(djbHash kv.key).toNat % new.elems.length]? = some bucket :=
    ⟨_, List.getElem?_eq_getElem hlt⟩
  obtain ⟨bucket', h', hadd, helems, ho'⟩ := cellBucketAdd_spec hbucket ho₁
  refine ⟨_, h', hadd, hfull.add hbucket helems hpair, ho', List.length_set .., ?_⟩
  have herase := erase_set_add hbucket helems
  rw [hslot]
  exact herase

/-- The loops of `map_resize` copy every pair, as those of `mapResize` do. -/
theorem cellRehash_foldlM (hkey : map.keyDataSize ≠ 0) (hval : map.valDataSize ≠ 0) {l : List ℕ} :
    ∀ {pairs : List CellPair} {new : CellBucketList} {h : CellHeap}, 0 < new.elems.length →
      CellsFull new → BlockHeap.Owned h₀ h (cellListBlocks new ++ l) →
      ∃ new' h', pairs.foldlM (cellRehash keeps map) (new, h) = .ok (new', h') ∧ CellsFull new' ∧
        BlockHeap.Owned h₀ h' (cellListBlocks new' ++ l) ∧
        new'.elems.length = new.elems.length ∧
        new'.elems.map CellVec.erase = (pairs.map fun pair => (pair.key, pair.val)).foldl
          (fun newBucketList kv => newBucketList.set (mapSlot newBucketList kv.1)
            (newBucketList.getD (mapSlot newBucketList kv.1) [] ++ [kv]))
          (new.elems.map CellVec.erase) := by
  intro pairs
  induction pairs with
  | nil =>
      intro new h hpos hfull ho
      exact ⟨new, h, rfl, hfull, ho, rfl, rfl⟩
  | cons kv pairs ih =>
      intro new h hpos hfull ho
      obtain ⟨new₁, h₁, hstep, hfull₁, ho₁, hlen₁, herase₁⟩ :=
        cellRehash_spec hkey hval kv hpos hfull ho
      obtain ⟨new₂, h₂, hrest, hfull₂, ho₂, hlen₂, herase₂⟩ := ih (hlen₁ ▸ hpos) hfull₁ ho₁
      refine ⟨new₂, h₂, ?_, hfull₂, ho₂, hlen₂.trans hlen₁, ?_⟩
      · rw [List.foldlM_cons]
        exact Res.bind_eq_ok.mpr ⟨_, hstep, hrest⟩
      · rw [herase₂, herase₁]
        rfl

theorem cellRehash_foldlM_buckets (hkey : map.keyDataSize ≠ 0) (hval : map.valDataSize ≠ 0)
    {l : List ℕ} : ∀ {buckets : List CellBucket} {new : CellBucketList} {h : CellHeap},
      0 < new.elems.length → CellsFull new → BlockHeap.Owned h₀ h (cellListBlocks new ++ l) →
      ∃ new' h', buckets.foldlM (fun new bucket => bucket.elems.foldlM (cellRehash keeps map) new)
          (new, h) = .ok (new', h') ∧ CellsFull new' ∧
        BlockHeap.Owned h₀ h' (cellListBlocks new' ++ l) ∧
        new'.elems.length = new.elems.length ∧
        new'.elems.map CellVec.erase = (buckets.map CellVec.erase).foldl
          (fun newBucketList bucket => bucket.foldl
            (fun newBucketList kv => newBucketList.set (mapSlot newBucketList kv.1)
              (newBucketList.getD (mapSlot newBucketList kv.1) [] ++ [kv])) newBucketList)
          (new.elems.map CellVec.erase) := by
  intro buckets
  induction buckets with
  | nil =>
      intro new h hpos hfull ho
      exact ⟨new, h, rfl, hfull, ho, rfl, rfl⟩
  | cons bucket buckets ih =>
      intro new h hpos hfull ho
      obtain ⟨new₁, h₁, hstep, hfull₁, ho₁, hlen₁, herase₁⟩ :=
        @cellRehash_foldlM keeps h₀ map hkey hval l bucket.elems new h hpos hfull ho
      obtain ⟨new₂, h₂, hrest, hfull₂, ho₂, hlen₂, herase₂⟩ := ih (hlen₁ ▸ hpos) hfull₁ ho₁
      refine ⟨new₂, h₂, ?_, hfull₂, ho₂, hlen₂.trans hlen₁, ?_⟩
      · rw [List.foldlM_cons]
        exact Res.bind_eq_ok.mpr ⟨_, hstep, hrest⟩
      · rw [herase₂, herase₁]
        rfl

/-- **`map_resize` gives back what it copied.** -/
theorem CellOk.resize {leaked : List ℕ} (hok : CellOk stores h₀ h map leaked) (hs : stores) :
    ∃ map' h', cellMapResize keeps map h = .ok (map', h') ∧ CellOk stores h₀ h' map' leaked ∧
      map'.erase = mapResize map.erase := by
  obtain ⟨new, h₁, hcreate, hfull₁, ho₁, herase₁⟩ :=
    @cellCreateBucketList_spec keeps h₀ h _ hok.owned (2 * map.bucketList.elems.length)
  have hlen₁ : new.elems.length = 2 * map.bucketList.elems.length := by
    have hlen := congrArg List.length herase₁
    rw [List.length_map] at hlen
    rw [hlen]
    exact List.length_replicate ..
  have hpos₁ : 0 < new.elems.length := by
    have := hok.pos
    omega
  obtain ⟨new', h₂, hloop, hfull₂, ho₂, hlen₂, herase₂⟩ :=
    @cellRehash_foldlM_buckets keeps h₀ map (hok.sizes hs).1 (hok.sizes hs).2 _ map.bucketList.elems
      new h₁ hpos₁ hfull₁ ho₁
  -- the old list goes as a whole; the record of the map and what was leaked stay
  have hperm : (cellListBlocks new' ++ (map.blocks ++ leaked)).Perm
      (cellListBlocks map.bucketList ++ (cellListBlocks new' ++ [map.map] ++ leaked)) := by
    rw [List.perm_iff_count]
    intro a
    simp only [CellMap.blocks, List.count_append]
    omega
  obtain ⟨h₃, hfree, ho₃⟩ := hok.full.frees (ho₂.perm hperm)
  refine ⟨{ map with bucketList := new' }, h₃, ?_,
    ⟨ho₃, hfull₂, hlen₂ ▸ hpos₁, hok.sizes⟩, ?_⟩
  · unfold cellMapResize
    exact Res.bind_eq_ok.mpr ⟨_, hcreate, Res.bind_eq_ok.mpr ⟨_, hloop,
      Res.bind_eq_ok.mpr ⟨_, hfree, rfl⟩⟩⟩
  · have hbuckets : new'.elems.map CellVec.erase = (mapResize map.erase).bucketList := by
      rw [herase₂, herase₁]
      unfold mapResize CellMap.erase
      dsimp only
      rw [List.length_map]
    unfold CellMap.erase at hbuckets ⊢
    dsimp only at hbuckets ⊢
    rw [hbuckets]
    rfl

theorem CellOk.grow {leaked : List ℕ} (hok : CellOk stores h₀ h map leaked) (hs : stores) :
    ∃ map' h', cellMapGrow keeps map h = .ok (map', h') ∧ CellOk stores h₀ h' map' leaked ∧
      map'.erase = mapGrow map.erase := by
  have hneeds : mapNeedsResize map.erase ↔ map.size + 1 >
      (map.bucketList.elems.length >>> 2) + (map.bucketList.elems.length >>> 1) := by
    unfold mapNeedsResize CellMap.erase
    dsimp only
    rw [List.length_map]
  unfold cellMapGrow mapGrow
  by_cases hneed : mapNeedsResize map.erase
  · rw [if_pos hneed, if_pos (hneeds.mp hneed)]
    exact hok.resize hs
  · rw [if_neg hneed, if_neg fun h => hneed (hneeds.mpr h)]
    exact ⟨map, h, rfl, hok, rfl⟩

/-- The bucket a key belongs to. -/
theorem CellOk.bucket {leaked : List ℕ} (hok : CellOk stores h₀ h map leaked) (key : List Byte) :
    ∃ bucket, map.bucketList.elems[(djbHash key).toNat % map.bucketList.elems.length]? = some bucket ∧
      mapSlot map.erase.bucketList key = (djbHash key).toNat % map.bucketList.elems.length ∧
      map.erase.bucketList.getD (mapSlot map.erase.bucketList key) [] = CellVec.erase bucket := by
  have hslot : mapSlot map.erase.bucketList key =
      (djbHash key).toNat % map.bucketList.elems.length := by
    unfold mapSlot CellMap.erase
    dsimp only
    rw [List.length_map]
  refine ⟨_, List.getElem?_eq_getElem (Nat.mod_lt _ hok.pos), hslot, ?_⟩
  rw [hslot]
  unfold CellMap.erase
  dsimp only
  rw [List.getD_eq_getElem?_getD, List.getElem?_map,
    List.getElem?_eq_getElem (Nat.mod_lt _ hok.pos)]
  rfl

theorem cellBucketFind_erase (bucket : CellBucket) (key : List Byte) (keyDataSize : ℕ) :
    mapBucketFind (CellVec.erase bucket) key keyDataSize = cellBucketFind bucket key keyDataSize := by
  unfold mapBucketFind CellVec.erase cellBucketFind
  rw [List.findIdx?_map]
  rfl

/-- `BUCKET_ADD` of a new pair. -/
theorem CellOk.put {leaked : List ℕ} (hok : CellOk stores h₀ h map leaked) (hs : stores) {hash : ℕ}
    {bucket : CellBucket}
    (hbucket : map.bucketList.elems[hash]? = some bucket) (key val : List Byte) :
    ∃ map' h', cellMapPut keeps map h hash key val = .ok (map', h') ∧ CellOk stores h₀ h' map' leaked ∧
      map'.erase = { map.erase with
        bucketList := map.erase.bucketList.set hash (CellVec.erase bucket ++ [(key, val)])
        size := map.size + 1 } := by
  obtain ⟨hpair, ho₁⟩ := cellPairCreate_owned hok.owned (hok.sizes hs).1 (hok.sizes hs).2 key val
  rw [CellMap.blocks, List.append_assoc] at ho₁
  obtain ⟨bucket', h', hadd, helems, ho'⟩ := @cellBucketAdd_spec keeps _ _ _ _ _ _ _ hbucket ho₁
  rw [← List.append_assoc] at ho'
  refine ⟨_, h', Res.bind_eq_ok.mpr ⟨_, hadd, rfl⟩, ⟨ho', hok.full.add hbucket helems hpair, ?_,
    hok.sizes⟩, ?_⟩
  · show 0 < (map.bucketList.elems.set hash bucket').length
    rw [List.length_set]
    exact hok.pos
  · have herase : CellVec.erase bucket' = CellVec.erase bucket ++ [(key, val)] := by
      unfold CellVec.erase
      rw [helems, List.map_append]
      rfl
    unfold CellMap.erase
    dsimp only
    rw [List.map_set, herase]

/-- Taking a pair out of its bucket takes its blocks out of the account of the map. -/
theorem CellOk.take {leaked : List ℕ} (hok : CellOk stores h₀ h map leaked) {hash idx : ℕ}
    {bucket : CellBucket} {pair : CellPair} (hbucket : map.bucketList.elems[hash]? = some bucket)
    (hpair : bucket.elems[idx]? = some pair) :
    pair.Full ∧
    CellsFull (cellBucketRemove map.bucketList hash bucket idx) ∧
    (map.blocks ++ leaked).Perm (pair.blocks ++
      (cellListBlocks (cellBucketRemove map.bucketList hash bucket idx) ++ [map.map] ++ leaked)) ∧
    (cellBucketRemove map.bucketList hash bucket idx).elems.map CellVec.erase =
      map.erase.bucketList.set hash ((CellVec.erase bucket).eraseIdx idx) := by
  have hmem := List.mem_of_getElem? hbucket
  refine ⟨hok.full bucket hmem pair (List.mem_of_getElem? hpair), ?_, ?_, ?_⟩
  · intro b hb p hp
    rcases List.mem_or_eq_of_mem_set hb with hb | rfl
    · exact hok.full b hb p hp
    · exact hok.full bucket hmem p (List.mem_of_mem_eraseIdx hp)
  · rw [List.perm_iff_count]
    intro a
    have hset := count_flatMap_set cellBucketBlocks
      { bucket with elems := bucket.elems.eraseIdx idx } hbucket a
    have herase : (bucket.elems.flatMap CellPair.blocks).count a =
        pair.blocks.count a + ((bucket.elems.eraseIdx idx).flatMap CellPair.blocks).count a :=
      count_flatMap_eraseIdx CellPair.blocks hpair a
    simp only [CellMap.blocks, cellBucketRemove, cellListBlocks, cellBucketBlocks, List.count_append,
      List.count_cons, List.count_nil] at hset ⊢
    omega
  · unfold cellBucketRemove CellMap.erase CellVec.erase
    dsimp only
    rw [List.map_set]
    congr 1
    dsimp only
    rw [List.eraseIdx_map]

/-- A position that a search found. -/
theorem cellBucketFind_lt {bucket : CellBucket} {key : List Byte} {keyDataSize idx : ℕ}
    (hfind : cellBucketFind bucket key keyDataSize = some idx) :
    ∃ pair, bucket.elems[idx]? = some pair := by
  obtain ⟨hlt, -⟩ := List.findIdx?_eq_some_iff_getElem.mp hfind
  exact ⟨_, List.getElem?_eq_getElem hlt⟩

/-- The bucket at `hash` after a pair was taken out of it. -/
theorem cellBucketRemove_getElem {bucketList : CellBucketList} {hash : ℕ}
    (hlt : hash < bucketList.elems.length) (bucket : CellBucket) (idx : ℕ) :
    (cellBucketRemove bucketList hash bucket idx).elems[hash]? =
      some { bucket with elems := bucket.elems.eraseIdx idx } :=
  List.getElem?_set_self hlt

/-- Behind its first lines `map_insert` keeps the account: what it drops it gives back. -/
theorem CellOk.store {leaked : List ℕ} (hok : CellOk stores h₀ h map leaked) (hs : stores)
    (key val : List Byte) (replace : Bool) {abs : HashMap} (habs : mapGrow abs = map.erase) :
    ∃ map' h', cellMapStore keeps map h key val replace = .ok (map', h') ∧
      CellOk stores h₀ h' map' leaked ∧ map'.erase = mapInsert abs key val replace := by
  obtain ⟨bucket, hbucket, hslot, hget⟩ := hok.bucket key
  have hsize : map.erase.keyDataSize = map.keyDataSize := rfl
  unfold mapInsert cellMapStore
  dsimp only
  rw [habs, hget, hsize, cellBucketFind_erase, hslot, hbucket]
  dsimp only
  cases hfind : cellBucketFind bucket key map.keyDataSize with
  | none => exact hok.put hs hbucket key val
  | some idx =>
      obtain ⟨pair, hpair⟩ := cellBucketFind_lt hfind
      dsimp only
      rw [hpair]
      cases replace with
      | false =>
          exact ⟨_, h, rfl, ⟨hok.owned, hok.full, hok.pos, hok.sizes⟩, rfl⟩
      | true =>
          -- the old pair leaves the account before the new one enters it
          obtain ⟨hfull, hfull', hperm, hremoved⟩ := hok.take hbucket hpair
          obtain ⟨h₁, hfree, ho₁⟩ := hfull.frees (hok.owned.perm hperm)
          have hlt : (djbHash key).toNat % map.bucketList.elems.length <
              map.bucketList.elems.length := Nat.mod_lt _ hok.pos
          generalize (djbHash key).toNat % map.bucketList.elems.length = hash at *
          have hpos : 0 < (cellBucketRemove map.bucketList hash bucket idx).elems.length :=
            lt_of_lt_of_eq hok.pos (List.length_set ..).symm
          obtain ⟨map', h', hput, hok', herase'⟩ := @CellOk.put keeps stores h₀ h₁
            { map with bucketList := cellBucketRemove map.bucketList hash bucket idx } leaked
            ⟨ho₁, hfull', hpos, hok.sizes⟩ hs hash _
            (cellBucketRemove_getElem hlt bucket idx) key val
          refine ⟨map', h', Res.bind_eq_ok.mpr ⟨_, hfree, hput⟩, hok', ?_⟩
          have hbucket' : CellVec.erase { bucket with elems := bucket.elems.eraseIdx idx } =
              (CellVec.erase bucket).eraseIdx idx := by
            unfold CellVec.erase
            rw [List.eraseIdx_map]
          have hbuckets : (CellMap.erase { map with
              bucketList := cellBucketRemove map.bucketList hash bucket idx }).bucketList =
              map.erase.bucketList.set hash ((CellVec.erase bucket).eraseIdx idx) := hremoved
          rw [herase', hbuckets, hbucket', List.set_set]
          rfl

/-- **`map_insert` keeps the account.** -/
theorem CellOk.insert {leaked : List ℕ} (hok : CellOk stores h₀ h map leaked) (hs : stores)
    (key val : List Byte) (replace : Bool) :
    ∃ map' h', cellMapInsert keeps map h key val replace = .ok (map', h') ∧
      CellOk stores h₀ h' map' leaked ∧ map'.erase = mapInsert map.erase key val replace := by
  obtain ⟨map₁, h₁, hgrow, hok₁, herase₁⟩ := @CellOk.grow keeps _ _ _ _ _ hok hs
  obtain ⟨map', h', hstore, hok', herase'⟩ :=
    @CellOk.store keeps _ _ _ _ _ hok₁ hs key val replace _ herase₁.symm
  exact ⟨map', h', Res.bind_eq_ok.mpr ⟨_, hgrow, hstore⟩, hok', herase'⟩

/-- The key is stored. -/
def mapFinds (map : HashMap) (key : List Byte) : Prop :=
  mapBucketFind (map.bucketList.getD (mapSlot map.bucketList key) []) key map.keyDataSize ≠ none

/-- **`map_remove` leaks the copies of the pair it finds.** -/
theorem CellOk.remove {leaked : List ℕ} (hok : CellOk stores h₀ h map leaked) (key : List Byte) :
    ∃ map' leaked', cellMapRemove map key = .ok map' ∧ map'.erase = mapRemove map.erase key ∧
      CellOk stores h₀ h map' leaked' ∧ (leaked' = [] ↔ leaked = [] ∧ ¬mapFinds map.erase key) := by
  obtain ⟨bucket, hbucket, hslot, hget⟩ := hok.bucket key
  have hsize : map.erase.keyDataSize = map.keyDataSize := rfl
  unfold cellMapRemove mapRemove mapFinds
  dsimp only
  rw [hget, hbucket, hsize, cellBucketFind_erase, hslot]
  dsimp only
  cases hfind : cellBucketFind bucket key map.keyDataSize with
  | none =>
      refine ⟨_, leaked, rfl, rfl, ⟨hok.owned, hok.full, hok.pos, hok.sizes⟩, ?_⟩
      simp
  | some idx =>
      -- the blocks of the pair go over to what is leaked
      obtain ⟨pair, hpair⟩ := cellBucketFind_lt hfind
      obtain ⟨hfull, hfull', hperm, hremoved⟩ := hok.take hbucket hpair
      refine ⟨_, pair.blocks ++ leaked, rfl, ?_, ⟨?_, hfull', ?_, hok.sizes⟩, ?_⟩
      · unfold CellMap.erase at hremoved ⊢
        dsimp only at hremoved ⊢
        rw [hremoved]
      · refine hok.owned.perm (hperm.trans ?_)
        rw [List.perm_iff_count]
        intro a
        simp only [CellMap.blocks, List.count_append]
        omega
      · show 0 < (map.bucketList.elems.set _ _).length
        rw [List.length_set]
        exact hok.pos
      · obtain ⟨k, hk⟩ := Option.isSome_iff_exists.mp hfull.1
        simp [CellPair.blocks, hk]

theorem cellMapCreate_spec (keeps : CellHeap → ℕ → Bool) (h : CellHeap) {keyDataSize valDataSize : ℕ}
    (hsizes : stores → keyDataSize ≠ 0 ∧ valDataSize ≠ 0) :
    ∃ map h', cellMapCreate keeps h keyDataSize valDataSize = .ok (map, h') ∧
      CellOk stores h h' map [] ∧ map.erase = mapCreate keyDataSize valDataSize := by
  obtain ⟨bucketList, h', hok, hfull, ho, herase⟩ :=
    @cellCreateBucketList_spec keeps h _ _ ((BlockHeap.Owned.refl h).malloc ()) mapInitialNumBuckets
  refine ⟨_, h', Res.bind_eq_ok.mpr ⟨_, hok, rfl⟩, ⟨?_, hfull, ?_, hsizes⟩, ?_⟩
  · rw [List.append_nil]
    exact ho
  · have hlen := congrArg List.length herase
    rw [List.length_map] at hlen
    rw [hlen]
    exact Nat.lt_of_lt_of_eq (by decide) (List.length_replicate ..).symm
  · unfold CellMap.erase mapCreate
    dsimp only
    rw [herase]

/-- No `map_remove` of the calls finds its key. -/
def RemovesMiss : HashMap → List MapOp → Prop
  | _, [] => True
  | map, .insert key val replace :: ops => RemovesMiss (mapInsert map key val replace) ops
  | map, .remove key :: ops => ¬mapFinds map key ∧ RemovesMiss (mapRemove map key) ops
  | map, .get _ :: ops => RemovesMiss map ops

/-- **Along every run nothing faults, and what is leaked comes from removals that found their key.** -/
theorem CellOk.run : ∀ {ops : List MapOp} {map : CellMap} {h : CellHeap} {leaked : List ℕ},
    CellOk stores h₀ h map leaked →
    (∀ key val replace, MapOp.insert key val replace ∈ ops → stores) →
    ∃ map' h' leaked', ops.foldlM (cellStep keeps) (map, h) = .ok (map', h') ∧
      CellOk stores h₀ h' map' leaked' ∧ (leaked' = [] ↔ leaked = [] ∧ RemovesMiss map.erase ops) := by
  intro ops
  induction ops with
  | nil =>
      intro map h leaked hok _
      exact ⟨map, h, leaked, rfl, hok, by simp [RemovesMiss]⟩
  | cons op ops ih =>
      intro map h leaked hok hops
      have hlater : ∀ key val replace, MapOp.insert key val replace ∈ ops → stores :=
        fun key val replace hmem => hops key val replace (List.mem_cons_of_mem _ hmem)
      rw [List.foldlM_cons]
      cases op with
      | insert key val replace =>
          have hs := hops key val replace (List.mem_cons_self ..)
          obtain ⟨map₁, h₁, hstep, hok₁, herase⟩ := @CellOk.insert keeps _ _ _ _ _ hok hs key val replace
          obtain ⟨map', h', leaked', hrun, hok', hleak⟩ := ih hok₁ hlater
          rw [herase] at hleak
          exact ⟨map', h', leaked', Res.bind_eq_ok.mpr ⟨_, hstep, hrun⟩, hok', hleak⟩
      | remove key =>
          obtain ⟨map₁, leaked₁, hstep, herase, hok₁, hleak₁⟩ := hok.remove key
          obtain ⟨map', h', leaked', hrun, hok', hleak⟩ := ih hok₁ hlater
          refine ⟨map', h', leaked', Res.bind_eq_ok.mpr
            ⟨_, Res.bind_eq_ok.mpr ⟨_, hstep, rfl⟩, hrun⟩, hok', ?_⟩
          rw [hleak, hleak₁, herase, and_assoc]
          rfl
      | get key =>
          obtain ⟨map', h', leaked', hrun, hok', hleak⟩ := ih hok hlater
          exact ⟨map', h', leaked', hrun, hok', hleak⟩

end Maps

/-- **The hashmap returns its memory exactly when no `map_remove` finds its key.** Whatever the calls
and wherever `krealloc` puts the buffers: nothing is given back twice, and after `map_destroy` the
blocks are those of before `map_create` if and only if no removal of the run found its key. Sizes of 0
are allowed to a map that is given nothing to store: a copy of 0 bytes would be `NULL`. -/
theorem map_returns_memory_iff (keeps : CellHeap → ℕ → Bool) (h : CellHeap)
    {keyDataSize valDataSize : ℕ} (ops : List MapOp)
    (hsizes : ∀ key val replace, MapOp.insert key val replace ∈ ops →
      keyDataSize ≠ 0 ∧ valDataSize ≠ 0) :
    (∃ h', cellMapLife keeps h keyDataSize valDataSize ops = .ok h' ∧ h.Returned h') ↔
      RemovesMiss (mapCreate keyDataSize valDataSize) ops := by
  have hstores : (∃ key val replace, MapOp.insert key val replace ∈ ops) →
      keyDataSize ≠ 0 ∧ valDataSize ≠ 0 :=
    fun ⟨key, val, replace, hmem⟩ => hsizes key val replace hmem
  obtain ⟨map, h₁, hcreate, hok, herase⟩ := cellMapCreate_spec keeps h hstores
  obtain ⟨map', h₂, leaked, hrun, hok', hleak⟩ := @CellOk.run keeps _ _ ops _ _ _ hok
    fun key val replace hmem => ⟨key, val, replace, hmem⟩
  obtain ⟨h₃, hfree, ho⟩ := frees_cellMapDestroy hok'.full hok'.owned
  have hlife : cellMapLife keeps h keyDataSize valDataSize ops = .ok h₃ :=
    Res.bind_eq_ok.mpr ⟨_, hcreate, Res.bind_eq_ok.mpr ⟨_, hrun, hfree⟩⟩
  have hmiss : leaked = [] ↔ RemovesMiss map.erase ops := hleak.trans (and_iff_right rfl)
  rw [← herase, ← hmiss, ← ho.returned_iff]
  constructor
  · rintro ⟨h', hlife', hret⟩
    rw [hlife] at hlife'
    cases hlife'
    exact hret
  · intro hret
    exact ⟨h₃, hlife, hret⟩

/-- A key stored, overwritten and looked up, and another one removed that is not there. -/
theorem map_returns_memory_overwritten :
    ∃ h', cellMapLife (fun _ _ => false) BlockHeap.empty 1 1
      [.insert [1] [2] true, .insert [1] [3] true, .get [1], .remove [4]] = .ok h' ∧
      BlockHeap.empty.Returned h' :=
  (map_returns_memory_iff _ _ _ fun _ _ _ _ => by decide).mpr
    ⟨by unfold mapFinds; decide +kernel, trivial⟩

/-- A key stored and removed: the two copies are still there after `map_destroy`. -/
theorem map_remove_leaks : ∃ h', cellMapLife (fun _ _ => true) BlockHeap.empty 1 1
      [.insert [1] [2] true, .remove [1]] = .ok h' ∧
    (h'.block 35).isSome ∧ (h'.block 36).isSome ∧ ¬BlockHeap.empty.Returned h' := by
  have hrun : (cellMapLife (fun _ _ => true) BlockHeap.empty 1 1
      [.insert [1] [2] true, .remove [1]] >>= fun h' =>
      if (h'.block 35).isSome ∧ (h'.block 36).isSome then .ok () else .error .fault).isOk = true := by
    decide +kernel
  obtain ⟨_, hok⟩ := Res.exists_of_isOk hrun
  obtain ⟨h', hlife, hok⟩ := Res.bind_eq_ok.mp hok
  have hlive := Res.of_check hok
  refine ⟨h', hlife, hlive.1, hlive.2, ?_⟩
  intro hret
  have hlive := hlive.1
  rw [hret.blocks] at hlive
  cases hlive

end Cerberos
