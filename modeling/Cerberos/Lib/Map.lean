/-
# Cerberos.Lib.Map — the hashmap of `lib/ds/map.c`.

A vector of buckets, each a vector of pairs of a key and a value. The vectors are taken at their
contract: a vector is the list of its elements, and what is stored in it are copies, so a pair is its
bytes. Counts are natural numbers: a bucket takes memory, so there are never so many of them that
`size_t` would wrap. Keys are hashed over all their bytes but compared with `memcmp`, that is by their
C strings.
-/
import Cerberos.Base.Chaining
import Cerberos.Lib.Mem

namespace Cerberos

open Cerberos.Base

/-! ## The code -/

/-- `djb_hash(data, size)` (`lib/ds/hash.c`). -/
def djbHash (data : List Byte) : Word :=
  data.foldl (fun hash byte => (hash <<< 5) + hash + byte.setWidth 64) 5381

/-- `map_pair_t`: the bytes of the key and of the value. -/
abbrev MapPair := List Byte × List Byte

/-- `map_t`. -/
structure HashMap where
  bucketList : List (List MapPair)
  size : ℕ
  keyDataSize : ℕ
  valDataSize : ℕ
  log : List LogMsg

/-- `MAP_INITIAL_NUM_BUCKETS`. -/
abbrev mapInitialNumBuckets : ℕ := 16

/-- `map_create_bucket_list(num_buckets)`. -/
def mapCreateBucketList (numBuckets : ℕ) : List (List MapPair) := List.replicate numBuckets []

/-- `map_create(key_data_size, val_data_size)`. -/
def mapCreate (keyDataSize valDataSize : ℕ) : HashMap where
  bucketList := mapCreateBucketList mapInitialNumBuckets
  size := 0
  keyDataSize := keyDataSize
  valDataSize := valDataSize
  log := []

/-- `map_needs_resize(map)`. -/
def mapNeedsResize (map : HashMap) : Prop :=
  map.size + 1 > (map.bucketList.length >>> 2) + (map.bucketList.length >>> 1)

instance (map : HashMap) : Decidable (mapNeedsResize map) := inferInstanceAs (Decidable (_ > _))

/-- `djb_hash(key, key_data_size) % bucket_list->size`. -/
def mapSlot (bucketList : List (List MapPair)) (key : List Byte) : ℕ :=
  (djbHash key).toNat % bucketList.length

/-- `memcmp(key1, key2, key_data_size) == 0`. -/
def keyEq (key1 key2 : List Byte) (keyDataSize : ℕ) : Bool :=
  memcmp (key1.getD · 0) (key2.getD · 0) keyDataSize == 0

/-- `map_bucket_find(bucket, key, key_data_size)`; `none` is the index `-1`. -/
def mapBucketFind (bucket : List MapPair) (key : List Byte) (keyDataSize : ℕ) : Option ℕ :=
  bucket.findIdx? fun pair => keyEq key pair.1 keyDataSize

/-- `map_resize(map)`. -/
def mapResize (map : HashMap) : HashMap :=
  { map with
    bucketList := map.bucketList.foldl
      (fun newBucketList bucket => bucket.foldl
        (fun newBucketList kv =>
          let hash := mapSlot newBucketList kv.1
          newBucketList.set hash (newBucketList.getD hash [] ++ [kv]))
        newBucketList)
      (mapCreateBucketList (2 * map.bucketList.length)) }

/-- The first lines of `map_insert`. -/
def mapGrow (map : HashMap) : HashMap := if mapNeedsResize map then mapResize map else map

/-- `map_insert(map, key, val, replace)`. -/
def mapInsert (map : HashMap) (key val : List Byte) (replace : Bool) : HashMap :=
  let map := mapGrow map
  let hash := mapSlot map.bucketList key
  let bucket := map.bucketList.getD hash []
  match mapBucketFind bucket key map.keyDataSize with
  | none =>
    { map with
      bucketList := map.bucketList.set hash (bucket ++ [(key, val)])
      size := map.size + 1 }
  | some idx =>
    if replace then
      { map with
        bucketList := map.bucketList.set hash (bucket.eraseIdx idx ++ [(key, val)])
        size := map.size + 1 }
    else
      { map with
        log := map.log ++ [warningMsg
          "[map_insert] encountered insert attempt with no replace and the key already exists in the map. Insertion failed.\n"] }

/-- `map_get(map, key)`: the bytes of the value, `none` for `NULL`. -/
def mapGet (map : HashMap) (key : List Byte) : Option (List Byte) :=
  let bucket := map.bucketList.getD (mapSlot map.bucketList key) []
  match mapBucketFind bucket key map.keyDataSize with
  | none => none
  | some idx => bucket[idx]?.map Prod.snd

/-- `map_remove(map, key)`. -/
def mapRemove (map : HashMap) (key : List Byte) : HashMap :=
  let hash := mapSlot map.bucketList key
  let bucket := map.bucketList.getD hash []
  match mapBucketFind bucket key map.keyDataSize with
  | none =>
    { map with
      log := map.log ++ [warningMsg
        "[map_remove] attempt to remove from map, but pair was not found with specified key\n"] }
  | some idx =>
    { map with
      bucketList := map.bucketList.set hash (bucket.eraseIdx idx)
      size := map.size - 1 }

/-! ## What every operation keeps -/

/-- The hash of a key as a number. -/
abbrev keyHash (key : List Byte) : ℕ := (djbHash key).toNat

/-- The invariant of the map. -/
structure MapOk (map : HashMap) : Prop where
  buckets : ∃ j, map.bucketList.length = 16 * 2 ^ j
  chained : Chained keyHash cString map.bucketList
  keys : ∀ pair ∈ map.bucketList.flatten, pair.1.length = map.keyDataSize
  count : map.bucketList.flatten.length ≤ map.size
  load : map.size ≤ (map.bucketList.length >>> 2) + (map.bucketList.length >>> 1)

theorem MapOk.pos {map : HashMap} (h : MapOk map) : 0 < map.bucketList.length := by
  obtain ⟨j, hj⟩ := h.buckets
  rw [hj]
  positivity

theorem mapResize_bucketList (map : HashMap) :
    (mapResize map).bucketList = rehash keyHash map.bucketList := rfl

theorem keyEq_iff {key1 key2 : List Byte} {k : ℕ} (h1 : key1.length = k) (h2 : key2.length = k) :
    keyEq key1 key2 k = true ↔ cString key2 = cString key1 := by
  unfold keyEq memcmp
  rw [beq_iff_eq, ← h1, strncmp_eq_zero (h1.trans h2.symm), eq_comm]

/-- Where a search stops. -/
theorem findIdx?_split {α : Type} {p : α → Bool} :
    ∀ {l : List α} {i : ℕ}, l.findIdx? p = some i →
      ∃ A x B, l = A ++ x :: B ∧ l[i]? = some x ∧ l.eraseIdx i = A ++ B ∧ l.find? p = some x := by
  intro l
  induction l with
  | nil =>
      intro i h
      cases h
  | cons y l ih =>
      intro i h
      rw [List.findIdx?_cons] at h
      by_cases hy : p y = true
      · rw [if_pos hy] at h
        cases h
        exact ⟨[], y, l, rfl, rfl, rfl, List.find?_cons_of_pos hy⟩
      · rw [if_neg hy] at h
        obtain ⟨i', hi', rfl⟩ := Option.map_eq_some_iff.mp h
        obtain ⟨A, x, B, hl, hget, herase, hfind⟩ := ih hi'
        refine ⟨y :: A, x, B, by rw [hl]; rfl, hget, ?_, ?_⟩
        · rw [List.eraseIdx_cons_succ, herase]
          rfl
        · rw [List.find?_cons_of_neg hy]
          exact hfind

section Ops

variable {map : HashMap} {key val : List Byte}

/-- `map_bucket_find` is a search of the table. -/
theorem MapOk.find?_eq (h : MapOk map) (hkey : key.length = map.keyDataSize) :
    (map.bucketList.getD (mapSlot map.bucketList key) []).find?
      (fun pair => keyEq key pair.1 map.keyDataSize) = search keyHash cString map.bucketList key := by
  unfold search
  apply List.find?_congr
  intro pair hpair
  have hmem : pair ∈ map.bucketList.flatten :=
    List.mem_flatten.mpr ⟨bucketOf keyHash map.bucketList key, bucketOf_mem h.pos key, hpair⟩
  rw [Bool.eq_iff_iff, keyEq_iff hkey (h.keys pair hmem)]
  simp

theorem MapOk.find_none (h : MapOk map) (hkey : key.length = map.keyDataSize)
    (hfind : mapBucketFind (map.bucketList.getD (mapSlot map.bucketList key) []) key
      map.keyDataSize = none) :
    search keyHash cString map.bucketList key = none := by
  rw [← h.find?_eq hkey]
  unfold mapBucketFind at hfind
  rw [List.findIdx?_eq_none_iff] at hfind
  rw [List.find?_eq_none]
  intro pair hpair
  rw [hfind pair hpair]
  exact Bool.false_ne_true

/-- The bucket around the pair that `map_bucket_find` finds. -/
theorem MapOk.find_some (h : MapOk map) (hkey : key.length = map.keyDataSize) {idx : ℕ}
    (hfind : mapBucketFind (map.bucketList.getD (mapSlot map.bucketList key) []) key
      map.keyDataSize = some idx) :
    ∃ A pair B, bucketOf keyHash map.bucketList key = A ++ pair :: B ∧
      (map.bucketList.getD (mapSlot map.bucketList key) [])[idx]? = some pair ∧
      (map.bucketList.getD (mapSlot map.bucketList key) []).eraseIdx idx = A ++ B ∧
      search keyHash cString map.bucketList key = some pair := by
  obtain ⟨A, pair, B, hsplit, hget, herase, hfind⟩ := findIdx?_split hfind
  exact ⟨A, pair, B, hsplit, hget, herase, (h.find?_eq hkey).symm.trans hfind⟩

/-- **The buckets are doubled when they get full.** -/
theorem MapOk.resize (h : MapOk map) : MapOk (mapResize map) ∧
    (mapResize map).bucketList.flatten.Perm map.bucketList.flatten := by
  obtain ⟨hch, hlen, hperm⟩ := h.chained.rehash h.pos
  rw [← mapResize_bucketList] at hch hlen hperm
  refine ⟨⟨?_, hch, ?_, ?_, ?_⟩, hperm⟩
  · obtain ⟨j, hj⟩ := h.buckets
    exact ⟨j + 1, by rw [hlen, hj]; ring⟩
  · intro pair hpair
    exact h.keys pair (hperm.mem_iff.mp hpair)
  · rw [hperm.length_eq]
    exact h.count
  · have hload := h.load
    rw [hlen]
    simp only [Nat.shiftRight_eq_div_pow] at hload ⊢
    show map.size ≤ _
    omega

theorem MapOk.grow (h : MapOk map) : MapOk (mapGrow map) ∧
    (mapGrow map).bucketList.flatten.Perm map.bucketList.flatten ∧
    (mapGrow map).size = map.size ∧ (mapGrow map).keyDataSize = map.keyDataSize ∧
    (mapGrow map).size + 1 ≤ ((mapGrow map).bucketList.length >>> 2) +
      ((mapGrow map).bucketList.length >>> 1) := by
  unfold mapGrow
  split
  · obtain ⟨hok, hperm⟩ := h.resize
    refine ⟨hok, hperm, rfl, rfl, ?_⟩
    obtain ⟨-, hlen, -⟩ := h.chained.rehash h.pos
    obtain ⟨j, hj⟩ := h.buckets
    have hload := h.load
    have hpow := Nat.one_le_two_pow (n := j)
    rw [mapResize_bucketList, hlen]
    rw [hj] at hload ⊢
    simp only [Nat.shiftRight_eq_div_pow] at hload ⊢
    show map.size + 1 ≤ _
    omega
  · rename_i hfull
    exact ⟨h, List.Perm.refl _, rfl, rfl, Nat.not_lt.mp hfull⟩

/-- A bucket gets a pair that compares equal to none of the others. -/
theorem MapOk.setBucket (h : MapOk map) {b : List MapPair} {size : ℕ}
    (hb : ∀ pair ∈ b, pair ∈ bucketOf keyHash map.bucketList key ∨
      pair.1 = key ∧ key.length = map.keyDataSize)
    (hdistinct : b.Pairwise fun x y => cString x.1 ≠ cString y.1)
    (hcount : map.bucketList.flatten.length + b.length ≤
      size + (bucketOf keyHash map.bucketList key).length)
    (hload : size ≤ (map.bucketList.length >>> 2) + (map.bucketList.length >>> 1)) :
    MapOk { map with
      bucketList := map.bucketList.set (mapSlot map.bucketList key) b, size := size } := by
  obtain ⟨rest, hperm, hset⟩ := perm_flatten_set (h := keyHash) h.pos key
  have hperm' := hset b
  have hslot := getElem?_bucketOf (h := keyHash) h.pos key
  refine ⟨?_, h.chained.set ?_ hdistinct, ?_, ?_, ?_⟩
  · obtain ⟨j, hj⟩ := h.buckets
    exact ⟨j, (List.length_set ..).trans hj⟩
  · intro pair hpair
    rcases hb pair hpair with hin | ⟨heq, -⟩
    · exact h.chained.placed hslot pair hin
    · rw [heq]
  · intro pair hpair
    rcases List.mem_append.mp (hperm'.mem_iff.mp hpair) with hin | hin
    · rcases hb pair hin with hin | ⟨heq, hlen⟩
      · exact h.keys pair (hperm.mem_iff.mpr (List.mem_append_left _ hin))
      · rw [heq]
        exact hlen
    · exact h.keys pair (hperm.mem_iff.mpr (List.mem_append_right _ hin))
  · have h1 := hperm.length_eq
    have h2 := hperm'.length_eq
    rw [List.length_append] at h1 h2
    show (map.bucketList.set _ b).flatten.length ≤ size
    have h2' : (map.bucketList.set (mapSlot map.bucketList key) b).flatten.length =
      b.length + rest.length := h2
    omega
  · show size ≤ ((map.bucketList.set _ b).length >>> 2) + ((map.bucketList.set _ b).length >>> 1)
    rw [List.length_set]
    exact hload

theorem MapOk.distinct_bucket (h : MapOk map) (key : List Byte) :
    (bucketOf keyHash map.bucketList key).Pairwise fun x y => cString x.1 ≠ cString y.1 :=
  h.chained.distinct _ (bucketOf_mem h.pos key)

/-- The pairs of a bucket around the one a search found. -/
theorem MapOk.around (h : MapOk map) {A B : List MapPair} {pair : MapPair}
    (hsplit : bucketOf keyHash map.bucketList key = A ++ pair :: B)
    (hsearch : search keyHash cString map.bucketList key = some pair) :
    (A ++ B).Pairwise (fun x y => cString x.1 ≠ cString y.1) ∧
      ∀ x ∈ A ++ B, cString x.1 ≠ cString key := by
  have hdist := h.distinct_bucket key
  have hc := ((search_eq_some h.chained h.pos).mp hsearch).2
  rw [hsplit, List.pairwise_append] at hdist
  obtain ⟨hA, hB, hAB⟩ := hdist
  rw [List.pairwise_cons] at hB
  constructor
  · rw [List.pairwise_append]
    exact ⟨hA, hB.2, fun x hx y hy => hAB x hx y (List.mem_cons_of_mem _ hy)⟩
  · intro x hx heq
    rcases List.mem_append.mp hx with hx | hx
    · exact hAB x hx pair List.mem_cons_self (heq.trans hc.symm)
    · exact hB.1 x hx (hc.trans heq.symm)

/-- A search that finds nothing. -/
theorem MapOk.search_none (hsearch : search keyHash cString map.bucketList key = none) :
    ∀ x ∈ bucketOf keyHash map.bucketList key, cString x.1 ≠ cString key := by
  intro x hx
  have := List.find?_eq_none.mp hsearch x hx
  simpa using this

theorem pairwise_concat {l : List MapPair} {pair : MapPair}
    (hl : l.Pairwise fun x y => cString x.1 ≠ cString y.1)
    (hne : ∀ x ∈ l, cString x.1 ≠ cString pair.1) :
    (l ++ [pair]).Pairwise fun x y => cString x.1 ≠ cString y.1 := by
  rw [List.pairwise_append]
  refine ⟨hl, List.pairwise_singleton _ _, ?_⟩
  intro x hx y hy
  rw [List.mem_singleton.mp hy]
  exact hne x hx

/-- **`map_insert` keeps the invariant.** -/
theorem MapOk.insert (h : MapOk map) (hkey : key.length = map.keyDataSize) (val : List Byte)
    (replace : Bool) : MapOk (mapInsert map key val replace) := by
  obtain ⟨hok, -, -, hk, hroom⟩ := h.grow
  rw [← hk] at hkey
  unfold mapInsert
  generalize mapGrow map = m at hok hkey hroom
  dsimp only
  cases hfind : mapBucketFind (m.bucketList.getD (mapSlot m.bucketList key) []) key m.keyDataSize with
  | none =>
      have hnone := MapOk.search_none (hok.find_none hkey hfind)
      refine hok.setBucket ?_ ?_ ?_ hroom
      · intro pair hpair
        rcases List.mem_append.mp hpair with hin | hin
        · exact Or.inl hin
        · rw [List.mem_singleton.mp hin]
          exact Or.inr ⟨rfl, hkey⟩
      · exact pairwise_concat (hok.distinct_bucket key) hnone
      · have := hok.count
        rw [List.length_append]
        show _ + ((bucketOf keyHash m.bucketList key).length + 1) ≤ _
        omega
  | some idx =>
      obtain ⟨A, pair, B, hsplit, -, herase, hsearch⟩ := hok.find_some hkey hfind
      obtain ⟨hpw, hne⟩ := hok.around hsplit hsearch
      dsimp only
      cases replace with
      | false => exact ⟨hok.buckets, hok.chained, hok.keys, hok.count, hok.load⟩
      | true =>
          rw [if_pos rfl, herase]
          refine hok.setBucket ?_ (pairwise_concat hpw hne) ?_ hroom
          · intro x hx
            rcases List.mem_append.mp hx with hin | hin
            · left
              rw [hsplit]
              rcases List.mem_append.mp hin with hin | hin
              · exact List.mem_append_left _ hin
              · exact List.mem_append_right _ (List.mem_cons_of_mem _ hin)
            · rw [List.mem_singleton.mp hin]
              exact Or.inr ⟨rfl, hkey⟩
          · have := hok.count
            rw [hsplit]
            simp only [List.length_append, List.length_cons, List.length_nil]
            omega

/-- **`map_remove` keeps the invariant.** -/
theorem MapOk.remove (h : MapOk map) (hkey : key.length = map.keyDataSize) :
    MapOk (mapRemove map key) := by
  unfold mapRemove
  dsimp only
  cases hfind : mapBucketFind (map.bucketList.getD (mapSlot map.bucketList key) []) key
      map.keyDataSize with
  | none => exact ⟨h.buckets, h.chained, h.keys, h.count, h.load⟩
  | some idx =>
      obtain ⟨A, pair, B, hsplit, -, herase, hsearch⟩ := h.find_some hkey hfind
      obtain ⟨hpw, -⟩ := h.around hsplit hsearch
      have hload := h.load
      have hcount := h.count
      dsimp only
      rw [herase]
      refine h.setBucket ?_ hpw ?_ (by omega)
      · intro x hx
        left
        rw [hsplit]
        rcases List.mem_append.mp hx with hin | hin
        · exact List.mem_append_left _ hin
        · exact List.mem_append_right _ (List.mem_cons_of_mem _ hin)
      · -- the pair that was found is counted, so the count is not zero
        have hmem : pair ∈ map.bucketList.flatten := List.mem_flatten.mpr
          ⟨bucketOf keyHash map.bucketList key, bucketOf_mem h.pos key, by rw [hsplit]; simp⟩
        have hpos := List.length_pos_of_mem hmem
        rw [hsplit]
        simp only [List.length_append, List.length_cons]
        omega

end Ops

theorem mapCreate_ok (keyDataSize valDataSize : ℕ) : MapOk (mapCreate keyDataSize valDataSize) := by
  have hempty : (mapCreate keyDataSize valDataSize).bucketList.flatten = [] := by
    simp [mapCreate, mapCreateBucketList]
  refine ⟨⟨0, rfl⟩, ⟨?_, ?_⟩, ?_, ?_, ?_⟩
  · intro i b hb pair hpair
    have hmem : pair ∈ (mapCreate keyDataSize valDataSize).bucketList.flatten :=
      List.mem_flatten.mpr ⟨b, List.mem_of_getElem? hb, hpair⟩
    rw [hempty] at hmem
    cases hmem
  · intro b hb
    rw [List.eq_of_mem_replicate hb]
    exact List.Pairwise.nil
  · rw [hempty]
    simp
  · rw [hempty]
    exact Nat.zero_le _
  · exact Nat.zero_le _

/-! ## Runs -/

/-- `map_create`, then any insertions and removals of keys and values of the right sizes. -/
inductive HashRun (keyDataSize valDataSize : ℕ) : HashMap → Prop
  | create : HashRun keyDataSize valDataSize (mapCreate keyDataSize valDataSize)
  | insert {map : HashMap} {key val : List Byte} (replace : Bool) :
      HashRun keyDataSize valDataSize map → key.length = keyDataSize → val.length = valDataSize →
      HashRun keyDataSize valDataSize (mapInsert map key val replace)
  | remove {map : HashMap} {key : List Byte} :
      HashRun keyDataSize valDataSize map → key.length = keyDataSize →
      HashRun keyDataSize valDataSize (mapRemove map key)

theorem mapGrow_keyDataSize (map : HashMap) : (mapGrow map).keyDataSize = map.keyDataSize := by
  unfold mapGrow
  split <;> rfl

theorem mapInsert_keyDataSize (map : HashMap) (key val : List Byte) (replace : Bool) :
    (mapInsert map key val replace).keyDataSize = map.keyDataSize := by
  unfold mapInsert
  dsimp only
  repeat' split
  all_goals exact mapGrow_keyDataSize map

theorem mapRemove_keyDataSize (map : HashMap) (key : List Byte) :
    (mapRemove map key).keyDataSize = map.keyDataSize := by
  unfold mapRemove
  dsimp only
  split <;> rfl

theorem HashRun.ok {keyDataSize valDataSize : ℕ} {map : HashMap}
    (h : HashRun keyDataSize valDataSize map) : MapOk map ∧ map.keyDataSize = keyDataSize := by
  induction h with
  | create => exact ⟨mapCreate_ok keyDataSize valDataSize, rfl⟩
  | insert replace _ hkey _ ih =>
      obtain ⟨hok, hk⟩ := ih
      exact ⟨hok.insert (hkey.trans hk.symm) _ replace, (mapInsert_keyDataSize ..).trans hk⟩
  | remove _ hkey ih =>
      obtain ⟨hok, hk⟩ := ih
      exact ⟨hok.remove (hkey.trans hk.symm), (mapRemove_keyDataSize ..).trans hk⟩

/-- **The representation invariant of the hashmap.** In every run the number of buckets is `16 * 2 ^ j`,
every pair is in the bucket of its key's hash, no bucket holds a key twice, there are at most `size`
pairs and `size` is at most three quarters of the number of buckets; and a resize keeps the multiset of
pairs. -/
theorem hashRun_invariant {keyDataSize valDataSize : ℕ} {map : HashMap}
    (h : HashRun keyDataSize valDataSize map) :
    (∃ j, map.bucketList.length = 16 * 2 ^ j) ∧
    (∀ i b, map.bucketList[i]? = some b → ∀ pair ∈ b, mapSlot map.bucketList pair.1 = i) ∧
    (∀ b ∈ map.bucketList, (b.map Prod.fst).Nodup) ∧
    map.bucketList.flatten.length ≤ map.size ∧
    map.size ≤ (map.bucketList.length >>> 2) + (map.bucketList.length >>> 1) ∧
    (Multiset.ofList (mapResize map).bucketList.flatten = Multiset.ofList map.bucketList.flatten) := by
  obtain ⟨hok, -⟩ := h.ok
  refine ⟨hok.buckets, fun i b hb => hok.chained.placed hb, ?_, hok.count, hok.load, ?_⟩
  · intro b hb
    have hdist := hok.chained.distinct b hb
    rw [List.Nodup, List.pairwise_map]
    refine hdist.imp ?_
    intro x y hxy heq
    exact hxy (congrArg cString heq)
  · exact Multiset.coe_eq_coe.mpr hok.resize.2

/-- A fresh map into which `n` different keys were stored. -/
def mapFilled : ℕ → HashMap
  | 0 => mapCreate 2 1
  | n + 1 => mapInsert (mapFilled n) [BitVec.ofNat 8 (n + 1), 1] [7] true

theorem mapFilled_run (n : ℕ) : HashRun 2 1 (mapFilled n) := by
  induction n with
  | zero => exact .create
  | succ n ih => exact .insert true ih rfl rfl

/-- The thirteenth key doubles the buckets. Then the first key gets another value and the second is
removed. -/
def mapReworked : HashMap :=
  mapRemove (mapInsert (mapFilled 13) [1, 1] [8] true) [2, 1]

theorem hashRun_invariant_small : HashRun 2 1 mapReworked ∧ mapReworked.bucketList.length = 32 ∧
    mapGet mapReworked [1, 1] = some [8] ∧ mapGet mapReworked [2, 1] = none ∧
    (∀ b ∈ mapReworked.bucketList, (b.map Prod.fst).Nodup) ∧
    mapReworked.bucketList.flatten.length ≤ mapReworked.size := by
  have hrun : HashRun 2 1 mapReworked := .remove (.insert true (mapFilled_run 13) rfl rfl) rfl
  obtain ⟨-, -, hnodup, hcount, -, -⟩ := hashRun_invariant hrun
  exact ⟨hrun, by decide +kernel, by decide +kernel, by decide +kernel, hnodup, hcount⟩

end Cerberos
