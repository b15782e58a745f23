/-
# Cerberos.Lib.MapCount — what `map->size` counts.

`map_insert` counts a pair whenever it stores one, also when the new pair takes the place of another:
`size` is the number of stored pairs PLUS the number of overwrites so far, and nothing ever takes an
overwrite back. The load test reads `size`, so overwriting one key over and over doubles the buckets.
-/
import Cerberos.Lib.Map

namespace Cerberos

open Cerberos.Base

/-- `map_insert(map, key, val, replace)` finds its key and puts the new pair in its place. -/
def Overwrites (map : HashMap) (key : List Byte) (replace : Bool) : Prop :=
  replace = true ∧ (mapBucketFind
    ((mapGrow map).bucketList.getD (mapSlot (mapGrow map).bucketList key) []) key
    map.keyDataSize).isSome

instance (map : HashMap) (key : List Byte) (replace : Bool) :
    Decidable (Overwrites map key replace) := inferInstanceAs (Decidable (_ ∧ _))

/-- `map_create`, then any insertions, removals and lookups of keys and values of the right sizes, with
the number of overwrites among them. A lookup leaves the map as it is. -/
inductive CountRun (keyDataSize valDataSize : ℕ) : HashMap → ℕ → Prop
  | create : CountRun keyDataSize valDataSize (mapCreate keyDataSize valDataSize) 0
  | insert {map : HashMap} {n : ℕ} {key val : List Byte} (replace : Bool) :
      CountRun keyDataSize valDataSize map n → key.length = keyDataSize →
      val.length = valDataSize →
      CountRun keyDataSize valDataSize (mapInsert map key val replace)
        (if Overwrites map key replace then n + 1 else n)
  | remove {map : HashMap} {n : ℕ} {key : List Byte} :
      CountRun keyDataSize valDataSize map n → key.length = keyDataSize →
      CountRun keyDataSize valDataSize (mapRemove map key) n

theorem CountRun.hashRun {keyDataSize valDataSize : ℕ} {map : HashMap} {n : ℕ}
    (h : CountRun keyDataSize valDataSize map n) : HashRun keyDataSize valDataSize map := by
  induction h with
  | create => exact .create
  | insert replace _ hkey hval ih => exact .insert replace ih hkey hval
  | remove _ hkey ih => exact .remove ih hkey

section Steps

variable {map : HashMap} {key : List Byte} {n : ℕ}

/-- The number of stored pairs when one bucket is replaced. -/
theorem MapOk.length_set (h : MapOk map) (key : List Byte) (b : List MapPair) :
    (map.bucketList.set (mapSlot map.bucketList key) b).flatten.length +
        (map.bucketList.getD (mapSlot map.bucketList key) []).length =
      map.bucketList.flatten.length + b.length := by
  obtain ⟨rest, hperm, hset⟩ := perm_flatten_set (h := keyHash) h.pos key
  have hold := hperm.length_eq
  have hnew := (hset b).length_eq
  rw [List.length_append] at hold hnew
  change map.bucketList.flatten.length =
    (map.bucketList.getD (mapSlot map.bucketList key) []).length + rest.length at hold
  change (map.bucketList.set (mapSlot map.bucketList key) b).flatten.length = _ at hnew
  omega

/-- A found pair is one of its bucket. -/
theorem length_eraseIdx_of_find {bucket : List MapPair} {k idx : ℕ}
    (h : mapBucketFind bucket key k = some idx) :
    (bucket.eraseIdx idx).length + 1 = bucket.length := by
  obtain ⟨A, x, B, hsplit, -, herase, -⟩ := findIdx?_split h
  rw [herase, hsplit]
  simp
  omega

/-- **An insertion that overwrites counts a pair it did not add.** -/
theorem MapOk.insert_count (h : MapOk map) (hcount : map.size = map.bucketList.flatten.length + n)
    (val : List Byte) (replace : Bool) :
    (mapInsert map key val replace).size =
      (mapInsert map key val replace).bucketList.flatten.length +
        if Overwrites map key replace then n + 1 else n := by
  obtain ⟨hok, hperm, hsize, hk, -⟩ := h.grow
  rw [← hsize, ← hperm.length_eq] at hcount
  have hover : Overwrites map key replace ↔ replace = true ∧ (mapBucketFind
      ((mapGrow map).bucketList.getD (mapSlot (mapGrow map).bucketList key) []) key
      (mapGrow map).keyDataSize).isSome := by
    rw [hk]
    rfl
  unfold mapInsert
  generalize mapGrow map = m at *
  dsimp only
  cases hfind : mapBucketFind (m.bucketList.getD (mapSlot m.bucketList key) []) key m.keyDataSize with
  | none =>
      have hlen := hok.length_set key (m.bucketList.getD (mapSlot m.bucketList key) [] ++ [(key, val)])
      rw [List.length_append, List.length_singleton] at hlen
      rw [if_neg (by rw [hover, hfind]; simp)]
      dsimp only
      omega
  | some idx =>
      have hlen := hok.length_set key
        ((m.bucketList.getD (mapSlot m.bucketList key) []).eraseIdx idx ++ [(key, val)])
      have herase := length_eraseIdx_of_find hfind
      rw [List.length_append, List.length_singleton] at hlen
      cases replace with
      | true =>
          rw [if_pos (by rw [hover, hfind]; simp)]
          dsimp only
          rw [if_pos rfl]
          dsimp only
          omega
      | false =>
          -- the insertion is refused
          rw [if_neg (by rw [hover]; simp)]
          exact hcount

theorem MapOk.remove_count (h : MapOk map) (hcount : map.size = map.bucketList.flatten.length + n) :
    (mapRemove map key).size = (mapRemove map key).bucketList.flatten.length + n := by
  unfold mapRemove
  dsimp only
  cases hfind : mapBucketFind (map.bucketList.getD (mapSlot map.bucketList key) []) key
      map.keyDataSize with
  | none => exact hcount
  | some idx =>
      have hlen := h.length_set key
        ((map.bucketList.getD (mapSlot map.bucketList key) []).eraseIdx idx)
      have herase := length_eraseIdx_of_find hfind
      dsimp only
      omega

end Steps

/-- Along every run, the count drifts by one with each overwrite. -/
theorem CountRun.size_eq {keyDataSize valDataSize : ℕ} {map : HashMap} {n : ℕ}
    (h : CountRun keyDataSize valDataSize map n) :
    map.size = map.bucketList.flatten.length + n := by
  induction h with
  | create => simp [mapCreate, mapCreateBucketList]
  | insert replace hrun _ _ ih => exact hrun.hashRun.ok.1.insert_count ih _ replace
  | remove hrun _ ih => exact hrun.hashRun.ok.1.remove_count ih

/-- **`map->size` is the number of stored pairs exactly as long as nothing was overwritten.** -/
theorem countRun_size_iff {keyDataSize valDataSize : ℕ} {map : HashMap} {n : ℕ}
    (h : CountRun keyDataSize valDataSize map n) :
    map.size = map.bucketList.flatten.length ↔ n = 0 := by
  rw [h.size_eq]
  omega

/-- Different keys overwrite nothing. -/
theorem mapFilled_countRun : CountRun 2 1 (mapFilled 13) 0 := by
  have hnot : ∀ n < 13, ¬ Overwrites (mapFilled n) [BitVec.ofNat 8 (n + 1), 1] true := by
    decide +kernel
  have hall : ∀ n ≤ 13, CountRun 2 1 (mapFilled n) 0 := by
    -- by induction on the keys stored so far, none of which is the next one
    intro n
    induction n with
    | zero => exact fun _ => .create
    | succ n ih =>
        intro hn
        have hrun : CountRun 2 1 (mapFilled (n + 1))
            (if Overwrites (mapFilled n) [BitVec.ofNat 8 (n + 1), 1] true then 0 + 1 else 0) :=
          .insert true (ih (by omega)) rfl rfl
        rwa [if_neg (hnot n (by omega))] at hrun
  exact hall 13 le_rfl

/-- Another value for the first of thirteen keys is refused, and the second key is removed. -/
def mapThinned : HashMap := mapRemove (mapInsert (mapFilled 13) [1, 1] [8] false) [2, 1]

/-- Twelve pairs are left, counted as twelve, in twice as many buckets as at first. -/
theorem countRun_size_iff_once : CountRun 2 1 mapThinned 0 ∧
    mapThinned.size = mapThinned.bucketList.flatten.length ∧ mapThinned.bucketList.length = 32 := by
  have hnot : ¬ Overwrites (mapFilled 13) [1, 1] false := by decide +kernel
  have hinsert : CountRun 2 1 (mapInsert (mapFilled 13) [1, 1] [8] false)
      (if Overwrites (mapFilled 13) [1, 1] false then 0 + 1 else 0) :=
    .insert false mapFilled_countRun rfl rfl
  rw [if_neg hnot] at hinsert
  have hrun : CountRun 2 1 mapThinned 0 := .remove hinsert rfl
  exact ⟨hrun, (countRun_size_iff hrun).mpr rfl, by decide +kernel⟩

/-- A fresh map into which one key is stored `n` times. -/
def mapRewritten : ℕ → HashMap
  | 0 => mapCreate 1 1
  | n + 1 => mapInsert (mapRewritten n) [1] [2] true

theorem mapRewritten_run (n : ℕ) : ∃ overwrites, CountRun 1 1 (mapRewritten n) overwrites := by
  induction n with
  | zero => exact ⟨0, .create⟩
  | succ n ih =>
      obtain ⟨overwrites, hrun⟩ := ih
      exact ⟨_, .insert true hrun rfl rfl⟩

/-- Storing one key thirteen times counts thirteen pairs and doubles the buckets, for one pair. -/
theorem mapRewritten_drifts : (∃ overwrites, CountRun 1 1 (mapRewritten 13) overwrites) ∧
    (mapRewritten 13).bucketList.flatten.length = 1 ∧ (mapRewritten 13).size = 13 ∧
    (mapRewritten 13).bucketList.length = 32 :=
  ⟨mapRewritten_run 13, by decide +kernel, by decide +kernel, by decide +kernel⟩

end Cerberos
