/-
# Cerberos.Lib.MapLookup — when the hashmap is a finite map.

`memcmp` stops at a zero byte, so two different keys with the same C string compare equal. They are
taken for each other when they also share a bucket: then the keys CLASH. In every run in which no key
that is inserted or removed clashes with a stored key, the pairs stored are the finite map of the run,
and a lookup is right exactly when its key does not clash.
-/
import Cerberos.Lib.Map

namespace Cerberos

open Cerberos.Base

/-- In the bucket of `key` there is a different key that `memcmp` takes for it. -/
def KeyClash (bucketList : List (List MapPair)) (key : List Byte) (keyDataSize : ℕ) : Prop :=
  ∃ pair ∈ bucketList.getD (mapSlot bucketList key) [],
    keyEq key pair.1 keyDataSize = true ∧ pair.1 ≠ key

instance (bucketList : List (List MapPair)) (key : List Byte) (keyDataSize : ℕ) :
    Decidable (KeyClash bucketList key keyDataSize) :=
  inferInstanceAs (Decidable (∃ pair ∈ _, _))

/-- `map_create`, then insertions and removals whose keys do not clash, and the finite map they should
amount to. An insertion searches the buckets after they were doubled, if they were. -/
inductive LookupRun (keyDataSize valDataSize : ℕ) : HashMap → (List Byte → Option (List Byte)) → Prop
  | create : LookupRun keyDataSize valDataSize (mapCreate keyDataSize valDataSize) fun _ => none
  | insert {map : HashMap} {L : List Byte → Option (List Byte)} {key val : List Byte}
      (replace : Bool) :
      LookupRun keyDataSize valDataSize map L → key.length = keyDataSize →
      val.length = valDataSize → ¬ KeyClash (mapGrow map).bucketList key keyDataSize →
      LookupRun keyDataSize valDataSize (mapInsert map key val replace)
        (if L key ≠ none ∧ replace = false then L else Function.update L key (some val))
  | remove {map : HashMap} {L : List Byte → Option (List Byte)} {key : List Byte} :
      LookupRun keyDataSize valDataSize map L → key.length = keyDataSize →
      ¬ KeyClash map.bucketList key keyDataSize →
      LookupRun keyDataSize valDataSize (mapRemove map key) (Function.update L key none)

/-- The pairs stored are those of `L`. -/
def Stores (map : HashMap) (L : List Byte → Option (List Byte)) : Prop :=
  ∀ key val, L key = some val ↔ (key, val) ∈ bucketOf keyHash map.bucketList key

section Steps

variable {map : HashMap} {L : List Byte → Option (List Byte)} {key val : List Byte}

theorem MapOk.keyClash_iff (h : MapOk map) (hkey : key.length = map.keyDataSize) :
    KeyClash map.bucketList key map.keyDataSize ↔ Clash keyHash cString map.bucketList key := by
  have hiff : ∀ pair ∈ bucketOf keyHash map.bucketList key,
      (keyEq key pair.1 map.keyDataSize = true ↔ cString pair.1 = cString key) := by
    intro pair hpair
    exact keyEq_iff hkey (h.keys pair
      (List.mem_flatten.mpr ⟨bucketOf keyHash map.bucketList key, bucketOf_mem h.pos key, hpair⟩))
  constructor
  · rintro ⟨pair, hpair, hc, hne⟩
    exact ⟨pair, hpair, (hiff pair hpair).mp hc, hne⟩
  · rintro ⟨pair, hpair, hc, hne⟩
    exact ⟨pair, hpair, (hiff pair hpair).mpr hc, hne⟩

theorem Stores.grow (h : MapOk map) (hL : Stores map L) : Stores (mapGrow map) L := by
  obtain ⟨hok, hperm, -⟩ := h.grow
  intro key val
  rw [hL key val, ← h.chained.mem_flatten h.pos (key, val),
    ← hok.chained.mem_flatten hok.pos (key, val), hperm.mem_iff]

/-- One bucket is replaced, and only keys of this bucket change. -/
theorem Stores.set (h : MapOk map) (hL : Stores map L) {b : List MapPair} {size : ℕ}
    {x : Option (List Byte)}
    (hb : ∀ k v, (k, v) ∈ b ↔ k ≠ key ∧ (k, v) ∈ bucketOf keyHash map.bucketList key ∨
      k = key ∧ x = some v) :
    Stores { map with
      bucketList := map.bucketList.set (mapSlot map.bucketList key) b, size := size }
      (Function.update L key x) := by
  intro k v
  show _ ↔ (k, v) ∈ bucketOf keyHash (map.bucketList.set (keyHash key % map.bucketList.length) b) k
  rw [bucketOf_set h.pos]
  by_cases hk : k = key
  · subst hk
    rw [if_pos rfl, Function.update_self, hb]
    simp
  · rw [Function.update_of_ne hk, hL k v]
    split
    · rename_i hslot
      -- the same bucket
      have hsame : bucketOf keyHash map.bucketList k = bucketOf keyHash map.bucketList key := by
        unfold bucketOf
        rw [hslot]
      rw [hsame, hb]
      simp [hk]
    · rfl

/-- What is left of a bucket when the pair of `key` is taken out. -/
theorem MapOk.mem_around (h : MapOk map) {A B : List MapPair} {pair : MapPair}
    (hsplit : bucketOf keyHash map.bucketList key = A ++ pair :: B)
    (hsearch : search keyHash cString map.bucketList key = some pair) (hpk : pair.1 = key)
    (k v : List Byte) :
    (k, v) ∈ A ++ B ↔ k ≠ key ∧ (k, v) ∈ bucketOf keyHash map.bucketList key := by
  obtain ⟨-, hne⟩ := h.around hsplit hsearch
  rw [hsplit]
  constructor
  · intro hin
    refine ⟨?_, ?_⟩
    · rintro rfl
      exact hne _ hin rfl
    · rcases List.mem_append.mp hin with hin | hin
      · exact List.mem_append_left _ hin
      · exact List.mem_append_right _ (List.mem_cons_of_mem _ hin)
  · rintro ⟨hk, hin⟩
    rcases List.mem_append.mp hin with hin | hin
    · exact List.mem_append_left _ hin
    · rcases List.mem_cons.mp hin with rfl | hin
      · exact absurd hpk hk
      · exact List.mem_append_right _ hin

/-- **`map_insert` of a key that does not clash.** -/
theorem Stores.insert (h : MapOk map) (hL : Stores map L) (hkey : key.length = map.keyDataSize)
    (hclash : ¬ KeyClash (mapGrow map).bucketList key map.keyDataSize) (replace : Bool) :
    Stores (mapInsert map key val replace)
      (if L key ≠ none ∧ replace = false then L else Function.update L key (some val)) := by
  have hL' := hL.grow h
  obtain ⟨hok, -, -, hk, -⟩ := h.grow
  rw [← hk] at hkey hclash
  unfold mapInsert
  generalize mapGrow map = m at *
  rw [hok.keyClash_iff hkey] at hclash
  have hexact := (search_iff hok.chained hok.pos key).mpr hclash
  dsimp only
  cases hfind : mapBucketFind (m.bucketList.getD (mapSlot m.bucketList key) []) key m.keyDataSize with
  | none =>
      have hnone := MapOk.search_none (hok.find_none hkey hfind)
      have hLkey : L key = none := by
        rw [Option.eq_none_iff_forall_ne_some]
        intro v hv
        exact hnone _ ((hL' key v).mp hv) rfl
      rw [if_neg fun hh => hh.1 hLkey]
      refine hL'.set hok ?_
      intro k v
      rw [List.mem_append, List.mem_singleton, Prod.mk.injEq]
      constructor
      · rintro (hin | ⟨rfl, rfl⟩)
        · left
          refine ⟨?_, hin⟩
          rintro rfl
          exact hnone _ hin rfl
        · exact Or.inr ⟨rfl, rfl⟩
      · rintro (⟨-, hin⟩ | ⟨rfl, heq⟩)
        · exact Or.inl hin
        · cases heq
          exact Or.inr ⟨rfl, rfl⟩
  | some idx =>
      obtain ⟨A, pair, B, hsplit, -, herase, hsearch⟩ := hok.find_some hkey hfind
      obtain ⟨hmem, hpk⟩ := (hexact pair).mp hsearch
      have hLkey : L key ≠ none := by
        rw [(hL' key pair.2).mpr (hpk ▸ hmem)]
        exact Option.some_ne_none _
      dsimp only
      by_cases hrep : replace = true
      · rw [if_pos hrep, if_neg (by simp [hrep]), herase]
        refine hL'.set hok ?_
        intro k v
        rw [List.mem_append, List.mem_singleton, Prod.mk.injEq,
          hok.mem_around hsplit hsearch hpk]
        apply or_congr Iff.rfl
        apply and_congr Iff.rfl
        rw [Option.some.injEq, eq_comm]
      · rw [if_neg hrep, if_pos ⟨hLkey, by simpa using hrep⟩]
        exact hL'

/-- **`map_remove` of a key that does not clash.** -/
theorem Stores.remove (h : MapOk map) (hL : Stores map L) (hkey : key.length = map.keyDataSize)
    (hclash : ¬ KeyClash map.bucketList key map.keyDataSize) :
    Stores (mapRemove map key) (Function.update L key none) := by
  rw [h.keyClash_iff hkey] at hclash
  have hexact := (search_iff h.chained h.pos key).mpr hclash
  unfold mapRemove
  dsimp only
  cases hfind : mapBucketFind (map.bucketList.getD (mapSlot map.bucketList key) []) key
      map.keyDataSize with
  | none =>
      have hnone := MapOk.search_none (h.find_none hkey hfind)
      have hLkey : L key = none := by
        rw [Option.eq_none_iff_forall_ne_some]
        intro v hv
        exact hnone _ ((hL key v).mp hv) rfl
      rw [← hLkey, Function.update_eq_self]
      exact hL
  | some idx =>
      obtain ⟨A, pair, B, hsplit, -, herase, hsearch⟩ := h.find_some hkey hfind
      obtain ⟨-, hpk⟩ := (hexact pair).mp hsearch
      dsimp only
      rw [herase]
      refine hL.set h ?_
      intro k v
      rw [h.mem_around hsplit hsearch hpk]
      simp

/-- `map_get` is a search. -/
theorem MapOk.get_eq (h : MapOk map) (hkey : key.length = map.keyDataSize) :
    mapGet map key = (search keyHash cString map.bucketList key).map Prod.snd := by
  unfold mapGet
  dsimp only
  cases hfind : mapBucketFind (map.bucketList.getD (mapSlot map.bucketList key) []) key
      map.keyDataSize with
  | none => rw [h.find_none hkey hfind]; rfl
  | some idx =>
      obtain ⟨A, pair, B, -, hget, -, hsearch⟩ := h.find_some hkey hfind
      dsimp only
      rw [hget, hsearch]

/-- **A lookup is right exactly when its key does not clash.** -/
theorem Stores.get_iff (h : MapOk map) (hL : Stores map L) (hkey : key.length = map.keyDataSize) :
    mapGet map key = L key ↔ ¬ KeyClash map.bucketList key map.keyDataSize := by
  rw [h.keyClash_iff hkey, h.get_eq hkey]
  constructor
  · rintro heq ⟨pair, hpair, hc, hne⟩
    have hsearch := (search_eq_some h.chained h.pos).mpr ⟨hpair, hc⟩
    rw [hsearch] at heq
    -- the key is stored as well, so two keys of the bucket compare equal
    have hmem := (hL key pair.2).mp heq.symm
    have hsearch' := (search_eq_some h.chained h.pos).mpr ⟨hmem, rfl⟩
    rw [hsearch] at hsearch'
    exact hne (congrArg Prod.fst (Option.some.inj hsearch'))
  · intro hclash
    have hexact := (search_iff h.chained h.pos key).mpr hclash
    apply Option.ext
    intro v
    rw [hL key v, Option.map_eq_some_iff]
    constructor
    · rintro ⟨pair, hsearch, rfl⟩
      obtain ⟨hmem, hpk⟩ := (hexact pair).mp hsearch
      exact hpk ▸ hmem
    · intro hmem
      exact ⟨(key, v), (hexact _).mpr ⟨hmem, rfl⟩, rfl⟩

end Steps

theorem mapCreate_stores (keyDataSize valDataSize : ℕ) :
    Stores (mapCreate keyDataSize valDataSize) fun _ => none := by
  intro key val
  have hok := mapCreate_ok keyDataSize valDataSize
  rw [← hok.chained.mem_flatten hok.pos (key, val)]
  simp [mapCreate, mapCreateBucketList]

theorem LookupRun.stores {keyDataSize valDataSize : ℕ} {map : HashMap}
    {L : List Byte → Option (List Byte)} (h : LookupRun keyDataSize valDataSize map L) :
    HashRun keyDataSize valDataSize map ∧ Stores map L := by
  induction h with
  | create => exact ⟨.create, mapCreate_stores _ _⟩
  | insert replace _ hkey hval hclash ih =>
      obtain ⟨hrun, hL⟩ := ih
      obtain ⟨hok, hk⟩ := hrun.ok
      rw [← hk] at hclash
      exact ⟨.insert replace hrun hkey hval, hL.insert hok (hkey.trans hk.symm) hclash replace⟩
  | remove _ hkey hclash ih =>
      obtain ⟨hrun, hL⟩ := ih
      obtain ⟨hok, hk⟩ := hrun.ok
      rw [← hk] at hclash
      exact ⟨.remove hrun hkey, hL.remove hok (hkey.trans hk.symm) hclash⟩

theorem LookupRun.get_iff {keyDataSize valDataSize : ℕ} {map : HashMap}
    {L : List Byte → Option (List Byte)} (h : LookupRun keyDataSize valDataSize map L)
    {key : List Byte} (hkey : key.length = keyDataSize) :
    mapGet map key = L key ↔ ¬ KeyClash map.bucketList key keyDataSize := by
  obtain ⟨hrun, hL⟩ := h.stores
  obtain ⟨hok, hk⟩ := hrun.ok
  have hiff := hL.get_iff hok (hkey.trans hk.symm)
  rw [hk] at hiff
  exact hiff

/-- **The hashmap is a finite map as long as no keys clash.** In every run whose insertions and
removals are of keys that do not clash, `map_get` of a key returns what the finite map of the run says
exactly when this key does not clash. So a refused insertion, the removal of an absent key and any
operation on another key change no such lookup. -/
theorem lookupRun_get_iff {keyDataSize valDataSize : ℕ} {map : HashMap}
    {L : List Byte → Option (List Byte)} (h : LookupRun keyDataSize valDataSize map L) :
    (∀ key : List Byte, key.length = keyDataSize →
      (mapGet map key = L key ↔ ¬ KeyClash map.bucketList key keyDataSize)) ∧
    (∀ (key val other : List Byte) (replace : Bool), key.length = keyDataSize →
      val.length = valDataSize → other.length = keyDataSize →
      ¬ KeyClash (mapGrow map).bucketList key keyDataSize →
      ¬ KeyClash map.bucketList other keyDataSize →
      ¬ KeyClash (mapInsert map key val replace).bucketList other keyDataSize →
      other ≠ key ∨ mapGet map other ≠ none ∧ replace = false →
      mapGet (mapInsert map key val replace) other = mapGet map other) ∧
    (∀ key other : List Byte, key.length = keyDataSize → other.length = keyDataSize →
      ¬ KeyClash map.bucketList key keyDataSize → ¬ KeyClash map.bucketList other keyDataSize →
      ¬ KeyClash (mapRemove map key).bucketList other keyDataSize →
      other ≠ key ∨ mapGet map other = none →
      mapGet (mapRemove map key) other = mapGet map other) := by
  refine ⟨fun key hkey => h.get_iff hkey, ?_, ?_⟩
  · intro key val other replace hkey hval hother hclash hold hnew hcase
    rw [((LookupRun.insert replace h hkey hval hclash).get_iff hother).mpr hnew]
    rw [(h.get_iff hother).mpr hold] at hcase ⊢
    split
    · rfl
    · rename_i hif
      by_cases hsame : other = key
      · subst hsame
        exact absurd (hcase.resolve_left fun hne => hne rfl) hif
      · exact Function.update_of_ne hsame _ _
  · intro key other hkey hother hclash hold hnew hcase
    rw [((LookupRun.remove h hkey hclash).get_iff hother).mpr hnew]
    rw [(h.get_iff hother).mpr hold] at hcase ⊢
    by_cases hsame : other = key
    · subst hsame
      rw [Function.update_self]
      exact (hcase.resolve_left fun hne => hne rfl).symm
    · exact Function.update_of_ne hsame _ _

/-- A map with one pair: the key is two zero bytes. -/
def tinyMap : HashMap := mapInsert (mapCreate 2 1) [0, 0] [1] true

theorem tinyMap_run :
    LookupRun 2 1 tinyMap (Function.update (fun _ => none) [0, 0] (some [1])) :=
  .insert true .create rfl rfl (by decide +kernel)

/-- Another key is stored, gets a second value, and the first key is removed. -/
def tinyUpdated : HashMap :=
  mapRemove (mapInsert (mapInsert tinyMap [3, 4] [5] true) [3, 4] [6] true) [0, 0]

theorem lookupRun_get_iff_tiny : ∃ L : List Byte → Option (List Byte),
    LookupRun 2 1 tinyUpdated L ∧ L [3, 4] = some [6] ∧ L [0, 0] = none ∧
      mapGet tinyUpdated [3, 4] = some [6] ∧ mapGet tinyUpdated [0, 0] = none := by
  have hstored := @LookupRun.insert 2 1 tinyMap _ [3, 4] [5] true tinyMap_run rfl rfl
    (by decide +kernel)
  have hreplaced := @LookupRun.insert 2 1 _ _ [3, 4] [6] true hstored rfl rfl (by decide +kernel)
  have hrun := @LookupRun.remove 2 1 _ _ [0, 0] hreplaced rfl (by decide +kernel)
  obtain ⟨hget, -, -⟩ := lookupRun_get_iff hrun
  refine ⟨_, hrun, by simp, by simp, ?_, ?_⟩
  · exact ((hget [3, 4] rfl).mpr (by decide +kernel)).trans (by simp)
  · exact ((hget [0, 0] rfl).mpr (by decide +kernel)).trans (by simp)

/-- Another key is found in its place. -/
theorem mapGet_clash : LookupRun 2 1 tinyMap (Function.update (fun _ => none) [0, 0] (some [1])) ∧
    mapGet tinyMap [0, 16] = some [1] ∧
    (Function.update (fun _ => none) [0, 0] (some [1]) : List Byte → Option (List Byte)) [0, 16] =
      none :=
  ⟨tinyMap_run, by decide +kernel, by decide⟩

end Cerberos
