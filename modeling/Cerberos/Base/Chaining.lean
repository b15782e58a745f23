/-
# Cerberos.Base.Chaining — hash tables with chained buckets.

A table is a list of buckets; a pair belongs to the bucket of its key's hash modulo the number of
buckets. Keys are COMPARED by an image `c`: a search stops at the first pair whose key has the same
image as the key searched for. When `c` is not injective, two keys CLASH if they are different and
compare equal; a search is exact as long as the key searched for clashes with no key of its bucket.
-/
import Mathlib

namespace Cerberos.Base

section Chaining

variable {K V C : Type} (h : K → ℕ) (c : K → C)

/-- The bucket of a key. -/
def bucketOf (t : List (List (K × V))) (k : K) : List (K × V) := t.getD (h k % t.length) []

/-- Append a pair to the bucket of its key. -/
def place (t : List (List (K × V))) (kv : K × V) : List (List (K × V)) :=
  t.set (h kv.1 % t.length) (bucketOf h t kv.1 ++ [kv])

/-- The table with twice as many buckets: every pair is placed again, bucket by bucket. -/
def rehash (t : List (List (K × V))) : List (List (K × V)) :=
  t.foldl (fun new bucket => bucket.foldl (place h) new) (List.replicate (2 * t.length) [])

/-- Pairs lie in the bucket of their key, and no two keys of a bucket compare equal. -/
structure Chained (t : List (List (K × V))) : Prop where
  placed : ∀ {i b}, t[i]? = some b → ∀ kv ∈ b, h kv.1 % t.length = i
  distinct : ∀ b ∈ t, b.Pairwise fun x y => c x.1 ≠ c y.1

variable {h c} {t : List (List (K × V))}

theorem getElem?_bucketOf (hpos : 0 < t.length) (k : K) :
    t[h k % t.length]? = some (bucketOf h t k) := by
  unfold bucketOf
  rw [List.getD_eq_getElem?_getD, List.getElem?_eq_getElem (Nat.mod_lt _ hpos)]
  rfl

theorem bucketOf_mem (hpos : 0 < t.length) (k : K) : bucketOf h t k ∈ t :=
  List.mem_of_getElem? (getElem?_bucketOf hpos k)

theorem bucketOf_set {k : K} (hpos : 0 < t.length) (b : List (K × V)) (k' : K) :
    bucketOf h (t.set (h k % t.length) b) k' =
      if h k' % t.length = h k % t.length then b else bucketOf h t k' := by
  unfold bucketOf
  rw [List.length_set, List.getD_eq_getElem?_getD, List.getElem?_set]
  by_cases heq : h k' % t.length = h k % t.length
  · rw [if_pos heq, if_pos heq.symm, if_pos (Nat.mod_lt _ hpos)]
    rfl
  · rw [if_neg heq, if_neg fun he => heq he.symm, ← List.getD_eq_getElem?_getD]

/-- A stored pair is in the bucket of its key. -/
theorem Chained.mem_flatten (ht : Chained h c t) (hpos : 0 < t.length) (kv : K × V) :
    kv ∈ t.flatten ↔ kv ∈ bucketOf h t kv.1 := by
  constructor
  · intro hmem
    obtain ⟨b, hb, hkv⟩ := List.mem_flatten.mp hmem
    obtain ⟨i, hi⟩ := List.mem_iff_getElem?.mp hb
    have hslot := ht.placed hi kv hkv
    have hget := getElem?_bucketOf (h := h) hpos kv.1
    rw [hslot, hi] at hget
    cases hget
    exact hkv
  · exact fun hmem => List.mem_flatten.mpr ⟨_, bucketOf_mem hpos kv.1, hmem⟩

/-- One bucket is replaced. -/
theorem Chained.set (ht : Chained h c t) {k : K} {b : List (K × V)}
    (hplaced : ∀ kv ∈ b, h kv.1 % t.length = h k % t.length)
    (hdistinct : b.Pairwise fun x y => c x.1 ≠ c y.1) :
    Chained h c (t.set (h k % t.length) b) := by
  constructor
  · intro i b' hi kv hkv
    rw [List.length_set]
    rw [List.getElem?_set] at hi
    split at hi
    · rename_i heq
      split at hi
      · cases hi
        rw [← heq]
        exact hplaced kv hkv
      · cases hi
    · exact ht.placed hi kv hkv
  · intro b' hb'
    rcases List.mem_or_eq_of_mem_set hb' with hb' | rfl
    · exact ht.distinct b' hb'
    · exact hdistinct

/-- The pairs of the other buckets are those of the table without this one. -/
theorem perm_flatten_set (hpos : 0 < t.length) (k : K) : ∃ rest : List (K × V),
    t.flatten.Perm (bucketOf h t k ++ rest) ∧
      ∀ b, (t.set (h k % t.length) b).flatten.Perm (b ++ rest) := by
  have hlt := Nat.mod_lt (h k) hpos
  have hsplit : ∀ b : List (K × V), (t.set (h k % t.length) b).flatten.Perm
      (b ++ ((t.take (h k % t.length)).flatten ++ (t.drop (h k % t.length + 1)).flatten)) := by
    intro b
    rw [List.set_eq_take_append_cons_drop, if_pos hlt, List.flatten_append, List.flatten_cons]
    exact List.perm_append_comm_assoc _ _ _
  refine ⟨_, ?_, hsplit⟩
  have hself : t.set (h k % t.length) (bucketOf h t k) = t := by
    apply List.ext_getElem?
    intro i
    rw [List.getElem?_set]
    split
    · rename_i heq
      rw [← heq, getElem?_bucketOf hpos k]
    · rfl
  have hperm := hsplit (bucketOf h t k)
  rw [hself] at hperm
  exact hperm

/-! ## Twice as many buckets -/

theorem length_place (kv : K × V) : (place h t kv).length = t.length := List.length_set ..

theorem place_perm (hpos : 0 < t.length) (kv : K × V) :
    (place h t kv).flatten.Perm (kv :: t.flatten) := by
  obtain ⟨rest, hperm, hset⟩ := perm_flatten_set (h := h) hpos kv.1
  have hmiddle : ((bucketOf h t kv.1 ++ [kv]) ++ rest).Perm (kv :: (bucketOf h t kv.1 ++ rest)) := by
    rw [List.append_assoc]
    exact List.perm_middle
  exact (hset _).trans (hmiddle.trans (hperm.symm.cons kv))

theorem getElem?_place (hpos : 0 < t.length) (kv : K × V) (i : ℕ) :
    (place h t kv)[i]? = t[i]?.map (· ++ [kv].filter fun x => h x.1 % t.length = i) := by
  unfold place
  rw [List.getElem?_set]
  split
  · rename_i heq
    subst heq
    rw [if_pos (Nat.mod_lt _ hpos), getElem?_bucketOf hpos kv.1]
    simp
  · rename_i hne
    have hnil : ([kv].filter fun x => h x.1 % t.length = i) = [] := by simpa using hne
    rw [hnil]
    simp

/-- What placing a list of pairs does to each bucket, and to the pairs as a whole. -/
theorem foldl_place : ∀ {l : List (K × V)} {t : List (List (K × V))}, 0 < t.length →
    (l.foldl (place h) t).length = t.length ∧
    (l.foldl (place h) t).flatten.Perm (l ++ t.flatten) ∧
    ∀ i, (l.foldl (place h) t)[i]? =
      t[i]?.map (· ++ l.filter fun x => h x.1 % t.length = i) := by
  intro l
  induction l with
  | nil =>
      intro t _
      refine ⟨rfl, List.Perm.refl _, ?_⟩
      simp
  | cons kv l ih =>
      intro t hpos
      have hlen := length_place (h := h) (t := t) kv
      obtain ⟨h1, h2, h3⟩ := ih (t := place h t kv) (by rw [hlen]; exact hpos)
      rw [List.foldl_cons]
      refine ⟨h1.trans hlen, ?_, ?_⟩
      · exact h2.trans (((place_perm hpos kv).append_left l).trans List.perm_middle)
      · intro i
        rw [h3 i, hlen, getElem?_place hpos, Option.map_map]
        congr 1
        funext b
        simp [Function.comp, List.filter_cons, List.append_assoc]
        split <;> simp

theorem rehash_eq : rehash h t = t.flatten.foldl (place h) (List.replicate (2 * t.length) []) := by
  unfold rehash
  rw [List.foldl_flatten]

/-- Doubling splits buckets: keys that share a bucket afterwards shared one before. -/
theorem Chained.pairwise_flatten (ht : Chained h c t) :
    t.flatten.Pairwise fun x y => h x.1 % t.length = h y.1 % t.length → c x.1 ≠ c y.1 := by
  rw [List.pairwise_flatten]
  constructor
  · intro b hb
    refine (ht.distinct b hb).imp ?_
    intro x y hxy _
    exact hxy
  · rw [List.pairwise_iff_getElem]
    intro i j hi hj hij x hx y hy heq
    have h1 := ht.placed (List.getElem?_eq_getElem hi) x hx
    have h2 := ht.placed (List.getElem?_eq_getElem hj) y hy
    omega

/-- **Rehashing keeps the table and its pairs.** -/
theorem Chained.rehash (ht : Chained h c t) (hpos : 0 < t.length) :
    Chained h c (rehash h t) ∧ (Base.rehash h t).length = 2 * t.length ∧
      (Base.rehash h t).flatten.Perm t.flatten := by
  have hlen : (List.replicate (2 * t.length) ([] : List (K × V))).length = 2 * t.length :=
    List.length_replicate
  obtain ⟨h1, h2, h3⟩ := foldl_place (h := h) (l := t.flatten)
    (t := List.replicate (2 * t.length) []) (by omega)
  rw [← rehash_eq] at h1 h2 h3
  rw [hlen] at h1 h3
  have hbucket : ∀ {i b}, (Base.rehash h t)[i]? = some b →
      b = t.flatten.filter fun x => h x.1 % (2 * t.length) = i := by
    intro i b hb
    rw [h3, List.getElem?_replicate] at hb
    split at hb
    · simpa using hb.symm
    · cases hb
  refine ⟨⟨?_, ?_⟩, h1, ?_⟩
  · intro i b hb kv hkv
    rw [hbucket hb] at hkv
    rw [h1]
    simpa using (List.mem_filter.mp hkv).2
  · intro b hb
    obtain ⟨i, hi⟩ := List.mem_iff_getElem?.mp hb
    rw [hbucket hi]
    refine (ht.pairwise_flatten.sublist List.filter_sublist).imp_of_mem ?_
    intro x y hx hy hxy
    have hxi : h x.1 % (2 * t.length) = i := by simpa using (List.mem_filter.mp hx).2
    have hyi : h y.1 % (2 * t.length) = i := by simpa using (List.mem_filter.mp hy).2
    apply hxy
    rw [← Nat.mod_mul_left_mod (h x.1) 2, ← Nat.mod_mul_left_mod (h y.1) 2, hxi, hyi]
  · simpa using h2

/-! ## Search -/

/-- `k` compares equal to a different key of its bucket. -/
def Clash (h : K → ℕ) (c : K → C) (t : List (List (K × V))) (k : K) : Prop :=
  ∃ kv ∈ bucketOf h t k, c kv.1 = c k ∧ kv.1 ≠ k

/-- A search in the bucket of `k`. -/
def search [DecidableEq C] (h : K → ℕ) (c : K → C) (t : List (List (K × V))) (k : K) :
    Option (K × V) := (bucketOf h t k).find? fun kv => c kv.1 = c k

variable [DecidableEq C]

theorem search_eq_some (ht : Chained h c t) (hpos : 0 < t.length) {k : K} {kv : K × V} :
    search h c t k = some kv ↔ kv ∈ bucketOf h t k ∧ c kv.1 = c k := by
  unfold search
  constructor
  · intro hfind
    exact ⟨List.mem_of_find?_eq_some hfind, by simpa using List.find?_some hfind⟩
  · rintro ⟨hmem, hc⟩
    obtain ⟨A, B, hAB⟩ := List.append_of_mem hmem
    rw [hAB, List.find?_append, List.find?_cons_of_pos (by simpa using hc), List.find?_eq_none.mpr]
    · rfl
    · -- an earlier pair that compares equal would be a second one
      intro x hx hxc
      have hdist := ht.distinct _ (bucketOf_mem (h := h) hpos k)
      rw [hAB, List.pairwise_append] at hdist
      have hne := hdist.2.2 x hx kv List.mem_cons_self
      exact hne ((by simpa using hxc : c x.1 = c k).trans hc.symm)

/-- A search is exact unless its key clashes; if it does, the search finds another key's pair. -/
theorem search_iff (ht : Chained h c t) (hpos : 0 < t.length) (k : K) :
    (∀ kv, search h c t k = some kv ↔ kv ∈ bucketOf h t k ∧ kv.1 = k) ↔ ¬ Clash h c t k := by
  constructor
  · rintro hexact ⟨kv, hmem, hc, hne⟩
    exact hne ((hexact kv).mp ((search_eq_some ht hpos).mpr ⟨hmem, hc⟩)).2
  · intro hclash kv
    rw [search_eq_some ht hpos]
    constructor
    · rintro ⟨hmem, hc⟩
      refine ⟨hmem, ?_⟩
      by_contra hne
      exact hclash ⟨kv, hmem, hc, hne⟩
    · rintro ⟨hmem, rfl⟩
      exact ⟨hmem, rfl⟩

end Chaining

end Cerberos.Base
