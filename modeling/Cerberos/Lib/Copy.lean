/-
# Cerberos.Lib.Copy — copies that overlap (`lib/mem/mem.c`).

`memcpy` and `strcpy` go upwards one byte at a time and read the memory they are changing. If the
destination starts inside the source, at distance `k`, the bytes read from there on are those written `k`
rounds before: the first `k` bytes are repeated. `memcpy` then agrees with `memmove` only on memory that
repeats itself; `strcpy` overwrites the zero byte it is looking for and runs until its counter overflows.

Distances are taken modulo `2 ^ 64`, so that no buffer is assumed not to wrap around.
-/
import Cerberos.Lib.Mem

namespace Cerberos

open Cerberos.Base

/-! ## The code -/

/-- The loop of `strcpy` from index `i` on. The index is an `int`: increasing it past its maximum, after
`fuel` more rounds, is undefined. -/
def strcpyLoop (dest src : Word) : ℕ → ℕ → Mem → Res Mem
  | 0, _, _ => .error .fault
  | fuel + 1, i, m =>
    if m (src + BitVec.ofNat 64 i) = 0 then .ok (Function.update m (dest + BitVec.ofNat 64 i) 0)
    else strcpyLoop dest src fuel (i + 1)
      (Function.update m (dest + BitVec.ofNat 64 i) (m (src + BitVec.ofNat 64 i)))

/-- `strcpy(dest, src)`. -/
def strcpy (m : Mem) (dest src : Word) : Res Mem := strcpyLoop dest src (2 ^ 31) 0 m

/-! ## Copying upwards -/

section Copy

variable {m : Mem} {dest src : Word}

/-- The byte read in round `n`: if it was written before, that was as many rounds ago as the destination
is away from the source. -/
theorem read_back {n : ℕ} (hn : n < 2 ^ 64) :
    (if (src + BitVec.ofNat 64 n - dest).toNat < n then
      m (src + BitVec.ofNat 64 ((src + BitVec.ofNat 64 n - dest).toNat % (dest - src).toNat))
    else m (src + BitVec.ofNat 64 n)) = m (src + BitVec.ofNat 64 (n % (dest - src).toNat)) := by
  have hk := (dest - src).isLt
  have hback : (src + BitVec.ofNat 64 n - dest).toNat = (2 ^ 64 - (dest - src).toNat + n) % 2 ^ 64 := by
    bv_omega
  rw [hback]
  generalize (dest - src).toNat = k at *
  rcases Nat.eq_zero_or_pos k with rfl | hpos
  · rw [if_neg (by omega), Nat.mod_zero]
  · by_cases hkn : k ≤ n
    · rw [show (2 ^ 64 - k + n) % 2 ^ 64 = n - k by omega, if_pos (by omega), ← Nat.mod_eq_sub_mod hkn]
    · rw [if_neg (by omega), Nat.mod_eq_of_lt (show n < k by omega)]

/-- **What a copy upwards leaves**: the first bytes of the source, as many as the destination is away from
it, over and over. At distance 0 nothing is repeated, and `i % 0` is `i`. -/
theorem memcpyLoop_apply : ∀ {n : ℕ} (x : Word), n ≤ 2 ^ 64 →
    memcpyLoop m dest src n x = if (x - dest).toNat < n then
      m (src + BitVec.ofNat 64 ((x - dest).toNat % (dest - src).toNat)) else m x := by
  intro n
  induction n with
  | zero => simp [memcpyLoop]
  | succ n ih =>
      intro x hn
      have hlast := toNat_offset_sub dest (show n < 2 ^ 64 by omega)
      rw [memcpyLoop, Function.update_apply, ih _ (by omega), ih _ (by omega), read_back (by omega)]
      by_cases hx : x = dest + BitVec.ofNat 64 n
      · rw [if_pos hx, hx, hlast, if_pos (Nat.lt_succ_self n)]
      · have hne : (x - dest).toNat ≠ n := by
          intro heq
          apply hx
          rw [← heq, BitVec.ofNat_toNat, BitVec.setWidth_eq, BitVec.add_comm, BitVec.sub_add_cancel]
        rw [if_neg hx]
        by_cases hlt : (x - dest).toNat < n
        · rw [if_pos hlt, if_pos (by omega)]
        · rw [if_neg hlt, if_neg (by omega)]

/-- **When `memcpy` does what `memmove` does**: exactly if the source, as far as the destination lies
inside it, repeats itself with the distance of the two. For a destination that starts outside the source
there is nothing to repeat. -/
theorem memcpy_agrees_iff (m : Mem) (dest src num : Word) :
    memcpy m dest src num = memmove m dest src num ↔
      ∀ i, i + (dest - src).toNat < num.toNat →
        m (src + BitVec.ofNat 64 (i + (dest - src).toNat)) = m (src + BitVec.ofNat 64 i) := by
  have hnum := num.isLt
  have hbytes : memcpy m dest src num = memmove m dest src num ↔ ∀ j < num.toNat,
      m (src + BitVec.ofNat 64 (j % (dest - src).toNat)) = m (src + BitVec.ofNat 64 j) := by
    constructor
    · intro heq j hj
      have hat := congrFun heq (dest + BitVec.ofNat 64 j)
      unfold memcpy memmove at hat
      rw [memcpyLoop_apply _ (by omega), fillBytes_apply _ _ _ _ (by omega),
        toNat_offset_sub dest (show j < 2 ^ 64 by omega), if_pos hj, if_pos hj] at hat
      exact hat
    · intro hall
      funext x
      unfold memcpy memmove
      rw [memcpyLoop_apply _ (by omega), fillBytes_apply _ _ _ _ (by omega)]
      by_cases hx : (x - dest).toNat < num.toNat
      · rw [if_pos hx, if_pos hx]
        exact hall _ hx
      · rw [if_neg hx, if_neg hx]
  rw [hbytes]
  generalize (dest - src).toNat = k
  constructor
  · intro hall i hi
    rw [← hall (i + k) hi, Nat.add_mod_right]
    exact hall i (by omega)
  · intro hrepeat j
    -- back by the distance until the first bytes are reached
    induction j using Nat.strong_induction_on with
    | _ j ih =>
        intro hj
        by_cases hjk : j < k
        · rw [Nat.mod_eq_of_lt hjk]
        · rcases Nat.eq_zero_or_pos k with rfl | hpos
          · rw [Nat.mod_zero]
          · have hback := hrepeat (j - k) (by omega)
            rw [Nat.sub_add_cancel (Nat.le_of_not_lt hjk)] at hback
            rw [hback, Nat.mod_eq_sub_mod (Nat.le_of_not_lt hjk)]
            exact ih (j - k) (by omega) (by omega)

/-! ## Strings -/

/-- The byte `strcpy` looks at in round `i`. -/
theorem memcpyLoop_read {i : ℕ} (hi : i < 2 ^ 64) : memcpyLoop m dest src i (src + BitVec.ofNat 64 i) =
    m (src + BitVec.ofNat 64 (i % (dest - src).toNat)) := by
  rw [memcpyLoop_apply _ (by omega), read_back hi]

/-- `strcpy` ends at the first zero byte it looks at. -/
theorem strcpyLoop_ends {n : ℕ} (hn : n < 2 ^ 64)
    (hbefore : ∀ j < n, m (src + BitVec.ofNat 64 (j % (dest - src).toNat)) ≠ 0)
    (hzero : m (src + BitVec.ofNat 64 (n % (dest - src).toNat)) = 0) :
    ∀ {fuel i : ℕ}, i ≤ n → n < i + fuel →
      strcpyLoop dest src fuel i (memcpyLoop m dest src i) = .ok (memcpyLoop m dest src (n + 1)) := by
  intro fuel
  induction fuel with
  | zero => omega
  | succ fuel ih =>
      intro i hi hfuel
      rw [strcpyLoop]
      by_cases hin : i = n
      · subst hin
        have hread : memcpyLoop m dest src i (src + BitVec.ofNat 64 i) = 0 :=
          (memcpyLoop_read hn).trans hzero
        rw [if_pos hread, memcpyLoop, hread]
      · have hlt : i < n := Nat.lt_of_le_of_ne hi hin
        rw [if_neg fun hread => hbefore i hlt ((memcpyLoop_read (by omega)).symm.trans hread)]
        exact ih hlt (by omega)

/-- Without a zero byte to look at, its index overflows. -/
theorem strcpyLoop_never (hnever : ∀ j, m (src + BitVec.ofNat 64 (j % (dest - src).toNat)) ≠ 0) :
    ∀ {fuel i : ℕ}, i + fuel ≤ 2 ^ 64 →
      strcpyLoop dest src fuel i (memcpyLoop m dest src i) = .error .fault := by
  intro fuel
  induction fuel with
  | zero => exact fun _ => rfl
  | succ fuel ih =>
      intro i hfuel
      rw [strcpyLoop, if_neg fun hread => hnever i ((memcpyLoop_read (by omega)).symm.trans hread)]
      exact @ih (i + 1) (by omega)

/-- **`strcpy` copies a string exactly if the destination does not start inside it.** Outside, and also
when the string reaches into the destination from above, the string is moved with its zero byte; inside,
behind the first byte and up to the zero byte, the zero byte is overwritten before it is read, and the
index overflows. -/
theorem strcpy_exact {len : ℕ} (hlen : len < 2 ^ 31) (hstr : ∀ i < len, m (src + BitVec.ofNat 64 i) ≠ 0)
    (hnul : m (src + BitVec.ofNat 64 len) = 0) :
    (strcpy m dest src = .ok (memmove m dest src (BitVec.ofNat 64 (len + 1))) ↔
      ¬ (0 < (dest - src).toNat ∧ (dest - src).toNat ≤ len)) ∧
    (strcpy m dest src = .error .fault ↔ 0 < (dest - src).toNat ∧ (dest - src).toNat ≤ len) := by
  by_cases hinside : 0 < (dest - src).toNat ∧ (dest - src).toNat ≤ len
  · have hfault : strcpy m dest src = .error .fault := by
      refine strcpyLoop_never (fun j => hstr _ ?_) (i := 0) (by decide)
      exact Nat.lt_of_lt_of_le (Nat.mod_lt j hinside.1) hinside.2
    rw [hfault]
    refine ⟨iff_of_false (fun heq => by cases heq) (not_not_intro hinside), iff_of_true rfl hinside⟩
  · have hmod : ∀ j ≤ len, j % (dest - src).toNat = j := by
      intro j hj
      generalize (dest - src).toNat = k at hinside ⊢
      rcases Nat.eq_zero_or_pos k with rfl | hpos
      · exact Nat.mod_zero j
      · exact Nat.mod_eq_of_lt (by omega)
    have hok : strcpy m dest src = .ok (memcpyLoop m dest src (len + 1)) := by
      refine strcpyLoop_ends (by omega) (fun j hj => ?_) ?_ (i := 0) (Nat.zero_le _) (by omega)
      · rw [hmod j hj.le]
        exact hstr j hj
      · rw [hmod len le_rfl]
        exact hnul
    have hsize : (BitVec.ofNat 64 (len + 1)).toNat = len + 1 := by
      rw [BitVec.toNat_ofNat]
      exact Nat.mod_eq_of_lt (by omega)
    have hmove : memcpyLoop m dest src (len + 1) = memmove m dest src (BitVec.ofNat 64 (len + 1)) := by
      funext x
      unfold memmove
      rw [hsize, memcpyLoop_apply _ (by omega), fillBytes_apply _ _ _ _ (by omega)]
      by_cases hx : (x - dest).toNat < len + 1
      · rw [if_pos hx, if_pos hx, hmod _ (by omega)]
      · rw [if_neg hx, if_neg hx]
    rw [hok, hmove]
    exact ⟨iff_of_true rfl hinside, iff_of_false (fun heq => by cases heq) hinside⟩

end Copy

/-- A string of two characters at `0x100`. -/
theorem strcpy_exact_two :
    strcpy (fun a => if a = 0x100 then 0x68 else if a = 0x101 then 0x69 else 0) 0x101 0x100 =
        .error .fault ∧
      strcpy (fun a => if a = 0x100 then 0x68 else if a = 0x101 then 0x69 else 0) 0xff 0x100 =
        .ok (memmove (fun a => if a = 0x100 then 0x68 else if a = 0x101 then 0x69 else 0)
          0xff 0x100 3) :=
  ⟨(strcpy_exact (show 2 < 2 ^ 31 by decide) (by decide) (by decide)).2.mpr (by decide),
    (strcpy_exact (show 2 < 2 ^ 31 by decide) (by decide) (by decide)).1.mpr (by decide)⟩

end Cerberos
