/-
# Cerberos.Acpi.MadtEnds — when `parse_madt` comes to an end.

Both walks move the same 8-bit cursor by the length byte of the entry it points to, without looking at
that byte, and compare it with an unsigned 32-bit difference. A walk ends in two ways only: the cursor
gets to the end of the table or past it, or the first walk meets an address override for the second time
and panics. The cursor has 256 values, so both can be decided on its first 512 positions.

An entry of length 0, or a table that is shorter than its header, keeps the walk going for ever.
-/
import Cerberos.Acpi.Madt
import Cerberos.Base.Orbit
import Mathlib.Data.FinEnum

namespace Cerberos

open Cerberos.Base

section Ends

variable (mem : Mem) (madt : Word)

/-- The cursor after the entry it points to. -/
def madtNext (i : Byte) : Byte := i + entryLength mem (madtData madt i.toNat)

/-- The cursor after `n` entries. -/
def madtCursor (n : ℕ) : Byte := (madtNext mem madt)^[n] 0

/-- The cursor is at the end of the table or past it. -/
def CursorOut (i : Byte) : Prop :=
  (madtLength mem madt - madtOffset.setWidth 32).toNat ≤ i.toNat

/-- The cursor is at an address override. -/
def CursorOverride (i : Byte) : Prop :=
  entryType mem (madtData madt i.toNat) = madtLapicAddrOverride

instance (i : Byte) : Decidable (CursorOut mem madt i) := inferInstanceAs (Decidable (_ ≤ _))

instance (i : Byte) : Decidable (CursorOverride mem madt i) := inferInstanceAs (Decidable (_ = _))

end Ends

/-! ## One round -/

variable {mem : Mem} {madt : Word}

theorem not_cursorOut {i : Byte} :
    i.toNat < (madtLength mem madt - madtOffset.setWidth 32).toNat ↔ ¬CursorOut mem madt i :=
  Nat.not_le.symm

/-- **What a round of the first walk does**: it returns behind the table, panics at an override when
one is remembered, and otherwise goes on behind the entry, remembering an override. -/
theorem madtCount_cases (fuel : ℕ) (i : Byte) (info : MadtInfo) (log : List LogMsg) :
    (CursorOut mem madt i ∧ madtCount mem madt (fuel + 1) i info log = .ok (info, log)) ∨
    (CursorOverride mem madt i ∧ info.lapicAddrOverride ≠ null ∧
      madtCount mem madt (fuel + 1) i info log =
        .error (.panic "MADT contains more than one lapic address override entry.\n" [])) ∨
    (CursorOverride mem madt i → info.lapicAddrOverride = null) ∧ ∃ info' log',
      madtCount mem madt (fuel + 1) i info log =
        madtCount mem madt fuel (madtNext mem madt i) info' log' ∧
      info'.lapicAddrOverride = if CursorOverride mem madt i then madtData madt i.toNat
        else info.lapicAddrOverride := by
  rw [madtCount]
  by_cases hout : CursorOut mem madt i
  · left
    exact ⟨hout, if_neg (by rw [not_cursorOut, not_not]; exact hout)⟩
  right
  rw [if_pos (not_cursorOut.mpr hout)]
  by_cases htwice : CursorOverride mem madt i ∧ info.lapicAddrOverride ≠ null
  · left
    refine ⟨htwice.1, htwice.2, ?_⟩
    have hnone : MadtKind.ofType (entryType mem (madtData madt i.toNat)) = none := by
      rw [show entryType mem (madtData madt i.toNat) = madtLapicAddrOverride from htwice.1]
      rfl
    have hentry : madtCountEntry mem (madtData madt i.toNat) info log =
        .error (.panic "MADT contains more than one lapic address override entry.\n" []) := by
      unfold madtCountEntry
      rw [hnone]
      dsimp only
      rw [if_pos (show entryType mem (madtData madt i.toNat) = _ from htwice.1), if_pos htwice.2]
    dsimp only
    rw [hentry]
    rfl
  · right
    have hone : CursorOverride mem madt i → info.lapicAddrOverride = null := by
      intro hover
      by_contra hne
      exact htwice ⟨hover, hne⟩
    obtain ⟨info', log', hentry, -, hptr, -⟩ := madtCountEntry_spec log hone
    refine ⟨hone, info', log' ++ [madtSeparator], ?_, hptr⟩
    dsimp only
    rw [hentry]
    rfl

theorem madtFillEntry_ends (entry : Word) (info : MadtInfo) (counters : MadtKind → ℕ)
    (log : List LogMsg) : (madtFillEntry mem entry info counters log).Ends := by
  intro h
  unfold madtFillEntry at h
  split at h
  · split at h
    · cases h
    · cases h
  · split at h
    · split at h
      · cases h
      · cases h
    · cases h

/-! ## Walks that end -/

theorem Res.ends_of_panic {α : Type} {x : Res α} {format : String} {args : List Word}
    (h : x = .error (.panic format args)) : x.Ends := by
  rw [h]
  intro heq
  cases heq

theorem Res.Ends.of_bind {α β : Type} {x : Res α} {f : α → Res β} (h : (x >>= f).Ends) :
    x.Ends := by
  rintro rfl
  exact h rfl

/-- **A walk ends when what comes after its first round does.** The round itself returns, panics, or
goes on with what it remembers. -/
theorem madtCount_ends_succ {fuel : ℕ} {i : Byte} {info : MadtInfo} {log : List LogMsg}
    (h : (CursorOverride mem madt i → info.lapicAddrOverride = null) → ∀ info' log',
      (info'.lapicAddrOverride = if CursorOverride mem madt i then madtData madt i.toNat
        else info.lapicAddrOverride) →
      (madtCount mem madt fuel (madtNext mem madt i) info' log').Ends) :
    (madtCount mem madt (fuel + 1) i info log).Ends := by
  rcases madtCount_cases fuel i info log with ⟨-, hok⟩ | ⟨-, -, hpanic⟩ | ⟨hone, info', log', heq, hptr⟩
  · rw [hok]
    exact Res.ends_ok _
  · exact Res.ends_of_panic hpanic
  · rw [heq]
    exact h hone info' log' hptr

/-- The first walk ends when its cursor gets out. -/
theorem madtCount_ends_of_out : ∀ {n fuel : ℕ} {i : Byte} (info : MadtInfo) (log : List LogMsg),
    CursorOut mem madt ((madtNext mem madt)^[n] i) → n < fuel →
      (madtCount mem madt fuel i info log).Ends := by
  intro n
  induction n with
  | zero =>
      intro fuel i info log hout hfuel
      obtain ⟨fuel, rfl⟩ := Nat.exists_eq_add_one_of_ne_zero (Nat.ne_of_gt hfuel)
      rw [madtCount, if_neg (by rw [not_cursorOut, not_not]; exact hout)]
      exact Res.ends_ok _
  | succ n ih =>
      intro fuel i info log hout hfuel
      obtain ⟨fuel, rfl⟩ := Nat.exists_eq_add_one_of_ne_zero (show fuel ≠ 0 by omega)
      apply madtCount_ends_succ
      intro _ info' log' _
      exact ih info' log' hout (by omega)

/-- With an override remembered, the first walk ends at the next one. -/
theorem madtCount_ends_of_override (hnull : ∀ i : Byte, madtData madt i.toNat ≠ null) :
    ∀ {n fuel : ℕ} {i : Byte} (info : MadtInfo) (log : List LogMsg),
      info.lapicAddrOverride ≠ null → CursorOverride mem madt ((madtNext mem madt)^[n] i) →
      n < fuel → (madtCount mem madt fuel i info log).Ends := by
  intro n
  induction n with
  | zero =>
      intro fuel i info log hptr hover hfuel
      obtain ⟨fuel, rfl⟩ := Nat.exists_eq_add_one_of_ne_zero (Nat.ne_of_gt hfuel)
      apply madtCount_ends_succ
      intro hone
      exact absurd (hone hover) hptr
  | succ n ih =>
      intro fuel i info log hptr hover hfuel
      obtain ⟨fuel, rfl⟩ := Nat.exists_eq_add_one_of_ne_zero (show fuel ≠ 0 by omega)
      apply madtCount_ends_succ
      intro _ info' log' hptr'
      refine ih info' log' ?_ hover (by omega)
      -- one override or another stays remembered
      rw [hptr']
      split
      · exact hnull i
      · exact hptr

/-- The first walk ends when its cursor comes to an override twice. -/
theorem madtCount_ends_of_twice (hnull : ∀ i : Byte, madtData madt i.toNat ≠ null) :
    ∀ {n m fuel : ℕ} {i : Byte} (info : MadtInfo) (log : List LogMsg), n < m →
      CursorOverride mem madt ((madtNext mem madt)^[n] i) →
      CursorOverride mem madt ((madtNext mem madt)^[m] i) → m < fuel →
      (madtCount mem madt fuel i info log).Ends := by
  intro n
  induction n with
  | zero =>
      intro m fuel i info log hnm hover hover' hfuel
      obtain ⟨m, rfl⟩ := Nat.exists_eq_add_one_of_ne_zero (Nat.ne_of_gt hnm)
      obtain ⟨fuel, rfl⟩ := Nat.exists_eq_add_one_of_ne_zero (show fuel ≠ 0 by omega)
      apply madtCount_ends_succ
      intro _ info' log' hptr'
      refine madtCount_ends_of_override hnull info' log' ?_ hover' (by omega)
      rw [hptr', if_pos (show CursorOverride mem madt i from hover)]
      exact hnull i
  | succ n ih =>
      intro m fuel i info log hnm hover hover' hfuel
      obtain ⟨m, rfl⟩ := Nat.exists_eq_add_one_of_ne_zero (show m ≠ 0 by omega)
      obtain ⟨fuel, rfl⟩ := Nat.exists_eq_add_one_of_ne_zero (show fuel ≠ 0 by omega)
      apply madtCount_ends_succ
      intro _ info' log' _
      exact ih info' log' (by omega) hover hover' (by omega)

/-- The first walk returns only where its cursor got out. -/
theorem madtCount_ok_out : ∀ {fuel : ℕ} {i : Byte} {info : MadtInfo} {log : List LogMsg} {r},
    madtCount mem madt fuel i info log = .ok r →
      ∃ n < fuel, CursorOut mem madt ((madtNext mem madt)^[n] i) := by
  intro fuel
  induction fuel with
  | zero =>
      intro i info log r h
      cases h
  | succ fuel ih =>
      intro i info log r h
      rcases madtCount_cases fuel i info log with
        ⟨hout, -⟩ | ⟨-, -, hpanic⟩ | ⟨-, info', log', heq, -⟩
      · exact ⟨0, Nat.succ_pos _, hout⟩
      · rw [hpanic] at h
        cases h
      · rw [heq] at h
        obtain ⟨n, hn, hout⟩ := ih h
        exact ⟨n + 1, by omega, hout⟩

/-- And there the second walk ends too. -/
theorem madtFill_ends_of_out : ∀ {n fuel : ℕ} {i : Byte} (info : MadtInfo)
    (counters : MadtKind → ℕ) (log : List LogMsg),
    CursorOut mem madt ((madtNext mem madt)^[n] i) → n < fuel →
      (madtFill mem madt fuel i info counters log).Ends := by
  intro n
  induction n with
  | zero =>
      intro fuel i info counters log hout hfuel
      obtain ⟨fuel, rfl⟩ := Nat.exists_eq_add_one_of_ne_zero (Nat.ne_of_gt hfuel)
      rw [madtFill, if_neg (by rw [not_cursorOut, not_not]; exact hout)]
      exact Res.ends_ok _
  | succ n ih =>
      intro fuel i info counters log hout hfuel
      obtain ⟨fuel, rfl⟩ := Nat.exists_eq_add_one_of_ne_zero (show fuel ≠ 0 by omega)
      rw [madtFill]
      split
      · apply Res.Ends.bind (madtFillEntry_ends _ info counters log)
        rintro ⟨info', counters', log'⟩ -
        exact ih info' counters' log' hout (by omega)
      · exact Res.ends_ok _

/-! ## Walks that do not -/

/-- A first walk that ends got its cursor out, or came to an override with one remembered. -/
theorem out_or_override_of_ends : ∀ {fuel : ℕ} {i : Byte} {info : MadtInfo} {log : List LogMsg},
    (madtCount mem madt fuel i info log).Ends →
      (∃ n, CursorOut mem madt ((madtNext mem madt)^[n] i)) ∨
      (info.lapicAddrOverride ≠ null ∧ ∃ n, CursorOverride mem madt ((madtNext mem madt)^[n] i)) ∨
      ∃ n m, n < m ∧ CursorOverride mem madt ((madtNext mem madt)^[n] i) ∧
        CursorOverride mem madt ((madtNext mem madt)^[m] i) := by
  intro fuel
  induction fuel with
  | zero =>
      intro i info log h
      exact absurd rfl h
  | succ fuel ih =>
      intro i info log h
      rcases madtCount_cases fuel i info log with
        ⟨hout, -⟩ | ⟨hover, hptr, -⟩ | ⟨-, info', log', heq, hptr'⟩
      · exact .inl ⟨0, hout⟩
      · exact .inr (.inl ⟨hptr, 0, hover⟩)
      · rw [heq] at h
        rcases ih h with ⟨n, hout⟩ | ⟨hptr, n, hover⟩ | ⟨n, m, hnm, hn, hm⟩
        · exact .inl ⟨n + 1, hout⟩
        · -- what is remembered now was remembered before, or is the entry at the cursor
          by_cases hi : CursorOverride mem madt i
          · exact .inr (.inr ⟨0, n + 1, Nat.succ_pos n, hi, hover⟩)
          · rw [hptr', if_neg hi] at hptr
            exact .inr (.inl ⟨hptr, n + 1, hover⟩)
        · exact .inr (.inr ⟨n + 1, m + 1, by omega, hn, hm⟩)

theorem parseMadt_ends_cases {fuel : ℕ} (h : (parseMadt fuel mem madt).Ends) :
    (∃ n, CursorOut mem madt (madtCursor mem madt n)) ∨
    ∃ n m, n < m ∧ CursorOverride mem madt (madtCursor mem madt n) ∧
      CursorOverride mem madt (madtCursor mem madt m) := by
  unfold parseMadt at h
  rcases out_or_override_of_ends (Res.Ends.of_bind h) with h | ⟨h, -⟩ | h
  · exact .inl h
  · exact absurd rfl h
  · exact .inr h

theorem card_byte : Fintype.card Byte = 256 := by
  rw [← FinEnum.card_eq_fintypeCard]
  rfl

/-- **When `parse_madt` ends.** The cursor gets to the end of the table, or past it, within its first
256 positions, or it comes to address overrides twice within its first 512. -/
theorem parseMadt_ends_iff (hnull : ∀ i : Byte, madtData madt i.toNat ≠ null) :
    (∃ fuel, (parseMadt fuel mem madt).Ends) ↔
      (∃ n < 256, CursorOut mem madt (madtCursor mem madt n)) ∨
      ∃ n m, n < m ∧ m < 512 ∧ CursorOverride mem madt (madtCursor mem madt n) ∧
        CursorOverride mem madt (madtCursor mem madt m) := by
  have hout : (∃ n, CursorOut mem madt (madtCursor mem madt n)) ↔
      ∃ n < 256, CursorOut mem madt (madtCursor mem madt n) := by
    rw [← card_byte]
    exact exists_iterate_iff
  have htwice : (∃ n m, n < m ∧ CursorOverride mem madt (madtCursor mem madt n) ∧
        CursorOverride mem madt (madtCursor mem madt m)) ↔
      ∃ n m, n < m ∧ m < 512 ∧ CursorOverride mem madt (madtCursor mem madt n) ∧
        CursorOverride mem madt (madtCursor mem madt m) := by
    rw [show 512 = 2 * Fintype.card Byte by rw [card_byte]]
    exact exists_iterate_twice_iff
  rw [← hout, ← htwice]
  -- the bounds are those of an orbit on 256 cursors; what is left is about the walks
  constructor
  · rintro ⟨fuel, hends⟩
    exact parseMadt_ends_cases hends
  · rintro (⟨n, hn⟩ | ⟨n, m, hnm, hn, hm⟩)
    · refine ⟨n + 1, Res.Ends.bind (madtCount_ends_of_out _ _ hn (Nat.lt_succ_self n)) ?_⟩
      rintro ⟨info, log⟩ hok
      exact madtFill_ends_of_out _ _ log hn (Nat.lt_succ_self n)
    · refine ⟨m + 1, Res.Ends.bind
        (madtCount_ends_of_twice hnull _ _ hnm hn hm (Nat.lt_succ_self m)) ?_⟩
      rintro ⟨info, log⟩ hok
      obtain ⟨n', hn', hout'⟩ := madtCount_ok_out hok
      exact madtFill_ends_of_out _ _ log hout' hn'

theorem parseMadt_ends_two_processors : ∃ fuel, (parseMadt fuel (processorTable 2) 0x1000).Ends :=
  (parseMadt_ends_iff (by decide +kernel)).mpr (.inl ⟨2, by decide, by decide +kernel⟩)

/-! ## Two malformed tables -/

/-- A cursor on an entry of length 0 stays there; if that is no override, the walk never ends. -/
theorem parseMadt_never_ends (hlen : entryLength mem (madtData madt 0) = 0)
    (hout : ¬CursorOut mem madt 0) (hover : ¬CursorOverride mem madt 0) (fuel : ℕ) :
    ¬(parseMadt fuel mem madt).Ends := by
  have hstay : ∀ n, (madtNext mem madt)^[n] 0 = 0 := by
    intro n
    induction n with
    | zero => rfl
    | succ n ih =>
        rw [Function.iterate_succ_apply', ih]
        unfold madtNext
        rw [show (0 : Byte).toNat = 0 from rfl, hlen]
        rfl
  intro hends
  rcases parseMadt_ends_cases hends with ⟨n, h⟩ | ⟨n, m, -, h, -⟩
  · rw [madtCursor, hstay] at h
    exact hout h
  · rw [madtCursor, hstay] at h
    exact hover h

/-- A table with two bytes of entries that are both 0, and one whose length field is 0. -/
theorem parseMadt_stuck :
    (∀ fuel, ¬(parseMadt fuel (fun a => if a = 0x1004 then 0x2e else 0) 0x1000).Ends) ∧
    (madtLength (fun a => if a = 0x1004 then 0x2e else 0) 0x1000).toNat = 0x2c + 2 ∧
    ∀ fuel, ¬(parseMadt fuel (fun _ => 0) 0x1000).Ends :=
  ⟨parseMadt_never_ends (by decide) (by decide) (by decide), by decide,
    parseMadt_never_ends (by decide) (by decide) (by decide)⟩

end Cerberos
