/-
# Cerberos.Acpi.MadtPasses — the two passes of `parse_madt` agree.

The first pass counts, the second stores what was counted into arrays of exactly that many slots, and
each has its own copy of the switch. This layer refines `Cerberos.Acpi.Madt`: an array is a pointer that
may be `NULL`, `madt_info` is a global that an earlier parse may have left anything in, and both passes
return the entries they VISITED, as a ghost. Forgetting the refinement gives `parseMadt` back.
-/
import Cerberos.Acpi.MadtEnds

namespace Cerberos

open Cerberos.Base

/-! ## The globals -/

/-- `madt_info`, with its arrays behind pointers: `none` is `NULL`, a slot that was not stored yet is
`none` inside the array. -/
structure MadtGlobals where
  num : MadtKind → ℕ
  array : MadtKind → Option (List (Option Word))
  lapicAddrOverride : Word
  lapicPaddr : Word

/-- Forgetting which arrays are `NULL`. -/
def MadtGlobals.info (g : MadtGlobals) : MadtInfo where
  num := g.num
  list := fun k => (g.array k).getD []
  lapicAddrOverride := g.lapicAddrOverride
  lapicPaddr := g.lapicPaddr

/-- `reset_madt_info()`: the old arrays are freed. -/
def resetMadtGlobals (old : MadtGlobals) : MadtGlobals :=
  { old with num := fun _ => 0, array := fun _ => none, lapicAddrOverride := null, lapicPaddr := 0 }

/-- `if (num_X) X = kmalloc(num_X * sizeof(X*))` for each type; `served` says which requests `kmalloc`
serves. -/
def madtAllocArrays (served : ℕ → Bool) (g : MadtGlobals) : MadtGlobals :=
  { g with
    array := fun k =>
      if g.num k = 0 then g.array k
      else if served (g.num k * 8) then some (List.replicate (g.num k) none)
      else none }

section Passes

variable (mem : Mem) (madt : Word)

/-- The switch of the first pass, which does not touch the arrays. -/
def madtCountGlobal (entry : Word) (g : MadtGlobals) (log : List LogMsg) :
    Res (MadtGlobals × List LogMsg) := do
  let (info, log) ← madtCountEntry mem entry g.info log
  .ok ({ g with num := info.num, lapicAddrOverride := info.lapicAddrOverride }, log)

/-- The first pass, with the entries it visits. -/
def madtCountPass : ℕ → Byte → MadtGlobals → List LogMsg →
    Res (MadtGlobals × List LogMsg × List Word)
  | 0, _, _, _ => .error .hang
  | fuel + 1, i, g, log =>
    if i.toNat < (madtLength mem madt - madtOffset.setWidth 32).toNat then do
      let entry := madtData madt i.toNat
      let (g, log) ← madtCountGlobal mem entry g log
      let (g, log, visited) ← madtCountPass fuel (i + entryLength mem entry) g
        (log ++ [madtSeparator])
      .ok (g, log, entry :: visited)
    else .ok (g, log, [])

/-- The switch of the second pass; a store through `NULL` or outside the array faults. -/
def madtFillGlobal (entry : Word) (g : MadtGlobals) (counters : MadtKind → ℕ) (log : List LogMsg) :
    Res (MadtGlobals × (MadtKind → ℕ) × List LogMsg) :=
  match MadtKind.ofType (entryType mem entry) with
  | some k =>
    match g.array k with
    | none => .error .fault
    | some slots =>
      if counters k < slots.length then
        .ok ({ g with array := Function.update g.array k (some (slots.set (counters k) (some entry))) },
          Function.update counters k (counters k + 1), log)
      else .error .fault
  | none =>
    if entryType mem entry = madtLapicAddrOverride then
      if g.lapicAddrOverride = null then .error .fault
      else .ok ({ g with lapicPaddr := overridePaddr mem g.lapicAddrOverride }, counters, log)
    else .ok (g, counters, log ++ [madtUnknown (entryType mem entry)])

/-- The second pass, with the entries it visits. -/
def madtFillPass : ℕ → Byte → MadtGlobals → (MadtKind → ℕ) → List LogMsg →
    Res (MadtGlobals × List LogMsg × List Word)
  | 0, _, _, _, _ => .error .hang
  | fuel + 1, i, g, counters, log =>
    if i.toNat < (madtLength mem madt - madtOffset.setWidth 32).toNat then do
      let entry := madtData madt i.toNat
      let (g, counters, log) ← madtFillGlobal mem entry g counters log
      let (g, log, visited) ← madtFillPass fuel (i + entryLength mem entry) g counters log
      .ok (g, log, entry :: visited)
    else .ok (g, log, [])

/-- What `parse_madt` prints before the first pass. -/
def madtHeading : List LogMsg :=
  [infoMsg "[parse_madt] MADT information:\n", madtSeparator,
    plainMsg "[parse_madt] lapic address: 0x%lx\n" [(madtLapicAddr mem madt).setWidth 64],
    plainMsg "[parse_madt] madt length: %u\n" [(madtLength mem madt).setWidth 64]] ++ [madtSeparator]

/-- `madt_info` before the first pass. -/
def madtStart (old : MadtGlobals) : MadtGlobals :=
  { resetMadtGlobals old with lapicPaddr := (madtLapicAddr mem madt).setWidth 64 }

/-- `parse_madt(madt_hdr)`, from what `madt_info` held before. -/
def parseMadtGlobal (served : ℕ → Bool) (fuel : ℕ) (old : MadtGlobals) :
    Res (MadtGlobals × List LogMsg) := do
  let (g, log, _) ← madtCountPass mem madt fuel 0 (madtStart mem madt old) (madtHeading mem madt)
  let (g, log, _) ← madtFillPass mem madt fuel 0 (madtAllocArrays served g) (fun _ => 0) log
  .ok (g, log)

/-- **The entries a walk visits from a cursor on**, by the table alone. -/
inductive Visits : Byte → List Word → Prop
  | out {i : Byte} : CursorOut mem madt i → Visits i []
  | entry {i : Byte} {rest : List Word} : ¬CursorOut mem madt i →
      Visits (madtNext mem madt i) rest → Visits i (madtData madt i.toNat :: rest)

/-- The visited entries of a type. -/
def visitedOf (ty : Byte) (visited : List Word) : List Word :=
  visited.filter fun entry => entryType mem entry = ty

end Passes

/-! ## Forgetting the refinement -/

variable {mem : Mem} {madt : Word}

/-- **What an entry does in the first pass**, when it does not panic. -/
theorem madtCountEntry_ok {entry : Word} {info info' : MadtInfo} {log log' : List LogMsg}
    (h : madtCountEntry mem entry info log = .ok (info', log')) :
    (∀ k, info'.num k = info.num k + if entryType mem entry = k.code then 1 else 0) ∧
    (info'.lapicAddrOverride = if entryType mem entry = madtLapicAddrOverride then entry
      else info.lapicAddrOverride) ∧
    info'.list = info.list ∧ info'.lapicPaddr = info.lapicPaddr := by
  have hone : entryType mem entry = madtLapicAddrOverride → info.lapicAddrOverride = null := by
    intro hty
    by_contra hne
    have hnone : MadtKind.ofType (entryType mem entry) = none := by
      rw [hty]
      rfl
    unfold madtCountEntry at h
    rw [hnone] at h
    dsimp only at h
    rw [if_pos hty, if_pos hne] at h
    cases h
  have hlist : info'.list = info.list := by
    unfold madtCountEntry at h
    split at h
    · cases h
      rfl
    · split at h
      · split at h
        · cases h
        · cases h
          rfl
      · cases h
        rfl
  obtain ⟨info₁, log₁, hok, hnum, hptr, hpaddr⟩ := madtCountEntry_spec log hone
  rw [hok] at h
  cases h
  exact ⟨hnum, hptr, hlist, hpaddr⟩

theorem madtFillGlobal_info (entry : Word) (g : MadtGlobals) (counters : MadtKind → ℕ)
    (log : List LogMsg) :
    (madtFillGlobal mem entry g counters log).map (fun r => (r.1.info, r.2)) =
      madtFillEntry mem entry g.info counters log := by
  unfold madtFillGlobal madtFillEntry
  cases MadtKind.ofType (entryType mem entry) with
  | some k =>
      dsimp only
      have hlist : g.info.list k = (g.array k).getD [] := rfl
      rw [hlist]
      cases harray : g.array k with
      | none => rfl
      | some slots =>
          dsimp only [Option.getD_some]
          split
          · have hupdate : (fun k' => (Function.update g.array k
                (some (slots.set (counters k) (some entry))) k').getD []) =
                Function.update g.info.list k (slots.set (counters k) (some entry)) := by
              funext k'
              by_cases hkk : k' = k
              · subst hkk
                rw [Function.update_self, Function.update_self]
                rfl
              · rw [Function.update_of_ne hkk, Function.update_of_ne hkk]
                rfl
            show Except.ok (_, _) = Except.ok (_, _)
            rw [← hupdate]
            rfl
          · rfl
  | none =>
      dsimp only
      split
      · have hptr : g.info.lapicAddrOverride = g.lapicAddrOverride := rfl
        rw [hptr]
        split
        · rfl
        · rfl
      · rfl

theorem visitedOf_cons (ty : Byte) (entry : Word) (visited : List Word) :
    visitedOf mem ty (entry :: visited) = if entryType mem entry = ty then
      entry :: visitedOf mem ty visited else visitedOf mem ty visited := by
  unfold visitedOf
  rw [List.filter_cons]
  simp

theorem length_visitedOf_cons (ty : Byte) (entry : Word) (visited : List Word) :
    (visitedOf mem ty (entry :: visited)).length = (visitedOf mem ty visited).length +
      if entryType mem entry = ty then 1 else 0 := by
  rw [visitedOf_cons]
  split
  · rw [List.length_cons]
  · rfl

theorem madtCountGlobal_ok {entry : Word} {g g' : MadtGlobals} {log log' : List LogMsg}
    (h : madtCountGlobal mem entry g log = .ok (g', log')) :
    (∀ k, g'.num k = g.num k + if entryType mem entry = k.code then 1 else 0) ∧
    (g'.lapicAddrOverride = if entryType mem entry = madtLapicAddrOverride then entry
      else g.lapicAddrOverride) ∧ g'.array = g.array := by
  obtain ⟨⟨info, log₁⟩, hentry, hok⟩ := Res.bind_eq_ok.mp h
  cases hok
  obtain ⟨hnum, hptr, -, -⟩ := madtCountEntry_ok hentry
  exact ⟨hnum, hptr, rfl⟩

/-- What the first pass leaves: the number of visited entries of each type, and a pointer to an
override if it visited one. -/
structure MadtCounted (mem : Mem) (madt : Word) (i : Byte) (g g' : MadtGlobals)
    (visited : List Word) : Prop where
  visits : Visits mem madt i visited
  num : ∀ k, g'.num k = g.num k + (visitedOf mem k.code visited).length
  array : g'.array = g.array
  override : (∀ i : Byte, madtData madt i.toNat ≠ null) →
    visitedOf mem madtLapicAddrOverride visited ≠ [] ∨ g.lapicAddrOverride ≠ null →
    g'.lapicAddrOverride ≠ null

/-- **A first pass that returns counts what it visits.** -/
theorem madtCountPass_counted :
    ∀ {fuel : ℕ} {i : Byte} {g g' : MadtGlobals} {log log' : List LogMsg} {visited : List Word},
      madtCountPass mem madt fuel i g log = .ok (g', log', visited) →
      MadtCounted mem madt i g g' visited ∧ visited.length < fuel := by
  intro fuel
  induction fuel with
  | zero =>
      intro i g g' log log' visited h
      cases h
  | succ fuel ih =>
      intro i g g' log log' visited h
      rw [madtCountPass] at h
      split at h
      · rename_i hlt
        obtain ⟨⟨g₁, log₁⟩, hentry, h⟩ := Res.bind_eq_ok.mp h
        obtain ⟨⟨g₂, log₂, rest⟩, hrest, h⟩ := Res.bind_eq_ok.mp h
        cases h
        obtain ⟨hnum, hptr, harray⟩ := madtCountGlobal_ok hentry
        obtain ⟨hcounted, hlen⟩ := ih hrest
        refine ⟨⟨.entry (not_cursorOut.mp hlt) hcounted.visits, ?_,
          hcounted.array.trans harray, ?_⟩, ?_⟩
        · intro k
          rw [hcounted.num, hnum, length_visitedOf_cons]
          omega
        · -- an override is remembered from the entry that is one until the end
          intro hnull hsome
          apply hcounted.override hnull
          rw [visitedOf_cons] at hsome
          rw [hptr]
          split
          · exact .inr (hnull i)
          · rename_i hty
            rw [if_neg hty] at hsome
            exact hsome
        · rw [List.length_cons]
          omega
      · rename_i hlt
        cases h
        refine ⟨⟨.out ?_, fun k => rfl, rfl, ?_⟩, Nat.succ_pos _⟩
        · rw [not_cursorOut, not_not] at hlt
          exact hlt
        · rintro - (hne | hne)
          · exact absurd rfl hne
          · exact hne

/-! ## The second pass -/

/-- Storing into an array keeps it where it is. -/
theorem madtFillGlobal_null {entry : Word} {g g' : MadtGlobals} {counters counters' : MadtKind → ℕ}
    {log log' : List LogMsg} (h : madtFillGlobal mem entry g counters log = .ok (g', counters', log'))
    (k : MadtKind) : g'.array k = none ↔ g.array k = none := by
  unfold madtFillGlobal at h
  split at h
  · rename_i k' hk'
    split at h
    · cases h
    · rename_i slots hslots
      split at h
      · cases h
        dsimp only
        by_cases hkk : k = k'
        · subst hkk
          rw [Function.update_self, hslots]
          simp
        · rw [Function.update_of_ne hkk]
      · cases h
  · split at h
    · split at h
      · cases h
      · cases h
        rfl
    · cases h
      rfl

/-- **What an entry does in the second pass**, when every array has a slot for what is left. -/
theorem madtFillGlobal_spec {entry : Word} {g : MadtGlobals} {counters : MadtKind → ℕ}
    (log : List LogMsg) {done : MadtKind → List (Option Word)} {rest : MadtKind → ℕ}
    (hlist : ∀ k, g.info.list k = done k ++
      List.replicate (rest k + if entryType mem entry = k.code then 1 else 0) none)
    (hcounters : ∀ k, counters k = (done k).length)
    (hptr : entryType mem entry = madtLapicAddrOverride → g.lapicAddrOverride ≠ null) :
    ∃ g' counters' log', madtFillGlobal mem entry g counters log = .ok (g', counters', log') ∧
      (∀ k, g'.info.list k = (done k ++ if entryType mem entry = k.code then [some entry] else []) ++
        List.replicate (rest k) none) ∧
      (∀ k, counters' k =
        (done k ++ if entryType mem entry = k.code then [some entry] else []).length) ∧
      g'.num = g.num ∧ g'.lapicAddrOverride = g.lapicAddrOverride := by
  obtain ⟨info', counters', log', hok, hlist', hcounters', hnum, hptr', -⟩ :=
    madtFillEntry_spec log hlist hcounters hptr
  rw [← madtFillGlobal_info] at hok
  cases hfill : madtFillGlobal mem entry g counters log with
  | error e =>
      rw [hfill] at hok
      cases hok
  | ok r =>
      obtain ⟨g', counters₁, log₁⟩ := r
      rw [hfill] at hok
      cases hok
      exact ⟨g', _, _, rfl, hlist', hcounters', hnum, hptr'⟩

/-- **The second pass visits the same entries and fills their slots**, by induction on the visits. -/
theorem madtFillPass_filled {i : Byte} {visited : List Word} (hvisits : Visits mem madt i visited) :
    ∀ {fuel : ℕ} {g : MadtGlobals} {counters : MadtKind → ℕ} (log : List LogMsg)
      {done : MadtKind → List (Option Word)}, visited.length < fuel →
      (∀ k, g.info.list k = done k ++
        List.replicate (visitedOf mem k.code visited).length none) →
      (∀ k, counters k = (done k).length) →
      (visitedOf mem madtLapicAddrOverride visited ≠ [] → g.lapicAddrOverride ≠ null) →
      ∃ g' log', madtFillPass mem madt fuel i g counters log = .ok (g', log', visited) ∧
        (∀ k, g'.info.list k = done k ++ (visitedOf mem k.code visited).map some) ∧
        g'.num = g.num ∧ ∀ k, g'.array k = none ↔ g.array k = none := by
  induction hvisits with
  | @out i hout =>
      intro fuel g counters log done hfuel hlist _ _
      obtain ⟨fuel, rfl⟩ := Nat.exists_eq_add_one_of_ne_zero (Nat.ne_of_gt hfuel)
      rw [madtFillPass, if_neg (by rw [not_cursorOut, not_not]; exact hout)]
      exact ⟨g, log, rfl, hlist, rfl, fun _ => Iff.rfl⟩
  | @entry i rest hin _ ih =>
      intro fuel g counters log done hfuel hlist hcounters hptr
      obtain ⟨fuel, rfl⟩ := Nat.exists_eq_add_one_of_ne_zero (show fuel ≠ 0 by omega)
      rw [List.length_cons] at hfuel
      -- one slot of its array is for this entry
      have hslots : ∀ k, g.info.list k = done k ++
          List.replicate ((visitedOf mem k.code rest).length +
            if entryType mem (madtData madt i.toNat) = k.code then 1 else 0) none := by
        intro k
        rw [hlist, length_visitedOf_cons]
      have hptr₁ : entryType mem (madtData madt i.toNat) = madtLapicAddrOverride →
          g.lapicAddrOverride ≠ null := by
        intro hty
        apply hptr
        rw [visitedOf_cons, if_pos hty]
        exact List.cons_ne_nil _ _
      obtain ⟨g₁, counters₁, log₁, hentry, hlist₁, hcounters₁, hnum₁, hover₁⟩ :=
        madtFillGlobal_spec log hslots hcounters hptr₁
      have hptr₂ : visitedOf mem madtLapicAddrOverride rest ≠ [] → g₁.lapicAddrOverride ≠ null := by
        intro hne
        rw [hover₁]
        apply hptr
        rw [visitedOf_cons]
        split
        · exact List.cons_ne_nil _ _
        · exact hne
      obtain ⟨g₂, log₂, hrest, hlist₂, hnum₂, hnull₂⟩ :=
        ih log₁ (Nat.lt_of_succ_lt_succ hfuel) hlist₁ hcounters₁ hptr₂
      refine ⟨g₂, log₂, ?_, ?_, hnum₂.trans hnum₁, ?_⟩
      · rw [madtFillPass, if_pos (not_cursorOut.mpr hin)]
        exact Res.bind_eq_ok.mpr ⟨_, hentry, Res.bind_eq_ok.mpr ⟨_, hrest, rfl⟩⟩
      · intro k
        rw [hlist₂, visitedOf_cons, List.append_assoc]
        split
        · rfl
        · rfl
      · intro k
        rw [hnull₂, madtFillGlobal_null hentry]

/-! ## Both passes -/

theorem madtAllocArrays_list {served : ℕ → Bool} {g : MadtGlobals}
    (hserved : ∀ k, g.num k ≠ 0 → served (g.num k * 8) = true) (harray : ∀ k, g.array k = none)
    (k : MadtKind) :
    (madtAllocArrays served g).info.list k = List.replicate (g.num k) none ∧
    ((madtAllocArrays served g).array k = none ↔ g.num k = 0) := by
  unfold MadtGlobals.info madtAllocArrays
  dsimp only
  by_cases h0 : g.num k = 0
  · rw [if_pos h0, harray, h0]
    exact ⟨rfl, Iff.intro (fun _ => rfl) (fun _ => rfl)⟩
  · rw [if_neg h0, if_pos (hserved k h0)]
    exact ⟨rfl, Iff.intro (fun h => by cases h) (fun h => absurd h h0)⟩

/-- **The two passes agree.** If the first pass returns, the second one returns too, without leaving an
array or reading a `NULL` override, and visits the same entries in the same order. Every array then
holds a pointer to each visited entry of its type, in `num_X` slots, and is `NULL` if and only if there is
none. What `madt_info` held before does not matter. -/
theorem parseMadt_passes_agree (hnull : ∀ i : Byte, madtData madt i.toNat ≠ null)
    {served : ℕ → Bool} {fuel : ℕ} {old g : MadtGlobals} {log : List LogMsg} {visited : List Word}
    (hfirst : madtCountPass mem madt fuel 0 (madtStart mem madt old) (madtHeading mem madt) =
      .ok (g, log, visited))
    (hserved : ∀ k, g.num k ≠ 0 → served (g.num k * 8) = true) :
    ∃ g' log', madtFillPass mem madt fuel 0 (madtAllocArrays served g) (fun _ => 0) log =
        .ok (g', log', visited) ∧
      (∀ k, g'.num k = (visitedOf mem k.code visited).length) ∧
      (∀ k, g'.array k = none ↔ g'.num k = 0) ∧
      (∀ k slots, g'.array k = some slots →
        slots.length = g'.num k ∧ slots = (visitedOf mem k.code visited).map some) ∧
      ∀ old', parseMadtGlobal mem madt served fuel old' = .ok (g', log') := by
  obtain ⟨hcounted, hlen⟩ := madtCountPass_counted hfirst
  have hnum : ∀ k, g.num k = (visitedOf mem k.code visited).length := by
    intro k
    rw [hcounted.num]
    exact Nat.zero_add _
  have halloc := madtAllocArrays_list hserved (fun k => congrFun hcounted.array k)
  have hslots : ∀ k, (madtAllocArrays served g).info.list k =
      [] ++ List.replicate (visitedOf mem k.code visited).length none := by
    intro k
    rw [(halloc k).1, hnum]
    rfl
  obtain ⟨g', log', hfill, hlist, hnum', hnone⟩ := madtFillPass_filled hcounted.visits log hlen
    hslots (fun _ => rfl) (fun hne => hcounted.override hnull (.inl hne))
  have hnum'' : ∀ k, g'.num k = (visitedOf mem k.code visited).length := by
    intro k
    rw [hnum']
    exact hnum k
  refine ⟨g', log', hfill, hnum'', ?_, ?_, ?_⟩
  · intro k
    rw [hnone, (halloc k).2, hnum', show (madtAllocArrays served g).num = g.num from rfl]
  · intro k slots hslots
    have heq : slots = (visitedOf mem k.code visited).map some := by
      have h := hlist k
      rw [show g'.info.list k = slots by unfold MadtGlobals.info; dsimp only; rw [hslots]; rfl] at h
      exact h
    refine ⟨?_, heq⟩
    rw [heq, List.length_map, hnum'']
  · intro old'
    exact Res.bind_eq_ok.mpr ⟨_, hfirst, Res.bind_eq_ok.mpr ⟨_, hfill, rfl⟩⟩

/-- `madt_info` as it is initialised. -/
def madtStatic : MadtGlobals where
  num := fun _ => 0
  array := fun _ => none
  lapicAddrOverride := null
  lapicPaddr := 0

/-- The table of two processors, parsed twice over. -/
theorem parseMadt_passes_two_processors : ∃ g g' log',
    g'.num .lapic = 2 ∧ g'.array .lapic = some [some 0x102c, some 0x1034] ∧
    g'.array .ioapic = none ∧
    parseMadtGlobal (processorTable 2) 0x1000 (fun _ => true) 4 madtStatic = .ok (g, log') ∧
    parseMadtGlobal (processorTable 2) 0x1000 (fun _ => true) 4 g = .ok (g', log') := by
  have hrun : ((madtCountPass (processorTable 2) 0x1000 4 0
      (madtStart (processorTable 2) 0x1000 madtStatic) (madtHeading (processorTable 2) 0x1000)) >>=
      fun r => if r.2.2 = [0x102c, 0x1034] then .ok () else .error .fault).isOk = true := by
    decide +kernel
  obtain ⟨_, hok⟩ := Res.exists_of_isOk hrun
  obtain ⟨⟨g, log, visited⟩, hfirst, hok⟩ := Res.bind_eq_ok.mp hok
  have hvisited := Res.of_check hok
  dsimp only at hvisited
  subst hvisited
  obtain ⟨g', log', -, hnum, hnone, hslots, hparse⟩ :=
    @parseMadt_passes_agree _ _ (by decide +kernel) (fun _ => true) _ _ _ _ _ hfirst (fun _ _ => rfl)
  have hlapic : visitedOf (processorTable 2) MadtKind.lapic.code [0x102c, 0x1034] =
      [0x102c, 0x1034] := by decide +kernel
  have hioapic : visitedOf (processorTable 2) MadtKind.ioapic.code [0x102c, 0x1034] = [] := by
    decide +kernel
  have htwo : g'.num .lapic = 2 := by
    rw [hnum, hlapic]
    rfl
  refine ⟨g', g', log', htwo, ?_, ?_, hparse madtStatic, hparse g'⟩
  · cases harray : g'.array .lapic with
    | none =>
        rw [hnone, htwo] at harray
        cases harray
    | some slots =>
        rw [(hslots _ _ harray).2, hlapic]
        rfl
  · rw [hnone, hnum, hioapic]
    rfl

end Cerberos
