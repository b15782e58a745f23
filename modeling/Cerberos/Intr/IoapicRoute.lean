/-
# Cerberos.Intr.IoapicRoute — where the interrupt source overrides go.

After the registration loop the array holds the IO APICs of the MADT under their ids, and stays so
while overrides are routed. `ioapic_set_gsi` then writes the two registers of one redirection entry of
one IO APIC. It is the entry the MADT means exactly when the GSI is not the first one of its IO APIC,
no IO APIC with a higher id starts below the GSI, and `irq_src` happens to be the number of the pin.
-/
import Cerberos.Intr.Ioapic

namespace Cerberos

open Cerberos.Base

/-! ## The choice of the IO APIC -/

/-- The loop ends with the last IO APIC that can take the GSI. -/
theorem ioapicForGsi_spec (s : Apic) (gsi : BitVec 32) :
    ∀ n, (ioapicForGsi s gsi n = -1 ∧ ∀ j < n, takesGsi s gsi j = false) ∨
      ∃ i < n, ioapicForGsi s gsi n = BitVec.ofNat 8 i ∧ takesGsi s gsi i = true ∧
        ∀ j, i < j → j < n → takesGsi s gsi j = false := by
  intro n
  induction n with
  | zero =>
      refine Or.inl ⟨rfl, ?_⟩
      intro j hj
      omega
  | succ n ih =>
      unfold ioapicForGsi
      by_cases htakes : takesGsi s gsi n = true
      · rw [if_pos htakes]
        refine Or.inr ⟨n, Nat.lt_succ_self n, rfl, htakes, ?_⟩
        intro j h1 h2
        omega
      · rw [if_neg htakes]
        have hnot := Bool.eq_false_of_not_eq_true htakes
        rcases ih with ⟨hnone, hall⟩ | ⟨i, hi, hsome, htake, hlast⟩
        · refine Or.inl ⟨hnone, ?_⟩
          intro j hj
          rcases Nat.lt_succ_iff_lt_or_eq.mp hj with hj | rfl
          · exact hall j hj
          · exact hnot
        · refine Or.inr ⟨i, Nat.lt_succ_of_lt hi, hsome, htake, ?_⟩
          intro j h1 h2
          rcases Nat.lt_succ_iff_lt_or_eq.mp h2 with h2 | rfl
          · exact hlast j h1 h2
          · exact hnot

/-! ## Device accesses -/

/-- A store keeps the devices where they are. -/
theorem mmioStore_isSome (s : Apic) (ptr : Word) (val : BitVec 32) (a : Word) :
    ((mmioStore s ptr val).devs a).isSome = (s.devs a).isSome := by
  unfold mmioStore
  cases hptr : s.devs ptr with
  | some d =>
      dsimp only
      by_cases ha : a = ptr
      · rw [ha, Function.update_self, hptr]
        rfl
      · rw [Function.update_of_ne ha]
  | none =>
      dsimp only
      cases hwin : s.devs (ptr - ioWin.setWidth 64) with
      | some d =>
          dsimp only
          by_cases ha : a = ptr - ioWin.setWidth 64
          · rw [ha, Function.update_self, hwin]
            rfl
          · rw [Function.update_of_ne ha]
      | none => rfl

/-- A store leaves the array and the boot processor alone. -/
theorem mmioStore_ioapics (s : Apic) (ptr : Word) (val : BitVec 32) :
    (mmioStore s ptr val).ioapics = s.ioapics := by
  unfold mmioStore
  split
  · rfl
  · split <;> rfl

/-- A store to IOREGSEL and one to IOWIN write the selected register. -/
theorem mmioStore_write {s : Apic} {base : Word} {d : IoDevice} (hdev : s.devs base = some d)
    (hwin : s.devs (base + ioWin.setWidth 64) = none) (reg : Byte) (val : BitVec 32) :
    mmioStore (mmioStore s base (reg.setWidth 32)) (base + ioWin.setWidth 64) val =
      { s with
        devs := Function.update s.devs base (some ⟨reg, Function.update d.regs reg val⟩)
        writes := s.writes ++ [⟨base, reg, val⟩] } := by
  have hne : base + ioWin.setWidth 64 ≠ base := by
    intro heq
    rw [heq, hdev] at hwin
    cases hwin
  have hback : base + ioWin.setWidth 64 - ioWin.setWidth 64 = base := BitVec.add_sub_cancel _ _
  have hreg : (reg.setWidth 32).setWidth 8 = reg := by
    rw [BitVec.setWidth_setWidth_of_le _ (by decide), BitVec.setWidth_eq]
  have hsel : mmioStore s base (reg.setWidth 32) =
      { s with devs := Function.update s.devs base (some { d with select := reg }) } := by
    unfold mmioStore
    rw [hdev]
    dsimp only
    rw [hreg]
  rw [hsel]
  unfold mmioStore
  dsimp only
  rw [Function.update_of_ne hne, hwin]
  dsimp only
  rw [hback, Function.update_self]
  dsimp only
  rw [Function.update_idem]

/-! ## The registered IO APICs -/

/-- The array holds the IO APICs `done`, and the devices are where `devs` has them. -/
structure Registered (devs : Word → Option IoDevice) (done : List MadtIoapic) (s : Apic) : Prop where
  listed : ∀ e ∈ done, (s.ioapics e.ioApicId.toNat).present = true ∧
    (s.ioapics e.ioApicId.toNat).ioregsel = e.base ∧
    (s.ioapics e.ioApicId.toNat).iowin = (e.ioApicAddr + ioWin).setWidth 64 ∧
    (s.ioapics e.ioApicId.toNat).gsiBase = e.gsiBase
  only : ∀ i, (s.ioapics i).present = true → ∃ e ∈ done, e.ioApicId.toNat = i
  devices : ∀ a, (s.devs a).isSome = (devs a).isSome

theorem registered_static (devs : Word → Option IoDevice) (bsp : BitVec 32) :
    Registered devs [] { Apic.static devs with bspLapicId := bsp, bspLapicIdValid := true } := by
  refine ⟨by simp, ?_, fun _ => rfl⟩
  intro i hpresent
  cases hpresent

theorem ioapicRead_keeps (s : Apic) (id reg : Byte) :
    (ioapicRead s id reg).2.ioapics = s.ioapics ∧
      ∀ a, ((ioapicRead s id reg).2.devs a).isSome = (s.devs a).isSome := by
  unfold ioapicRead
  split
  · exact ⟨rfl, fun _ => rfl⟩
  · exact ⟨mmioStore_ioapics _ _ _, mmioStore_isSome _ _ _⟩

/-- What `ioapic_register` does to the array and to the devices. -/
theorem ioapicRegister_spec (s : Apic) {e : MadtIoapic} (hsmall : e.ioApicId.toNat < 16) :
    ∃ s' r, ioapicRegister s e = .ok s' ∧
      s'.ioapics = Function.update s.ioapics e.ioApicId.toNat r ∧ r.present = true ∧
      r.ioregsel = e.base ∧ r.iowin = (e.ioApicAddr + ioWin).setWidth 64 ∧ r.gsiBase = e.gsiBase ∧
      ∀ a, (s'.devs a).isSome = (s.devs a).isSome := by
  unfold ioapicRegister
  dsimp only
  rw [if_pos hsmall]
  generalize hrec : (⟨true, e.ioApicId, e.ioApicAddr.setWidth 64,
    (e.ioApicAddr + ioWin).setWidth 64, e.gsiBase,
    (s.ioapics e.ioApicId.toNat).redtblEntries⟩ : Ioapic) = record
  have hkeeps := ioapicRead_keeps
    { s with ioapics := Function.update s.ioapics e.ioApicId.toNat record } e.ioApicId ioapicVer
  generalize ioapicRead { s with ioapics := Function.update s.ioapics e.ioApicId.toNat record }
    e.ioApicId ioapicVer = read at hkeeps ⊢
  dsimp only at hkeeps
  refine ⟨_, { record with redtblEntries := redtblCount read.1 }, rfl, ?_, ?_⟩
  · dsimp only
    rw [hkeeps.1, Function.update_self, Function.update_idem]
  · rw [← hrec]
    exact ⟨rfl, rfl, rfl, rfl, hkeeps.2⟩

/-- **One round of the registration loop.** -/
theorem Registered.register {devs : Word → Option IoDevice} {done : List MadtIoapic} {s : Apic}
    (h : Registered devs done s) {e : MadtIoapic} (hsmall : e.ioApicId.toNat < 16)
    (hnew : e.ioApicId ∉ done.map fun i => i.ioApicId) :
    ∃ s', ioapicRegister s e = .ok s' ∧ Registered devs (done ++ [e]) s' := by
  obtain ⟨s', r, hok, htable, hpresent, hsel, hwin, hgsi, hdevs⟩ := ioapicRegister_spec s hsmall
  refine ⟨s', hok, ?_, ?_, fun a => (hdevs a).trans (h.devices a)⟩
  · intro e' he'
    rw [htable]
    by_cases hid : e'.ioApicId.toNat = e.ioApicId.toNat
    · have heq : e' = e := by
        rcases List.mem_append.mp he' with he' | he'
        · refine absurd (List.mem_map.mpr ⟨e', he', ?_⟩) hnew
          exact BitVec.eq_of_toNat_eq hid
        · exact List.mem_singleton.mp he'
      rw [heq, Function.update_self]
      exact ⟨hpresent, hsel, hwin, hgsi⟩
    · rw [Function.update_of_ne hid]
      refine h.listed e' ((List.mem_append.mp he').resolve_right ?_)
      intro hmem
      rw [List.mem_singleton.mp hmem] at hid
      exact hid rfl
  · intro i hi
    rw [htable] at hi
    by_cases hid : i = e.ioApicId.toNat
    · exact ⟨e, List.mem_append_right _ (List.mem_singleton.mpr rfl), hid.symm⟩
    · rw [Function.update_of_ne hid] at hi
      obtain ⟨e', he', hi'⟩ := h.only i hi
      exact ⟨e', List.mem_append_left _ he', hi'⟩

/-- **The registration loop registers every IO APIC.** -/
theorem Registered.registerAll {devs : Word → Option IoDevice} :
    ∀ {rest done : List MadtIoapic} {s : Apic}, Registered devs done s →
      (∀ e ∈ rest, e.ioApicId.toNat < 16) → ((done ++ rest).map fun i => i.ioApicId).Nodup →
      ∃ s', ioapicRegisterAll s rest = .ok s' ∧ Registered devs (done ++ rest) s' := by
  intro rest
  induction rest with
  | nil =>
      intro done s h _ _
      rw [List.append_nil]
      exact ⟨s, rfl, h⟩
  | cons e rest ih =>
      intro done s h hsmall hnodup
      rw [List.forall_mem_cons] at hsmall
      rw [List.append_cons] at hnodup ⊢
      have hnew : e.ioApicId ∉ done.map fun i => i.ioApicId := by
        rw [List.map_append, List.map_append] at hnodup
        have hleft := (List.nodup_append.mp hnodup).1
        exact fun hmem => (List.nodup_append.mp hleft).2.2 _ hmem _ (List.mem_singleton.mpr rfl) rfl
      obtain ⟨s₁, hok₁, h₁⟩ := h.register hsmall.1 hnew
      obtain ⟨s', hok', h'⟩ := ih h₁ hsmall.2 hnodup
      exact ⟨s', Res.bind_eq_ok.mpr ⟨s₁, hok₁, hok'⟩, h'⟩

/-! ## One override -/

/-- The table and the places of the devices stay. -/
structure KeepsTable (s s' : Apic) : Prop where
  ioapics : s'.ioapics = s.ioapics
  devices : ∀ a, (s'.devs a).isSome = (s.devs a).isSome

theorem KeepsTable.trans {s s₁ s' : Apic} (h : KeepsTable s s₁) (h' : KeepsTable s₁ s') :
    KeepsTable s s' :=
  ⟨h'.ioapics.trans h.ioapics, fun a => (h'.devices a).trans (h.devices a)⟩

theorem mmioStore_keeps (s : Apic) (ptr : Word) (val : BitVec 32) :
    KeepsTable s (mmioStore s ptr val) := ⟨mmioStore_ioapics s ptr val, mmioStore_isSome s ptr val⟩

theorem ioapicWrite_keeps (s : Apic) (id reg : Byte) (val : BitVec 32) :
    KeepsTable s (ioapicWrite s id reg val) := by
  unfold ioapicWrite
  split
  · exact ⟨rfl, fun _ => rfl⟩
  · exact (mmioStore_keeps _ _ _).trans (mmioStore_keeps _ _ _)

theorem ioapicSetGsi_keeps (s : Apic) (o : MadtOverride) (junk : RedtblEntry) :
    KeepsTable s (ioapicSetGsi s o junk) := by
  have hbsp : KeepsTable s (bspLapicId s).2 := by
    unfold bspLapicId
    split
    · exact ⟨rfl, fun _ => rfl⟩
    · exact ⟨rfl, fun _ => rfl⟩
  unfold ioapicSetGsi
  dsimp only
  split
  · exact ⟨rfl, fun _ => rfl⟩
  · refine hbsp.trans ?_
    unfold ioapicSetIrq
    split
    · exact ⟨rfl, fun _ => rfl⟩
    · exact (ioapicWrite_keeps _ _ _ _).trans (ioapicWrite_keeps _ _ _ _)

theorem Registered.keeps {devs : Word → Option IoDevice} {done : List MadtIoapic} {s s' : Apic}
    (h : Registered devs done s) (hkeeps : KeepsTable s s') : Registered devs done s' := by
  refine ⟨?_, ?_, fun a => (hkeeps.devices a).trans (h.devices a)⟩
  · rw [hkeeps.ioapics]
    exact h.listed
  · rw [hkeeps.ioapics]
    exact h.only

/-- The array is the same after any number of overrides. -/
theorem Registered.setAll {devs : Word → Option IoDevice} {done : List MadtIoapic}
    (overrides : List (MadtOverride × RedtblEntry)) :
    ∀ {s : Apic}, Registered devs done s → Registered devs done (ioapicSetAll s overrides) := by
  induction overrides with
  | nil =>
      intro s h
      exact h
  | cons o overrides ih =>
      intro s h
      exact ih (h.keeps (ioapicSetGsi_keeps s o.1 o.2))

/-! ## Redirection entries -/

theorem RedtblEntry.high_append_low (e : RedtblEntry) : e.highRaw ++ e.lowRaw = e.raw := by
  unfold RedtblEntry.highRaw RedtblEntry.lowRaw
  apply BitVec.eq_of_getLsbD_eq
  intro i hi
  rw [BitVec.getLsbD_append, BitVec.getLsbD_extractLsb', BitVec.getLsbD_extractLsb']
  by_cases hlow : i < 32
  · simp [hlow]
  · simp [hlow, show i - 32 < 32 by omega, show 32 + (i - 32) = i by omega]

/-- Entries have the same register exactly when they are equal modulo 128. -/
theorem ioredtblRegHigh_eq_iff {p q : ℕ} :
    ioredtblRegHigh p = ioredtblRegHigh q ↔ p % 128 = q % 128 := by
  unfold ioredtblRegHigh
  rw [← BitVec.toNat_inj, BitVec.toNat_ofNat, BitVec.toNat_ofNat]
  omega

theorem ioredtblRegLow_eq_iff {p q : ℕ} :
    ioredtblRegLow p = ioredtblRegLow q ↔ p % 128 = q % 128 := by
  unfold ioredtblRegLow
  rw [← BitVec.toNat_inj, BitVec.toNat_ofNat, BitVec.toNat_ofNat]
  omega

theorem ioredtblReg_ne (p q : ℕ) : ioredtblRegHigh p ≠ ioredtblRegLow q := by
  unfold ioredtblRegHigh ioredtblRegLow
  rw [Ne, ← BitVec.toNat_inj, BitVec.toNat_ofNat, BitVec.toNat_ofNat]
  omega

/-- A flag test of the source reads one bit of the flags. -/
theorem flags_and_ne_zero (flags : BitVec 16) {i : ℕ} (hi : i < 8) :
    flags.setWidth 8 &&& BitVec.twoPow 8 i ≠ 0 ↔ flags.getLsbD i = true := by
  rw [BitVec.and_twoPow, BitVec.getLsbD_setWidth, decide_eq_true hi, Bool.true_and]
  split
  · rename_i hbit
    refine iff_of_true ?_ hbit
    intro h0
    have hone := congrArg (fun x => BitVec.getLsbD x i) h0
    simp [hi] at hone
  · rename_i hbit
    exact iff_of_false (fun h => h rfl) hbit

/-! ## Where an override goes -/

section Route

variable {devs : Word → Option IoDevice} {ioapics : List MadtIoapic} {s : Apic}

/-- Which IO APICs pass the test of `ioapic_set_gsi`. -/
theorem Registered.takes (h : Registered devs ioapics s) {gsi : BitVec 32} {i : ℕ} :
    takesGsi s gsi i = true ↔
      ∃ e ∈ ioapics, e.ioApicId.toNat = i ∧ e.gsiBase.toNat < gsi.toNat := by
  unfold takesGsi
  rw [Bool.and_eq_true, decide_eq_true_eq, BitVec.lt_def]
  constructor
  · rintro ⟨hpresent, hlt⟩
    obtain ⟨e, he, rfl⟩ := h.only i hpresent
    rw [(h.listed e he).2.2.2] at hlt
    exact ⟨e, he, rfl, hlt⟩
  · rintro ⟨e, he, rfl, hlt⟩
    obtain ⟨hpresent, -, -, hbase⟩ := h.listed e he
    rw [hbase]
    exact ⟨hpresent, hlt⟩

/-- A write to a register of a registered IO APIC. -/
theorem Registered.write (h : Registered devs ioapics s) (hok : IoapicsOk devs ioapics)
    {e : MadtIoapic} (he : e ∈ ioapics) {d : IoDevice} (hd : s.devs e.base = some d) (reg : Byte)
    (val : BitVec 32) :
    ioapicWrite s e.ioApicId reg val =
      { s with
        devs := Function.update s.devs e.base (some ⟨reg, Function.update d.regs reg val⟩)
        writes := s.writes ++ [⟨e.base, reg, val⟩] } := by
  obtain ⟨hpresent, hsel, hwin, -⟩ := h.listed e he
  have hregistered : isRegistered s e.ioApicId ≠ false := by
    unfold isRegistered
    rw [decide_eq_true (hok.small e he), hpresent]
    decide
  have hwindow : (e.ioApicAddr + ioWin).setWidth 64 = e.base + ioWin.setWidth 64 := by
    have hroom := hok.window e he
    unfold MadtIoapic.base
    apply BitVec.eq_of_toNat_eq
    rw [BitVec.toNat_setWidth, BitVec.toNat_add, BitVec.toNat_add, BitVec.toNat_setWidth,
      BitVec.toNat_setWidth]
    change (e.ioApicAddr.toNat + 16) % 2 ^ 32 % 2 ^ 64 =
      (e.ioApicAddr.toNat % 2 ^ 64 + 16 % 2 ^ 64) % 2 ^ 64
    omega
  have hfree : s.devs (e.base + ioWin.setWidth 64) = none := by
    have hnone := h.devices (e.base + ioWin.setWidth 64)
    rw [(hok.device e he).2] at hnone
    exact Option.not_isSome_iff_eq_none.mp (by rw [hnone]; decide)
  unfold ioapicWrite
  dsimp only
  rw [if_neg hregistered, mmioStore_ioapics, hsel, hwin, hwindow]
  exact mmioStore_write hd hfree reg val

/-- `ioapic_set_irq` on a registered IO APIC writes the two registers of one entry. -/
theorem Registered.setIrq (h : Registered devs ioapics s) (hok : IoapicsOk devs ioapics)
    {e : MadtIoapic} (he : e ∈ ioapics) {d : IoDevice} (hd : s.devs e.base = some d) (irq : Byte)
    (entry : RedtblEntry) :
    ioapicSetIrq s e.ioApicId irq entry =
      { s with
        devs := Function.update s.devs e.base (some ⟨ioredtblRegLow irq.toNat,
          Function.update (Function.update d.regs (ioredtblRegHigh irq.toNat) entry.highRaw)
            (ioredtblRegLow irq.toNat) entry.lowRaw⟩)
        writes := s.writes ++ [⟨e.base, ioredtblRegHigh irq.toNat, entry.highRaw⟩,
          ⟨e.base, ioredtblRegLow irq.toNat, entry.lowRaw⟩] } := by
  have hregistered : isRegistered s e.ioApicId ≠ false := by
    unfold isRegistered
    rw [decide_eq_true (hok.small e he), (h.listed e he).1]
    decide
  have hkeeps := ioapicWrite_keeps s e.ioApicId (ioredtblRegHigh irq.toNat) entry.highRaw
  have hwrite := h.write hok he hd (ioredtblRegHigh irq.toNat) entry.highRaw
  unfold ioapicSetIrq
  dsimp only
  rw [if_neg hregistered]
  rw [hwrite] at hkeeps ⊢
  rw [(h.keeps hkeeps).write hok he (Function.update_self _ _ _)]
  simp only [Function.update_idem, List.append_assoc, List.singleton_append]

/-- **What `ioapic_set_gsi` does**: nothing to the devices, or one redirection entry, number `irq_src`,
of the last IO APIC that starts below the GSI. -/
theorem Registered.setGsi (h : Registered devs ioapics s) (hok : IoapicsOk devs ioapics)
    (o : MadtOverride) (junk : RedtblEntry) :
    (ioapicSetGsi s o junk).writes = s.writes ∧ (∀ e ∈ ioapics, o.gsi.toNat ≤ e.gsiBase.toNat) ∨
    ∃ e ∈ ioapics, e.gsiBase.toNat < o.gsi.toNat ∧
      (∀ e' ∈ ioapics, e.ioApicId.toNat < e'.ioApicId.toNat → o.gsi.toNat ≤ e'.gsiBase.toNat) ∧
      ∃ (entry : RedtblEntry) (d : IoDevice), entry.IsFor o ∧ s.devs e.base = some d ∧
        (ioapicSetGsi s o junk).writes = s.writes ++
          [⟨e.base, ioredtblRegHigh o.irqSrc.toNat, entry.highRaw⟩,
            ⟨e.base, ioredtblRegLow o.irqSrc.toNat, entry.lowRaw⟩] ∧
        (ioapicSetGsi s o junk).devs = Function.update s.devs e.base
          (some ⟨ioredtblRegLow o.irqSrc.toNat,
            Function.update (Function.update d.regs (ioredtblRegHigh o.irqSrc.toNat) entry.highRaw)
              (ioredtblRegLow o.irqSrc.toNat) entry.lowRaw⟩) := by
  unfold ioapicSetGsi
  dsimp only
  rcases ioapicForGsi_spec s o.gsi maxIoapics with ⟨hnone, hall⟩ | ⟨i, hi, hsome, htake, hlast⟩
  · refine Or.inl ⟨?_, ?_⟩
    · rw [hnone, if_pos (by decide)]
    · intro e he
      by_contra hlt
      have htrue := h.takes.mpr ⟨e, he, rfl, Nat.lt_of_not_le hlt⟩
      rw [hall _ (hok.small e he)] at htrue
      cases htrue
  · obtain ⟨e, he, rfl, hlt⟩ := h.takes.mp htake
    refine Or.inr ⟨e, he, hlt, ?_, ?_⟩
    · intro e' he' hhigher
      by_contra hlt'
      have htrue := h.takes.mpr ⟨e', he', rfl, Nat.lt_of_not_le hlt'⟩
      rw [hlast _ hhigher (hok.small e' he')] at htrue
      cases htrue
    · have hid : BitVec.ofNat 8 e.ioApicId.toNat = e.ioApicId := by
        rw [BitVec.ofNat_toNat, BitVec.setWidth_eq]
      rw [hsome, hid, if_neg (by have := hok.small e he; omega)]
      have hbsp : KeepsTable s (bspLapicId s).2 ∧ (bspLapicId s).2.devs = s.devs ∧
          (bspLapicId s).2.writes = s.writes := by
        unfold bspLapicId
        split
        · exact ⟨⟨rfl, fun _ => rfl⟩, rfl, rfl⟩
        · exact ⟨⟨rfl, fun _ => rfl⟩, rfl, rfl⟩
      obtain ⟨d, hd⟩ := Option.isSome_iff_exists.mp
        ((h.devices e.base).trans (hok.device e he).1)
      rw [(h.keeps hbsp.1).setIrq hok he (by rw [hbsp.2.1]; exact hd)]
      dsimp only
      rw [hbsp.2.1, hbsp.2.2]
      refine ⟨_, d, ⟨rfl, rfl, ?_, ?_⟩, hd, rfl, rfl⟩
      · exact if_congr (flags_and_ne_zero o.flags (i := 1) (by decide)) rfl rfl
      · exact if_congr (flags_and_ne_zero o.flags (i := 3) (by decide)) rfl rfl

/-- The override meets the IO APIC of its GSI: that is the last one that starts below the GSI, the pin
has registers, and `irq_src` is the number of the pin. -/
def MeetsPin (ioapics : List MadtIoapic) (c : MadtIoapic) (o : MadtOverride) : Prop :=
  o.gsi ≠ c.gsiBase ∧
  (∀ i ∈ ioapics, c.ioApicId.toNat < i.ioApicId.toNat → o.gsi.toNat ≤ i.gsiBase.toNat) ∧
  o.gsi.toNat - c.gsiBase.toNat < 120 ∧
  o.irqSrc.toNat % 128 = o.gsi.toNat - c.gsiBase.toNat

/-- An override that is routed right meets its pin. -/
theorem Registered.meets (h : Registered devs ioapics s) (hok : IoapicsOk devs ioapics)
    {c : MadtIoapic} (hc : c ∈ ioapics) {o : MadtOverride}
    (hpin : o.gsi.toNat - c.gsiBase.toNat < 120) {junk entry : RedtblEntry}
    (hwrites : (ioapicSetGsi s o junk).writes = s.writes ++
      [⟨c.base, ioredtblRegHigh (o.gsi.toNat - c.gsiBase.toNat), entry.highRaw⟩,
        ⟨c.base, ioredtblRegLow (o.gsi.toNat - c.gsiBase.toNat), entry.lowRaw⟩]) :
    MeetsPin ioapics c o := by
  rcases h.setGsi hok o junk with ⟨hnone, -⟩ | ⟨e, he, hlt, hhigher, entry', d, -, -, hdone, -⟩
  · rw [hnone] at hwrites
    have hlen := congrArg List.length hwrites
    rw [List.length_append] at hlen
    change s.writes.length = s.writes.length + 2 at hlen
    omega
  · rw [hdone] at hwrites
    have htail := List.append_cancel_left hwrites
    rw [List.cons.injEq, RegWrite.mk.injEq] at htail
    obtain ⟨⟨hbase, hreg, -⟩, -⟩ := htail
    have heq : e = c := List.inj_on_of_nodup_map hok.bases he hc hbase
    subst heq
    rw [ioredtblRegHigh_eq_iff] at hreg
    refine ⟨?_, hhigher, hpin, by omega⟩
    intro hfirst
    rw [hfirst] at hlt
    omega

/-- An override that meets its pin is routed right. -/
theorem Registered.routed (h : Registered devs ioapics s) (hok : IoapicsOk devs ioapics)
    {c : MadtIoapic} (hc : c ∈ ioapics) {o : MadtOverride} (hgsi : c.Serves devs o.gsi.toNat)
    (junk : RedtblEntry) (hmeets : MeetsPin ioapics c o) :
    ∃ entry, Routed s (ioapicSetGsi s o junk) c o (o.gsi.toNat - c.gsiBase.toNat) entry := by
  obtain ⟨hne, hlast, hregs, hpin⟩ := hmeets
  obtain ⟨hlow, hhigh⟩ := hgsi
  have hbelow : c.gsiBase.toNat < o.gsi.toNat := by
    refine Nat.lt_of_le_of_ne hlow ?_
    intro heq
    exact hne (BitVec.eq_of_toNat_eq heq.symm)
  rcases h.setGsi hok o junk with ⟨-, hnone⟩ |
    ⟨e, he, hlt, hhigher, entry, d, hfor, hd, hwrites, hdevs⟩
  · have := hnone c hc
    omega
  · -- neither of `c` and the chosen one has the higher id
    have hid : e.ioApicId = c.ioApicId := by
      apply BitVec.eq_of_toNat_eq
      rcases Nat.lt_trichotomy e.ioApicId.toNat c.ioApicId.toNat with hlt' | heq | hgt
      · have := hhigher c hc hlt'
        omega
      · exact heq
      · have := hlast e he hgt
        omega
    have heq : e = c := List.inj_on_of_nodup_map hok.ids he hc hid
    subst heq
    have hmod : o.irqSrc.toNat % 128 = (o.gsi.toNat - e.gsiBase.toNat) % 128 := by omega
    have hhi := ioredtblRegHigh_eq_iff.mpr hmod
    have hlo := ioredtblRegLow_eq_iff.mpr hmod
    rw [hhi, hlo] at hwrites hdevs
    refine ⟨entry, hfor, hregs, hwrites, ?_, ?_⟩
    · unfold redtblAt
      rw [hdevs, Function.update_self, Option.map_some]
      dsimp only
      rw [Function.update_self, Function.update_of_ne (ioredtblReg_ne _ _), Function.update_self,
        entry.high_append_low]
    · intro base p hp hother
      unfold redtblAt
      rw [hdevs]
      by_cases hbase : base = e.base
      · have hpp : p ≠ o.gsi.toNat - e.gsiBase.toNat := fun heq => hother (by rw [hbase, heq])
        have h1 : ioredtblRegHigh p ≠ ioredtblRegHigh (o.gsi.toNat - e.gsiBase.toNat) := by
          rw [Ne, ioredtblRegHigh_eq_iff]
          omega
        have h2 : ioredtblRegLow p ≠ ioredtblRegLow (o.gsi.toNat - e.gsiBase.toNat) := by
          rw [Ne, ioredtblRegLow_eq_iff]
          omega
        rw [hbase, Function.update_self, hd, Option.map_some, Option.map_some]
        dsimp only
        rw [Function.update_of_ne (ioredtblReg_ne _ _), Function.update_of_ne h1,
          Function.update_of_ne h2, Function.update_of_ne (ioredtblReg_ne _ _).symm]
      · rw [Function.update_of_ne hbase]

end Route

/-- **Interrupt source overrides are routed to the right pin** exactly when they meet it, after the
registration loop and any number of earlier overrides. -/
theorem ioapicSetGsi_routed_iff {devs : Word → Option IoDevice} {ioapics : List MadtIoapic}
    (hok : IoapicsOk devs ioapics) {c : MadtIoapic} (hc : c ∈ ioapics) {o : MadtOverride}
    (hgsi : c.Serves devs o.gsi.toNat) (bsp : BitVec 32)
    (earlier : List (MadtOverride × RedtblEntry)) (junk : RedtblEntry) :
    ∃ s, ioapicRegisterAll { Apic.static devs with bspLapicId := bsp, bspLapicIdValid := true }
        ioapics = .ok s ∧
      ((∃ entry, Routed (ioapicSetAll s earlier) (ioapicSetGsi (ioapicSetAll s earlier) o junk) c o
        (o.gsi.toNat - c.gsiBase.toNat) entry) ↔
        o.gsi ≠ c.gsiBase ∧
        (∀ i ∈ ioapics, c.ioApicId.toNat < i.ioApicId.toNat → o.gsi.toNat ≤ i.gsiBase.toNat) ∧
        o.gsi.toNat - c.gsiBase.toNat < 120 ∧
        o.irqSrc.toNat % 128 = o.gsi.toNat - c.gsiBase.toNat) := by
  obtain ⟨s, hreg, hs⟩ := (registered_static devs bsp).registerAll hok.small hok.ids
  have hs' := hs.setAll earlier
  refine ⟨s, hreg, ?_, hs'.routed hok hc hgsi junk⟩
  rintro ⟨entry, hrouted⟩
  exact hs'.meets hok hc hrouted.registers hrouted.writes

/-! ## One IO APIC -/

/-- The IO APIC of a PC: 24 entries, at `0xfec00000`. -/
def pcDevs (a : Word) : Option IoDevice :=
  if a = 0xfec00000 then some ⟨0, fun reg => if reg = 1 then 0x170020 else 0⟩ else none

def pcIoapic : MadtIoapic := ⟨0, 0xfec00000, 0⟩

theorem pcIoapic_ok : IoapicsOk pcDevs [pcIoapic] :=
  ⟨by decide, by decide, by decide, by decide +kernel, by decide, List.pairwise_singleton _ _⟩

/-- IRQ 9 stays on pin 9. -/
theorem ioapicSetGsi_routed_nine : pcIoapic.Serves pcDevs 9 ∧
    ∃ s, ioapicRegisterAll { Apic.static pcDevs with bspLapicId := 0, bspLapicIdValid := true }
        [pcIoapic] = .ok s ∧
      ∃ entry, Routed s (ioapicSetGsi s ⟨9, 9, 0xd⟩ ⟨0, 0, 0, 0, 0, 0, 0, 0, 0, 0⟩) pcIoapic
        ⟨9, 9, 0xd⟩ 9 entry := by
  have hserves : pcIoapic.Serves pcDevs 9 := ⟨by decide, by decide +kernel⟩
  obtain ⟨s, hreg, hiff⟩ := ioapicSetGsi_routed_iff pcIoapic_ok (List.mem_singleton.mpr rfl)
    (o := ⟨9, 9, 0xd⟩) hserves 0 [] ⟨0, 0, 0, 0, 0, 0, 0, 0, 0, 0⟩
  exact ⟨hserves, s, hreg, hiff.mpr (by decide)⟩

/-- The timer override of a PC, IRQ 0 to GSI 2, goes to pin 0. -/
theorem ioapicSetGsi_timer : IoapicsOk pcDevs [pcIoapic] ∧ pcIoapic.Serves pcDevs 2 ∧
    ∃ s, ioapicRegisterAll { Apic.static pcDevs with bspLapicId := 0, bspLapicIdValid := true }
        [pcIoapic] = .ok s ∧
      ¬ ∃ entry, Routed s (ioapicSetGsi s ⟨0, 2, 0⟩ ⟨0, 0, 0, 0, 0, 0, 0, 0, 0, 0⟩) pcIoapic
        ⟨0, 2, 0⟩ 2 entry := by
  have hserves : pcIoapic.Serves pcDevs 2 := ⟨by decide, by decide +kernel⟩
  obtain ⟨s, hreg, hs⟩ := (registered_static pcDevs 0).registerAll pcIoapic_ok.small pcIoapic_ok.ids
  refine ⟨pcIoapic_ok, hserves, s, hreg, ?_⟩
  rintro ⟨entry, hrouted⟩
  have hmeets := hs.meets pcIoapic_ok (List.mem_singleton.mpr rfl) (o := ⟨0, 2, 0⟩)
    hrouted.registers hrouted.writes
  exact absurd hmeets.2.2.2 (by decide)

end Cerberos
