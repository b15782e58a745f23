/-
# Cerberos.Boot.Stivale2 — finding the bootloader's tags (`boot/stivale2.c`).

What the bootloader knows it hands over as a chain of tags, and every part of the kernel looks up its own
with `stivale2_get_tag`, which follows the chain until it meets the identifier or `NULL`. Nothing bounds
the search: on a chain that runs into itself it ends only for identifiers it meets on the way. The
cursor is one word, so what is not met in the first `2 ^ 64` rounds is never met.

The layout of the tags is the boot protocol's; its header is not part of the repository and is a
parameter here.
-/
import Cerberos.Base.Orbit
import Cerberos.Mm.Kheap
import Mathlib.Data.FinEnum

namespace Cerberos

open Cerberos.Base

/-- What `stivale2.h` says: where a field of a structure is, what a tag holds, and the identifiers of the
tags that the memory of `_start` is made from. -/
structure Stivale2 where
  tags : Mem → Word → Word
  identifier : Mem → Word → Word
  next : Mem → Word → Word
  memmap : Mem → Word → List MmapEntry
  pmrs : Mem → Word → List Pmr
  kernelBase : Mem → Word → KernelBase
  hhdm : Mem → Word → Word
  memmapId : Word
  pmrsId : Word
  kernelBaseId : Word
  hhdmId : Word

section Chain

variable (h : Stivale2) (mem : Mem)

/-! ## The code -/

/-- The loop of `stivale2_get_tag`, for at most `fuel` rounds. -/
def getTagLoop (id : Word) : ℕ → Word → Res Word
  | 0, _ => .error .hang
  | fuel + 1, currentTag =>
    if currentTag = null then .ok null
    else if h.identifier mem currentTag = id then .ok currentTag
    else getTagLoop id fuel (h.next mem currentTag)

/-- `stivale2_get_tag(stivale2_struct, id)`. -/
def stivale2GetTag (stivale2Struct id : Word) : Res Word :=
  getTagLoop h mem id (2 ^ 64) (h.tags mem stivale2Struct)

/-- What a caller reads from the tag it got, unless it got `NULL`. -/
def tagContents {α : Type} (read : Mem → Word → α) (tag : Word) : Option α :=
  if tag = null then none else some (read mem tag)

/-- The tags `pmm_init`, `paging_init` and `kheap_init` look up. -/
def readHandover (stivale2Struct : Word) : Res Handover := do
  let memmap ← stivale2GetTag h mem stivale2Struct h.memmapId
  let pmrs ← stivale2GetTag h mem stivale2Struct h.pmrsId
  let kernelBase ← stivale2GetTag h mem stivale2Struct h.kernelBaseId
  let hhdm ← stivale2GetTag h mem stivale2Struct h.hhdmId
  .ok
    { memmap := tagContents mem h.memmap memmap
      pmrs := tagContents mem h.pmrs pmrs
      kernelBase := tagContents mem h.kernelBase kernelBase
      hhdm := tagContents mem h.hhdm hhdm }

/-! ## Chains -/

/-- The search stops at this tag. -/
def Stops (id tag : Word) : Prop := tag = null ∨ h.identifier mem tag = id

instance (id tag : Word) : Decidable (Stops h mem id tag) :=
  inferInstanceAs (Decidable (tag = null ∨ h.identifier mem tag = id))

/-- The tags from `tag` on, up to `NULL`. -/
def TagChain : Word → List Word → Prop
  | tag, [] => tag = null
  | tag, t :: rest => tag = t ∧ t ≠ null ∧ TagChain (h.next mem t) rest

instance TagChain.decidable : (tag : Word) → (chain : List Word) → Decidable (TagChain h mem tag chain)
  | tag, [] => inferInstanceAs (Decidable (tag = null))
  | tag, t :: rest =>
    have := TagChain.decidable (h.next mem t) rest
    inferInstanceAs (Decidable (tag = t ∧ t ≠ null ∧ TagChain h mem (h.next mem t) rest))

/-- A value is what the tag with the identifier holds, and there is none without such a tag. -/
def ReadsTag {α : Type} (read : Mem → Word → α) (id : Word) (chain : List Word) (value : Option α) :
    Prop :=
  ∀ x, value = some x ↔ ∃ tag ∈ chain, h.identifier mem tag = id ∧ read mem tag = x

/-- The handover holds what the tags of the chain hold. -/
structure ReadsChain (chain : List Word) (handover : Handover) : Prop where
  memmap : ReadsTag h mem h.memmap h.memmapId chain handover.memmap
  pmrs : ReadsTag h mem h.pmrs h.pmrsId chain handover.pmrs
  kernelBase : ReadsTag h mem h.kernelBase h.kernelBaseId chain handover.kernelBase
  hhdm : ReadsTag h mem h.hhdm h.hhdmId chain handover.hhdm

/-- The bootloader's tags, each with an identifier of its own, at `stivale2Struct`. -/
structure HandsOver (stivale2Struct : Word) (chain : List Word) : Prop where
  linked : TagChain h mem (h.tags mem stivale2Struct) chain
  ids : (List.map (h.identifier mem) chain).Nodup

variable {h mem} {id : Word}

/-! ## The search -/

theorem getTagLoop_stops {fuel : ℕ} {tag : Word} (hstops : Stops h mem id tag) :
    getTagLoop h mem id (fuel + 1) tag = .ok tag := by
  rw [getTagLoop]
  by_cases hnull : tag = null
  · rw [if_pos hnull, hnull]
  · rw [if_neg hnull, if_pos (hstops.resolve_left hnull)]

theorem getTagLoop_goes_on {fuel : ℕ} {tag : Word} (hstops : ¬ Stops h mem id tag) :
    getTagLoop h mem id (fuel + 1) tag = getTagLoop h mem id fuel (h.next mem tag) := by
  rw [getTagLoop, if_neg fun hnull => hstops (.inl hnull), if_neg fun hid => hstops (.inr hid)]

/-- The search gets to the first tag it stops at, if there are rounds enough. -/
theorem getTagLoop_first : ∀ {n fuel : ℕ} {tag : Word}, n < fuel →
    Stops h mem id ((h.next mem)^[n] tag) → (∀ m < n, ¬ Stops h mem id ((h.next mem)^[m] tag)) →
      getTagLoop h mem id fuel tag = .ok ((h.next mem)^[n] tag)
  | 0, fuel + 1, tag, _, hstops, _ => getTagLoop_stops hstops
  | n + 1, fuel + 1, tag, hn, hstops, hbefore => by
      have hfirst : ¬ Stops h mem id tag := hbefore 0 (Nat.succ_pos n)
      rw [getTagLoop_goes_on hfirst, Function.iterate_succ_apply]
      exact getTagLoop_first (Nat.lt_of_succ_lt_succ hn) hstops fun m hm =>
        hbefore (m + 1) (Nat.succ_lt_succ hm)

/-- A search that meets nothing to stop at does not end. -/
theorem getTagLoop_never : ∀ {fuel : ℕ} {tag : Word},
    (∀ n < fuel, ¬ Stops h mem id ((h.next mem)^[n] tag)) →
      getTagLoop h mem id fuel tag = .error .hang
  | 0, _, _ => rfl
  | fuel + 1, tag, hnever => by
      have hfirst : ¬ Stops h mem id tag := hnever 0 (Nat.succ_pos fuel)
      rw [getTagLoop_goes_on hfirst]
      exact getTagLoop_never fun n hn => hnever (n + 1) (Nat.succ_lt_succ hn)

theorem card_word : Fintype.card Word = 2 ^ 64 := by
  rw [← FinEnum.card_eq_fintypeCard]
  exact FinEnum.card_bitVec 64

/-- A chain that leads to a stop leads to a first one, within the rounds there are. -/
theorem stivale2GetTag_first {stivale2Struct : Word} {n : ℕ}
    (hstops : Stops h mem id ((h.next mem)^[n] (h.tags mem stivale2Struct)))
    (hbefore : ∀ m < n, ¬ Stops h mem id ((h.next mem)^[m] (h.tags mem stivale2Struct))) :
    stivale2GetTag h mem stivale2Struct id =
      .ok ((h.next mem)^[n] (h.tags mem stivale2Struct)) := by
  have hearly : ∃ n' < 2 ^ 64, Stops h mem id ((h.next mem)^[n'] (h.tags mem stivale2Struct)) := by
    rw [← card_word]
    exact exists_iterate_iff.mp ⟨n, hstops⟩
  obtain ⟨n', hn', hstops'⟩ := hearly
  have hle : n ≤ n' := by
    by_contra hlt
    exact hbefore n' (Nat.lt_of_not_le hlt) hstops'
  exact getTagLoop_first (Nat.lt_of_le_of_lt hle hn') hstops hbefore

/-- **The search, on any chain.** It returns the first of `NULL` and the tag with the identifier that the
links lead to, wherever in memory they lead; and it does not end exactly if they lead to neither, ever. -/
theorem stivale2GetTag_exact (stivale2Struct : Word) :
    (∀ tag, stivale2GetTag h mem stivale2Struct id = .ok tag ↔
      ∃ n, (h.next mem)^[n] (h.tags mem stivale2Struct) = tag ∧ Stops h mem id tag ∧
        ∀ m < n, ¬ Stops h mem id ((h.next mem)^[m] (h.tags mem stivale2Struct))) ∧
      (stivale2GetTag h mem stivale2Struct id = .error .hang ↔
        ∀ n, ¬ Stops h mem id ((h.next mem)^[n] (h.tags mem stivale2Struct))) := by
  by_cases hsome : ∃ n, Stops h mem id ((h.next mem)^[n] (h.tags mem stivale2Struct))
  · have hstops := Nat.find_spec hsome
    have hbefore : ∀ m < Nat.find hsome, ¬ Stops h mem id _ := fun m hm => Nat.find_min hsome hm
    have hfound := stivale2GetTag_first hstops hbefore
    refine ⟨fun tag => ⟨fun hok => ?_, ?_⟩, ?_⟩
    · cases hfound.symm.trans hok
      exact ⟨_, rfl, hstops, hbefore⟩
    · rintro ⟨n, rfl, hn, hmin⟩
      exact stivale2GetTag_first hn hmin
    · rw [hfound]
      refine iff_of_false (fun heq => by cases heq) fun hnever => hnever _ hstops
  · have hnever := not_exists.mp hsome
    have hhang : stivale2GetTag h mem stivale2Struct id = .error .hang :=
      getTagLoop_never fun n _ => hnever n
    rw [hhang]
    refine ⟨fun tag => iff_of_false (fun heq => by cases heq) ?_, iff_of_true rfl hnever⟩
    rintro ⟨n, rfl, hn, -⟩
    exact hnever n hn

/-! ## The handover -/

/-- On a chain that ends, the search gives the first tag with the identifier, or `NULL`. -/
theorem getTagLoop_chain : ∀ {chain : List Word} {fuel : ℕ} {tag : Word},
    TagChain h mem tag chain → chain.length < fuel →
      getTagLoop h mem id fuel tag =
        .ok ((chain.find? fun t => decide (h.identifier mem t = id)).getD null)
  | [], fuel + 1, tag, hchain, _ => by
      rw [getTagLoop_stops (.inl hchain)]
      exact congrArg Except.ok hchain
  | t :: chain, fuel + 1, tag, hchain, hfuel => by
      obtain ⟨rfl, hnull, hrest⟩ := hchain
      by_cases hid : h.identifier mem tag = id
      · rw [getTagLoop_stops (.inr hid)]
        simp [hid]
      · have hgoes : ¬ Stops h mem id tag := fun hstops => hstops.elim hnull hid
        rw [getTagLoop_goes_on hgoes, List.find?_cons_of_neg (by simpa using hid)]
        exact getTagLoop_chain hrest (Nat.lt_of_succ_lt_succ hfuel)

/-- With keys of their own, what is found is what has the key. -/
theorem find?_key {α β : Type} [DecidableEq β] {key : α → β} {l : List α} {k : β}
    (hkeys : (l.map key).Nodup) (a : α) :
    (l.find? fun x => decide (key x = k)) = some a ↔ a ∈ l ∧ key a = k := by
  constructor
  · intro hfind
    exact ⟨List.mem_of_find?_eq_some hfind, by simpa using List.find?_some hfind⟩
  · rintro ⟨hmem, rfl⟩
    induction l with
    | nil => cases hmem
    | cons x l ih =>
        obtain ⟨hx, hl⟩ := List.nodup_cons.mp hkeys
        rcases List.mem_cons.mp hmem with rfl | hmem
        · simp
        · have hne : key x ≠ key a := fun heq => hx (heq ▸ List.mem_map_of_mem hmem)
          simpa [hne] using ih hl hmem

variable {stivale2Struct : Word} {chain : List Word}

theorem TagChain.null_notMem : ∀ {chain : List Word} {tag : Word}, TagChain h mem tag chain →
    null ∉ chain
  | [], _, _ => List.not_mem_nil
  | t :: chain, tag, hchain => by
      obtain ⟨rfl, hnull, hrest⟩ := hchain
      intro hmem
      rcases List.mem_cons.mp hmem with heq | hmem
      · exact hnull heq.symm
      · exact hrest.null_notMem hmem

/-- A chain of different tags is shorter than there are words. -/
theorem HandsOver.length_lt (hand : HandsOver h mem stivale2Struct chain) :
    chain.length < 2 ^ 64 := by
  have hnodup : (null :: chain).Nodup :=
    List.nodup_cons.mpr ⟨hand.linked.null_notMem, hand.ids.of_map _⟩
  have hcard := hnodup.length_le_card
  rw [card_word, List.length_cons] at hcard
  omega

/-- Looking a tag up and reading it. -/
theorem HandsOver.reads (hand : HandsOver h mem stivale2Struct chain) {α : Type}
    (read : Mem → Word → α) (id : Word) :
    ∃ tag, stivale2GetTag h mem stivale2Struct id = .ok tag ∧
      ReadsTag h mem read id chain (tagContents mem read tag) := by
  refine ⟨_, getTagLoop_chain hand.linked hand.length_lt, ?_⟩
  intro x
  have hfound := find?_key (k := id) hand.ids
  unfold tagContents
  cases hfind : chain.find? fun t => decide (h.identifier mem t = id) with
  | none =>
      refine iff_of_false (by simp) ?_
      rintro ⟨tag, hmem, hid, -⟩
      rw [(hfound tag).mpr ⟨hmem, hid⟩] at hfind
      cases hfind
  | some tag =>
      obtain ⟨hmem, hid⟩ := (hfound tag).mp hfind
      have hnull : tag ≠ null := fun heq => hand.linked.null_notMem (heq ▸ hmem)
      rw [Option.getD_some, if_neg hnull, Option.some_inj]
      constructor
      · exact fun hx => ⟨tag, hmem, hid, hx⟩
      · rintro ⟨tag', hmem', hid', hx⟩
        cases hfind.symm.trans ((hfound tag').mpr ⟨hmem', hid'⟩)
        exact hx

/-- A value that two chains agree on is read once. -/
theorem ReadsTag.unique {mem' : Mem} {chain' : List Word} {α : Type} {read : Mem → Word → α}
    {value value' : Option α} (hreads : ReadsTag h mem read id chain value)
    (hreads' : ReadsTag h mem' read id chain' value') (hperm : chain.Perm chain')
    (hids : ∀ tag ∈ chain, h.identifier mem' tag = h.identifier mem tag)
    (hread : ∀ tag ∈ chain, h.identifier mem tag = id → read mem' tag = read mem tag) :
    value' = value := by
  apply Option.ext
  intro x
  rw [hreads x, hreads' x]
  constructor
  · rintro ⟨tag, hmem, hid, hx⟩
    have hmem := hperm.mem_iff.mpr hmem
    have hid := (hids tag hmem).symm.trans hid
    exact ⟨tag, hmem, hid, (hread tag hmem hid).symm.trans hx⟩
  · rintro ⟨tag, hmem, hid, hx⟩
    exact ⟨tag, hperm.mem_iff.mp hmem, (hids tag hmem).trans hid, (hread tag hmem hid).trans hx⟩

/-- The handover of a chain that ends. -/
theorem HandsOver.readHandover (hand : HandsOver h mem stivale2Struct chain) :
    ∃ handover, readHandover h mem stivale2Struct = .ok handover ∧ ReadsChain h mem chain handover := by
  obtain ⟨memmap, hmemmap, hreads₁⟩ := hand.reads h.memmap h.memmapId
  obtain ⟨pmrs, hpmrs, hreads₂⟩ := hand.reads h.pmrs h.pmrsId
  obtain ⟨base, hbase, hreads₃⟩ := hand.reads h.kernelBase h.kernelBaseId
  obtain ⟨hhdm, hhhdm, hreads₄⟩ := hand.reads h.hhdm h.hhdmId
  refine ⟨⟨_, _, _, _⟩, ?_, ⟨hreads₁, hreads₂, hreads₃, hreads₄⟩⟩
  unfold Cerberos.readHandover
  rw [hmemmap, hpmrs, hbase, hhhdm]
  rfl

/-- Two memories hold the same in a tag: the identifier, and what a tag with that identifier holds. -/
structure SameTag (h : Stivale2) (mem mem' : Mem) (tag : Word) : Prop where
  identifier : h.identifier mem' tag = h.identifier mem tag
  memmap : h.identifier mem tag = h.memmapId → h.memmap mem' tag = h.memmap mem tag
  pmrs : h.identifier mem tag = h.pmrsId → h.pmrs mem' tag = h.pmrs mem tag
  kernelBase : h.identifier mem tag = h.kernelBaseId → h.kernelBase mem' tag = h.kernelBase mem tag
  hhdm : h.identifier mem tag = h.hhdmId → h.hhdm mem' tag = h.hhdm mem tag

/-- **The order of the tags does not matter.** If the bootloader's tags have different identifiers, the
kernel finds each of the four it needs for its memory if and only if it is there, among whatever others;
and a bootloader that links the same tags in another order hands over the same. -/
theorem readHandover_order {mem' : Mem} {stivale2Struct' : Word} {chain' : List Word}
    (hand : HandsOver h mem stivale2Struct chain) (hand' : HandsOver h mem' stivale2Struct' chain')
    (hperm : chain.Perm chain') (hsame : ∀ tag ∈ chain, SameTag h mem mem' tag) :
    ∃ handover, readHandover h mem stivale2Struct = .ok handover ∧
      readHandover h mem' stivale2Struct' = .ok handover ∧ ReadsChain h mem chain handover := by
  obtain ⟨handover, hok, hreads⟩ := hand.readHandover
  obtain ⟨handover', hok', hreads'⟩ := hand'.readHandover
  have hids : ∀ tag ∈ chain, h.identifier mem' tag = h.identifier mem tag :=
    fun tag hmem => (hsame tag hmem).identifier
  have heq : handover' = handover := by
    obtain ⟨memmap, pmrs, base, hhdm⟩ := handover
    obtain ⟨memmap', pmrs', base', hhdm'⟩ := handover'
    congr 1
    · exact hreads.memmap.unique hreads'.memmap hperm hids fun tag hmem => (hsame tag hmem).memmap
    · exact hreads.pmrs.unique hreads'.pmrs hperm hids fun tag hmem => (hsame tag hmem).pmrs
    · exact hreads.kernelBase.unique hreads'.kernelBase hperm hids fun tag hmem =>
        (hsame tag hmem).kernelBase
    · exact hreads.hhdm.unique hreads'.hhdm hperm hids fun tag hmem => (hsame tag hmem).hhdm
  rw [heq] at hok'
  exact ⟨handover, hok, hok', hreads⟩

end Chain

/-! ## Two tags -/

/-- The layout of the boot protocol, with what a tag of a memory map or of ranges holds behind a count. -/
def stivale2Pc : Stivale2 where
  tags mem p := read64 mem (p + 128)
  identifier mem tag := read64 mem tag
  next mem tag := read64 mem (tag + 8)
  memmap mem tag := (List.range (read64 mem (tag + 16)).toNat).map fun i =>
    let entry := tag + 24 + 24 * BitVec.ofNat 64 i
    ⟨read64 mem entry, read64 mem (entry + 8), read32 mem (entry + 16)⟩
  pmrs mem tag := (List.range (read64 mem (tag + 16)).toNat).map fun i =>
    let entry := tag + 24 + 24 * BitVec.ofNat 64 i
    ⟨read64 mem entry, read64 mem (entry + 8), read64 mem (entry + 16)⟩
  kernelBase mem tag := ⟨read64 mem (tag + 16), read64 mem (tag + 24)⟩
  hhdm mem tag := read64 mem (tag + 16)
  memmapId := 0x2187f79e8612de07
  pmrsId := 0x5df266a64047b6bd
  kernelBaseId := 0x060d78874a2a8af0
  hhdmId := 0xb0ed257db18cb58f

/-- A structure at `0x1000` with the direct map's tag at `0x2000` and the kernel's base at `0x3000`. -/
def tagMemory (first nextHhdm nextBase : Word) : Mem :=
  [(0x1080, first), (0x2000, stivale2Pc.hhdmId), (0x2008, nextHhdm), (0x2010, vaHhdm),
    (0x3000, stivale2Pc.kernelBaseId), (0x3008, nextBase), (0x3010, 0x200000),
    (0x3018, 0xffffffff80000000)].foldl (fun mem entry => write64 mem entry.1 entry.2) fun _ => 0

theorem readHandover_order_swapped : ∃ handover,
    readHandover stivale2Pc (tagMemory 0x2000 0x3000 0) 0x1000 = .ok handover ∧
      readHandover stivale2Pc (tagMemory 0x3000 0 0x2000) 0x1000 = .ok handover ∧
      ReadsChain stivale2Pc (tagMemory 0x2000 0x3000 0) [0x2000, 0x3000] handover := by
  have hand : HandsOver stivale2Pc (tagMemory 0x2000 0x3000 0) 0x1000 [0x2000, 0x3000] :=
    ⟨by decide +kernel, by decide +kernel⟩
  have hand' : HandsOver stivale2Pc (tagMemory 0x3000 0 0x2000) 0x1000 [0x3000, 0x2000] :=
    ⟨by decide +kernel, by decide +kernel⟩
  refine readHandover_order hand hand' (List.Perm.swap _ _ _) ?_
  intro tag hmem
  simp only [List.mem_cons, List.not_mem_nil, or_false] at hmem
  rcases hmem with rfl | rfl
  · exact ⟨by decide +kernel, fun hid => absurd hid (by decide +kernel),
      fun hid => absurd hid (by decide +kernel), fun hid => absurd hid (by decide +kernel),
      fun _ => by decide +kernel⟩
  · exact ⟨by decide +kernel, fun hid => absurd hid (by decide +kernel),
      fun hid => absurd hid (by decide +kernel), fun _ => by decide +kernel,
      fun hid => absurd hid (by decide +kernel)⟩

end Cerberos
