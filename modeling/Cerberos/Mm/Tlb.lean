/-
# Cerberos.Mm.Tlb — the address space the running kernel sees (`kernel/mm/paging.c`).

Once `load_cr3` has installed the tables, the processor translates with them, and it keeps translations it
has found. It may look up any page at any time and forget any of them at any time, and nothing in memory
tells what it keeps. `paging_map` does not bother: it only fills slots that were empty, and what is not
present is not kept. `paging_unmap` ends with an `invlpg` of its page.

`Core` is a processor with both, the tables and what it has kept of them; `CoreOp` interleaves the four
calls of the kernel with what the processor does by itself. What an access sees is the abstract map, from
the regions `paging_init` has mapped on.
-/
import Cerberos.Base.Cache
import Cerberos.Mm.PagingInit
import Cerberos.Mm.PagingLimits

namespace Cerberos

open Cerberos.Base

/-! ## The processor -/

instance (v : Word) : Decidable (Canonical v) := inferInstanceAs (Decidable (_ ∨ _))

/-- A processor: the memory it works on, and the translations it has kept, by page. -/
structure Core where
  mmu : Mmu
  tlb : PageMap

/-- The address of `v` in the frame of its page. -/
def inFrame (v : Word) (e : Word × Word) : Word := e.1 + v % pageSize

/-- Where an access to `v` goes; `none` is a page fault. -/
def Core.access (c : Core) (v : Word) : Option Word :=
  (cachedLookup c.tlb (fun _ => translate c.mmu.phys (pagingCr3 c.mmu) v) (pageNo v)).map (inFrame v)

/-- The processor looks up the page of `v` and keeps it if it is present. -/
def Core.fill (c : Core) (v : Word) : Core :=
  match translate c.mmu.phys (pagingCr3 c.mmu) v with
  | none => c
  | some e => { c with tlb := Function.update c.tlb (pageNo v) (some e) }

/-- `invlpg(vaddr)`; at an address that is not canonical the instruction does nothing. -/
def Core.invlpg (c : Core) (vaddr : Word) : Core :=
  if Canonical vaddr then { c with tlb := Function.update c.tlb (pageNo vaddr) none } else c

/-! ## The calls of the kernel -/

/-- `paging_maps(vaddr, paddr, num, flags)`, with `n` pages to go. -/
def pagingMaps (s : Mmu) (vaddr paddr flags : Word) : ℕ → Res Mmu
  | 0 => .ok s
  | n + 1 => do
    let s ← pagingMap s vaddr paddr flags
    pagingMaps s (vaddr + pageSize) (paddr + pageSize) flags n

/-- `paging_unmap(vaddr)`. -/
def pagingUnmap (c : Core) (vaddr : Word) : Res Core := do
  let mmu ← __pagingUnmap c.mmu (pagingCr3 c.mmu) vaddr
  .ok (Core.invlpg { c with mmu := mmu } vaddr)

/-- `paging_unmaps(vaddr, num)`, with `n` pages to go. -/
def pagingUnmaps (c : Core) (vaddr : Word) : ℕ → Res Core
  | 0 => .ok c
  | n + 1 => do
    let c ← pagingUnmap c vaddr
    pagingUnmaps c (vaddr + pageSize) n

/-- What happens on the processor. -/
inductive CoreOp where
  | map (vaddr paddr flags : Word)
  | maps (vaddr paddr num flags : Word)
  | unmap (vaddr : Word)
  | unmaps (vaddr num : Word)
  | fill (v : Word)
  | evict (page : ℕ)
  | access (v : Word)

/-- One event, with what the accesses saw. -/
def Core.step (c : Core) : CoreOp → Res (Core × List (Option Word))
  | .map vaddr paddr flags => do
    let mmu ← pagingMap c.mmu vaddr paddr flags
    .ok ({ c with mmu := mmu }, [])
  | .maps vaddr paddr num flags => do
    let mmu ← pagingMaps c.mmu vaddr paddr flags num.toNat
    .ok ({ c with mmu := mmu }, [])
  | .unmap vaddr => do
    let c ← pagingUnmap c vaddr
    .ok (c, [])
  | .unmaps vaddr num => do
    let c ← pagingUnmaps c vaddr num.toNat
    .ok (c, [])
  | .fill v => .ok (c.fill v, [])
  | .evict page => .ok ({ c with tlb := Function.update c.tlb page none }, [])
  | .access v => .ok (c, [c.access v])

/-- A sequence of events. -/
def Core.run (c : Core) : List CoreOp → Res (Core × List (Option Word))
  | [] => .ok (c, [])
  | op :: ops => do
    let (c, seen) ← c.step op
    let (c, rest) ← c.run ops
    .ok (c, seen ++ rest)

/-! ## The address space -/

/-- The pages of a range are removed one after the other. -/
def unmapAll (M : PageMap) (v : Word) : ℕ → PageMap
  | 0 => M
  | n + 1 => unmapAll (unmapPage M v) (v + pageSize) n

/-- What an event makes of the address space. -/
def CoreOp.apply (M : PageMap) : CoreOp → PageMap
  | .map vaddr paddr flags => mapPage M vaddr paddr flags
  | .maps vaddr paddr num flags => mapAll M (pageReqs vaddr paddr flags num.toNat)
  | .unmap vaddr => unmapPage M vaddr
  | .unmaps vaddr num => unmapAll M vaddr num.toNat
  | _ => M

/-- What an access sees in an address space. -/
def CoreOp.sees (M : PageMap) : CoreOp → List (Option Word)
  | .access v => [(M (pageNo v)).map (inFrame v)]
  | _ => []

/-- The address space after a sequence of events. -/
def spaceAfter (M : PageMap) (ops : List CoreOp) : PageMap := ops.foldl CoreOp.apply M

/-- What the accesses of a sequence of events see. -/
def spaceSees (M : PageMap) : List CoreOp → List (Option Word)
  | [] => []
  | op :: ops => op.sees M ++ spaceSees (op.apply M) ops

/-- Arguments the calls are made for: mappings an entry can hold, and canonical addresses. -/
def CoreOp.Ok : CoreOp → Prop
  | .map _ paddr flags => MapArgs paddr flags
  | .maps vaddr paddr num flags => ∀ q ∈ pageReqs vaddr paddr flags num.toNat, MapArgs q.p q.flags
  | .unmap vaddr => Canonical vaddr
  | .unmaps vaddr num => ∀ i < num.toNat, Canonical (pageAt vaddr i)
  | .access v => Canonical v
  | _ => True

/-! ## Tables that were created before are never taken back -/

theorem pagingMaps_history {flags : Word} : ∀ {n : ℕ} {s s' : Mmu} {v p : Word},
    pagingMaps s v p flags n = .ok s' → s.created <:+ s'.created := by
  intro n
  induction n with
  | zero =>
      intro s s' v p hok
      cases hok
      exact List.suffix_refl _
  | succ n ih =>
      intro s s' v p hok
      obtain ⟨s₁, hmap, hrest⟩ := Res.bind_eq_ok.mp hok
      exact (pagingMap_walk hmap).history.trans (ih hrest)

@[simp] theorem Core.invlpg_mmu (c : Core) (v : Word) : (c.invlpg v).mmu = c.mmu := by
  unfold Core.invlpg
  split <;> rfl

theorem pagingUnmap_history {c c' : Core} {v : Word} (hok : pagingUnmap c v = .ok c') :
    c.mmu.created <:+ c'.mmu.created := by
  obtain ⟨mmu, hunmap, hok⟩ := Res.bind_eq_ok.mp hok
  cases hok
  rw [Core.invlpg_mmu]
  exact (pagingUnmapAt_walk hunmap).history

theorem pagingUnmaps_history : ∀ {n : ℕ} {c c' : Core} {v : Word},
    pagingUnmaps c v n = .ok c' → c.mmu.created <:+ c'.mmu.created := by
  intro n
  induction n with
  | zero =>
      intro c c' v hok
      cases hok
      exact List.suffix_refl _
  | succ n ih =>
      intro c c' v hok
      obtain ⟨c₁, hunmap, hrest⟩ := Res.bind_eq_ok.mp hok
      exact (pagingUnmap_history hunmap).trans (ih hrest)

theorem Core.step_history {c c' : Core} {op : CoreOp} {seen : List (Option Word)}
    (hok : c.step op = .ok (c', seen)) : c.mmu.created <:+ c'.mmu.created := by
  cases op with
  | map vaddr paddr flags =>
      obtain ⟨mmu, hmap, hok⟩ := Res.bind_eq_ok.mp hok
      cases hok
      exact (pagingMap_walk hmap).history
  | maps vaddr paddr num flags =>
      obtain ⟨mmu, hmaps, hok⟩ := Res.bind_eq_ok.mp hok
      cases hok
      exact pagingMaps_history hmaps
  | unmap vaddr =>
      obtain ⟨c₁, hunmap, hok⟩ := Res.bind_eq_ok.mp hok
      cases hok
      exact pagingUnmap_history hunmap
  | unmaps vaddr num =>
      obtain ⟨c₁, hunmaps, hok⟩ := Res.bind_eq_ok.mp hok
      cases hok
      exact pagingUnmaps_history hunmaps
  | fill v =>
      cases hok
      unfold Core.fill
      split <;> exact List.suffix_refl _
  | evict page =>
      cases hok
      exact List.suffix_refl _
  | access v =>
      cases hok
      exact List.suffix_refl _

theorem Core.run_history : ∀ {ops : List CoreOp} {c c' : Core} {seen : List (Option Word)},
    c.run ops = .ok (c', seen) → c.mmu.created <:+ c'.mmu.created := by
  intro ops
  induction ops with
  | nil =>
      intro c c' seen hok
      cases hok
      exact List.suffix_refl _
  | cons op ops ih =>
      intro c c' seen hok
      obtain ⟨⟨c₁, seen₁⟩, hstep, hok⟩ := Res.bind_eq_ok.mp hok
      obtain ⟨⟨c₂, seen₂⟩, hrest, hok⟩ := Res.bind_eq_ok.mp hok
      cases hok
      exact (Core.step_history hstep).trans (ih hrest)

/-! ## The calls keep tables and kept translations together -/

/-- The tables in `cr3` stand for `M`, and nothing was kept that contradicts them. -/
structure CoreOk (c : Core) (M : PageMap) : Prop where
  tables : ∃ G, PageTables c.mmu c.mmu.cr3 G M
  coherent : Coherent c.tlb M

namespace CoreOk

variable {c c' : Core} {M : PageMap} {mmu : Mmu}

/-- `paging_cr3` returns the root. -/
theorem cr3 (h : CoreOk c M) : pagingCr3 c.mmu = c.mmu.cr3 := by
  obtain ⟨G, hG⟩ := h.tables
  have hroot := hG.tables.frame hG.tables.root_eq
  exact alignDown_page_of_mod hroot.align

theorem translate_eq (h : CoreOk c M) (v : Word) :
    translate c.mmu.phys (pagingCr3 c.mmu) v = M (pageNo v) := by
  obtain ⟨G, hG⟩ := h.tables
  rw [h.cr3]
  exact hG.tables.translate_eq v

/-- **An access sees the address space**, whatever was kept. -/
theorem access (h : CoreOk c M) (v : Word) : c.access v = (M (pageNo v)).map (inFrame v) := by
  unfold Core.access
  rw [h.translate_eq]
  have hlookup := h.coherent.lookup (pageNo v)
  unfold cachedLookup at hlookup ⊢
  rw [hlookup]

/-- `paging_map`, and the processor is not told. -/
theorem map (h : CoreOk c M) {v p f : Word} (hargs : MapArgs p f)
    (hok : pagingMap c.mmu v p f = .ok mmu) (hclean : CleanTables mmu) :
    CoreOk { c with mmu := mmu } (mapPage M v p f) := by
  obtain ⟨G, hG⟩ := h.tables
  have hcr3 := (pagingMap_walk hok).cr3
  unfold pagingMap at hok
  rw [h.cr3] at hok
  have htables := pagingMapAt_spec hG hargs hok hclean
  refine ⟨?_, ?_⟩
  · simpa only [hcr3] using htables
  · unfold mapPage
    cases hpage : M (pageNo v) with
    | some e => exact h.coherent
    | none => exact h.coherent.insert hpage _

theorem maps {flags : Word} : ∀ {n : ℕ} {c : Core} {M : PageMap} {v p : Word} {mmu : Mmu},
    CoreOk c M → (∀ q ∈ pageReqs v p flags n, MapArgs q.p q.flags) →
    pagingMaps c.mmu v p flags n = .ok mmu → CleanTables mmu →
    CoreOk { c with mmu := mmu } (mapAll M (pageReqs v p flags n)) := by
  intro n
  induction n with
  | zero =>
      intro c M v p mmu h _ hok _
      cases hok
      exact h
  | succ n ih =>
      intro c M v p mmu h hargs hok hclean
      obtain ⟨mmu₁, hmap, hrest⟩ := Res.bind_eq_ok.mp hok
      have h₁ := h.map (hargs _ List.mem_cons_self) hmap
        (hclean.of_suffix (pagingMaps_history hrest))
      exact ih (c := { c with mmu := mmu₁ }) h₁ (fun q hq => hargs q (List.mem_cons_of_mem _ hq)) hrest
        hclean

/-- `__paging_unmap` takes the page out of the tables. -/
theorem unmapTables (h : CoreOk c M) {v : Word}
    (hok : __pagingUnmap c.mmu (pagingCr3 c.mmu) v = .ok mmu) :
    ∃ G, PageTables mmu mmu.cr3 G (unmapPage M v) := by
  obtain ⟨G, hG⟩ := h.tables
  have hcr3 := (pagingUnmapAt_walk hok).cr3
  rw [h.cr3] at hok
  -- a call that returns has found the table of the page
  have hlevels : tableWalk c.mmu.phys v 3 c.mmu.cr3 ≠ none := by
    intro hmissing
    rw [pagingUnmapAt_missing hG.tree.root_ne hmissing] at hok
    cases hok
  obtain ⟨mmu', hspec, htables⟩ := pagingUnmapAt_spec hG hlevels
  cases hok.symm.trans hspec
  rw [hcr3]
  exact ⟨G, htables⟩

/-- **`paging_unmap`** takes the page out of the tables and out of what was kept. -/
theorem unmap (h : CoreOk c M) {v : Word} (hv : Canonical v) (hok : pagingUnmap c v = .ok c') :
    CoreOk c' (unmapPage M v) := by
  obtain ⟨mmu, hunmap, hok⟩ := Res.bind_eq_ok.mp hok
  cases hok
  unfold Core.invlpg
  rw [if_pos hv]
  exact ⟨h.unmapTables hunmap, h.coherent.delete _⟩

theorem unmaps : ∀ {n : ℕ} {c c' : Core} {M : PageMap} {v : Word}, CoreOk c M →
    (∀ i < n, Canonical (pageAt v i)) → pagingUnmaps c v n = .ok c' → CoreOk c' (unmapAll M v n) := by
  intro n
  induction n with
  | zero =>
      intro c c' M v h _ hok
      cases hok
      exact h
  | succ n ih =>
      intro c c' M v h hv hok
      obtain ⟨c₁, hunmap, hrest⟩ := Res.bind_eq_ok.mp hok
      have hfirst : Canonical v := by simpa [pageAt_zero] using hv 0 (Nat.succ_pos n)
      refine ih (h.unmap hfirst hunmap) ?_ hrest
      intro i hi
      rw [← pageAt_succ]
      exact hv (i + 1) (by omega)

/-- What the processor looks up by itself. -/
theorem fill (h : CoreOk c M) (v : Word) : CoreOk (c.fill v) M := by
  unfold Core.fill
  split
  · exact h
  · rename_i e he
    rw [h.translate_eq] at he
    exact ⟨h.tables, h.coherent.fill he⟩

/-- **One event.** -/
theorem step (h : CoreOk c M) {op : CoreOp} (hop : op.Ok) {seen : List (Option Word)}
    (hok : c.step op = .ok (c', seen)) (hclean : CleanTables c'.mmu) :
    CoreOk c' (op.apply M) ∧ seen = op.sees M := by
  cases op with
  | map vaddr paddr flags =>
      obtain ⟨mmu, hmap, hok⟩ := Res.bind_eq_ok.mp hok
      cases hok
      exact ⟨h.map hop hmap hclean, rfl⟩
  | maps vaddr paddr num flags =>
      obtain ⟨mmu, hmaps, hok⟩ := Res.bind_eq_ok.mp hok
      cases hok
      exact ⟨h.maps hop hmaps hclean, rfl⟩
  | unmap vaddr =>
      obtain ⟨c₁, hunmap, hok⟩ := Res.bind_eq_ok.mp hok
      cases hok
      exact ⟨h.unmap hop hunmap, rfl⟩
  | unmaps vaddr num =>
      obtain ⟨c₁, hunmaps, hok⟩ := Res.bind_eq_ok.mp hok
      cases hok
      exact ⟨h.unmaps hop hunmaps, rfl⟩
  | fill v =>
      cases hok
      exact ⟨h.fill v, rfl⟩
  | evict page =>
      cases hok
      exact ⟨⟨h.tables, h.coherent.evict page⟩, rfl⟩
  | access v =>
      cases hok
      refine ⟨h, ?_⟩
      rw [h.access]
      rfl

/-- **Every run.** -/
theorem run : ∀ {ops : List CoreOp} {c c' : Core} {M : PageMap} {seen : List (Option Word)},
    CoreOk c M → (∀ op ∈ ops, op.Ok) → c.run ops = .ok (c', seen) → CleanTables c'.mmu →
    CoreOk c' (spaceAfter M ops) ∧ seen = spaceSees M ops := by
  intro ops
  induction ops with
  | nil =>
      intro c c' M seen h _ hok _
      cases hok
      exact ⟨h, rfl⟩
  | cons op ops ih =>
      intro c c' M seen h hops hok hclean
      rw [List.forall_mem_cons] at hops
      obtain ⟨⟨c₁, seen₁⟩, hstep, hok⟩ := Res.bind_eq_ok.mp hok
      obtain ⟨⟨c₂, seen₂⟩, hrest, hok⟩ := Res.bind_eq_ok.mp hok
      cases hok
      obtain ⟨h₁, hseen₁⟩ := h.step hops.1 hstep (hclean.of_suffix (Core.run_history hrest))
      obtain ⟨h₂, hseen₂⟩ := ih h₁ hops.2 hrest hclean
      refine ⟨h₂, ?_⟩
      rw [hseen₁, hseen₂]
      rfl

end CoreOk

end Cerberos
