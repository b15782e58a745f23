/-
# Cerberos.Mm.PagingFrames — what mapping a page does to the frame allocator.

The walk of `__paging_map` creates missing tables, each in a frame of its own; nothing else in
`paging.c` reaches the frame allocator on the way to a mapping. So a mapping is, for the allocator, a
run of single-frame allocations (`FrameSteps`), and it never touches `cr3`.
-/
import Cerberos.Mm.Paging
import Cerberos.Mm.PmmSpec

namespace Cerberos

open Cerberos.Base

/-! ## Field edits leave the allocator alone -/

section Simp

variable (s : Mmu) (a v : Word) (msg : LogMsg)

@[simp] theorem Mmu.say_pmm : (s.say msg).pmm = s.pmm := rfl
@[simp] theorem Mmu.say_cr3 : (s.say msg).cr3 = s.cr3 := rfl
@[simp] theorem Mmu.say_phys : (s.say msg).phys = s.phys := rfl
@[simp] theorem Mmu.say_created : (s.say msg).created = s.created := rfl
@[simp] theorem Mmu.setEntry_pmm : (s.setEntry a v).pmm = s.pmm := rfl
@[simp] theorem Mmu.setEntry_cr3 : (s.setEntry a v).cr3 = s.cr3 := rfl
@[simp] theorem Mmu.setEntry_created : (s.setEntry a v).created = s.created := rfl

end Simp

/-- `s'` has the tables and frames of `s` but other entries or log lines. -/
structure SameFrames (s s' : Mmu) : Prop where
  pmm : s'.pmm = s.pmm
  cr3 : s'.cr3 = s.cr3
  created : s'.created = s.created

theorem SameFrames.trans {s s' s'' : Mmu} (h : SameFrames s s') (h' : SameFrames s' s'') :
    SameFrames s s'' := ⟨h'.pmm.trans h.pmm, h'.cr3.trans h.cr3, h'.created.trans h.created⟩

theorem pagingSetFlags_same (s : Mmu) (pentry flags : Word) :
    SameFrames s (pagingSetFlags s pentry flags) := by
  unfold pagingSetFlags
  split <;> exact ⟨rfl, rfl, rfl⟩

theorem pagingCheckFlags_same (s : Mmu) (pentry flags : Word) :
    SameFrames s (pagingCheckFlags s pentry flags).2 := by
  unfold pagingCheckFlags
  split <;> exact ⟨rfl, rfl, rfl⟩

theorem pagingSetPaddr_same (s : Mmu) (pentry paddr : Word) :
    SameFrames s (pagingSetPaddr s pentry paddr) := by
  unfold pagingSetPaddr
  split
  rename_i heq
  split at heq <;> cases heq <;> exact ⟨rfl, rfl, rfl⟩

theorem pagingAlign_same (s : Mmu) (warn : String) (addr : Word) :
    SameFrames s (pagingAlign s warn addr).1 := by
  unfold pagingAlign
  split <;> exact ⟨rfl, rfl, rfl⟩

/-! ## The walk -/

/-- `s'` comes from `s` by single-frame allocations and by edits of entries. -/
structure WalkSteps (s s' : Mmu) : Prop where
  frames : FrameSteps s.pmm s'.pmm
  cr3 : s'.cr3 = s.cr3
  history : s.created <:+ s'.created
  fresh : ∀ f ∈ s'.created, f ∈ s.created ∨
    ∃ p p', FrameSteps s.pmm p ∧ pmmAlloc p .normal 1 = .ok (f.frame, p')

theorem WalkSteps.refl (s : Mmu) : WalkSteps s s :=
  ⟨FrameSteps.refl _, rfl, List.suffix_refl _, fun _ hf => Or.inl hf⟩

theorem WalkSteps.trans {s s' s'' : Mmu} (h : WalkSteps s s') (h' : WalkSteps s' s'') :
    WalkSteps s s'' := by
  refine ⟨h.frames.trans h'.frames, h'.cr3.trans h.cr3, h.history.trans h'.history, ?_⟩
  intro f hf
  rcases h'.fresh f hf with hf | ⟨p, p', hsteps, halloc⟩
  · exact h.fresh f hf
  · exact Or.inr ⟨p, p', h.frames.trans hsteps, halloc⟩

theorem SameFrames.walk {s s' : Mmu} (h : SameFrames s s') : WalkSteps s s' := by
  refine ⟨?_, h.cr3, ?_, ?_⟩
  · rw [h.pmm]
    exact FrameSteps.refl s.pmm
  · rw [h.created]
  · rw [h.created]
    exact fun _ hf => Or.inl hf

theorem WalkSteps.say (s : Mmu) (msg : LogMsg) : WalkSteps s (s.say msg) :=
  SameFrames.walk ⟨rfl, rfl, rfl⟩

theorem pagingCreate_walk {s s' : Mmu} {ptable : Word} (h : pagingCreate s = .ok (ptable, s')) :
    WalkSteps s s' := by
  obtain ⟨⟨frame, pmm⟩, hal, h⟩ := Res.bind_eq_ok.mp h
  injection h with h
  injection h with _ h
  subst h
  refine ⟨FrameSteps.single hal, rfl, List.suffix_cons _ _, ?_⟩
  intro f hf
  rcases List.mem_cons.mp hf with rfl | hf
  · exact Or.inr ⟨_, _, FrameSteps.refl _, hal⟩
  · exact Or.inl hf

theorem pagingWalkLoop_walk {vaddr : Word} {level : ℕ} {create : Bool} :
    ∀ {i : ℕ} {s s' : Mmu} {table pentry : Word},
      pagingWalkLoop vaddr level create i s table = .ok (pentry, s') → WalkSteps s s' := by
  intro i
  induction i with
  | zero =>
      intro s s' table pentry h
      unfold pagingWalkLoop at h
      split at h
      · cases h
        exact WalkSteps.refl s
      · cases h
        exact WalkSteps.say s _
  | succ i ih =>
      intro s s' table pentry h
      unfold pagingWalkLoop at h
      split at h
      · cases h
        exact WalkSteps.say s _
      · split at h
        · cases h
          exact WalkSteps.refl s
        · dsimp only at h
          have hcheck := pagingCheckFlags_same s (pagingEntryPtr table vaddr (i + 1)) pagePresent
          generalize pagingCheckFlags s (pagingEntryPtr table vaddr (i + 1)) pagePresent = c at *
          obtain ⟨present, s₁⟩ := c
          dsimp only at h hcheck
          split at h
          · exact hcheck.walk.trans (ih h)
          · split at h
            · obtain ⟨⟨child, s₂⟩, hcreate, h⟩ := Res.bind_eq_ok.mp h
              have h₂ := pagingCreate_walk hcreate
              have h₃ := (pagingSetPaddr_same s₂ (pagingEntryPtr table vaddr (i + 1)) child).walk
              have h₄ := (pagingSetFlags_same (pagingSetPaddr s₂ (pagingEntryPtr table vaddr (i + 1))
                child) (pagingEntryPtr table vaddr (i + 1)) pagePresent).walk
              exact hcheck.walk.trans (h₂.trans (h₃.trans (h₄.trans (ih h))))
            · cases h
              exact hcheck.walk.trans (WalkSteps.say _ _)

theorem pagingWalk_walk {s s' : Mmu} {pml4Table vaddr pentry : Word} {level : ℕ} {create : Bool}
    (h : pagingWalk s pml4Table vaddr level create = .ok (pentry, s')) : WalkSteps s s' := by
  unfold pagingWalk at h
  split at h
  · cases h
    exact WalkSteps.say s _
  · exact (pagingAlign_same s _ vaddr).walk.trans (pagingWalkLoop_walk h)

/-- **A mapping takes single frames** and leaves `cr3` alone. -/
theorem pagingMapAt_walk {s s' : Mmu} {pml4Table vaddr paddr flags : Word}
    (h : __pagingMap s pml4Table vaddr paddr flags = .ok s') : WalkSteps s s' := by
  unfold __pagingMap at h
  split at h
  · cases h
    exact WalkSteps.say s _
  · dsimp only at h
    obtain ⟨⟨pentry, s₁⟩, hwalk, h⟩ := Res.bind_eq_ok.mp h
    have h₁ := (pagingAlign_same s "[__paging_map] vaddr is not 4 KiB aligned, vaddr: %lx\n"
      vaddr).walk
    have h₂ := (pagingAlign_same (pagingAlign s
      "[__paging_map] vaddr is not 4 KiB aligned, vaddr: %lx\n" vaddr).1
      "[__paging_map] paddr is not 4 KiB aligned, paddr: %lx\n" paddr).walk
    have h₃ := h₁.trans (h₂.trans (pagingWalk_walk hwalk))
    dsimp only at h
    split at h
    · cases h
    · have hcheck := (pagingCheckFlags_same s₁ pentry pagePresent).walk
      generalize pagingCheckFlags s₁ pentry pagePresent = c at *
      obtain ⟨present, s₂⟩ := c
      dsimp only at h hcheck
      split at h
      · cases h
        exact h₃.trans (hcheck.trans (WalkSteps.say _ _))
      · cases h
        exact h₃.trans (hcheck.trans ((pagingSetFlags_same s₂ pentry flags).walk.trans
          (pagingSetPaddr_same _ pentry _).walk))

theorem pagingMap_walk {s s' : Mmu} {vaddr paddr flags : Word}
    (h : pagingMap s vaddr paddr flags = .ok s') : WalkSteps s s' := pagingMapAt_walk h

/-! ## Mapping comes to an end -/

theorem pagingCreate_ends (s : Mmu) : (pagingCreate s).Ends :=
  (pmmAlloc_ends s.pmm .normal 1).bind fun _ _ => Res.ends_ok _

theorem pagingWalkLoop_ends {vaddr : Word} {level : ℕ} {create : Bool} :
    ∀ (i : ℕ) (s : Mmu) (table : Word), (pagingWalkLoop vaddr level create i s table).Ends := by
  intro i
  induction i with
  | zero =>
      intro s table
      unfold pagingWalkLoop
      split <;> exact Res.ends_ok _
  | succ i ih =>
      intro s table
      unfold pagingWalkLoop
      split
      · exact Res.ends_ok _
      · split
        · exact Res.ends_ok _
        · dsimp only
          split
          · exact ih _ _
          · split
            · exact (pagingCreate_ends _).bind fun _ _ => ih _ _
            · exact Res.ends_ok _

theorem pagingMap_ends (s : Mmu) (vaddr paddr flags : Word) :
    (pagingMap s vaddr paddr flags).Ends := by
  unfold pagingMap __pagingMap
  split
  · exact Res.ends_ok _
  · dsimp only
    apply Res.Ends.bind
    · unfold pagingWalk
      split
      · exact Res.ends_ok _
      · exact pagingWalkLoop_ends _ _ _
    · intro a _
      split
      · intro h
        cases h
      · split <;> exact Res.ends_ok _

end Cerberos
