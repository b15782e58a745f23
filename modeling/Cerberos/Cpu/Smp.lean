/-
# Cerberos.Cpu.Smp — the stacks of the application processors (`cpu/smp.c`).

`smp_init` gives every processor but the boot processor a page frame and stores the ADDRESS of the frame
as its initial stack pointer. A stack grows downwards, so the processor pushes into the page below its
frame, which belongs to somebody else.
-/
import Cerberos.Mm.PmmRuns

namespace Cerberos

open Cerberos.Base

/-! ## The model -/

/-- `struct stivale2_smp_info`, the fields `smp_init` uses. -/
structure SmpInfo where
  lapicId : BitVec 32
  targetStack : Word
  gotoAddress : Word
  deriving DecidableEq, Repr

/-- `struct stivale2_struct_tag_smp`. -/
structure SmpTag where
  bspLapicId : BitVec 32
  smpInfo : List SmpInfo
  deriving DecidableEq, Repr

/-- The loop of `smp_init`; each processor comes with the frame `pmm_alloc` returned for it. -/
def smpLoop (apEntry : Word) (bsp : BitVec 32) :
    Pmm → List SmpInfo → Res (Pmm × List (SmpInfo × Option Word))
  | p, [] => .ok (p, [])
  | p, proc :: rest =>
    if proc.lapicId ≠ bsp then do
      let (frame, p) ← pmmAlloc p .normal 1
      let (p, rest) ← smpLoop apEntry bsp p rest
      .ok (p, ({ proc with targetStack := frame, gotoAddress := apEntry }, some frame) :: rest)
    else do
      let (p, rest) ← smpLoop apEntry bsp p rest
      .ok (p, (proc, none) :: rest)

/-- `smp_init(handover)`, from the SMP tag; `apEntry` is `&smp_ap_entry`. -/
def smpInit (apEntry : Word) (p : Pmm) (tag : Option SmpTag) :
    Res (Pmm × List (SmpInfo × Option Word)) :=
  match tag with
  | none => .error (.panic "[smp_init] smp struct from bootloader could not be found\n" [])
  | some tag => smpLoop apEntry tag.bspLapicId p tag.smpInfo

/-! ## Stacks -/

/-- The page the processor pushes into first, `[target_stack - PAGE_SIZE, target_stack)`, is the frame
at `frame`. -/
def SmpInfo.PushesInto (proc : SmpInfo) (frame : Word) : Prop :=
  proc.targetStack.toNat = frame.toNat + 4096

/-- Every processor but the boot processor has a stack page of its own: a frame that was allocated for
it, not the page of another processor, and in no other live range. -/
structure StacksOwned (bsp : BitVec 32) (live : List Frames) (procs : List (SmpInfo × Option Word)) :
    Prop where
  own : ∀ q ∈ procs, q.1.lapicId ≠ bsp → ∃ frame, q.2 = some frame ∧ q.1.PushesInto frame
  distinct : procs.Pairwise fun q q' => q.1.lapicId ≠ bsp → q'.1.lapicId ≠ bsp →
    q.1.targetStack ≠ q'.1.targetStack
  apart : ∀ q ∈ procs, q.1.lapicId ≠ bsp → ∀ r ∈ live, q.2 ≠ some r.addr →
    ¬ r.Has (q.1.targetStack.toNat / 4096 - 1)

/-- The frames the processors were given, as live ranges. -/
def smpFrames (procs : List (SmpInfo × Option Word)) : List Frames :=
  ((procs.filterMap Prod.snd).map fun frame => ⟨.normal, frame, 1⟩).reverse

theorem smpFrames_cons_some (proc : SmpInfo) (frame : Word) (procs : List (SmpInfo × Option Word)) :
    smpFrames ((proc, some frame) :: procs) = smpFrames procs ++ [⟨.normal, frame, 1⟩] := by
  unfold smpFrames
  have hcons : List.filterMap Prod.snd ((proc, some frame) :: procs) =
      frame :: procs.filterMap Prod.snd := rfl
  rw [hcons, List.map_cons, List.reverse_cons]

theorem smpFrames_cons_none (proc : SmpInfo) (procs : List (SmpInfo × Option Word)) :
    smpFrames ((proc, none) :: procs) = smpFrames procs := rfl

/-- **What the loop does**: it allocates one frame for each application processor and stores its
address. -/
theorem smpLoop_spec {memmap : List MmapEntry} {apEntry : Word} {bsp : BitVec 32} :
    ∀ {infos : List SmpInfo} {p p' : Pmm} {live : List Frames} {procs : List (SmpInfo × Option Word)},
      PmmRun memmap p live → smpLoop apEntry bsp p infos = .ok (p', procs) →
      PmmRun memmap p' (smpFrames procs ++ live) ∧
      procs.map (fun q => q.1.lapicId) = infos.map (fun i => i.lapicId) ∧
      ∀ q ∈ procs, q.1.lapicId ≠ bsp → q.2 = some q.1.targetStack := by
  intro infos
  induction infos with
  | nil =>
      intro p p' live procs hrun hok
      cases hok
      exact ⟨hrun, rfl, by simp⟩
  | cons proc rest ih =>
      intro p p' live procs hrun hok
      unfold smpLoop at hok
      by_cases hap : proc.lapicId ≠ bsp
      · rw [if_pos hap] at hok
        obtain ⟨⟨frame, p₁⟩, halloc, hok⟩ := Res.bind_eq_ok.mp hok
        obtain ⟨⟨p₂, procs₂⟩, hloop, hok⟩ := Res.bind_eq_ok.mp hok
        cases hok
        obtain ⟨hrun₂, hids, hstacks⟩ := ih (.alloc hrun (by decide) halloc) hloop
        refine ⟨?_, ?_, ?_⟩
        · rw [smpFrames_cons_some, List.append_assoc]
          exact hrun₂
        · rw [List.map_cons, List.map_cons, hids]
        · rw [List.forall_mem_cons]
          exact ⟨fun _ => rfl, hstacks⟩
      · rw [if_neg hap] at hok
        obtain ⟨⟨p₂, procs₂⟩, hloop, hok⟩ := Res.bind_eq_ok.mp hok
        cases hok
        obtain ⟨hrun₂, hids, hstacks⟩ := ih hrun hloop
        refine ⟨?_, ?_, ?_⟩
        · rw [smpFrames_cons_none]
          exact hrun₂
        · rw [List.map_cons, List.map_cons, hids]
        · rw [List.forall_mem_cons]
          exact ⟨fun hne => absurd hne hap, hstacks⟩

/-- A stack pointer that is the address of its own frame points to the end of no frame. -/
theorem not_stacksOwned {bsp : BitVec 32} {live : List Frames} {procs : List (SmpInfo × Option Word)}
    (hstacks : ∀ q ∈ procs, q.1.lapicId ≠ bsp → q.2 = some q.1.targetStack)
    {q : SmpInfo × Option Word} (hq : q ∈ procs) (hap : q.1.lapicId ≠ bsp) :
    ¬ StacksOwned bsp live procs := by
  intro howned
  obtain ⟨frame, hframe, hpush⟩ := howned.own q hq hap
  rw [hstacks q hq hap] at hframe
  cases hframe
  unfold SmpInfo.PushesInto at hpush
  omega

/-- **Application processors have a stack of their own exactly when there are none.** After `smp_init`
from any state of the frame allocator the frames of the processors are live; the pages they push into
are these frames only if every processor is the boot processor. -/
theorem smpInit_stacks_iff {memmap : List MmapEntry} {p p' : Pmm} {live : List Frames}
    (hrun : PmmRun memmap p live) {apEntry : Word} {tag : SmpTag}
    {procs : List (SmpInfo × Option Word)} (hok : smpInit apEntry p (some tag) = .ok (p', procs)) :
    PmmRun memmap p' (smpFrames procs ++ live) ∧
    (StacksOwned tag.bspLapicId (smpFrames procs ++ live) procs ↔
      ∀ info ∈ tag.smpInfo, info.lapicId = tag.bspLapicId) := by
  obtain ⟨hrun', hids, hstacks⟩ := smpLoop_spec hrun hok
  refine ⟨hrun', ?_, ?_⟩
  · intro howned info hinfo
    by_contra hap
    have hmem : info.lapicId ∈ procs.map fun q => q.1.lapicId := by
      rw [hids]
      exact List.mem_map.mpr ⟨info, hinfo, rfl⟩
    obtain ⟨q, hq, hid⟩ := List.mem_map.mp hmem
    exact not_stacksOwned hstacks hq (hid ▸ hap) howned
  · intro hbsp
    have hall : ∀ q ∈ procs, q.1.lapicId = tag.bspLapicId := by
      intro q hq
      have hmem : q.1.lapicId ∈ tag.smpInfo.map fun i => i.lapicId := by
        rw [← hids]
        exact List.mem_map.mpr ⟨q, hq, rfl⟩
      obtain ⟨info, hinfo, hid⟩ := List.mem_map.mp hmem
      rw [← hid]
      exact hbsp info hinfo
    constructor
    case own => exact fun q hq hap => absurd (hall q hq) hap
    case distinct =>
      refine List.Pairwise.imp_of_mem ?_ (List.pairwise_of_forall fun _ _ => trivial)
      exact fun hq _ _ hap => absurd (hall _ hq) hap
    case apart => exact fun q hq hap => absurd (hall q hq) hap

/-- A machine with one processor. -/
theorem smpInit_stacks_single : ∃ p p' procs, PmmRun borderMap p [] ∧
    smpInit 0x100000 p (some ⟨0, [⟨0, 0, 0⟩]⟩) = .ok (p', procs) ∧
    StacksOwned 0 (smpFrames procs ++ []) procs := by
  obtain ⟨p, hok⟩ := Res.exists_of_isOk (x := pmmInit (Pmm.static (fun _ => 0) 0x2000)
    ⟨some borderMap, none, none, none⟩) (by decide +kernel)
  have hrun : PmmRun borderMap p [] :=
    .init rfl borderMap_ok rfl (by decide) ⟨by decide, by decide⟩ hok
  have hsmp : smpInit 0x100000 p (some ⟨0, [⟨0, 0, 0⟩]⟩) = .ok (p, [(⟨0, 0, 0⟩, none)]) := rfl
  exact ⟨p, p, _, hrun, hsmp, (smpInit_stacks_iff hrun hsmp).2.mpr (by simp)⟩

/-- With a second processor its frame is at 16 MiB and its stack in the page below. -/
theorem smpInit_stacks_two : ∃ p p' procs, PmmRun borderMap p [] ∧
    smpInit 0x100000 p (some ⟨0, [⟨0, 0, 0⟩, ⟨1, 0, 0⟩]⟩) = .ok (p', procs) ∧
    procs = [(⟨0, 0, 0⟩, none), (⟨1, 0x1000000, 0x100000⟩, some 0x1000000)] ∧
    ¬ StacksOwned 0 (smpFrames procs ++ []) procs := by
  have hok : (do
      let p ← pmmInit (Pmm.static (fun _ => 0) 0x2000) ⟨some borderMap, none, none, none⟩
      let (_, procs) ← smpInit 0x100000 p (some ⟨0, [⟨0, 0, 0⟩, ⟨1, 0, 0⟩]⟩)
      if procs = [(⟨0, 0, 0⟩, none), (⟨1, 0x1000000, 0x100000⟩, some 0x1000000)] then .ok ()
      else .error .fault : Res Unit).isOk = true := by
    decide +kernel
  obtain ⟨⟨⟩, hcall⟩ := Res.exists_of_isOk hok
  obtain ⟨p, hinit, hcall⟩ := Res.bind_eq_ok.mp hcall
  obtain ⟨⟨p', procs⟩, hsmp, hcall⟩ := Res.bind_eq_ok.mp hcall
  have hrun : PmmRun borderMap p [] :=
    .init rfl borderMap_ok rfl (by decide) ⟨by decide, by decide⟩ hinit
  dsimp only at hcall
  have hprocs := Res.of_check hcall
  refine ⟨p, p', procs, hrun, hsmp, hprocs, ?_⟩
  have hstacks := (smpLoop_spec hrun hsmp).2.2
  rw [hprocs] at hstacks ⊢
  exact not_stacksOwned hstacks (List.mem_cons_of_mem _ List.mem_cons_self) (by decide)

end Cerberos
