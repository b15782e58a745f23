/-
# Cerberos.Intr.PicHandlers — handlers that end the interrupt they were called for (`intr/pic.c`).

`pic_eoi` tells the master AND the slave that an interrupt is over, whatever line it was: its test for the
lines of the slave, an `or` of two comparisons, lets every line through. A handler of a master line that
interrupts the handler of a slave line therefore ends the slave's interrupt with its own, while that
handler still runs. It does no harm: the slave asks through line 2 of the master, and there the
interrupted handler is still in service.

So with handlers that nest and each end their own interrupt the pair of controllers is a scheduler with
fixed priorities, the slave's lines between lines 1 and 3 of the master, and `picOrder` is all there is to
know about it.
-/
import Cerberos.Intr.Pic

namespace Cerberos

open Cerberos.Base

/-! ## Runs with handlers -/

/-- The line of the master that line `i` of the sixteen comes in on. -/
def masterLine (i : ℕ) : ℕ := if i < 8 then i else 2

/-- Not the end of an interrupt, and not its beginning. -/
def PicEvent.Between : PicEvent → Prop
  | .eoi _ => False
  | .acknowledge => False
  | _ => True

/-- The controllers from `pic_init` on, the lines enabled, and the lines whose handlers run, the innermost
first: a handler starts when its vector is delivered and ends with `pic_eoi` of its own line. -/
inductive HandlerRun : Pics → (ℕ → Bool) → List ℕ → Prop
  | init (s₀ : Pics) : HandlerRun (picInit s₀) (fun i => decide (i = 2)) []
  | call {s : Pics} {enabled : ℕ → Bool} {running : List ℕ} {e : PicEvent} :
      HandlerRun s enabled running → e.Between → HandlerRun (s.step e) (e.apply enabled) running
  | enter {s : Pics} {enabled : ℕ → Bool} {running : List ℕ} {i : ℕ} :
      HandlerRun s enabled running → s.line = some i → HandlerRun s.acknowledge.1 enabled (i :: running)
  | leave {s : Pics} {enabled : ℕ → Bool} {running : List ℕ} {i : ℕ} :
      HandlerRun s enabled (i :: running) → HandlerRun (picEoi s (BitVec.ofNat 8 i)) enabled running

/-- The sixteen lines but line 2, the most urgent first. -/
def picOrder : List ℕ := [0, 1] ++ ((List.range 8).map (8 + ·) ++ [3, 4, 5, 6, 7])

/-- Line `i` may interrupt the handlers that run. -/
def Pics.mayEnter (s : Pics) (enabled : ℕ → Bool) (running : List ℕ) (i : ℕ) : Bool :=
  s.requested i && enabled i && (decide (i < 8) || enabled 2) &&
    running.all fun j => decide (masterLine i < masterLine j)

/-! ## The registers -/

/-- The master has in service what the handlers run for, nested by priority; the slave has nothing in
service that no handler runs for. -/
structure HandlersFor (enabled : ℕ → Bool) (s : Pics) (running : List ℕ) : Prop where
  pics : PicsFor enabled s
  masterManual : s.master.icw4.getLsbD 1 = false
  slaveManual : s.slave.icw4.getLsbD 1 = false
  lines : ∀ i ∈ running, i < 16 ∧ i ≠ 2
  nested : running.Pairwise fun i j => masterLine i < masterLine j
  master : ∀ j < 8, s.master.isr.getLsbD j = true ↔ ∃ i ∈ running, masterLine i = j
  slave : ∀ j < 8, s.slave.isr.getLsbD j = true → 8 + j ∈ running

theorem masterLine_lt (i : ℕ) : masterLine i < 8 := by
  unfold masterLine
  split <;> omega

theorem masterLine_slave (k : ℕ) : masterLine (8 + k) = 2 := if_neg (by omega)

/-- What may interrupt on a controller. -/
theorem Chip.ready_iff (c : Chip) (i : ℕ) : c.ready i = true ↔
    c.irr.getLsbD i = true ∧ c.imr.getLsbD i = false ∧ ∀ j ≤ i, c.isr.getLsbD j = false := by
  simp [Chip.ready, and_assoc]

/-- The bit that the end of an interrupt clears is the lowest. -/
theorem getLsbD_clear_lowest : ∀ (x : Byte) (j : Fin 8),
    (x &&& (x - 1)).getLsbD j = (x.getLsbD j && (List.range j).any x.getLsbD) := by
  decide +kernel

section Handlers

variable {enabled : ℕ → Bool} {s : Pics} {running : List ℕ}

/-- The handlers that run came in on different lines of the master. -/
theorem HandlersFor.eq_of_masterLine (h : HandlersFor enabled s running) {i j : ℕ} (hi : i ∈ running)
    (hj : j ∈ running) (heq : masterLine i = masterLine j) : i = j := by
  have hnodup : (running.map masterLine).Nodup :=
    List.pairwise_map.mpr (h.nested.imp fun hlt => Nat.ne_of_lt hlt)
  exact List.inj_on_of_nodup_map hnodup hi hj heq

/-- Nothing in service up to line `m` of the master, as the handlers see it. -/
theorem HandlersFor.free_iff (h : HandlersFor enabled s running) {m : ℕ} (hm : m < 8) :
    (∀ j ≤ m, s.master.isr.getLsbD j = false) ↔ ∀ r ∈ running, m < masterLine r := by
  constructor
  · intro hfree r hr
    by_contra hle
    have hin := (h.master (masterLine r) (masterLine_lt r)).mpr ⟨r, hr, rfl⟩
    rw [hfree _ (Nat.le_of_not_lt hle)] at hin
    cases hin
  · intro habove j hj
    by_contra hne
    obtain ⟨r, hr, rfl⟩ := (h.master j (by omega)).mp (Bool.eq_true_of_not_eq_false hne)
    exact absurd (habove r hr) (by omega)

/-- While no handler of a slave line runs, the slave has nothing in service. -/
theorem HandlersFor.slave_free (h : HandlersFor enabled s running)
    (hfree : ∀ r ∈ running, 2 < masterLine r) {j : ℕ} (hj : j < 8) : s.slave.isr.getLsbD j = false := by
  by_contra hne
  have hlt := hfree _ (h.slave j hj (Bool.eq_true_of_not_eq_false hne))
  rw [masterLine_slave] at hlt
  omega

/-! ## What is delivered -/

/-- A line of the master but line 2. -/
theorem HandlersFor.ready_master (h : HandlersFor enabled s running) {i : ℕ} (hi : i < 8) (hi2 : i ≠ 2) :
    s.wired.ready i = s.mayEnter enabled running i := by
  have hmask := h.pics.masterMask i hi
  have hline : masterLine i = i := if_pos hi
  rw [Bool.eq_iff_iff, Chip.ready_iff, s.wired_irr hi2, show s.wired.imr = s.master.imr from rfl,
    show s.wired.isr = s.master.isr from rfl, hmask, h.free_iff hi]
  simp [Pics.mayEnter, Pics.requested, hi, hline, and_assoc]

/-- Line 2 of the master. -/
theorem HandlersFor.ready_two (h : HandlersFor enabled s running) : s.wired.ready 2 = true ↔
    s.slave.request.isSome = true ∧ enabled 2 = true ∧ ∀ r ∈ running, 2 < masterLine r := by
  rw [Chip.ready_iff, s.wired_irr_two, show s.wired.imr = s.master.imr from rfl,
    show s.wired.isr = s.master.isr from rfl, h.pics.masterMask 2 (by decide), h.free_iff (by decide)]
  simp

/-- A line of the slave, when line 2 of the master may interrupt. -/
theorem HandlersFor.ready_slave (h : HandlersFor enabled s running) (hen : enabled 2 = true)
    (hfree : ∀ r ∈ running, 2 < masterLine r) {k : ℕ} (hk : k < 8) :
    s.slave.ready k = s.mayEnter enabled running (8 + k) := by
  have hmask := h.pics.slaveMask k hk
  have hnone : (∀ j ≤ k, s.slave.isr.getLsbD j = false) ↔ True :=
    iff_true_intro fun j hj => h.slave_free hfree (by omega)
  have hall : (∀ r ∈ running, 2 < masterLine r) ↔ True := iff_true_intro hfree
  rw [Bool.eq_iff_iff, Chip.ready_iff, hmask, hnone]
  simp [Pics.mayEnter, Pics.requested, masterLine_slave, hen, hall]

/-- A line of the slave, when it may not. -/
theorem Pics.not_mayEnter_slave (s : Pics)
    (hno : ¬ (enabled 2 = true ∧ ∀ r ∈ running, 2 < masterLine r)) (k : ℕ) :
    s.mayEnter enabled running (8 + k) = false := by
  rw [Bool.eq_false_iff]
  intro htrue
  apply hno
  simp only [Pics.mayEnter, masterLine_slave, Bool.and_eq_true, List.all_eq_true, decide_eq_true_eq] at htrue
  refine ⟨?_, htrue.2⟩
  simpa using htrue.1.2

/-- The master looks at its lines in order. -/
theorem HandlersFor.request_eq (h : HandlersFor enabled s running) :
    s.wired.request = (([0, 1].find? (s.mayEnter enabled running)).or
      (if s.wired.ready 2 then some 2 else [3, 4, 5, 6, 7].find? (s.mayEnter enabled running))) := by
  have hlow : [0, 1].find? s.wired.ready = [0, 1].find? (s.mayEnter enabled running) :=
    List.find?_congr fun i hi => h.ready_master (by simp at hi; omega) (by simp at hi; omega)
  have hhigh : [3, 4, 5, 6, 7].find? s.wired.ready = [3, 4, 5, 6, 7].find? (s.mayEnter enabled running) :=
    List.find?_congr fun i hi => h.ready_master (by simp at hi; omega) (by simp at hi; omega)
  unfold Chip.request
  rw [if_pos (show s.wired.phase = .mask from h.pics.masterPhase), ← hlow, ← hhigh,
    show List.range 8 = [0, 1] ++ 2 :: [3, 4, 5, 6, 7] from rfl, List.find?_append]
  congr 1
  cases hready : s.wired.ready 2 with
  | true => exact List.find?_cons_of_pos hready
  | false => exact List.find?_cons_of_neg (by rw [hready]; decide)

/-- What is found in a list of the master's lines is one of them. -/
theorem HandlersFor.line_of_find (h : HandlersFor enabled s running) {l : List ℕ}
    (hl : ∀ i ∈ l, i < 8 ∧ i ≠ 2) (hreq : s.wired.request = l.find? (s.mayEnter enabled running)) :
    s.line = l.find? (s.mayEnter enabled running) := by
  cases hfind : l.find? (s.mayEnter enabled running) with
  | none =>
      rw [hfind] at hreq
      unfold Pics.line
      rw [hreq]
  | some i =>
      obtain ⟨hi, hi2⟩ := hl i (List.mem_of_find?_eq_some hfind)
      exact h.pics.line_master hi hi2 (hreq.trans hfind)

/-- **The pair is a scheduler**: it delivers the most urgent line that may interrupt, and none if none
may. -/
theorem HandlersFor.line_eq (h : HandlersFor enabled s running) :
    s.line = picOrder.find? (s.mayEnter enabled running) := by
  have hreq := h.request_eq
  unfold picOrder
  rw [List.find?_append, List.find?_append, List.find?_map]
  cases hlow : [0, 1].find? (s.mayEnter enabled running) with
  | some i =>
      rw [hlow, Option.some_or] at hreq
      have hi : i = 0 ∨ i = 1 := by simpa using List.mem_of_find?_eq_some hlow
      rw [Option.some_or]
      exact h.pics.line_master (by omega) (by omega) hreq
  | none =>
      rw [hlow, Option.none_or] at hreq
      rw [Option.none_or]
      by_cases hopen : enabled 2 = true ∧ ∀ r ∈ running, 2 < masterLine r
      · -- the slave's own search is the search of its lines
        have hslave : s.slave.request = (List.range 8).find? (s.mayEnter enabled running ∘ (8 + ·)) := by
          unfold Chip.request
          rw [if_pos h.pics.slavePhase]
          exact List.find?_congr fun k hk => h.ready_slave hopen.1 hopen.2 (List.mem_range.mp hk)
        rw [← hslave]
        cases hfound : s.slave.request with
        | none =>
            have htwo : s.wired.ready 2 = false := by
              rw [Bool.eq_false_iff, ne_eq, h.ready_two, hfound]
              simp
            rw [htwo, if_neg Bool.false_ne_true] at hreq
            rw [Option.map_none, Option.none_or]
            exact h.line_of_find (by simp) hreq
        | some k =>
            have htwo : s.wired.ready 2 = true := h.ready_two.mpr ⟨by rw [hfound]; rfl, hopen⟩
            rw [htwo, if_pos rfl] at hreq
            rw [h.pics.line_slave hreq, hfound]
            rfl
      · have htwo : s.wired.ready 2 = false := by
          rw [Bool.eq_false_iff, ne_eq, h.ready_two]
          exact fun hboth => hopen hboth.2
        have hnone : (List.range 8).find? (s.mayEnter enabled running ∘ (8 + ·)) = none := by
          rw [List.find?_eq_none]
          intro k _
          rw [Function.comp_apply, s.not_mayEnter_slave hopen k]
          exact Bool.false_ne_true
        rw [htwo, if_neg Bool.false_ne_true] at hreq
        rw [hnone, Option.map_none, Option.none_or]
        exact h.line_of_find (by simp) hreq

/-! ## What a step keeps -/

/-- A delivered line is more urgent than those whose handlers run. -/
theorem HandlersFor.line_above (h : HandlersFor enabled s running) {i : ℕ} (hline : s.line = some i) :
    i ≠ 2 ∧ ∀ r ∈ running, masterLine i < masterLine r := by
  rw [h.line_eq] at hline
  have hmay := List.find?_some hline
  have hmem := List.mem_of_find?_eq_some hline
  refine ⟨?_, ?_⟩
  · rintro rfl
    exact absurd hmem (by decide)
  · simp only [Pics.mayEnter, Bool.and_eq_true, List.all_eq_true, decide_eq_true_eq] at hmay
    exact hmay.2

/-- Masks do not matter to the handlers. -/
theorem HandlersFor.withMasks {enabled' : ℕ → Bool} (h : HandlersFor enabled s running)
    {master slave : Byte} (hpics : PicsFor enabled' (s.withMasks master slave)) :
    HandlersFor enabled' (s.withMasks master slave) running :=
  ⟨hpics, h.masterManual, h.slaveManual, h.lines, h.nested, h.master, h.slave⟩

/-- Enabling or disabling a line writes a mask. -/
theorem PicsFor.setLine_eq (h : PicsFor enabled s) (irq : Byte) (f : Byte → ℕ → Byte) :
    ∃ master slave, s.ioWait.outbWait (picPort irq).1
      (f (s.inb (picPort irq).1) (picPort irq).2.toNat) = s.withMasks master slave := by
  unfold picPort
  by_cases hlow : irq < 8
  · rw [if_pos hlow]
    exact ⟨_, _, h.outb_master _⟩
  · rw [if_neg hlow]
    exact ⟨_, _, h.outb_slave _⟩

/-- **A call, or a line that is raised.** -/
theorem HandlersFor.call (h : HandlersFor enabled s running) {e : PicEvent} (he : e.Between) :
    HandlersFor (e.apply enabled) (s.step e) running := by
  have hpics := h.pics.step e
  cases e with
  | eoi irq => exact he.elim
  | acknowledge => exact he.elim
  | raise i =>
      unfold Pics.step Pics.raise at hpics ⊢
      by_cases hi : i < 8
      · simp only [hi, if_true] at hpics ⊢
        exact ⟨hpics, h.masterManual, h.slaveManual, h.lines, h.nested, h.master, h.slave⟩
      · simp only [hi, if_false] at hpics ⊢
        exact ⟨hpics, h.masterManual, h.slaveManual, h.lines, h.nested, h.master, h.slave⟩
  | enable irq =>
      unfold Pics.step picEnableIrq at hpics ⊢
      by_cases hirq : irq > 15
      · simp only [hirq, if_true] at hpics ⊢
        exact ⟨hpics, h.masterManual, h.slaveManual, h.lines, h.nested, h.master, h.slave⟩
      · simp only [hirq, if_false] at hpics ⊢
        obtain ⟨master, slave, heq⟩ := h.pics.setLine_eq irq fun mask k => mask &&& ~~~((1 : Byte) <<< k)
        rw [heq] at hpics ⊢
        exact h.withMasks hpics
  | disable irq =>
      unfold Pics.step picDisableIrq at hpics ⊢
      by_cases hirq : irq > 15
      · simp only [hirq, if_true] at hpics ⊢
        exact ⟨hpics, h.masterManual, h.slaveManual, h.lines, h.nested, h.master, h.slave⟩
      · simp only [hirq, if_false] at hpics ⊢
        obtain ⟨master, slave, heq⟩ := h.pics.setLine_eq irq fun mask k => mask ||| ((1 : Byte) <<< k)
        rw [heq] at hpics ⊢
        exact h.withMasks hpics

/-- A line that is taken is in service until it is ended. -/
theorem Chip.take_isr {c : Chip} (hmanual : c.icw4.getLsbD 1 = false) {i : ℕ} (hi : i < 8) (j : ℕ) :
    (c.take i).isr.getLsbD j = true ↔ c.isr.getLsbD j = true ∨ j = i := by
  unfold Chip.take
  rw [hmanual, if_neg Bool.false_ne_true, BitVec.getLsbD_or, BitVec.getLsbD_twoPow,
    decide_eq_true hi, Bool.true_and, Bool.or_eq_true, decide_eq_true_eq, eq_comm (a := i)]

/-- **A handler starts.** -/
theorem HandlersFor.enter (h : HandlersFor enabled s running) {i : ℕ} (hline : s.line = some i) :
    HandlersFor enabled s.acknowledge.1 (i :: running) := by
  have hpics := h.pics.step .acknowledge
  obtain ⟨hi2, habove⟩ := h.line_above hline
  have hi16 := (h.pics.line_spec hline).1
  have hlines : ∀ r ∈ i :: running, r < 16 ∧ r ≠ 2 := List.forall_mem_cons.mpr ⟨⟨hi16, hi2⟩, h.lines⟩
  have hmaster : ∀ j < 8, (s.wired.take (masterLine i)).isr.getLsbD j = true ↔
      ∃ r ∈ i :: running, masterLine r = j := by
    intro j hj
    rw [Chip.take_isr (c := s.wired) h.masterManual (masterLine_lt i),
      show s.wired.isr = s.master.isr from rfl, h.master j hj, List.exists_mem_cons_iff, or_comm,
      eq_comm (a := j)]
  unfold Pics.step Pics.acknowledge at hpics
  unfold Pics.acknowledge
  rw [hline] at hpics ⊢
  dsimp only at hpics ⊢
  by_cases hi : i < 8
  · have hown : masterLine i = i := if_pos hi
    rw [hown] at hmaster
    rw [if_pos hi] at hpics ⊢
    exact ⟨hpics, h.masterManual, h.slaveManual, hlines, List.pairwise_cons.mpr ⟨habove, h.nested⟩,
      hmaster, fun j hj hin => List.mem_cons_of_mem _ (h.slave j hj hin)⟩
  · have htwo : masterLine i = 2 := if_neg hi
    rw [htwo] at hmaster
    rw [if_neg hi] at hpics ⊢
    refine ⟨hpics, h.masterManual, h.slaveManual, hlines, List.pairwise_cons.mpr ⟨habove, h.nested⟩,
      hmaster, ?_⟩
    intro j hj hin
    rcases (Chip.take_isr h.slaveManual (show i - 8 < 8 by omega) j).mp hin with hin | rfl
    · exact List.mem_cons_of_mem _ (h.slave j hj hin)
    · rw [show 8 + (i - 8) = i by omega]
      exact List.mem_cons_self

/-- `pic_eoi` ends the most urgent interrupt in service on BOTH controllers. -/
theorem picEoi_eq (s : Pics) {irq : Byte} (hirq : irq ≤ 15) : picEoi s irq =
    ⟨{ s.master with isr := s.master.isr &&& (s.master.isr - 1) },
      { s.slave with isr := s.slave.isr &&& (s.slave.isr - 1) }⟩ := by
  unfold picEoi
  rw [if_neg (BitVec.not_lt.mpr hirq)]
  dsimp only
  rw [if_pos (Or.inr hirq)]
  rfl

/-- **A handler ends.** The most urgent line in service on the master is its own. On the slave there is
one line in service at most, its own or that of the handler it interrupted; in either case none is left,
and line 2 of the master stays in service for the handler that goes on. -/
theorem HandlersFor.leave {i : ℕ} (h : HandlersFor enabled s (i :: running)) :
    HandlersFor enabled (picEoi s (BitVec.ofNat 8 i)) running := by
  obtain ⟨hi16, hi2⟩ := h.lines i List.mem_cons_self
  obtain ⟨habove, hnested⟩ := List.pairwise_cons.mp h.nested
  have hirq : BitVec.ofNat 8 i ≤ 15 := by
    rw [BitVec.le_def, BitVec.toNat_ofNat]
    change i % 2 ^ 8 ≤ 15
    omega
  have hpics : PicsFor enabled (picEoi s (BitVec.ofNat 8 i)) := h.pics.step (.eoi (BitVec.ofNat 8 i))
  rw [picEoi_eq s hirq] at hpics ⊢
  refine ⟨hpics, h.masterManual, h.slaveManual, fun r hr => h.lines r (List.mem_cons_of_mem _ hr),
    hnested, ?_, ?_⟩
  · intro j hj
    have hbit := getLsbD_clear_lowest s.master.isr ⟨j, hj⟩
    dsimp only at hbit ⊢
    rw [hbit, Bool.and_eq_true, List.any_eq_true, h.master j hj]
    constructor
    · rintro ⟨⟨r, hr, hrj⟩, k, hk, hin⟩
      have hkj : k < j := List.mem_range.mp hk
      obtain ⟨r', hr', hrk⟩ := (h.master k (by omega)).mp hin
      rcases List.mem_cons.mp hr with rfl | hr
      · -- its own line is the lowest
        rcases List.mem_cons.mp hr' with rfl | hr'
        · omega
        · have := habove r' hr'
          omega
      · exact ⟨r, hr, hrj⟩
    · rintro ⟨r, hr, rfl⟩
      refine ⟨⟨r, List.mem_cons_of_mem _ hr, rfl⟩, masterLine i, List.mem_range.mpr (habove r hr), ?_⟩
      exact (h.master _ (masterLine_lt i)).mpr ⟨i, List.mem_cons_self, rfl⟩
  · intro j hj hin
    have hbit := getLsbD_clear_lowest s.slave.isr ⟨j, hj⟩
    dsimp only at hbit hin
    rw [hbit, Bool.and_eq_true, List.any_eq_true] at hin
    obtain ⟨hinj, k, hk, hink⟩ := hin
    have hkj : k < j := List.mem_range.mp hk
    have heq := h.eq_of_masterLine (h.slave j hj hinj) (h.slave k (by omega) hink)
      ((masterLine_slave j).trans (masterLine_slave k).symm)
    omega

/-- **Every run.** -/
theorem HandlerRun.handlersFor (h : HandlerRun s enabled running) : HandlersFor enabled s running := by
  induction h with
  | init s₀ =>
      have hpics := picsFor_init s₀
      rw [show picInit s₀ = picEnableIrq (picDisable s₀) slaveLine from rfl, picDisable_eq] at hpics ⊢
      exact ⟨hpics, by decide, by decide, by simp, .nil, by decide, by decide⟩
  | call _ he ih => exact ih.call he
  | enter _ hline ih => exact ih.enter hline
  | leave _ ih => exact ih.leave

end Handlers

/-- **Handlers nest by priority, and an interrupt that may get through does.** Whatever the order in which
lines are raised, enabled and disabled, interrupts are delivered and handlers end them with `pic_eoi`: a
handler is interrupted only by lines more urgent than its own, two lines of the slave never at a time; and
at every moment the controllers ask for the most urgent of the lines that are requested and enabled and
may interrupt the handlers that run, and for none only if there is none. -/
theorem handlerRun_schedules {s : Pics} {enabled : ℕ → Bool} {running : List ℕ}
    (h : HandlerRun s enabled running) :
    running.Pairwise (fun i j => masterLine i < masterLine j) ∧
      s.line = picOrder.find? fun i => s.requested i && enabled i && (decide (i < 8) || enabled 2) &&
        running.all fun j => decide (masterLine i < masterLine j) :=
  ⟨h.handlersFor.nested, h.handlersFor.line_eq⟩

/-- The timer interrupts the handler of line 12 and ends the slave's interrupt with its own; line 12 is
raised again, and waits until its handler has ended. -/
theorem handlerRun_schedules_timer : ∃ s enabled, HandlerRun s enabled [12] ∧ s.slave.isr = 0 ∧
    s.requested 12 = true ∧ s.line = none ∧ (picEoi s 12).line = some 12 := by
  have h₀ := ((HandlerRun.init biosPics).call (e := .enable 0) trivial).call (e := .enable 12) trivial
  have h₁ := (h₀.call (e := .raise 12) trivial).enter (i := 12) (by decide +kernel)
  have h₂ := (h₁.call (e := .raise 0) trivial).enter (i := 0) (by decide +kernel)
  have h₃ := h₂.leave.call (e := .raise 12) trivial
  refine ⟨_, _, h₃, by decide +kernel, by decide +kernel, ?_, ?_⟩
  · exact (handlerRun_schedules h₃).2.trans (by decide +kernel)
  · exact (handlerRun_schedules h₃.leave).2.trans (by decide +kernel)

end Cerberos
