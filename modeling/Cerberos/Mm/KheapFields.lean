/-
# Cerberos.Mm.KheapFields — header fields as variables, and the free list as a ring.

Headers lie at least 40 bytes apart (`Apart`), so the five words of the headers of a heap behave
like independent variables: a store to one field is seen by no other field of no other header
(`Kheap.get_set`) and by no byte outside the headers (`HdrFrame`). On top of this the two free-list
operations are the two ring edits of `Cerberos.Base.Ring`.
-/
import Cerberos.Base.Ring
import Cerberos.Mm.Kheap

namespace Cerberos

open Cerberos.Base

/-! ## Headers that do not overlap -/

/-- The headers in `H` fit the address space and do not overlap. -/
structure Apart (H : Set Word) : Prop where
  fits : ∀ h ∈ H, h.toNat + 40 ≤ 2 ^ 64
  sep : ∀ h ∈ H, ∀ h' ∈ H, h ≠ h' → h.toNat + 40 ≤ h'.toNat ∨ h'.toNat + 40 ≤ h.toNat

theorem Apart.mono {H H' : Set Word} (h : Apart H) (hsub : H' ⊆ H) : Apart H' where
  fits x hx := h.fits x (hsub hx)
  sep x hx y hy := h.sep x (hsub hx) y (hsub hy)

theorem Field.offset_le (f : Field) : f.offset.toNat ≤ 32 := by cases f <;> decide

theorem Field.offset_sep {f g : Field} (h : f ≠ g) :
    f.offset.toNat + 8 ≤ g.offset.toNat ∨ g.offset.toNat + 8 ≤ f.offset.toNat := by
  cases f <;> cases g <;> first | exact absurd rfl h | decide

theorem toNat_add_offset {h : Word} (hh : h.toNat + 40 ≤ 2 ^ 64) (f : Field) :
    (h + f.offset).toNat = h.toNat + f.offset.toNat := by
  have := f.offset_le
  bv_omega

section Simp

variable (s : Kheap) (h : Word) (f : Field) (v : Word)

@[simp] theorem Kheap.set_kheapTop : (s.set h f v).kheapTop = s.kheapTop := rfl
@[simp] theorem Kheap.set_kheapMax : (s.set h f v).kheapMax = s.kheapMax := rfl
@[simp] theorem Kheap.set_freeHead : (s.set h f v).freeHead = s.freeHead := rfl
@[simp] theorem Kheap.set_blockHead : (s.set h f v).blockHead = s.blockHead := rfl
@[simp] theorem Kheap.set_log : (s.set h f v).log = s.log := rfl

@[simp] theorem Kheap.set_get_self : s.set h f (s.get h f) = s := by
  simp [Kheap.set, Kheap.get]

end Simp

/-- **Fields are independent variables** on headers that do not overlap. -/
theorem Kheap.get_set {H : Set Word} (hH : Apart H) (s : Kheap) {h x : Word} (hh : h ∈ H)
    (hx : x ∈ H) (f g : Field) (v : Word) :
    (s.set h f v).get x g = if x = h ∧ g = f then v else s.get x g := by
  by_cases heq : x = h ∧ g = f
  · obtain ⟨rfl, rfl⟩ := heq
    simp [Kheap.set, Kheap.get]
  · rw [if_neg heq]
    have hf := f.offset_le
    have hg := g.offset_le
    have hfit := hH.fits h hh
    have hfit' := hH.fits x hx
    have e1 := toNat_add_offset hfit f
    have e2 := toNat_add_offset hfit' g
    refine read64_write64_of_disjoint (by omega) (by omega) ?_
    by_cases hxh : x = h
    · subst hxh
      have hgf : g ≠ f := fun h => heq ⟨rfl, h⟩
      have := Field.offset_sep hgf
      omega
    · have := hH.sep x hx h hh hxh
      omega

/-- No byte outside the headers in `H` differs. -/
def HdrFrame (H : Set Word) (m m' : Mem) : Prop :=
  ∀ x : Word, (∀ h ∈ H, x.toNat < h.toNat ∨ h.toNat + 40 ≤ x.toNat) → m' x = m x

theorem HdrFrame.refl (H : Set Word) (m : Mem) : HdrFrame H m m := fun _ _ => rfl

theorem HdrFrame.trans {H : Set Word} {m₁ m₂ m₃ : Mem} (h₁ : HdrFrame H m₁ m₂)
    (h₂ : HdrFrame H m₂ m₃) : HdrFrame H m₁ m₃ :=
  fun x hx => (h₂ x hx).trans (h₁ x hx)

theorem HdrFrame.mono {H H' : Set Word} {m m' : Mem} (h : HdrFrame H m m') (hsub : H ⊆ H') :
    HdrFrame H' m m' :=
  fun x hx => h x (fun y hy => hx y (hsub hy))

theorem HdrFrame.set {H : Set Word} (hH : Apart H) {m : Mem} {s : Kheap} (hm : HdrFrame H m s.mem)
    {h : Word} (hh : h ∈ H) (f : Field) (v : Word) : HdrFrame H m (s.set h f v).mem := by
  refine hm.trans ?_
  intro x hx
  have hf := f.offset_le
  have hfit := hH.fits h hh
  have e := toNat_add_offset hfit f
  refine write64_apply_of_outside (by omega) ?_
  rcases hx h hh with hlt | hge
  · exact Or.inl (by omega)
  · exact Or.inr (by omega)

/-- The heap keeps everything but header fields: the frame of an edit of headers in `H`. -/
structure HdrEdit (H : Set Word) (s s' : Kheap) : Prop where
  frame : HdrFrame H s.mem s'.mem
  top : s'.kheapTop = s.kheapTop
  max : s'.kheapMax = s.kheapMax
  log : s'.log = s.log

theorem HdrEdit.refl (H : Set Word) (s : Kheap) : HdrEdit H s s :=
  ⟨HdrFrame.refl H s.mem, rfl, rfl, rfl⟩

theorem HdrEdit.trans {H : Set Word} {s₁ s₂ s₃ : Kheap} (h₁ : HdrEdit H s₁ s₂)
    (h₂ : HdrEdit H s₂ s₃) : HdrEdit H s₁ s₃ :=
  ⟨h₁.frame.trans h₂.frame, h₂.top.trans h₁.top, h₂.max.trans h₁.max, h₂.log.trans h₁.log⟩

theorem HdrEdit.mono {H H' : Set Word} {s s' : Kheap} (h : HdrEdit H s s') (hsub : H ⊆ H') :
    HdrEdit H' s s' :=
  ⟨h.frame.mono hsub, h.top, h.max, h.log⟩

theorem HdrEdit.set {H : Set Word} (hH : Apart H) {s s' : Kheap} (h : HdrEdit H s s') {x : Word}
    (hx : x ∈ H) (f : Field) (v : Word) : HdrEdit H s (s'.set x f v) :=
  ⟨h.frame.set hH hx f v, h.top, h.max, h.log⟩

/-! ## The free list -/

/-- The free list of `s` is the ring `F`, entered at its first node. -/
structure FreeRing (s : Kheap) (F : List Word) : Prop where
  head : s.freeHead = F.headD null
  nodup : F.Nodup
  nonnull : null ∉ F
  ring : Ring (fun h => s.get h .freeNext) (fun h => s.get h .freePrev) F

theorem FreeRing.congr {s s' : Kheap} {F : List Word} (h : FreeRing s F)
    (hhead : s'.freeHead = s.freeHead)
    (hget : ∀ x ∈ F, s'.get x .freeNext = s.get x .freeNext ∧
      s'.get x .freePrev = s.get x .freePrev) : FreeRing s' F where
  head := hhead.trans h.head
  nodup := h.nodup
  nonnull := h.nonnull
  ring := h.ring.congr (fun x hx => (hget x hx).1) (fun x hx => (hget x hx).2)

/-- On the ring both links are non-`NULL`. -/
theorem FreeRing.isFree_of_mem {s : Kheap} {F : List Word} (h : FreeRing s F) {x : Word}
    (hx : x ∈ F) : isFree s x = true := by
  obtain ⟨h1, h2, _, _⟩ := h.ring.neighbours hx
  have hn : s.get x .freeNext ≠ null := fun h0 => h.nonnull (h0 ▸ h1)
  have hp : s.get x .freePrev ≠ null := fun h0 => h.nonnull (h0 ▸ h2)
  simp only [isFree, decide_eq_true_eq]
  exact ⟨hn, hp⟩

theorem freeHead_ne_null {s : Kheap} {F : List Word} (hF : FreeRing s F) {hdr : Word}
    (hmem : hdr ∈ F) : s.freeHead ≠ null := by
  rw [hF.head]
  cases F with
  | nil => cases hmem
  | cons x t =>
      intro h0
      exact hF.nonnull (by rw [← h0]; exact List.mem_cons_self)

/-- What an edit of the free list leaves alone: every field but the links of the headers in `T`. -/
def LinksOnly (H T : Set Word) (s s' : Kheap) : Prop :=
  ∀ x ∈ H, ∀ g : Field, (x ∉ T ∨ (g ≠ .freeNext ∧ g ≠ .freePrev)) → s'.get x g = s.get x g

theorem LinksOnly.refl (H T : Set Word) (s : Kheap) : LinksOnly H T s s := fun _ _ _ _ => rfl

theorem LinksOnly.set {H T : Set Word} (hH : Apart H) {s s' : Kheap} (h : LinksOnly H T s s')
    {x : Word} (hx : x ∈ H) (hT : x ∈ T) {f : Field} (hf : f = .freeNext ∨ f = .freePrev)
    (v : Word) : LinksOnly H T s (s'.set x f v) := by
  intro y hy g hg
  rw [Kheap.get_set hH s' hx hy, if_neg, h y hy g hg]
  rintro ⟨rfl, rfl⟩
  rcases hg with hg | hg
  · exact hg hT
  · rcases hf with rfl | rfl
    · exact hg.1 rfl
    · exact hg.2 rfl

/-- The result of an insertion in front of the ring `F`. -/
structure Linked (H : Set Word) (s s' : Kheap) (F : List Word) (hdr : Word) : Prop where
  ring : FreeRing s' (hdr :: F)
  links : LinksOnly H {x | x ∈ hdr :: F} s s'
  edit : HdrEdit H s s'
  head : s'.blockHead = s.blockHead

theorem freelistInsert_empty {H : Set Word} (hH : Apart H) {s : Kheap} {hdr : Word}
    (hF : FreeRing s []) (hh : hdr ∈ H) (hnn : hdr ≠ null) :
    Linked H s (freelistInsert s hdr) [] hdr := by
  have hmem : hdr ∈ ({x | x ∈ [hdr]} : Set Word) := List.mem_singleton_self hdr
  have hhead : s.freeHead = null := hF.head
  have e := HdrEdit.set hH (HdrEdit.set hH (HdrEdit.refl H s) hh .freeNext hdr) hh .freePrev hdr
  rw [freelistInsert, if_pos hhead]
  refine ⟨⟨rfl, List.nodup_singleton hdr, ?_, ?_⟩, ?_, ⟨e.frame, e.top, e.max, e.log⟩, rfl⟩
  · simpa using hnn.symm
  · apply ring_singleton <;> simp [Kheap.get_set hH _ hh hh]
  · exact ((LinksOnly.refl H _ _).set hH hh hmem (Or.inl rfl) hdr).set hH hh hmem (Or.inr rfl) hdr

/-- The four stores of an insertion before `first`, whose predecessor is `last`. -/
def linkFront (s : Kheap) (hdr first last : Word) : Kheap :=
  (((s.set hdr .freeNext first).set hdr .freePrev last).set last .freeNext hdr).set first
    .freePrev hdr

theorem linkFront_get {H : Set Word} (hH : Apart H) (s : Kheap) {hdr first last : Word}
    (hh : hdr ∈ H) (hf : first ∈ H) (hl : last ∈ H) {y : Word} (hy : y ∈ H) (g : Field) :
    (linkFront s hdr first last).get y g =
      if y = first ∧ g = .freePrev then hdr else if y = last ∧ g = .freeNext then hdr else
      if y = hdr ∧ g = .freePrev then last else if y = hdr ∧ g = .freeNext then first else
      s.get y g := by
  rw [linkFront, Kheap.get_set hH _ hf hy, Kheap.get_set hH _ hl hy, Kheap.get_set hH _ hh hy,
    Kheap.get_set hH _ hh hy]

theorem freelistInsert_eq_linkFront {H : Set Word} (hH : Apart H) {s : Kheap} {hdr : Word}
    (hh : hdr ∈ H) (hf : s.freeHead ∈ H) (hne : s.freeHead ≠ hdr) (h0 : s.freeHead ≠ null) :
    freelistInsert s hdr =
      { linkFront s hdr s.freeHead (s.get s.freeHead .freePrev) with freeHead := hdr } := by
  rw [freelistInsert, if_neg h0]
  simp [linkFront, Kheap.get_set hH _ hh hf, hne]

theorem freelistInsert_front {H : Set Word} (hH : Apart H) {s : Kheap} {first : Word}
    {t : List Word} {hdr : Word} (hF : FreeRing s (first :: t)) (hsub : ∀ h ∈ first :: t, h ∈ H)
    (hh : hdr ∈ H) (hnew : hdr ∉ first :: t) (hnn : hdr ≠ null) :
    Linked H s (freelistInsert s hdr) (first :: t) hdr := by
  have hhead : s.freeHead = first := hF.head
  have hfirstH : first ∈ H := hsub first List.mem_cons_self
  have hne : ∀ y ∈ first :: t, y ≠ hdr := fun y hy h => hnew (h ▸ hy)
  have hlastF := (hF.ring.neighbours (a := first) List.mem_cons_self).2.1
  rw [freelistInsert_eq_linkFront hH hh (hhead ▸ hfirstH) (hhead ▸ hne first List.mem_cons_self)
    (freeHead_ne_null hF List.mem_cons_self), hhead]
  generalize hlast : s.get first .freePrev = last at *
  have hlastH : last ∈ H := hsub last hlastF
  have hget := fun y hy g => linkFront_get hH s hh hfirstH hlastH (y := y) hy g
  have e := HdrEdit.set hH (HdrEdit.set hH (HdrEdit.set hH (HdrEdit.set hH (HdrEdit.refl H s)
    hh .freeNext first) hh .freePrev last) hlastH .freeNext hdr) hfirstH .freePrev hdr
  rw [← linkFront] at e
  have hblock : (linkFront s hdr first last).blockHead = s.blockHead := rfl
  generalize linkFront s hdr first last = s' at *
  have hfirst := hne first List.mem_cons_self
  have hlne := hne last hlastF
  refine ⟨⟨rfl, List.nodup_cons.mpr ⟨hnew, hF.nodup⟩, ?_, ?_⟩, ?_, ⟨e.frame, e.top, e.max, e.log⟩,
    hblock⟩
  · rw [List.mem_cons, not_or]
    exact ⟨hnn.symm, hF.nonnull⟩
  · refine hF.ring.push hF.nodup ?_ ?_ ?_ ?_ ?_ ?_
    · change s'.get hdr .freeNext = first
      rw [hget hdr hh]
      simp [hlne.symm]
    · change s'.get first .freePrev = hdr
      rw [hget first hfirstH]
      simp
    · change s'.get (s.get first .freePrev) .freeNext = hdr
      rw [hlast, hget last hlastH]
      simp
    · change s'.get hdr .freePrev = s.get first .freePrev
      rw [hlast, hget hdr hh]
      simp [hfirst.symm]
    · intro a ha hal
      change s'.get a .freeNext = s.get a .freeNext
      have hal' : a ≠ last := fun h => hal (h.trans hlast.symm)
      rw [hget a (hsub a ha)]
      simp [hal', hne a ha]
    · intro a ha hax
      change s'.get a .freePrev = s.get a .freePrev
      rw [hget a (hsub a ha)]
      simp [hax, hne a ha]
  · intro y hy g hg
    change s'.get y g = s.get y g
    rw [hget y hy]
    rcases hg with hg | ⟨h1, h2⟩
    · have hyf : y ≠ first := by rintro rfl; exact hg (by simp)
      have hyl : y ≠ last := by rintro rfl; exact hg (List.mem_cons_of_mem _ hlastF)
      have hyh : y ≠ hdr := by rintro rfl; exact hg (by simp)
      simp [hyf, hyl, hyh]
    · simp [h1, h2]

/-- **`freelist_insert` puts the header in front of the ring.** -/
theorem freelistInsert_spec {H : Set Word} (hH : Apart H) {s : Kheap} {F : List Word} {hdr : Word}
    (hF : FreeRing s F) (hsub : ∀ h ∈ F, h ∈ H) (hh : hdr ∈ H) (hnew : hdr ∉ F)
    (hnn : hdr ≠ null) : Linked H s (freelistInsert s hdr) F hdr := by
  cases F with
  | nil => exact freelistInsert_empty hH hF hh hnn
  | cons first t => exact freelistInsert_front hH hF hsub hh hnew hnn

/-- The result of a removal that leaves the ring `F'`. -/
structure Unlinked (H : Set Word) (s s' : Kheap) (F F' : List Word) (hdr : Word) : Prop where
  ring : FreeRing s' F'
  next : s'.get hdr .freeNext = null
  prev : s'.get hdr .freePrev = null
  links : LinksOnly H {x | x ∈ F} s s'
  edit : HdrEdit H s s'
  head : s'.blockHead = s.blockHead

theorem freelistRemove_alone {H : Set Word} (hH : Apart H) {s : Kheap} {hdr : Word}
    (hF : FreeRing s [hdr]) (hh : hdr ∈ H) :
    Unlinked H s (freelistRemove s hdr) [hdr] [] hdr := by
  have hmem : hdr ∈ [hdr] := List.mem_singleton_self hdr
  obtain ⟨hnext, hprev, -, -⟩ := hF.ring.neighbours hmem
  have hfh : s.freeHead = hdr := hF.head
  have heq : freelistRemove s hdr =
      { ((s.set hdr .freeNext null).set hdr .freePrev null) with freeHead := null } := by
    rw [freelistRemove, if_neg (freeHead_ne_null hF hmem), if_neg (by simp [hF.isFree_of_mem hmem]),
      if_pos ⟨by simpa using hnext, by simpa using hprev⟩, if_neg (by simp [hfh])]
  have e := HdrEdit.set hH (HdrEdit.set hH (HdrEdit.refl H s) hh .freeNext null) hh .freePrev null
  have hget := fun g => Kheap.get_set hH (s.set hdr .freeNext null) hh hh .freePrev g null
  rw [heq]
  refine ⟨⟨rfl, List.nodup_nil, List.not_mem_nil, trivial⟩, ?_, ?_, ?_,
    ⟨e.frame, e.top, e.max, e.log⟩, rfl⟩
  · exact (hget .freeNext).trans (by simp [Kheap.get_set hH _ hh hh])
  · exact (hget .freePrev).trans (by simp)
  · exact ((LinksOnly.refl H _ s).set hH hh hmem (Or.inl rfl) null).set hH hh hmem
      (Or.inr rfl) null

/-- The four stores of a removal from a longer ring. -/
def unlink (s : Kheap) (hdr prevHdr nextHdr : Word) : Kheap :=
  (((s.set prevHdr .freeNext nextHdr).set nextHdr .freePrev prevHdr).set hdr .freeNext null).set hdr
    .freePrev null

theorem unlink_get {H : Set Word} (hH : Apart H) (s : Kheap) {hdr prevHdr nextHdr : Word}
    (hh : hdr ∈ H) (hp : prevHdr ∈ H) (hn : nextHdr ∈ H) {y : Word} (hy : y ∈ H) (g : Field) :
    (unlink s hdr prevHdr nextHdr).get y g =
      if y = hdr ∧ g = .freePrev then null else if y = hdr ∧ g = .freeNext then null else
      if y = nextHdr ∧ g = .freePrev then prevHdr else
      if y = prevHdr ∧ g = .freeNext then nextHdr else s.get y g := by
  rw [unlink, Kheap.get_set hH _ hh hy, Kheap.get_set hH _ hh hy, Kheap.get_set hH _ hn hy,
    Kheap.get_set hH _ hp hy]

theorem freelistRemove_eq_unlink {s : Kheap} {F : List Word} {hdr : Word} (hF : FreeRing s F)
    (hmem : hdr ∈ F) (hself : s.get hdr .freeNext ≠ hdr) :
    freelistRemove s hdr =
      { unlink s hdr (s.get hdr .freePrev) (s.get hdr .freeNext) with
        freeHead := if hdr = s.freeHead then s.get hdr .freeNext else s.freeHead } := by
  rw [freelistRemove, if_neg (freeHead_ne_null hF hmem), if_neg (by simp [hF.isFree_of_mem hmem]),
    if_neg (fun h => hself h.1)]
  have hfh : (unlink s hdr (s.get hdr .freePrev) (s.get hdr .freeNext)).freeHead = s.freeHead := rfl
  change (if hdr = (unlink s hdr (s.get hdr .freePrev) (s.get hdr .freeNext)).freeHead then
    { unlink s hdr (s.get hdr .freePrev) (s.get hdr .freeNext) with
      freeHead := s.get hdr .freeNext }
    else unlink s hdr (s.get hdr .freePrev) (s.get hdr .freeNext)) = _
  generalize unlink s hdr (s.get hdr .freePrev) (s.get hdr .freeNext) = u at *
  rw [← hfh]
  split <;> rfl

/-- The ring is entered at the successor when its first node goes. -/
theorem headD_erase {s : Kheap} {F : List Word} {hdr : Word} (hF : FreeRing s F) (hmem : hdr ∈ F)
    (hself : s.get hdr .freeNext ≠ hdr) :
    (if hdr = s.freeHead then s.get hdr .freeNext else s.freeHead) = (F.erase hdr).headD null := by
  cases F with
  | nil => cases hmem
  | cons x t =>
      have hfx : s.freeHead = x := hF.head
      by_cases hx : hdr = x
      · subst hx
        rw [List.erase_cons_head, if_pos hfx.symm]
        cases t with
        | nil =>
            have hnext := (hF.ring.neighbours hmem).1
            exact absurd (List.mem_singleton.mp hnext) hself
        | cons y t => exact (List.isChain_cons_cons.mp hF.ring).1.1
      · rw [List.erase_cons_tail (by simpa using Ne.symm hx), if_neg (by rw [hfx]; exact hx), hfx]
        rfl

theorem freelistRemove_many {H : Set Word} (hH : Apart H) {s : Kheap} {F : List Word} {hdr : Word}
    (hF : FreeRing s F) (hsub : ∀ h ∈ F, h ∈ H) (hmem : hdr ∈ F)
    (hself : s.get hdr .freeNext ≠ hdr) :
    Unlinked H s (freelistRemove s hdr) F (F.erase hdr) hdr := by
  have hh : hdr ∈ H := hsub hdr hmem
  obtain ⟨hnextF, hprevF, -, hnp⟩ := hF.ring.neighbours hmem
  have hnewHead := headD_erase hF hmem hself
  rw [freelistRemove_eq_unlink hF hmem hself]
  generalize hnext : s.get hdr .freeNext = nextHdr at *
  generalize hprev : s.get hdr .freePrev = prevHdr at *
  have hnextH : nextHdr ∈ H := hsub _ hnextF
  have hprevH : prevHdr ∈ H := hsub _ hprevF
  have hnp' : s.get prevHdr .freeNext = hdr := hnp
  have hpself : prevHdr ≠ hdr := by
    rintro rfl
    exact hself (hnext.symm.trans hnp')
  have hget := fun y hy g => unlink_get hH s hh hprevH hnextH (y := y) hy g
  have e := HdrEdit.set hH (HdrEdit.set hH (HdrEdit.set hH (HdrEdit.set hH (HdrEdit.refl H s)
    hprevH .freeNext nextHdr) hnextH .freePrev prevHdr) hh .freeNext null) hh .freePrev null
  rw [← unlink] at e
  have hblock : (unlink s hdr prevHdr nextHdr).blockHead = s.blockHead := rfl
  generalize unlink s hdr prevHdr nextHdr = s' at *
  refine ⟨⟨hnewHead, hF.nodup.erase hdr, fun h => hF.nonnull (List.mem_of_mem_erase h), ?_⟩,
    ?_, ?_, ?_, ⟨e.frame, e.top, e.max, e.log⟩, hblock⟩
  · refine hF.ring.erase hF.nodup hmem ?_ ?_ ?_ ?_ ?_
    · rintro rfl
      exact hself (List.mem_singleton.mp hnextF)
    · change s'.get (s.get hdr .freePrev) .freeNext = s.get hdr .freeNext
      rw [hnext, hprev, hget prevHdr hprevH]
      simp [hpself]
    · change s'.get (s.get hdr .freeNext) .freePrev = s.get hdr .freePrev
      rw [hnext, hprev, hget nextHdr hnextH]
      simp [hself]
    · intro a ha hah hap
      change s'.get a .freeNext = s.get a .freeNext
      have hap' : a ≠ prevHdr := fun h => hap (h.trans hprev.symm)
      rw [hget a (hsub a ha)]
      simp [hah, hap']
    · intro a ha hah han
      change s'.get a .freePrev = s.get a .freePrev
      have han' : a ≠ nextHdr := fun h => han (h.trans hnext.symm)
      rw [hget a (hsub a ha)]
      simp [hah, han']
  · change s'.get hdr .freeNext = null
    rw [hget hdr hh]
    simp
  · change s'.get hdr .freePrev = null
    rw [hget hdr hh]
    simp
  · intro y hy g hg
    change s'.get y g = s.get y g
    rw [hget y hy]
    rcases hg with hg | ⟨h1, h2⟩
    · have hyh : y ≠ hdr := by rintro rfl; exact hg hmem
      have hyn : y ≠ nextHdr := by rintro rfl; exact hg hnextF
      have hyp : y ≠ prevHdr := by rintro rfl; exact hg hprevF
      simp [hyh, hyn, hyp]
    · simp [h1, h2]

/-- **`freelist_remove` takes the header out of the ring** and clears its links; none of its checks
fires. -/
theorem freelistRemove_spec {H : Set Word} (hH : Apart H) {s : Kheap} {F : List Word} {hdr : Word}
    (hF : FreeRing s F) (hsub : ∀ h ∈ F, h ∈ H) (hmem : hdr ∈ F) :
    Unlinked H s (freelistRemove s hdr) F (F.erase hdr) hdr := by
  by_cases hself : s.get hdr .freeNext = hdr
  · have hsing : F = [hdr] := hF.ring.eq_singleton hF.nodup hmem hself
    subst hsing
    rw [List.erase_cons_head]
    exact freelistRemove_alone hH hF (hsub hdr hmem)
  · exact freelistRemove_many hH hF hsub hmem hself

end Cerberos
