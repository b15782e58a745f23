/-
# Cerberos.Log.Format — `log_impl` of `log/log.c` and its format language.

The code is one scan over the format string with a shared cursor and early returns in the middle of
a directive. The specification is a GRAMMAR: a format is a list of items, each an ordinary character
or one of the nine directives. `log_impl` renders the longest list of items the string starts with
and returns 0 exactly when nothing is left.
-/
import Cerberos.Log.Print

namespace Cerberos

open Cerberos.Base

/-! ## Strings and arguments -/

/-- The byte of an ASCII character. -/
def ascii (c : Char) : Byte := BitVec.ofNat 8 c.toNat

/-- A string without its zero byte. -/
structure CString where
  text : List Byte
  noNul : ∀ c ∈ text, c ≠ 0

/-- The bytes of the string in memory. -/
def CString.buf (s : CString) : StackBuf := s.text.map some ++ [some 0]

/-- A string literal. -/
def literal (s : String) : StackBuf := s.toList.map (fun c => some (ascii c)) ++ [some 0]

/-- One argument of a variadic call. `int32_t`, `uint32_t` and `int` are passed alike. -/
inductive LogArg where
  | int (val : BitVec 32)
  | long (val : BitVec 64)
  | str (s : CString)

/-- The type of an argument. -/
inductive ArgKind where
  | int | long | str
  deriving DecidableEq, Repr

/-- The type an argument was passed with. -/
def LogArg.kind : LogArg → ArgKind
  | .int _ => .int
  | .long _ => .long
  | .str _ => .str

/-! ## The code -/

/-- `va_arg(args, int32_t)`: without an argument of that type left it is undefined. -/
def vaInt : List LogArg → Res (BitVec 32 × List LogArg)
  | .int val :: args => .ok (val, args)
  | _ => .error .fault

/-- `va_arg(args, int64_t)`. -/
def vaLong : List LogArg → Res (BitVec 64 × List LogArg)
  | .long val :: args => .ok (val, args)
  | _ => .error .fault

/-- `va_arg(args, char*)`. -/
def vaStr : List LogArg → Res (CString × List LogArg)
  | .str s :: args => .ok (s, args)
  | _ => .error .fault

/-- `print_level(level)`. A level outside the enumeration takes the `default` branch: it is `none`
here. -/
def printLevel : Option LogLevel → Res (List Byte)
  | some .info => comPuts (literal "[INFO]: ")
  | some .todo => comPuts (literal "[TODO]: ")
  | some .error => comPuts (literal "[ERROR]: ")
  | some .warning => comPuts (literal "[WARNING]: ")
  | some .none => .ok []
  | none => comPuts (literal "[... no log level ...] ")

/-- A case that takes the next argument and prints it. -/
def printArg {α : Type} (va : List LogArg → Res (α × List LogArg)) (print : α → Res (List Byte))
    (args : List LogArg) : Res (List Byte × List LogArg) := do
  let (val, args) ← va args
  let out ← print val
  .ok (out, args)

/-- The switch after `%`, without its case `'l'`; `none` is `default`. -/
def logCase (c : Byte) : Option (List LogArg → Res (List Byte × List LogArg)) :=
  if c = ascii '%' then some fun args => .ok ([ascii '%'], args)
  else if c = ascii 'c' then some (printArg vaInt fun val => .ok [val.setWidth 8])
  else if c = ascii 's' then some (printArg vaStr fun s => comPuts s.buf)
  else if c = ascii 'x' then some (printArg vaInt printX)
  else if c = ascii 'u' then some (printArg vaInt printU)
  else if c = ascii 'd' then some (printArg vaInt printD)
  else none

/-- The switch after `%l`. -/
def logCaseL (c : Byte) : Option (List LogArg → Res (List Byte × List LogArg)) :=
  if c = ascii 'x' then some (printArg vaLong printLx)
  else if c = ascii 'u' then some (printArg vaLong printLu)
  else if c = ascii 'd' then some (printArg vaLong printLd)
  else none

/-- The loop of `log_impl`, from the byte at `buf` on: what it emits, what `log_impl` returns and the
arguments it leaves. Reading past the end of the memory is a fault. -/
def logScan : List Byte → List LogArg → Res (List Byte × ℤ × List LogArg)
  | [], _ => .error .fault
  | c :: buf, args =>
    if c = 0 then .ok ([], 0, args)
    else if c = ascii '%' then
      match buf with
      | [] => .error .fault
      | c₁ :: buf₁ =>
        if c₁ = 0 then .ok ([], -1, args)
        else if c₁ = ascii 'l' then
          match buf₁ with
          | [] => .error .fault
          | c₂ :: buf₂ =>
            if c₂ = 0 then .ok ([], -1, args)
            else match logCaseL c₂ with
              | none => .ok ([], -1, args)
              | some print => do
                let (out, args) ← print args
                let (rest, ret, args) ← logScan buf₂ args
                .ok (out ++ rest, ret, args)
        else match logCase c₁ with
          | none => .ok ([], -1, args)
          | some print => do
            let (out, args) ← print args
            let (rest, ret, args) ← logScan buf₁ args
            .ok (out ++ rest, ret, args)
    else do
      let (rest, ret, args) ← logScan buf args
      .ok (c :: rest, ret, args)

/-- `log_impl(level, format, ...)`, where `format` is the memory from the format string on. -/
def logImpl (level : Option LogLevel) (format : List Byte) (args : List LogArg) :
    Res (List Byte × ℤ × List LogArg) := do
  let out ← printLevel level
  let (rest, ret, args) ← logScan format args
  .ok (out ++ rest, ret, args)

/-! ## The grammar -/

/-- The directives. -/
inductive Directive where
  | percent | char | string | hex | unsigned | decimal | longHex | longUnsigned | longDecimal
  deriving DecidableEq, Repr

/-- What stands after the `%`. -/
def Directive.spelling : Directive → List Byte
  | .percent => [ascii '%']
  | .char => [ascii 'c']
  | .string => [ascii 's']
  | .hex => [ascii 'x']
  | .unsigned => [ascii 'u']
  | .decimal => [ascii 'd']
  | .longHex => [ascii 'l', ascii 'x']
  | .longUnsigned => [ascii 'l', ascii 'u']
  | .longDecimal => [ascii 'l', ascii 'd']

/-- The type of the argument a directive uses. -/
def Directive.kind : Directive → Option ArgKind
  | .percent => none
  | .char | .hex | .unsigned | .decimal => some .int
  | .string => some .str
  | .longHex | .longUnsigned | .longDecimal => some .long

/-- The rendering of an argument. -/
def Directive.render : Directive → LogArg → Res (List Byte)
  | .char, .int val => .ok [val.setWidth 8]
  | .string, .str s => .ok s.text
  | .hex, .int val => printX val
  | .unsigned, .int val => printU val
  | .decimal, .int val => printD val
  | .longHex, .long val => printLx val
  | .longUnsigned, .long val => printLu val
  | .longDecimal, .long val => printLd val
  | _, _ => .error .fault

/-- An item of a format: an ordinary character, or a directive. -/
inductive Item where
  | char (c : Byte) (ordinary : c ≠ 0 ∧ c ≠ ascii '%')
  | directive (d : Directive)

/-- How an item is written. -/
def Item.text : Item → List Byte
  | .char c _ => [c]
  | .directive d => ascii '%' :: d.spelling

/-- How a list of items is written. -/
def itemsText (items : List Item) : List Byte := items.flatMap Item.text

/-- The type of the argument an item uses. -/
def Item.kind : Item → Option ArgKind
  | .char _ _ => none
  | .directive d => d.kind

/-- The arguments start with one of the right type for each directive other than `%%`. -/
def ArgsMatch (items : List Item) (args : List LogArg) : Prop :=
  items.filterMap Item.kind <+: args.map LogArg.kind

/-- **The output of a list of items**, which uses up the arguments. -/
inductive Renders : List Item → List LogArg → List Byte → Prop
  | nil : Renders [] [] []
  | char {c : Byte} {ordinary : c ≠ 0 ∧ c ≠ ascii '%'} {items : List Item} {args : List LogArg}
      {out : List Byte} : Renders items args out → Renders (.char c ordinary :: items) args (c :: out)
  | percent {items : List Item} {args : List LogArg} {out : List Byte} :
      Renders items args out →
      Renders (.directive .percent :: items) args (ascii '%' :: out)
  | arg {d : Directive} {a : LogArg} {text : List Byte} {items : List Item} {args : List LogArg}
      {out : List Byte} : d.render a = .ok text → Renders items args out →
      Renders (.directive d :: items) (a :: args) (text ++ out)

/-- Nothing, or a `%` that starts no directive. -/
def Stuck (rest : List Byte) : Prop :=
  rest = [] ∨ ∃ tail, rest = ascii '%' :: tail ∧ ∀ d : Directive, ¬d.spelling <+: tail

/-- **`items` is the longest list of items that `text` starts with**, and `rest` is what follows. -/
structure LongestItems (text : List Byte) (items : List Item) (rest : List Byte) : Prop where
  split : text = itemsText items ++ rest
  stuck : Stuck rest
  longest : ∀ items' rest', text = itemsText items' ++ rest' → items' <+: items

/-! ## Items are read one way only -/

theorem Directive.eq_of_spelling_prefix {d e : Directive} (h : d.spelling <+: e.spelling) :
    d = e := by
  cases d <;> cases e <;> first
    | rfl
    | exact absurd h (by decide)

theorem Item.text_ne_nil (item : Item) : item.text ≠ [] := by
  cases item with
  | char c ordinary => exact List.cons_ne_nil _ _
  | directive d => exact List.cons_ne_nil _ _

/-- No item is written as the beginning of another. -/
theorem Item.eq_of_text_prefix {item item' : Item} (h : item.text <+: item'.text) : item = item' := by
  cases item with
  | char c ordinary =>
      cases item' with
      | char c' ordinary' =>
          obtain ⟨hc, -⟩ := List.cons_prefix_cons.mp h
          subst hc
          rfl
      | directive d => exact absurd (List.cons_prefix_cons.mp h).1 ordinary.2
  | directive d =>
      cases item' with
      | char c ordinary => exact absurd (List.cons_prefix_cons.mp h).1.symm ordinary.2
      | directive e =>
          rw [Directive.eq_of_spelling_prefix (List.cons_prefix_cons.mp h).2]

/-- So two items at the start of one text are the same. -/
theorem Item.eq_of_append_eq {item item' : Item} {rest rest' : List Byte}
    (h : item.text ++ rest = item'.text ++ rest') : item = item' ∧ rest = rest' := by
  have hitem : item = item' := by
    rcases List.prefix_or_prefix_of_prefix (List.prefix_append item.text rest)
      (h ▸ List.prefix_append item'.text rest') with hpre | hpre
    · exact Item.eq_of_text_prefix hpre
    · exact (Item.eq_of_text_prefix hpre).symm
  subst hitem
  exact ⟨rfl, List.append_cancel_left h⟩

/-- A stuck text starts with no item. -/
theorem Stuck.not_item {rest : List Byte} (h : Stuck rest) (item : Item) (after : List Byte) :
    rest ≠ item.text ++ after := by
  rintro rfl
  rcases h with hnil | ⟨tail, htail, hnone⟩
  · exact item.text_ne_nil (List.append_eq_nil_iff.mp hnil).1
  · cases item with
    | char c ordinary => exact ordinary.2 (List.cons.inj htail).1
    | directive d =>
        apply hnone d
        rw [← (List.cons.inj htail).2]
        exact List.prefix_append _ _

/-- Where items are stuck, they are the longest. -/
theorem longestItems_of_stuck {text : List Byte} {items : List Item} {rest : List Byte}
    (hsplit : text = itemsText items ++ rest) (h : Stuck rest) : LongestItems text items rest := by
  subst hsplit
  refine ⟨rfl, h, ?_⟩
  intro items'
  induction items' generalizing items with
  | nil => exact fun _ _ => List.nil_prefix
  | cons item' items' ih =>
      intro rest' heq
      cases items with
      | nil =>
          -- the items are used up, and another one would have to start in `rest`
          rw [itemsText, itemsText, List.flatMap_nil, List.nil_append, List.flatMap_cons,
            List.append_assoc] at heq
          exact absurd heq (h.not_item item' _)
      | cons item items =>
          rw [itemsText, itemsText, List.flatMap_cons, List.flatMap_cons, List.append_assoc,
            List.append_assoc] at heq
          obtain ⟨hitem, hrest⟩ := Item.eq_of_append_eq heq
          rw [hitem]
          exact List.cons_prefix_cons.mpr ⟨rfl, ih rest' hrest⟩

theorem LongestItems.unique {text : List Byte} {items items' : List Item} {rest rest' : List Byte}
    (h : LongestItems text items rest) (h' : LongestItems text items' rest') : items = items' :=
  (h'.longest items rest h.split).eq_of_length_le
    (h.longest items' rest' h'.split).length_le

/-- A text without a zero byte starts with an item or is stuck. -/
theorem item_or_stuck {text : List Byte} (hnul : ∀ c ∈ text, c ≠ 0) :
    (∃ item rest, text = Item.text item ++ rest) ∨ Stuck text := by
  cases text with
  | nil => exact .inr (.inl rfl)
  | cons c tail =>
      by_cases hc : c = ascii '%'
      · subst hc
        by_cases hd : ∃ d : Directive, d.spelling <+: tail
        · obtain ⟨d, rest, hrest⟩ := hd
          exact .inl ⟨.directive d, rest, by rw [← hrest]; rfl⟩
        · exact .inr (.inr ⟨tail, rfl, not_exists.mp hd⟩)
      · exact .inl ⟨.char c ⟨hnul c (List.mem_cons_self ..), hc⟩, tail, rfl⟩

/-- **Every text without a zero byte has a longest list of items.** -/
theorem exists_longestItems : ∀ (n : ℕ) (text : List Byte), text.length ≤ n →
    (∀ c ∈ text, c ≠ 0) → ∃ items rest, LongestItems text items rest := by
  intro n
  induction n with
  | zero =>
      intro text hlen _
      obtain rfl := List.length_eq_zero_iff.mp (Nat.le_zero.mp hlen)
      exact ⟨[], [], longestItems_of_stuck rfl (.inl rfl)⟩
  | succ n ih =>
      intro text hlen hnul
      rcases item_or_stuck hnul with ⟨item, after, rfl⟩ | hstuck
      · have hpos := List.length_pos_of_ne_nil item.text_ne_nil
        rw [List.length_append] at hlen
        obtain ⟨items, rest, hlong⟩ := ih after (by omega)
          (fun c hc => hnul c (List.mem_append_right _ hc))
        refine ⟨item :: items, rest, longestItems_of_stuck ?_ hlong.stuck⟩
        rw [hlong.split, itemsText, itemsText, List.flatMap_cons, List.append_assoc]
      · exact ⟨[], text, longestItems_of_stuck rfl hstuck⟩

/-! ## The scan follows the items -/

/-- What the scan emits and returns behind an item that put `out` on the console. -/
def logRest (out : List Byte) (buf : List Byte) (args : List LogArg) :
    Res (List Byte × ℤ × List LogArg) := do
  let (rest, ret, args) ← logScan buf args
  .ok (out ++ rest, ret, args)

theorem logScan_nul (buf : List Byte) (args : List LogArg) :
    logScan (0 :: buf) args = .ok ([], 0, args) := by
  rw [logScan.eq_def]
  exact if_pos rfl

theorem logScan_char {c : Byte} (ordinary : c ≠ 0 ∧ c ≠ ascii '%') (buf : List Byte)
    (args : List LogArg) : logScan (c :: buf) args = logRest [c] buf args := by
  rw [logScan.eq_def]
  simp only [if_neg ordinary.1, if_neg ordinary.2]
  rfl

/-- The switch as a whole: the case, or the return from the middle of the directive. -/
def logSwitch (case : Option (List LogArg → Res (List Byte × List LogArg))) (buf : List Byte)
    (args : List LogArg) : Res (List Byte × ℤ × List LogArg) :=
  match case with
  | none => .ok ([], -1, args)
  | some print => do
    let (out, args) ← print args
    logRest out buf args

/-- After `%`, a byte that is not an `l` goes through the first switch. -/
theorem logScan_case {c : Byte} (h0 : c ≠ 0) (hl : c ≠ ascii 'l') (buf : List Byte)
    (args : List LogArg) :
    logScan (ascii '%' :: c :: buf) args = logSwitch (logCase c) buf args := by
  rw [logScan.eq_def]
  simp only [if_neg (show ascii '%' ≠ 0 by decide), if_pos, if_neg h0, if_neg hl]
  rfl

/-- After `%l`, a byte goes through the second one. -/
theorem logScan_caseL {c : Byte} (h0 : c ≠ 0) (buf : List Byte) (args : List LogArg) :
    logScan (ascii '%' :: ascii 'l' :: c :: buf) args = logSwitch (logCaseL c) buf args := by
  rw [logScan.eq_def]
  simp only [if_neg (show ascii '%' ≠ 0 by decide), if_pos,
    if_neg (show ascii 'l' ≠ 0 by decide), if_neg h0]
  rfl

/-- The format ends in the middle of a directive. -/
theorem logScan_cut (buf : List Byte) (args : List LogArg) :
    logScan (ascii '%' :: 0 :: buf) args = .ok ([], -1, args) ∧
    logScan (ascii '%' :: ascii 'l' :: 0 :: buf) args = .ok ([], -1, args) := by
  constructor
  · rw [logScan.eq_def]
    simp only [if_neg (show ascii '%' ≠ 0 by decide), if_pos]
  · rw [logScan.eq_def]
    simp only [if_neg (show ascii '%' ≠ 0 by decide), if_pos,
      if_neg (show ascii 'l' ≠ 0 by decide)]

theorem comPuts_buf (s : CString) : comPuts s.buf = .ok s.text := comPuts_append s.noNul []

theorem logScan_percent (buf : List Byte) (args : List LogArg) :
    logScan (Item.text (.directive .percent) ++ buf) args = logRest [ascii '%'] buf args :=
  logScan_case (by decide) (by decide) buf args

/-- **A directive prints the next argument**, and the scan goes on behind it. -/
theorem logScan_directive {d : Directive} {a : LogArg} {text : List Byte}
    (h : d.render a = .ok text) (buf : List Byte) (args : List LogArg) :
    logScan (Item.text (.directive d) ++ buf) (a :: args) = logRest text buf args := by
  have hswitch : ∀ {α : Type} {va : List LogArg → Res (α × List LogArg)} {val : α}
      {print : α → Res (List Byte)}, va (a :: args) = .ok (val, args) → print val = .ok text →
      logSwitch (some (printArg va print)) buf (a :: args) = logRest text buf args := by
    intro α va val print hva hval
    have hprint : printArg va print (a :: args) = .ok (text, args) :=
      Res.bind_eq_ok.mpr ⟨_, hva, Res.bind_eq_ok.mpr ⟨_, hval, rfl⟩⟩
    show (printArg va print (a :: args) >>= _) = _
    rw [hprint]
    rfl
  cases d <;> cases a
  case char.int val => exact (logScan_case (by decide) (by decide) _ _).trans (hswitch rfl h)
  case string.str s =>
    exact (logScan_case (by decide) (by decide) _ _).trans
      (hswitch rfl ((comPuts_buf s).trans h))
  case hex.int val => exact (logScan_case (by decide) (by decide) _ _).trans (hswitch rfl h)
  case unsigned.int val => exact (logScan_case (by decide) (by decide) _ _).trans (hswitch rfl h)
  case decimal.int val => exact (logScan_case (by decide) (by decide) _ _).trans (hswitch rfl h)
  case longHex.long val => exact (logScan_caseL (by decide) _ _).trans (hswitch rfl h)
  case longUnsigned.long val => exact (logScan_caseL (by decide) _ _).trans (hswitch rfl h)
  case longDecimal.long val => exact (logScan_caseL (by decide) _ _).trans (hswitch rfl h)
  -- an argument of another type is not rendered
  all_goals cases h

/-- An argument of the type of a directive is rendered. -/
theorem Directive.render_ok {d : Directive} {a : LogArg} (h : d.kind = some a.kind) :
    ∃ text, d.render a = .ok text := by
  cases d <;> cases a
  case char.int val => exact ⟨_, rfl⟩
  case string.str s => exact ⟨_, rfl⟩
  case hex.int val => exact ⟨_, printHex_eq (by decide) val⟩
  case unsigned.int val => exact ⟨_, printUnsigned_eq (by decide) (by decide) val⟩
  case decimal.int val => exact printD_ok val
  case longHex.long val => exact ⟨_, printHex_eq (by decide) val⟩
  case longUnsigned.long val => exact ⟨_, printUnsigned_eq (by decide) (by decide) val⟩
  case longDecimal.long val => exact printLd_ok val
  all_goals cases h

/-- The scan returns at a stuck text: 0 at its end, -1 at a `%` that starts no directive. -/
theorem logScan_stuck {rest : List Byte} (h : Stuck rest) (hnul : ∀ c ∈ rest, c ≠ 0)
    (after : List Byte) (args : List LogArg) :
    logScan (rest ++ 0 :: after) args = .ok ([], if rest = [] then 0 else -1, args) := by
  rcases h with rfl | ⟨tail, rfl, hnone⟩
  · exact logScan_nul after args
  · rw [if_neg (List.cons_ne_nil _ _)]
    cases tail with
    | nil => exact (logScan_cut after args).1
    | cons c tail =>
        have h0 : c ≠ 0 := hnul c (by simp)
        by_cases hl : c = ascii 'l'
        · subst hl
          cases tail with
          | nil => exact (logScan_cut after args).2
          | cons c₂ tail =>
              have h02 : c₂ ≠ 0 := hnul c₂ (by simp)
              have hcase : logCaseL c₂ = none := by
                unfold logCaseL
                rw [if_neg, if_neg, if_neg]
                · rintro rfl
                  exact hnone .longDecimal ⟨tail, rfl⟩
                · rintro rfl
                  exact hnone .longUnsigned ⟨tail, rfl⟩
                · rintro rfl
                  exact hnone .longHex ⟨tail, rfl⟩
              show logScan (ascii '%' :: ascii 'l' :: c₂ :: (tail ++ 0 :: after)) args = _
              rw [logScan_caseL h02, hcase]
              rfl
        · have hcase : logCase c = none := by
            unfold logCase
            rw [if_neg, if_neg, if_neg, if_neg, if_neg, if_neg]
            · rintro rfl
              exact hnone .decimal ⟨tail, rfl⟩
            · rintro rfl
              exact hnone .unsigned ⟨tail, rfl⟩
            · rintro rfl
              exact hnone .hex ⟨tail, rfl⟩
            · rintro rfl
              exact hnone .string ⟨tail, rfl⟩
            · rintro rfl
              exact hnone .char ⟨tail, rfl⟩
            · rintro rfl
              exact hnone .percent ⟨tail, rfl⟩
          show logScan (ascii '%' :: c :: (tail ++ 0 :: after)) args = _
          rw [logScan_case h0 hl, hcase]
          rfl

theorem logRest_eq {out rest : List Byte} {ret : ℤ} {buf : List Byte} {args unused : List LogArg}
    (h : logScan buf args = .ok (rest, ret, unused)) :
    logRest out buf args = .ok (out ++ rest, ret, unused) :=
  Res.bind_eq_ok.mpr ⟨_, h, rfl⟩

/-- **The scan renders the items in order**, by induction on them; at each directive the arguments
split after the one it uses. -/
theorem logScan_items {rest : List Byte} (hstuck : Stuck rest) (hnul : ∀ c ∈ rest, c ≠ 0)
    (after : List Byte) : ∀ {items : List Item} {args : List LogArg}, ArgsMatch items args →
    ∃ used unused out, args = used ++ unused ∧
      used.map LogArg.kind = items.filterMap Item.kind ∧ Renders items used out ∧
      logScan (itemsText items ++ (rest ++ 0 :: after)) args =
        .ok (out, if rest = [] then 0 else -1, unused) := by
  intro items
  induction items with
  | nil =>
      intro args _
      exact ⟨[], args, [], rfl, rfl, .nil, logScan_stuck hstuck hnul after args⟩
  | cons item items ih =>
      intro args hargs
      rw [itemsText, List.flatMap_cons, List.append_assoc]
      cases item with
      | char c ordinary =>
          obtain ⟨used, unused, out, hsplit, hkinds, hout, hscan⟩ := @ih args hargs
          exact ⟨used, unused, c :: out, hsplit, hkinds, .char hout,
            (logScan_char ordinary _ args).trans (logRest_eq hscan)⟩
      | directive d =>
          cases hkind : d.kind with
          | none =>
              have hd : d = .percent := by
                cases d <;> first
                  | rfl
                  | cases hkind
              subst hd
              obtain ⟨used, unused, out, hsplit, hkinds, hout, hscan⟩ := @ih args hargs
              exact ⟨used, unused, ascii '%' :: out, hsplit, hkinds, .percent hout,
                (logScan_percent _ args).trans (logRest_eq hscan)⟩
          | some kind =>
              have hcons : (Item.directive d :: items).filterMap Item.kind =
                  kind :: items.filterMap Item.kind := List.filterMap_cons_some hkind
              rw [ArgsMatch, hcons] at hargs
              rw [hcons]
              cases args with
              | nil => exact absurd (List.prefix_nil.mp hargs) (List.cons_ne_nil _ _)
              | cons a args =>
                  obtain ⟨rfl, hrest⟩ := List.cons_prefix_cons.mp hargs
                  obtain ⟨text, htext⟩ := Directive.render_ok hkind
                  obtain ⟨used, unused, out, rfl, hkinds, hout, hscan⟩ := ih hrest
                  refine ⟨a :: used, unused, text ++ out, rfl, ?_, .arg htext hout,
                    (logScan_directive htext _ _).trans (logRest_eq hscan)⟩
                  rw [List.map_cons, hkinds]

/-- The level prefix. -/
def levelText : Option LogLevel → List Byte
  | some .info => "[INFO]: ".toList.map ascii
  | some .todo => "[TODO]: ".toList.map ascii
  | some .error => "[ERROR]: ".toList.map ascii
  | some .warning => "[WARNING]: ".toList.map ascii
  | some .none => []
  | none => "[... no log level ...] ".toList.map ascii

theorem printLevel_eq (level : Option LogLevel) : printLevel level = .ok (levelText level) := by
  rcases level with _ | _ | _ | _ | _ | _ <;> decide

/-- **`log_impl` accepts exactly its format grammar.** For a format without a zero byte, whatever
follows it in memory, and arguments that match its directives, the output is the level prefix and the
rendering of the longest list of items the format starts with; each directive other than `%%` uses
one argument; and the result is 0 exactly when the format is a list of items, else -1. -/
theorem logImpl_grammar (level : Option LogLevel) (format : CString) (after : List Byte) :
    ∃ items rest, LongestItems format.text items rest ∧ ∀ args, ArgsMatch items args →
      ∃ used unused out ret, args = used ++ unused ∧
        used.map LogArg.kind = items.filterMap Item.kind ∧ Renders items used out ∧
        logImpl level (format.text ++ 0 :: after) args =
          .ok (levelText level ++ out, ret, unused) ∧
        (ret = 0 ↔ ∃ items', format.text = itemsText items') ∧
        (ret = 0 ↔ format.text = itemsText items) ∧ (ret ≠ 0 → ret = -1) := by
  obtain ⟨items, rest, hlong⟩ := exists_longestItems _ format.text le_rfl format.noNul
  refine ⟨items, rest, hlong, ?_⟩
  intro args hargs
  have hnul : ∀ c ∈ rest, c ≠ 0 := by
    intro c hc
    apply format.noNul c
    rw [hlong.split]
    exact List.mem_append_right _ hc
  obtain ⟨used, unused, out, hsplit, hkinds, hout, hscan⟩ :=
    logScan_items hlong.stuck hnul after hargs
  rw [← List.append_assoc, ← hlong.split] at hscan
  have hitems : format.text = itemsText items ↔ rest = [] := by
    rw [hlong.split]
    exact List.append_right_eq_self
  have hret : (if rest = [] then (0 : ℤ) else -1) = 0 ↔ rest = [] := by
    split <;> simp_all
  refine ⟨used, unused, out, _, hsplit, hkinds, hout, ?_, hret.trans ⟨?_, ?_⟩,
    hret.trans hitems.symm, ?_⟩
  · exact Res.bind_eq_ok.mpr ⟨_, printLevel_eq level, Res.bind_eq_ok.mpr ⟨_, hscan, rfl⟩⟩
  · intro hrest
    exact ⟨items, hitems.mpr hrest⟩
  · rintro ⟨items', hitems'⟩
    -- another list of items would be a prefix of the longest one, and it leaves nothing over
    obtain ⟨more, rfl⟩ := hlong.longest items' [] (by rw [hitems', List.append_nil])
    have hlen := congrArg List.length (hlong.split.symm.trans hitems')
    rw [itemsText, List.flatMap_append, List.length_append, List.length_append] at hlen
    exact List.length_eq_zero_iff.mp (by unfold itemsText at hlen; omega)
  · intro hne
    rw [if_neg (fun hrest => hne (if_pos hrest))]

/-- `info("%d%%%k", 7)`: the items before the offending `%` are printed. -/
theorem logImpl_grammar_offending :
    ArgsMatch [.directive .decimal, .directive .percent] [.int 7] ∧
    ∃ out, Renders [.directive .decimal, .directive .percent] [.int 7] out ∧
      logImpl (some .info) ("%d%%%k".toList.map ascii ++ [0]) [.int 7] =
        .ok (levelText (some .info) ++ out, -1, []) := by
  have hmatch : ArgsMatch [.directive .decimal, .directive .percent] [.int 7] := ⟨[], rfl⟩
  obtain ⟨items, rest, hlong, hspec⟩ :=
    logImpl_grammar (some .info) ⟨"%d%%%k".toList.map ascii, by decide⟩ []
  have hstuck : Stuck ("%k".toList.map ascii) := by
    refine .inr ⟨[ascii 'k'], by decide, ?_⟩
    intro d
    cases d <;> decide
  have hitems : items = [.directive .decimal, .directive .percent] :=
    hlong.unique (longestItems_of_stuck (by decide) hstuck)
  subst hitems
  obtain ⟨used, unused, out, ret, hsplit, hkinds, hout, hlog, -, hret, hfail⟩ :=
    hspec [.int 7] hmatch
  obtain ⟨rfl, rfl⟩ : used = [.int 7] ∧ unused = [] := by
    cases used with
    | nil => cases hkinds
    | cons a used =>
        obtain ⟨rfl, hnil⟩ := List.cons.inj hsplit
        obtain ⟨rfl, rfl⟩ := List.append_eq_nil_iff.mp hnil.symm
        exact ⟨rfl, rfl⟩
  refine ⟨hmatch, out, hout, ?_⟩
  rw [← hfail (fun h => absurd (hret.mp h) (by decide))]
  exact hlog

end Cerberos
