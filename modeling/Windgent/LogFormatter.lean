import Mathlib.Data.List.Basic
import Mathlib.Data.List.TakeWhile
import Mathlib.Data.List.Chain

namespace Windgent.LogFormatter

/-- The `FormatItem` classes, with what an object of each keeps. -/
inductive FormatItem where
  | message | level | elapse | name | threadId | newLine | fileName | line | fiberId | threadName
  | dateTime (format : List Char)
  | tab (str : List Char)
  | string (str : List Char)
deriving DecidableEq

inductive Directive where
  | message | level | elapse | name | threadId | newLine | dateTime | fileName | line | tab | fiberId | threadName
deriving DecidableEq

def Directive.create (fmt : List Char) : Directive → FormatItem
  | .message => .message
  | .level => .level
  | .elapse => .elapse
  | .name => .name
  | .threadId => .threadId
  | .newLine => .newLine
  | .dateTime => .dateTime (if fmt = [] then "%Y-%m-%d %H:%M:%S".toList else fmt)
  | .fileName => .fileName
  | .line => .line
  | .tab => .tab fmt
  | .fiberId => .fiberId
  | .threadName => .threadName

def formatItems : List (List Char × Directive) :=
  [(['m'], .message), (['p'], .level), (['r'], .elapse), (['c'], .name), (['t'], .threadId), (['n'], .newLine),
    (['d'], .dateTime), (['f'], .fileName), (['l'], .line), (['T'], .tab), (['F'], .fiberId), (['N'], .threadName)]

/-- The variables of the inner loop; `n` and `fmtBegin` count from behind the percent sign. -/
structure Scan where
  n : Nat := 0
  fmtStatus : Nat := 0
  fmtBegin : Nat := 0
  str : List Char := []
  fmt : List Char := []
deriving DecidableEq

/-- The inner loop: `text` is what follows the percent sign, and the list what of it is left at `n`. -/
def scanLoop (text : List Char) : List Char → Scan → Scan
  | [], s => s
  | c :: rest, s =>
    if s.fmtStatus = 0 ∧ ¬ c.isAlpha ∧ c ≠ '\x7b' ∧ c ≠ '\x7d' then { s with str := text.take s.n }
    else if s.fmtStatus = 0 ∧ c = '\x7b' then
      scanLoop text rest { s with str := text.take s.n, fmtStatus := 1, fmtBegin := s.n, n := s.n + 1 }
    else if s.fmtStatus = 1 ∧ c = '\x7d' then
      { s with fmt := (text.drop (s.fmtBegin + 1)).take (s.n - s.fmtBegin - 1), fmtStatus := 0, n := s.n + 1 }
    else
      scanLoop text rest { s with n := s.n + 1, str := if rest = [] ∧ s.str = [] then text else s.str }

structure Entry where
  str : List Char
  fmt : List Char
  type : Nat
deriving DecidableEq

structure State where
  vec : List Entry := []
  nstr : List Char := []
  error : Bool := false
deriving DecidableEq

def State.flush (s : State) : State :=
  if s.nstr = [] then s else { s with vec := s.vec ++ [⟨s.nstr, [], 0⟩], nstr := [] }

/-- The outer loop; `skip` characters have been consumed already. -/
def initLoop : List Char → Nat → State → State
  | [], _, s => s
  | _ :: rest, skip + 1, s => initLoop rest skip s
  | c :: rest, 0, s =>
    if c ≠ '%' then initLoop rest 0 { s with nstr := s.nstr ++ [c] }
    else if rest.head? = some '%' then initLoop rest 0 { s with nstr := s.nstr ++ ['%'] }
    else
      let r := scanLoop rest rest {}
      if r.fmtStatus = 0 then initLoop rest r.n { s.flush with vec := s.flush.vec ++ [⟨r.str, r.fmt, 1⟩] }
      else initLoop rest 0 { s with error := true, vec := s.vec ++ [⟨"pattern_error".toList, r.fmt, 0⟩] }

def Entry.item (e : Entry) : FormatItem :=
  if e.type = 0 then .string e.str
  else match formatItems.lookup e.str with
    | none => .string ("<<error_format %".toList ++ e.str ++ ">>".toList)
    | some directive => directive.create e.fmt

def Entry.unknown (e : Entry) : Bool := e.type ≠ 0 ∧ formatItems.lookup e.str = none

structure Parsed where
  items : List FormatItem
  error : Bool
deriving DecidableEq

def State.parsed (s : State) : Parsed := ⟨s.flush.vec.map Entry.item, s.error || s.flush.vec.any Entry.unknown⟩

def init (pattern : List Char) : Parsed := (initLoop pattern 0 {}).parsed

inductive Item where
  | literal (text : List Char)
  | directive (d : Directive) (fmt : Option (List Char))

def Directive.letter : Directive → Char
  | .message => 'm'
  | .level => 'p'
  | .elapse => 'r'
  | .name => 'c'
  | .threadId => 't'
  | .newLine => 'n'
  | .dateTime => 'd'
  | .fileName => 'f'
  | .line => 'l'
  | .tab => 'T'
  | .fiberId => 'F'
  | .threadName => 'N'

/-- With every percent sign doubled. -/
def escaped (text : List Char) : List Char := text.flatMap fun c => if c = '%' then ['%', '%'] else [c]

def Item.written : Item → List Char
  | .literal text => escaped text
  | .directive d none => ['%', d.letter]
  | .directive d (some fmt) => '%' :: d.letter :: '\x7b' :: fmt ++ ['\x7d']

def written (items : List Item) : List Char := items.flatMap Item.written

/-- The items, with adjacent literals merged. -/
def merged : List Item → List FormatItem
  | [] => []
  | .directive d fmt :: items => d.create (fmt.getD []) :: merged items
  | .literal text :: items =>
    match merged items with
    | .string text' :: rest => .string (text ++ text') :: rest
    | rest => .string text :: rest

def Stops (c : Char) : Prop := ¬ c.isAlpha ∧ c ≠ '\x7b' ∧ c ≠ '\x7d'

def Apart : Item → Item → Prop
  | .directive _ none, .literal text => ∀ c ∈ text.head?, Stops c
  | _, _ => True

structure WellFormed (items : List Item) : Prop where
  literal : ∀ text, .literal text ∈ items → text ≠ []
  fmt : ∀ d fmt, .directive d (some fmt) ∈ items → '\x7d' ∉ fmt
  apart : items.IsChain Apart

theorem escaped_append (text text' : List Char) : escaped (text ++ text') = escaped text ++ escaped text' :=
  List.flatMap_append

theorem escaped_of_not_mem {text : List Char} (h : '%' ∉ text) : escaped text = text := by
  induction text with
  | nil => rfl
  | cons c text ih =>
    rw [List.mem_cons, not_or] at h
    rw [escaped, List.flatMap_cons, if_neg (Ne.symm h.1)]
    exact congrArg (c :: ·) (ih h.2)

theorem escaped_replicate (k : Nat) : escaped (List.replicate k '%') = List.replicate (2 * k) '%' := by
  induction k with
  | zero => rfl
  | succ k ih =>
    rw [List.replicate_succ, escaped, List.flatMap_cons, if_pos rfl, Nat.mul_succ, List.replicate_succ,
      List.replicate_succ]
    exact congrArg (fun text => '%' :: '%' :: text) ih

theorem head_escaped (text rest : List Char) : (escaped text ++ rest).head? = (text ++ rest).head? := by
  cases text with
  | nil => rfl
  | cons c text =>
    by_cases hc : c = '%' <;> simp [escaped, hc]

theorem initLoop_skip (consumed rest : List Char) (s : State) :
    initLoop (consumed ++ rest) consumed.length s = initLoop rest 0 s := by
  induction consumed with
  | nil => rfl
  | cons c consumed ih => rw [List.cons_append, List.length_cons, initLoop, ih]

theorem initLoop_text {text : List Char} (h : '%' ∉ text) (rest : List Char) (s : State) :
    initLoop (text ++ rest) 0 s = initLoop rest 0 { s with nstr := s.nstr ++ text } := by
  induction text generalizing s with
  | nil => rw [List.append_nil, List.nil_append]
  | cons c text ih =>
    rw [List.mem_cons, not_or] at h
    rw [List.cons_append, initLoop, if_pos (Ne.symm h.1), ih h.2, List.append_assoc]
    rfl

/-- What is done at a percent sign with no percent sign behind it. -/
def State.directive (rest : List Char) (s : State) : State :=
  let r := scanLoop rest rest {}
  if r.fmtStatus = 0 then initLoop rest r.n { s.flush with vec := s.flush.vec ++ [⟨r.str, r.fmt, 1⟩] }
  else initLoop rest 0 { s with error := true, vec := s.vec ++ [⟨"pattern_error".toList, r.fmt, 0⟩] }

theorem initLoop_percent {rest : List Char} (h : rest.head? ≠ some '%') (s : State) :
    initLoop ('%' :: rest) 0 s = s.directive rest := by
  rw [initLoop, if_neg (not_not_intro rfl), if_neg h]
  rfl

/-- Of a row of percent signs the last one only begins a directive. -/
theorem initLoop_percents (k : Nat) {rest : List Char} (h : rest.head? ≠ some '%') (s : State) :
    initLoop (List.replicate (k + 1) '%' ++ rest) 0 s =
      State.directive rest { s with nstr := s.nstr ++ List.replicate k '%' } := by
  induction k generalizing s with
  | zero =>
    rw [List.replicate_zero, List.append_nil]
    exact initLoop_percent h s
  | succ k ih =>
    rw [List.replicate_succ, List.cons_append, initLoop, if_neg (not_not_intro rfl),
      if_pos (by rw [List.replicate_succ]; rfl), ih, List.append_assoc, List.replicate_succ]
    rfl

theorem isAlpha_letter (d : Directive) : d.letter.isAlpha = true := by
  cases d <;> decide

theorem lookup_letter (d : Directive) : formatItems.lookup [d.letter] = some d := by
  cases d <;> decide

theorem scan_bare {c : Char} (hc : c.isAlpha) {rest : List Char} (h : ∀ c' ∈ rest.head?, Stops c') :
    scanLoop (c :: rest) (c :: rest) {} = { n := 1, str := [c] } := by
  have hb : c ≠ '\x7b' := by rintro rfl; exact absurd hc (by decide)
  cases rest with
  | nil => simp [scanLoop, hc, hb]
  | cons c' rest =>
    have hs : Stops c' := h c' rfl
    simp [scanLoop, hc, hb, hs.1, hs.2.1, hs.2.2]

theorem scanLoop_fmt {fmt : List Char} (h : '\x7d' ∉ fmt) (text rest : List Char) {s : Scan}
    (hs : s.fmtStatus = 1) (hstr : s.str ≠ []) :
    scanLoop text (fmt ++ '\x7d' :: rest) s =
      { s with
        fmt := (text.drop (s.fmtBegin + 1)).take (s.n + fmt.length - s.fmtBegin - 1)
        fmtStatus := 0
        n := s.n + fmt.length + 1 } := by
  induction fmt generalizing s with
  | nil => simp [scanLoop, hs]
  | cons c fmt ih =>
    rw [List.mem_cons, not_or] at h
    have hn : s.n + 1 + fmt.length = s.n + (fmt.length + 1) := by omega
    rw [List.cons_append, scanLoop, if_neg (by simp [hs]), if_neg (by simp [hs]), if_neg (by simp [Ne.symm h.1]),
      if_neg (by simp [hstr]), ih h.2 (s := { s with n := s.n + 1 }) hs hstr, List.length_cons, hn]

theorem scan_braced {c : Char} (hc : c.isAlpha) {fmt : List Char} (h : '\x7d' ∉ fmt) (rest : List Char) :
    scanLoop (c :: '\x7b' :: (fmt ++ '\x7d' :: rest)) (c :: '\x7b' :: (fmt ++ '\x7d' :: rest)) {} =
      { n := fmt.length + 3, fmtBegin := 1, str := [c], fmt := fmt } := by
  have hb : c ≠ '\x7b' := by rintro rfl; exact absurd hc (by decide)
  have hn : 2 + fmt.length + 1 = fmt.length + 3 := by omega
  rw [scanLoop, if_neg (by simp [hc]), if_neg (by simp [hb]), if_neg (by simp), if_neg (by simp), scanLoop,
    if_neg (by simp), if_pos (by simp), scanLoop_fmt h _ rest rfl (by simp)]
  simp [hn]

/-- The effect of a directive as it is meant to be written. -/
def State.push (s : State) (d : Directive) (fmt : Option (List Char)) : State :=
  { s.flush with vec := s.flush.vec ++ [⟨[d.letter], fmt.getD [], 1⟩] }

theorem initLoop_directive (d : Directive) {fmt : Option (List Char)} {rest : List Char}
    (hf : ∀ f ∈ fmt, '\x7d' ∉ f) (hr : fmt = none → ∀ c ∈ rest.head?, Stops c) (s : State) :
    initLoop ((Item.directive d fmt).written ++ rest) 0 s = initLoop rest 0 (s.push d fmt) := by
  have ha := isAlpha_letter d
  have hp : d.letter ≠ '%' := by intro h; rw [h] at ha; exact absurd ha (by decide)
  cases fmt with
  | none =>
    rw [Item.written, List.cons_append, initLoop_percent (by simpa using hp), State.directive, List.cons_append,
      List.nil_append, scan_bare ha (hr rfl)]
    exact initLoop_skip [d.letter] rest (s.push d none)
  | some fmt =>
    have hw : (Item.directive d (some fmt)).written ++ rest =
        '%' :: d.letter :: '\x7b' :: (fmt ++ '\x7d' :: rest) := by
      rw [Item.written, List.append_assoc]
      rfl
    have hc : d.letter :: '\x7b' :: (fmt ++ '\x7d' :: rest) =
        (d.letter :: '\x7b' :: fmt ++ ['\x7d']) ++ rest := by simp
    have hl : fmt.length + 3 = (d.letter :: '\x7b' :: fmt ++ ['\x7d']).length := by simp
    rw [hw, initLoop_percent (by simpa using hp), State.directive, scan_braced ha (hf fmt rfl)]
    simp only [if_true]
    rw [hc, hl]
    exact initLoop_skip _ rest (s.push d (some fmt))

structure Group where
  d : Directive
  fmt : Option (List Char)
  text : List Char

def grouped : List Item → List Char × List Group
  | [] => ([], [])
  | .literal text :: items => (text ++ (grouped items).1, (grouped items).2)
  | .directive d fmt :: items => ([], ⟨d, fmt, (grouped items).1⟩ :: (grouped items).2)

def Group.written (g : Group) : List Char := (Item.directive g.d g.fmt).written ++ escaped g.text

def texts (text : List Char) : List FormatItem := if text = [] then [] else [.string text]

def Group.items (g : Group) : List FormatItem := g.d.create (g.fmt.getD []) :: texts g.text

structure Group.WellFormed (g : Group) : Prop where
  fmt : ∀ f ∈ g.fmt, '\x7d' ∉ f
  apart : g.fmt = none → ∀ c ∈ g.text.head?, Stops c

theorem written_grouped (items : List Item) :
    LogFormatter.written items = escaped (grouped items).1 ++ (grouped items).2.flatMap Group.written := by
  induction items with
  | nil => rfl
  | cons item items ih =>
    rw [LogFormatter.written, List.flatMap_cons, ← LogFormatter.written, ih]
    cases item with
    | literal text => rw [grouped, Item.written, escaped_append, List.append_assoc]
    | directive d fmt =>
      rw [grouped, List.flatMap_cons, Group.written, List.append_assoc]
      rfl

theorem create_ne_string (d : Directive) (fmt str : List Char) : d.create fmt ≠ .string str := by
  cases d <;> nofun

theorem merged_grouped {items : List Item} (h : ∀ text, .literal text ∈ items → text ≠ []) :
    merged items = texts (grouped items).1 ++ (grouped items).2.flatMap Group.items := by
  induction items with
  | nil => rfl
  | cons item items ih =>
    have hi := ih fun text ht => h text (List.mem_cons_of_mem _ ht)
    cases item with
    | directive d fmt => simp [grouped, merged, Group.items, texts, hi]
    | literal text =>
      have hne : text ≠ [] := h text List.mem_cons_self
      have happ : texts (text ++ (grouped items).1) = [.string (text ++ (grouped items).1)] := by simp [texts, hne]
      rw [merged, hi, grouped, happ]
      by_cases he : (grouped items).1 = []
      · rw [he, texts, if_pos rfl, List.nil_append, List.append_nil]
        cases hg : (grouped items).2 with
        | nil => rfl
        | cons g gs =>
          have hd := create_ne_string g.d (g.fmt.getD [])
          rw [List.flatMap_cons, Group.items]
          simp only [List.cons_append]
          split
          next text' rest heq => exact absurd (List.cons.inj heq).1 (hd text')
          next => rfl
      · rw [texts, if_neg he]
        rfl

theorem not_mem_grouped (items : List Item) :
    ('%' ∉ (grouped items).1 ∧ ∀ g ∈ (grouped items).2, '%' ∉ g.text) ↔
      ∀ text, .literal text ∈ items → '%' ∉ text := by
  induction items with
  | nil => simp [grouped]
  | cons item items ih =>
    cases item with
    | literal text => simp [grouped, ← ih, and_assoc]
    | directive d fmt => simp [grouped, ← ih]

theorem grouped_wellFormed {items : List Item} (h : WellFormed items) : ∀ g ∈ (grouped items).2, g.WellFormed := by
  induction items with
  | nil => exact fun g hg => absurd hg List.not_mem_nil
  | cons item items ih =>
    have ht : WellFormed items :=
      ⟨fun text hi => h.literal text (List.mem_cons_of_mem _ hi), fun d f hi => h.fmt d f (List.mem_cons_of_mem _ hi),
        h.apart.tail⟩
    cases item with
    | literal text => exact ih ht
    | directive d fmt =>
      refine List.forall_mem_cons.mpr ⟨⟨fun f hf => ?_, fun hn => ?_⟩, ih ht⟩
      · exact h.fmt d f (by rw [← Option.mem_def.mp hf]; exact List.mem_cons_self)
      · subst hn
        -- the literal right behind the letter, if there is one
        cases items with
        | nil => exact fun c hc => absurd hc (by simp [grouped])
        | cons item items =>
          cases item with
          | directive d' fmt' => exact fun c hc => absurd hc (by simp [grouped])
          | literal text =>
            have happ : ∀ c ∈ text.head?, Stops c := h.apart.rel
            have hne : text ≠ [] := h.literal text (by simp)
            rwa [grouped, List.head?_append_of_ne_nil _ hne]

theorem texts_append (s : State) : s.flush.vec.map Entry.item = s.vec.map Entry.item ++ texts s.nstr := by
  by_cases h : s.nstr = [] <;> simp [State.flush, texts, h, Entry.item]

theorem unknown_flush (s : State) : s.flush.vec.any Entry.unknown = s.vec.any Entry.unknown := by
  by_cases h : s.nstr = [] <;> simp [State.flush, h, Entry.unknown]

theorem push_items (s : State) (d : Directive) (fmt : Option (List Char)) :
    (s.push d fmt).vec.map Entry.item = s.vec.map Entry.item ++ texts s.nstr ++ [d.create (fmt.getD [])] := by
  simp [State.push, texts_append, Entry.item, lookup_letter]

theorem push_unknown (s : State) (d : Directive) (fmt : Option (List Char)) :
    (s.push d fmt).vec.any Entry.unknown = s.vec.any Entry.unknown := by
  simp [State.push, unknown_flush, Entry.unknown, lookup_letter]

theorem push_nstr (s : State) (d : Directive) (fmt : Option (List Char)) : (s.push d fmt).nstr = [] := by
  by_cases h : s.nstr = [] <;> simp [State.push, State.flush, h]

theorem push_error (s : State) (d : Directive) (fmt : Option (List Char)) : (s.push d fmt).error = s.error := by
  by_cases h : s.nstr = [] <;> simp [State.push, State.flush, h]

theorem directive_cases (rest : List Char) (s : State) :
    (∃ skip str fmt, s.directive rest = initLoop rest skip { s.flush with vec := s.flush.vec ++ [⟨str, fmt, 1⟩] }) ∨
      ∃ fmt, s.directive rest =
        initLoop rest 0 { s with error := true, vec := s.vec ++ [⟨"pattern_error".toList, fmt, 0⟩] } := by
  by_cases h : (scanLoop rest rest {}).fmtStatus = 0
  · exact Or.inl ⟨_, _, _, by rw [State.directive]; simp only [if_pos h]; rfl⟩
  · exact Or.inr ⟨_, by rw [State.directive]; simp only [if_neg h]; rfl⟩

/-- What is in `vec` stays, and so does an error. -/
structure Extends (s t : State) : Prop where
  vec : s.vec <+: t.vec
  error : s.error = true → t.error = true

theorem Extends.trans {s t u : State} (h : Extends s t) (h' : Extends t u) : Extends s u :=
  ⟨h.vec.trans h'.vec, fun he => h'.error (h.error he)⟩

theorem extends_flush (s : State) : Extends s s.flush := by
  by_cases h : s.nstr = []
  · rw [State.flush, if_pos h]
    exact ⟨List.prefix_refl s.vec, id⟩
  · rw [State.flush, if_neg h]
    exact ⟨List.prefix_append _ _, id⟩

theorem extends_initLoop (pattern : List Char) (skip : Nat) (s : State) : Extends s (initLoop pattern skip s) := by
  induction pattern generalizing skip s with
  | nil => exact ⟨List.prefix_refl s.vec, id⟩
  | cons c rest ih =>
    cases skip with
    | succ skip => exact ih skip s
    | zero =>
      by_cases hc : c = '%'
      · subst hc
        by_cases hr : rest.head? = some '%'
        · rw [initLoop, if_neg (not_not_intro rfl), if_pos hr]
          refine Extends.trans ?_ (ih 0 _)
          exact ⟨List.prefix_refl s.vec, id⟩
        · rw [initLoop_percent hr]
          obtain ⟨skip, str, fmt, h⟩ | ⟨fmt, h⟩ := directive_cases rest s
          · rw [h]
            refine (extends_flush s).trans (Extends.trans ?_ (ih skip _))
            exact ⟨List.prefix_append _ _, id⟩
          · rw [h]
            refine Extends.trans ?_ (ih 0 _)
            exact ⟨List.prefix_append _ _, fun _ => rfl⟩
      · rw [initLoop, if_pos hc]
        refine Extends.trans ?_ (ih 0 _)
        exact ⟨List.prefix_refl s.vec, id⟩

theorem directive_parsed (rest : List Char) (s : State) :
    (s.directive rest).parsed.error = true ∨
      ∃ item more, (s.directive rest).parsed.items = s.vec.map Entry.item ++ texts s.nstr ++ item :: more := by
  obtain ⟨skip, str, fmt, h⟩ | ⟨fmt, h⟩ := directive_cases rest s
  · right
    have hext := (extends_initLoop rest skip { s.flush with vec := s.flush.vec ++ [⟨str, fmt, 1⟩] }).trans
      (extends_flush _)
    obtain ⟨more, hm⟩ := hext.vec
    refine ⟨Entry.item ⟨str, fmt, 1⟩, more.map Entry.item, ?_⟩
    rw [h, State.parsed, ← hm, List.map_append, List.map_append, texts_append, List.append_assoc]
    rfl
  · left
    have hext := (extends_initLoop rest 0
      { s with error := true, vec := s.vec ++ [⟨"pattern_error".toList, fmt, 0⟩] }).error rfl
    rw [h, State.parsed, hext, Bool.true_or]

theorem exists_percents {text : List Char} (h : '%' ∈ text) :
    ∃ before k after, '%' ∉ before ∧ after.head? ≠ some '%' ∧
      text = before ++ (List.replicate (k + 1) '%' ++ after) := by
  obtain ⟨before, rest, rfl, hb⟩ := List.eq_append_cons_of_mem h
  have htake : rest.takeWhile (· = '%') = List.replicate (rest.takeWhile (· = '%')).length '%' :=
    List.eq_replicate_of_mem fun c hc => by simpa using List.mem_takeWhile_imp hc
  refine ⟨before, (rest.takeWhile (· = '%')).length, rest.dropWhile (· = '%'), hb, fun hd => ?_, ?_⟩
  · have := List.head?_dropWhile_not (· = '%') rest
    rw [hd] at this
    simp at this
  · rw [List.replicate_succ, List.cons_append, ← htake, List.takeWhile_append_dropWhile]

/-- The percent signs that the code collects are the ones that are meant only when a single one
ends the text. -/
theorem percents_inj {k : Nat} {after : List Char} (h : after.head? ≠ some '%')
    (he : List.replicate (2 * k + 1) '%' = List.replicate (k + 1) '%' ++ after) : after = [] := by
  have hsplit : 2 * k + 1 = (k + 1) + k := by omega
  rw [hsplit, List.replicate_add, List.append_cancel_left_eq] at he
  cases k with
  | zero => exact he.symm
  | succ k => exact absurd (congrArg List.head? he.symm) h

theorem Group.written_eq (g : Group) : ∃ tail, g.written = '%' :: g.d.letter :: tail := by
  rw [Group.written]
  cases g.fmt with
  | none => exact ⟨escaped g.text, rfl⟩
  | some fmt => exact ⟨_, by simp [Item.written]; rfl⟩

theorem text_of_directive {rest text : List Char} {s : State} {items : List FormatItem} (hs : s.nstr ≠ [])
    (ht : text ≠ [])
    (h : (s.directive rest).parsed = ⟨s.vec.map Entry.item ++ (texts text ++ items), false⟩) :
    s.nstr = text ∧ items ≠ [] := by
  obtain herr | ⟨item, more, hitems⟩ := directive_parsed rest s
  · rw [h] at herr
    exact absurd herr (by simp)
  · rw [h, List.append_assoc, List.append_cancel_left_eq, texts, texts, if_neg hs, if_neg ht] at hitems
    obtain ⟨htext, hitems⟩ := List.cons.inj hitems
    exact ⟨(FormatItem.string.inj htext).symm, by simp [show items = item :: more from hitems]⟩

theorem parsed_ne (s : State) {text : List Char} (h : '%' ∈ text) (gs : List Group) :
    (initLoop (escaped text ++ gs.flatMap Group.written) 0 s).parsed ≠
      ⟨s.vec.map Entry.item ++ (texts (s.nstr ++ text) ++ gs.flatMap Group.items), false⟩ := by
  have htext : text ≠ [] := List.ne_nil_of_mem h
  obtain ⟨before, k, after, hb, ha, rfl⟩ := exists_percents h
  have hk : 2 * (k + 1) = 2 * k + 1 + 1 := by omega
  rw [escaped_append, escaped_append, escaped_of_not_mem hb, escaped_replicate, List.append_assoc, initLoop_text hb,
    List.append_assoc]
  intro heq
  by_cases hr : (escaped after ++ gs.flatMap Group.written).head? = some '%'
  · -- the text ends with them, and a directive follows: all of them are collected
    obtain rfl : after = [] := by
      cases after with
      | nil => rfl
      | cons c after =>
        rw [head_escaped] at hr
        exact absurd hr ha
    cases gs with
    | nil => exact absurd hr (by simp [escaped])
    | cons g gs =>
      obtain ⟨tail, hg⟩ := g.written_eq
      have hp : g.d.letter ≠ '%' := fun hl => absurd (isAlpha_letter g.d) (by rw [hl]; decide)
      have hrow : List.replicate (2 * (k + 1)) '%' ++ (escaped [] ++ (g :: gs).flatMap Group.written) =
          List.replicate (2 * (k + 1) + 1) '%' ++ (g.d.letter :: (tail ++ gs.flatMap Group.written)) := by
        rw [List.flatMap_cons, hg, List.replicate_succ']
        simp [escaped]
      rw [hrow, initLoop_percents _ (by simpa using hp)] at heq
      have hlen := congrArg List.length (text_of_directive (by simp) (by simp) heq).1
      simp only [List.length_append, List.length_replicate, List.length_nil] at hlen
      omega
  · rw [hk, initLoop_percents _ hr] at heq
    obtain ⟨hrow, hitems⟩ := text_of_directive (by simp) (by simp) heq
    simp only [List.append_assoc, List.append_cancel_left_eq] at hrow
    obtain rfl : after = [] := percents_inj ha hrow
    cases gs with
    | nil => exact hitems rfl
    | cons g gs =>
      obtain ⟨tail, hg⟩ := g.written_eq
      exact hr (by simp [escaped, hg])

theorem stops_percent : Stops '%' := ⟨by decide, by decide, by decide⟩

theorem Group.WellFormed.stops {g : Group} (h : g.WellFormed) (hn : g.fmt = none) (gs : List Group) :
    ∀ c ∈ (escaped g.text ++ gs.flatMap Group.written).head?, Stops c := by
  intro c hc
  rw [head_escaped] at hc
  cases ht : g.text with
  | cons c' text =>
    rw [ht] at hc
    exact h.apart hn c (by rwa [ht])
  | nil =>
    rw [ht, List.nil_append] at hc
    cases gs with
    | nil => exact absurd hc (by simp)
    | cons g' gs =>
      obtain ⟨tail, hg⟩ := g'.written_eq
      rw [List.flatMap_cons, hg] at hc
      exact Option.some.inj hc ▸ stops_percent

/-- With `s` what the loop has done so far. -/
theorem parsed_groups_iff {gs : List Group} (h : ∀ g ∈ gs, g.WellFormed) (text : List Char) {s : State}
    (he : s.error = false) (hu : s.vec.any Entry.unknown = false) :
    (initLoop (escaped text ++ gs.flatMap Group.written) 0 s).parsed =
        ⟨s.vec.map Entry.item ++ (texts (s.nstr ++ text) ++ gs.flatMap Group.items), false⟩ ↔
      '%' ∉ text ∧ ∀ g ∈ gs, '%' ∉ g.text := by
  induction gs generalizing text s with
  | nil =>
    by_cases ht : '%' ∈ text
    · exact iff_of_false (parsed_ne s ht []) fun h => h.1 ht
    · refine iff_of_true ?_ ⟨ht, fun g hg => absurd hg List.not_mem_nil⟩
      rw [escaped_of_not_mem ht, initLoop_text ht, List.flatMap_nil, initLoop, State.parsed, texts_append,
        unknown_flush]
      simp [he, hu]
  | cons g gs ih =>
    by_cases ht : '%' ∈ text
    · exact iff_of_false (parsed_ne s ht (g :: gs)) fun h => h.1 ht
    · have hg : g.WellFormed := h g List.mem_cons_self
      -- the state in which the group's own text begins
      let u := State.push { s with nstr := s.nstr ++ text } g.d g.fmt
      have hrun : initLoop (escaped text ++ (g :: gs).flatMap Group.written) 0 s =
          initLoop (escaped g.text ++ gs.flatMap Group.written) 0 u := by
        rw [escaped_of_not_mem ht, initLoop_text ht, List.flatMap_cons, Group.written, List.append_assoc]
        exact initLoop_directive g.d hg.fmt (fun hn => hg.stops hn gs) _
      have hitems : s.vec.map Entry.item ++ (texts (s.nstr ++ text) ++ (g :: gs).flatMap Group.items) =
          u.vec.map Entry.item ++ (texts (u.nstr ++ g.text) ++ gs.flatMap Group.items) := by
        rw [push_items, push_nstr, List.flatMap_cons, Group.items]
        simp
      rw [hrun, hitems, ih (fun g hg => h g (List.mem_cons_of_mem _ hg)) g.text (by rwa [push_error])
        (by rwa [push_unknown]), List.forall_mem_cons]
      exact ⟨fun hgs => ⟨ht, hgs⟩, fun hgs => hgs.2⟩

theorem init_written_iff {items : List Item} (h : WellFormed items) :
    init (written items) = ⟨merged items, false⟩ ↔ ∀ text, .literal text ∈ items → '%' ∉ text := by
  rw [← not_mem_grouped, merged_grouped h.literal, written_grouped, init]
  exact parsed_groups_iff (grouped_wellFormed h) (grouped items).1 (s := {}) rfl rfl

def bracketed : List Item :=
  [.literal ['['], .directive .level none, .literal [']', ' '], .directive .dateTime (some ['%', 'H']),
    .directive .newLine none]

theorem bracketed_wellFormed : WellFormed bracketed where
  literal := by simp [bracketed]
  fmt := by simp [bracketed]
  apart := by simp [bracketed, Apart, Stops]

theorem init_of_bracketed :
    init (written bracketed) =
      ⟨[.string ['['], .level, .string [']', ' '], .dateTime ['%', 'H'], .newLine], false⟩ :=
  (init_written_iff bracketed_wellFormed).mpr (by simp [bracketed])

/-- The literal `a%b`, written `a%%b`. -/
theorem percent_unescaped :
    WellFormed [.literal ['a', '%', 'b']] ∧
      init (written [.literal ['a', '%', 'b']]) =
        ⟨[.string ['a', '%'], .string ("<<error_format %".toList ++ ['b'] ++ ">>".toList)], true⟩ ∧
      merged [.literal ['a', '%', 'b']] = [.string ['a', '%', 'b']] :=
  ⟨⟨by simp, by simp, by simp⟩, by decide, rfl⟩

end Windgent.LogFormatter
