import Windgent.LogFormatter
import Windgent.Transition
import Mathlib.Logic.Function.Basic

namespace Windgent.Appenders

open Transition

structure Formatter where
  address : Nat
  pattern : List Char
deriving DecidableEq

def Formatter.isError (f : Formatter) : Bool := (LogFormatter.init f.pattern).error

structure Appender where
  formatter : Option Formatter := none
  hasFormatter : Bool := false
deriving DecidableEq

variable {L A : Type}

/-- The loggers and the appenders, which several loggers may share. -/
structure State (L A : Type) where
  formatter : L → Option Formatter
  appenders : L → List A
  appender : A → Appender
  -- The logger that the appender was last added to.
  lastAdded : A → Option L

inductive Op (L A : Type) where
  | addAppenders (l : L) (appender : A)
  | delAppenders (l : L) (appender : A)
  | clearAppenders (l : L)
  -- `Logger::setFormatter(LogFormatter::ptr)`
  | setFormatter (l : L) (val : Option Formatter)
  -- `Logger::setFormatter(std::string)`, with the object made of the string
  | setPattern (l : L) (new_val : Formatter)
  -- `LogAppender::setFormatter`
  | setAppenderFormatter (a : A) (formatter : Option Formatter)
deriving DecidableEq

section Steps

variable [DecidableEq L] [DecidableEq A]

def State.addAppenders (s : State L A) (l : L) (a : A) : State L A :=
  { s with
    appender :=
      if (s.appender a).formatter = none then
        Function.update s.appender a { s.appender a with formatter := s.formatter l }
      else s.appender
    appenders := Function.update s.appenders l (s.appenders l ++ [a])
    lastAdded := Function.update s.lastAdded a (some l) }

def State.delAppenders (s : State L A) (l : L) (a : A) : State L A :=
  { s with appenders := Function.update s.appenders l ((s.appenders l).erase a) }

def State.clearAppenders (s : State L A) (l : L) : State L A :=
  { s with appenders := Function.update s.appenders l [] }

/-- The loop of `Logger::setFormatter`. -/
def inherit (val : Option Formatter) : List A → (A → Appender) → A → Appender
  | [], ap => ap
  | i :: is, ap =>
    inherit val is (if (ap i).hasFormatter then ap else Function.update ap i { ap i with formatter := val })

def State.setFormatter (s : State L A) (l : L) (val : Option Formatter) : State L A :=
  { s with
    formatter := Function.update s.formatter l val
    appender := inherit val (s.appenders l) s.appender }

def State.setAppenderFormatter (s : State L A) (a : A) (formatter : Option Formatter) : State L A :=
  { s with appender := Function.update s.appender a ⟨formatter, formatter.isSome⟩ }

def step (s : State L A) : Op L A → State L A
  | .addAppenders l a => s.addAppenders l a
  | .delAppenders l a => s.delAppenders l a
  | .clearAppenders l => s.clearAppenders l
  | .setFormatter l val => s.setFormatter l val
  | .setPattern l new_val => if new_val.isError then s else s.setFormatter l (some new_val)
  | .setAppenderFormatter a formatter => s.setAppenderFormatter a formatter

/-- No call fails. -/
def perform (s : State L A) (op : Op L A) : Option (State L A) := some (step s op)

end Steps

/-- The formatters that the appenders of a logger use for an event that no level holds back,
those of the root without any of its own; none when one of them is null. -/
def State.log (s : State L A) (root : Option L) (l : L) : Option (List Formatter) :=
  let appenders := if s.appenders l = [] then root.elim [] s.appenders else s.appenders l
  appenders.mapM fun a => (s.appender a).formatter

def State.fresh (formatter : L → Formatter) : State L A where
  formatter l := some (formatter l)
  appenders _ := []
  appender _ := {}
  lastAdded _ := none

def Attached (s : State L A) (a : A) : Prop := ∃ l, a ∈ s.appenders l

/-- The appender has a formatter, and without one of its own that of the logger which it
was last added to. -/
structure Formatted (s : State L A) (a : A) : Prop where
  formatter : (s.appender a).formatter ≠ none
  inherited : (s.appender a).hasFormatter = false →
    ∃ l, s.lastAdded a = some l ∧ (s.appender a).formatter = s.formatter l

def Intact (s : State L A) : Prop := ∀ a, Attached s a → Formatted s a

/-- A new formatter of the logger reaches the appenders that have to get it, and no others. -/
def Suits (s : State L A) (l : L) (val : Option Formatter) : Prop :=
  ∀ a, Attached s a → (s.appender a).hasFormatter = false →
    (a ∈ s.appenders l → val ≠ none ∧ (s.lastAdded a = some l ∨ ∃ m, s.lastAdded a = some m ∧ s.formatter m = val)) ∧
    (a ∉ s.appenders l → s.lastAdded a = some l → s.formatter l = val)

/-- The steps that leave the appenders intact. -/
def Fine (s : State L A) : Op L A → Prop
  | .addAppenders l a =>
    (s.appender a).hasFormatter = true ∨
      s.formatter l ≠ none ∧ ((s.appender a).formatter = none ∨ (s.appender a).formatter = s.formatter l)
  | .delAppenders _ _ | .clearAppenders _ => True
  | .setFormatter l val => Suits s l val
  | .setPattern l new_val => new_val.isError = true ∨ Suits s l (some new_val)
  | .setAppenderFormatter a formatter => Attached s a → formatter ≠ none

def Owned (s : State L A) : Prop := ∀ a, (s.appender a).hasFormatter = true → (s.appender a).formatter ≠ none

/-- What is expected of every state: no event makes `log` follow a null pointer. -/
def Sound (s : State L A) : Prop := Intact s ∧ ∀ root l, s.log root l ≠ none

section Frame

variable {s t : State L A} {a : A}

theorem Formatted.congr (ha : t.appender a = s.appender a) (hl : t.lastAdded a = s.lastAdded a)
    (hf : t.formatter = s.formatter) (h : Formatted s a) : Formatted t a := by
  refine ⟨ha ▸ h.formatter, fun hno => ?_⟩
  obtain ⟨l, hlast, heq⟩ := h.inherited (ha ▸ hno)
  exact ⟨l, hl.trans hlast, by rw [ha, hf, heq]⟩

theorem Intact.sound (h : Intact s) : Sound s := by
  have hmap : ∀ as : List A, (∀ a ∈ as, Attached s a) → as.mapM (fun a => (s.appender a).formatter) ≠ none := by
    intro as has
    induction as with
    | nil => exact Option.some_ne_none _
    | cons a as ih =>
      obtain ⟨ha, has⟩ := List.forall_mem_cons.mp has
      obtain ⟨f, hf⟩ := Option.ne_none_iff_exists'.mp (h a ha).formatter
      obtain ⟨fs, hfs⟩ := Option.ne_none_iff_exists'.mp (ih has)
      simp [List.mapM_cons, hf, hfs]
  refine ⟨h, fun root l => hmap _ fun a ha => ?_⟩
  split at ha
  · cases root with
    | none => cases ha
    | some r => exact ⟨r, ha⟩
  · exact ⟨l, ha⟩

theorem intact_fresh (f : L → Formatter) : Intact (State.fresh f : State L A) := by
  rintro a ⟨l, hl⟩
  cases hl

theorem owned_fresh (f : L → Formatter) : Owned (State.fresh f : State L A) := fun _ hhas => nomatch hhas

theorem Intact.mono (ha : t.appender = s.appender) (hl : t.lastAdded = s.lastAdded) (hf : t.formatter = s.formatter)
    (hsub : ∀ a, Attached t a → Attached s a) (h : Intact s) : Intact t :=
  fun a hatt => (h a (hsub a hatt)).congr (congrFun ha a) (congrFun hl a) hf

end Frame

variable [DecidableEq L] [DecidableEq A] {s t : State L A} {l : L} {a b : A} {val : Option Formatter}

theorem inherit_apply (val : Option Formatter) (is : List A) (ap : A → Appender) (a : A) :
    inherit val is ap a =
      if a ∈ is ∧ (ap a).hasFormatter = false then { ap a with formatter := val } else ap a := by
  induction is generalizing ap with
  | nil => simp [inherit]
  | cons i is ih =>
    rw [inherit, ih]
    by_cases hi : a = i
    · subst hi
      cases hap : (ap a).hasFormatter <;> simp [hap]
    · have hsame :
          (if (ap i).hasFormatter then ap else Function.update ap i { ap i with formatter := val }) a = ap a := by
        split
        · rfl
        · exact Function.update_of_ne hi _ _
      simp [hsame, hi]

section Adding

theorem attached_addAppenders : Attached (s.addAppenders l a) b ↔ Attached s b ∨ b = a := by
  have hmem : ∀ m, b ∈ (s.addAppenders l a).appenders m ↔ b ∈ s.appenders m ∨ (m = l ∧ b = a) := by
    intro m
    by_cases hm : m = l <;> simp [State.addAppenders, hm]
  simp [Attached, hmem, exists_or]

theorem addAppenders_appender_self :
    (s.addAppenders l a).appender a =
      if (s.appender a).formatter = none then { s.appender a with formatter := s.formatter l } else s.appender a := by
  unfold State.addAppenders
  split <;> simp [*]

theorem addAppenders_appender_of_ne (h : b ≠ a) : (s.addAppenders l a).appender b = s.appender b := by
  unfold State.addAppenders
  split
  · exact Function.update_of_ne h _ _
  · rfl

theorem formatted_added (ho : Owned s) : Formatted (s.addAppenders l a) a ↔ Fine s (.addAppenders l a) := by
  have hlast : (s.addAppenders l a).lastAdded a = some l := Function.update_self ..
  have hap := addAppenders_appender_self (s := s) (l := l) (a := a)
  have hown := ho a
  constructor
  · intro h
    cases hhas : (s.appender a).hasFormatter with
    | true => exact .inl hhas
    | false =>
      have hno : ((s.addAppenders l a).appender a).hasFormatter = false := by
        rw [hap]
        split <;> exact hhas
      obtain ⟨m, hm, heq⟩ := h.inherited hno
      obtain rfl := Option.some.inj (hlast.symm.trans hm)
      have hne := h.formatter
      rw [heq] at hne
      refine .inr ⟨hne, ?_⟩
      by_cases hnone : (s.appender a).formatter = none
      · exact .inl hnone
      · rw [hap, if_neg hnone] at heq
        exact .inr heq
  · intro h
    by_cases hnone : (s.appender a).formatter = none
    · rw [if_pos hnone] at hap
      have hne : s.formatter l ≠ none := h.elim (fun hhas => absurd hnone (hown hhas)) And.left
      refine ⟨by rw [hap]; exact hne, fun _ => ⟨l, hlast, by rw [hap]; rfl⟩⟩
    · rw [if_neg hnone] at hap
      refine ⟨by rw [hap]; exact hnone, fun hno => ⟨l, hlast, ?_⟩⟩
      rw [hap] at hno ⊢
      obtain hhas | ⟨-, hfresh | hsame⟩ := h
      · rw [hno] at hhas
        cases hhas
      · exact absurd hfresh hnone
      · exact hsame

theorem intact_addAppenders (ho : Owned s) (h : Intact s) :
    Intact (s.addAppenders l a) ↔ Fine s (.addAppenders l a) := by
  rw [← formatted_added ho]
  constructor
  · intro ht
    exact ht a (attached_addAppenders.mpr (.inr rfl))
  · intro ha b hb
    by_cases hba : b = a
    · exact hba ▸ ha
    · have hs := (attached_addAppenders.mp hb).resolve_right hba
      exact (h b hs).congr (addAppenders_appender_of_ne hba) (Function.update_of_ne hba _ _) rfl

end Adding

section Removing

omit [DecidableEq A] in
theorem attached_of_clearAppenders (h : Attached (s.clearAppenders l) b) : Attached s b := by
  obtain ⟨m, hm⟩ := h
  refine ⟨m, ?_⟩
  by_cases hml : m = l <;> simp_all [State.clearAppenders]

theorem attached_of_delAppenders (h : Attached (s.delAppenders l a) b) : Attached s b := by
  obtain ⟨m, hm⟩ := h
  refine ⟨m, ?_⟩
  by_cases hml : m = l
  · subst hml
    simp only [State.delAppenders, Function.update_self] at hm
    exact List.mem_of_mem_erase hm
  · simpa [State.delAppenders, hml] using hm

end Removing

section Formats

theorem setFormatter_appender :
    (s.setFormatter l val).appender a =
      if a ∈ s.appenders l ∧ (s.appender a).hasFormatter = false then { s.appender a with formatter := val }
      else s.appender a :=
  inherit_apply val _ _ a

theorem setFormatter_hasFormatter :
    ((s.setFormatter l val).appender a).hasFormatter = (s.appender a).hasFormatter := by
  rw [setFormatter_appender]
  split <;> rfl

theorem formatted_reached (hno : (s.appender a).hasFormatter = false) (hmem : a ∈ s.appenders l) :
    Formatted (s.setFormatter l val) a ↔
      val ≠ none ∧ (s.lastAdded a = some l ∨ ∃ m, s.lastAdded a = some m ∧ s.formatter m = val) := by
  have hap : (s.setFormatter l val).appender a = _ := setFormatter_appender
  rw [if_pos ⟨hmem, hno⟩] at hap
  constructor
  · intro h
    obtain ⟨m, hm, heq⟩ := h.inherited (setFormatter_hasFormatter.trans hno)
    have hne := h.formatter
    rw [hap] at heq hne
    refine ⟨hne, ?_⟩
    by_cases hml : m = l
    · exact .inl (hml ▸ hm)
    · refine .inr ⟨m, hm, ?_⟩
      simpa [State.setFormatter, hml] using heq.symm
  · rintro ⟨hne, hlast⟩
    refine ⟨by rw [hap]; exact hne, fun _ => ?_⟩
    rw [hap]
    obtain hl | ⟨m, hm, heq⟩ := hlast
    · exact ⟨l, hl, by simp [State.setFormatter]⟩
    · refine ⟨m, hm, ?_⟩
      by_cases hml : m = l <;> simp [State.setFormatter, hml, heq]

theorem formatted_missed (hf : Formatted s a) (hno : (s.appender a).hasFormatter = false) (hmem : a ∉ s.appenders l) :
    Formatted (s.setFormatter l val) a ↔ (s.lastAdded a = some l → s.formatter l = val) := by
  have hap : (s.setFormatter l val).appender a = _ := setFormatter_appender
  rw [if_neg fun hc => hmem hc.1] at hap
  obtain ⟨m, hm, heq⟩ := hf.inherited hno
  constructor
  · intro h hlast
    obtain ⟨m', hm', heq'⟩ := h.inherited (setFormatter_hasFormatter.trans hno)
    obtain rfl : m = l := Option.some.inj (hm.symm.trans hlast)
    obtain rfl : m' = m := Option.some.inj (hm'.symm.trans hlast)
    rw [hap, heq] at heq'
    simpa [State.setFormatter] using heq'
  · intro h
    refine ⟨by rw [hap]; exact hf.formatter, fun _ => ⟨m, hm, ?_⟩⟩
    rw [hap, heq]
    by_cases hml : m = l
    · subst hml
      simp [State.setFormatter, h hm]
    · simp [State.setFormatter, hml]

theorem formatted_own (hf : Formatted s a) (hhas : (s.appender a).hasFormatter = true) :
    Formatted (s.setFormatter l val) a := by
  have hap : (s.setFormatter l val).appender a = _ := setFormatter_appender
  rw [if_neg (by simp [hhas])] at hap
  refine ⟨by rw [hap]; exact hf.formatter, fun hno => ?_⟩
  rw [hap, hhas] at hno
  cases hno

theorem intact_setFormatter (h : Intact s) : Intact (s.setFormatter l val) ↔ Suits s l val := by
  constructor
  · intro ht a ha hno
    exact ⟨fun hmem => (formatted_reached hno hmem).mp (ht a ha),
      fun hmem => (formatted_missed (h a ha) hno hmem).mp (ht a ha)⟩
  · intro hs a ha
    cases hhas : (s.appender a).hasFormatter with
    | true => exact formatted_own (h a ha) hhas
    | false =>
      obtain ⟨hreach, hmiss⟩ := hs a ha hhas
      by_cases hmem : a ∈ s.appenders l
      · exact (formatted_reached hhas hmem).mpr (hreach hmem)
      · exact (formatted_missed (h a ha) hhas hmem).mpr (hmiss hmem)

omit [DecidableEq L] in
theorem intact_setAppenderFormatter (h : Intact s) :
    Intact (s.setAppenderFormatter a val) ↔ (Attached s a → val ≠ none) := by
  have hself : (s.setAppenderFormatter a val).appender a = ⟨val, val.isSome⟩ := Function.update_self ..
  constructor
  · intro ht ha
    have hne := (ht a ha).formatter
    rwa [hself] at hne
  · intro hf b hb
    by_cases hba : b = a
    · subst hba
      have hne := hf hb
      refine ⟨by rwa [hself], fun hno => ?_⟩
      rw [hself] at hno
      exact absurd (Option.isSome_eq_false_iff.mp hno) (by simpa using hne)
    · exact (h b hb).congr (Function.update_of_ne hba _ _) rfl rfl

end Formats

section Runs

theorem Owned.step (h : Owned s) (op : Op L A) : Owned (step s op) := by
  have hset : ∀ l val, Owned (s.setFormatter l val) := fun l val a hhas => by
    rw [setFormatter_hasFormatter] at hhas
    rw [setFormatter_appender, if_neg (by simp [hhas])]
    exact h a hhas
  cases op with
  | addAppenders l a =>
    intro b hhas
    by_cases hba : b = a
    · subst hba
      rw [Appenders.step, addAppenders_appender_self] at hhas ⊢
      split at hhas
      · rename_i hnone
        exact absurd hnone (h b hhas)
      · rename_i hne
        rwa [if_neg hne]
    · rw [Appenders.step, addAppenders_appender_of_ne hba] at hhas ⊢
      exact h b hhas
  | delAppenders l a => exact h
  | clearAppenders l => exact h
  | setFormatter l val => exact hset l val
  | setPattern l new_val =>
    rw [Appenders.step]
    split
    · exact h
    · exact hset l _
  | setAppenderFormatter a formatter =>
    intro b hhas
    by_cases hba : b = a
    · subst hba
      simp only [Appenders.step, State.setAppenderFormatter, Function.update_self] at hhas ⊢
      exact Option.isSome_iff_ne_none.mp hhas
    · simp only [Appenders.step, State.setAppenderFormatter, Function.update_of_ne hba] at hhas ⊢
      exact h b hhas

/-- One step, exactly. -/
theorem intact_step (ho : Owned s) (h : Intact s) (op : Op L A) : Intact (step s op) ↔ Fine s op := by
  cases op with
  | addAppenders l a => exact intact_addAppenders ho h
  | delAppenders l a =>
    exact iff_of_true (Intact.mono (s := s) rfl rfl rfl (fun _ => attached_of_delAppenders) h) trivial
  | clearAppenders l =>
    exact iff_of_true (Intact.mono (s := s) rfl rfl rfl (fun _ => attached_of_clearAppenders) h) trivial
  | setFormatter l val => exact intact_setFormatter h
  | setPattern l new_val =>
    rw [step, Fine]
    cases hp : new_val.isError with
    | true => simpa using h
    | false => simpa using intact_setFormatter h
  | setAppenderFormatter a formatter => exact intact_setAppenderFormatter h

theorem sound_runs (f : L → Formatter) (ops : List (Op L A)) :
    Throughout perform Sound (State.fresh f) ops ↔ Along perform Fine (State.fresh f) ops := by
  refine throughout_iff_along (I := Owned) ?_ ?_ (owned_fresh f) (intact_fresh f).sound ops
  · intro s op t ho ht
    obtain rfl := Option.some.inj ht
    exact ho.step op
  · intro s op t ho hs ht
    obtain rfl := Option.some.inj ht
    rw [← intact_step ho hs.1 op]
    exact ⟨And.left, Intact.sound⟩

end Runs

def message : Formatter := ⟨0, ['%', 'm']⟩

def line : Formatter := ⟨1, ['%', 'm', '%', 'n']⟩

/-- An attached appender that gives its formatter up has none, and one that comes back keeps
the formatter that its logger had. -/
theorem appenders_broken :
    (¬ Throughout perform Sound (State.fresh fun _ => message : State Unit Unit)
      [.addAppenders () (), .setAppenderFormatter () none]) ∧
    ¬ Throughout perform Sound (State.fresh fun _ => message : State Unit Unit)
      [.addAppenders () (), .delAppenders () (), .setFormatter () (some line), .addAppenders () ()] := by
  constructor
  · rintro ⟨-, h⟩
    obtain ⟨-, h⟩ := h _ rfl
    exact (h _ rfl).2 none () rfl
  · rintro ⟨-, h⟩
    obtain ⟨-, h⟩ := h _ rfl
    obtain ⟨-, h⟩ := h _ rfl
    obtain ⟨-, h⟩ := h _ rfl
    obtain ⟨⟨⟩, -, hl⟩ := ((h _ rfl).1 () ⟨(), by decide⟩).inherited rfl
    exact absurd hl (by decide)

end Windgent.Appenders
