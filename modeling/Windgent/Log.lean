import Windgent.OrderedSet
import Mathlib.Data.String.Basic
import Mathlib.Logic.Function.Basic
import Mathlib.Data.List.Nodup
import Mathlib.Data.List.Induction

namespace Windgent.Log

open OrderedSet

inductive Level where
  | unknown | debug | info | warn | error | fatal
deriving DecidableEq

/-- What a `LogAppender` object is: a `StdoutLogAppender` or a `FileLogAppender`. -/
inductive Sink where
  | stdout
  | file (filename : String)
deriving DecidableEq

/-- A `LogAppender`; a `LogFormatter` is given by its pattern. -/
structure Appender where
  sink : Sink
  level : Level := .debug
  hasFormatter : Bool := false
  formatter : Option String := none
deriving DecidableEq

structure Logger where
  level : Level
  formatter : String
  appenders : List Appender
deriving DecidableEq

def defaultPattern : String := "%d\x7b%Y-%m-%d %H:%M:%S\x7d%T%t%T%N%T%F%T[%p]%T[%c]%T%f:%l%T%m%n"

def Logger.new : Logger := ⟨.debug, defaultPattern, []⟩

def Appender.setFormatter (a : Appender) (formatter : Option String) : Appender :=
  { a with formatter := formatter, hasFormatter := formatter.isSome }

def Logger.addAppenders (l : Logger) (a : Appender) : Logger :=
  { l with appenders := l.appenders ++ [if a.formatter = none then { a with formatter := some l.formatter } else a] }

def Logger.clearAppenders (l : Logger) : Logger := { l with appenders := [] }

def Logger.setLevel (l : Logger) (level : Level) : Logger := { l with level := level }

def Logger.setFormatter (l : Logger) (val : String) : Logger :=
  { l with
    formatter := val
    appenders := l.appenders.map fun a => if a.hasFormatter then a else { a with formatter := some val } }

structure LogAppenderDefine where
  type : Int
  level : Level
  formatter : String
  file : String
deriving DecidableEq

structure LogDefine where
  name : String
  level : Level
  formatter : String
  appenders : List LogAppenderDefine
deriving DecidableEq

def LogDefines : Type := { l : List LogDefine // Ascending (fun a b : LogDefine => a.name < b.name) l }

instance : DecidableEq LogDefines := inferInstanceAs (DecidableEq (Subtype _))

def LogDefines.find (v : LogDefines) (i : LogDefine) : Option LogDefine :=
  OrderedSet.find (fun a b : LogDefine => a.name < b.name) i v.1

/-- `LoggerManager::m_loggers` with the loggers that `getLogger` would create. -/
abbrev Loggers := String → Logger

/-- The constructor of `LoggerManager` adds an appender to the root logger. -/
def Loggers.initial : Loggers :=
  Function.update (fun _ => Logger.new) "root" (Logger.new.addAppenders ⟨.stdout, .debug, false, none⟩)

section Listener

variable (isError : String → Bool)

def Logger.setPattern (l : Logger) (val : String) : Logger := if isError val then l else l.setFormatter val

/-- A new appender; the null pointer for the other types. -/
def newAppender (a : LogAppenderDefine) : Option Appender :=
  if a.type = 1 then some ⟨.file a.file, .debug, false, none⟩
  else if a.type = 2 then some ⟨.stdout, .debug, false, none⟩
  else none

def addDefined (l : Logger) (a : LogAppenderDefine) : Option Logger :=
  (newAppender a).map fun ap =>
    let ap := { ap with level := a.level }
    let ap := if a.formatter ≠ "" ∧ isError a.formatter = false then ap.setFormatter (some a.formatter) else ap
    l.addAppenders ap

/-- What the listener does to the logger of a definition that is new or changed. -/
def configure (i : LogDefine) (l : Logger) : Option Logger :=
  let l := l.setLevel i.level
  let l := if i.formatter ≠ "" then l.setPattern isError i.formatter else l
  i.appenders.foldlM (addDefined isError) l.clearAppenders

def applyDefine (old_val : LogDefines) (loggers : Loggers) (i : LogDefine) : Option Loggers :=
  match old_val.find i with
  | none => (configure isError i (loggers i.name)).map fun l => Function.update loggers i.name l
  | some it =>
    if i = it then some loggers
    else (configure isError i (loggers i.name)).map fun l => Function.update loggers i.name l

def deleteDefine (new_val : LogDefines) (loggers : Loggers) (i : LogDefine) : Loggers :=
  match new_val.find i with
  | none => Function.update loggers i.name ((loggers i.name).setLevel .unknown).clearAppenders
  | some _ => loggers

def onLoggerConfChanged (old_val new_val : LogDefines) (loggers : Loggers) : Option Loggers :=
  (new_val.1.foldlM (applyDefine isError old_val) loggers).map fun loggers =>
    old_val.1.foldl (deleteDefine new_val) loggers

structure State where
  val : LogDefines
  loggers : Loggers

def State.initial : State := ⟨⟨[], List.Pairwise.nil⟩, Loggers.initial⟩

def setVal (s : State) (val : LogDefines) : Option State :=
  if val = s.val then some s else (onLoggerConfChanged isError s.val val s.loggers).map fun loggers => ⟨val, loggers⟩

def assign (s : State) (vals : List LogDefines) : Option State := vals.foldlM (setVal isError) s

/-- Appenders of type 1 or 2 and formatters without errors. -/
def LogDefine.Valid (i : LogDefine) : Prop :=
  (i.formatter ≠ "" → isError i.formatter = false) ∧
    ∀ a ∈ i.appenders, (a.type = 1 ∨ a.type = 2) ∧ (a.formatter ≠ "" → isError a.formatter = false)

end Listener

def LogDefine.pattern (i : LogDefine) (inherited : String) : String :=
  if i.formatter ≠ "" then i.formatter else inherited

/-- The last formatter that the values have given to the logger of a name. -/
def lastFormatter (name : String) (vals : List LogDefines) : String :=
  vals.foldl (fun f v => ((v.1.find? fun i => i.name = name).map fun i => i.pattern f).getD f) defaultPattern

def LogAppenderDefine.appender (a : LogAppenderDefine) (inherited : String) : Appender where
  sink := if a.type = 1 then .file a.file else .stdout
  level := a.level
  hasFormatter := a.formatter ≠ ""
  formatter := some (if a.formatter ≠ "" then a.formatter else inherited)

def LogDefine.logger (i : LogDefine) (pattern : String) : Logger :=
  ⟨i.level, pattern, i.appenders.map fun a => a.appender pattern⟩

section Configure

variable {isError : String → Bool}

theorem addDefined_eq {l : Logger} {a : LogAppenderDefine} (ht : a.type = 1 ∨ a.type = 2)
    (hf : a.formatter ≠ "" → isError a.formatter = false) :
    addDefined isError l a = some { l with appenders := l.appenders ++ [a.appender l.formatter] } := by
  have hnew : newAppender a = some ⟨(a.appender l.formatter).sink, .debug, false, none⟩ := by
    obtain h1 | h2 := ht
    · simp [newAppender, LogAppenderDefine.appender, h1]
    · simp [newAppender, LogAppenderDefine.appender, h2]
  rw [addDefined, hnew, Option.map_some]
  by_cases h : a.formatter = ""
  · simp [h, Logger.addAppenders, LogAppenderDefine.appender]
  · simp [h, hf h, Logger.addAppenders, Appender.setFormatter, LogAppenderDefine.appender]

theorem foldlM_addDefined (as : List LogAppenderDefine)
    (h : ∀ a ∈ as, (a.type = 1 ∨ a.type = 2) ∧ (a.formatter ≠ "" → isError a.formatter = false)) (l : Logger) :
    as.foldlM (addDefined isError) l =
      some { l with appenders := l.appenders ++ as.map fun a => a.appender l.formatter } := by
  induction as generalizing l with
  | nil => simp
  | cons a as ih =>
    obtain ⟨ha, has⟩ := List.forall_mem_cons.mp h
    rw [List.foldlM_cons, addDefined_eq ha.1 ha.2, Option.bind_eq_bind, Option.bind_some, ih has]
    simp

theorem configure_eq {i : LogDefine} (h : i.Valid isError) (l : Logger) :
    configure isError i l = some (i.logger (i.pattern l.formatter)) := by
  rw [configure, foldlM_addDefined i.appenders h.2]
  by_cases hf : i.formatter = ""
  · simp [hf, Logger.setLevel, Logger.clearAppenders, LogDefine.logger, LogDefine.pattern]
  · simp [hf, h.1 hf, Logger.setPattern, Logger.setFormatter, Logger.setLevel, Logger.clearAppenders,
      LogDefine.logger, LogDefine.pattern]

end Configure

section Loops

theorem LogDefines.find_eq (v : LogDefines) (i : LogDefine) : v.find i = v.1.find? fun j => j.name = i.name :=
  find_key LogDefine.name v.2 i

theorem LogDefines.nodup (v : LogDefines) : (v.1.map LogDefine.name).Nodup :=
  List.Pairwise.map _ (fun _ _ hab => hab.ne) v.2

theorem LogDefines.find?_iff (v : LogDefines) {i : LogDefine} {name : String} :
    (v.1.find? fun j => j.name = name) = some i ↔ i ∈ v.1 ∧ i.name = name := by
  constructor
  · intro h
    exact ⟨List.mem_of_find?_eq_some h, by simpa using List.find?_some h⟩
  · rintro ⟨hi, rfl⟩
    cases hf : v.1.find? fun j => j.name = i.name with
    | none =>
      have := List.find?_eq_none.mp hf i hi
      simp at this
    | some j =>
      have hj := List.mem_of_find?_eq_some hf
      have hname : j.name = i.name := by simpa using List.find?_some hf
      rw [List.inj_on_of_nodup_map v.nodup hj hi hname]

theorem foldl_update (g : LogDefine → Logger → Logger) (l : List LogDefine) (h : (l.map LogDefine.name).Nodup)
    (loggers : Loggers) (name : String) :
    l.foldl (fun ls i => Function.update ls i.name (g i (ls i.name))) loggers name =
      ((l.find? fun i => i.name = name).map fun i => g i (loggers name)).getD (loggers name) := by
  induction l generalizing loggers with
  | nil => rfl
  | cons i l ih =>
    rw [List.map_cons, List.nodup_cons] at h
    rw [List.foldl_cons, ih h.2]
    by_cases hi : i.name = name
    · have hnone : (l.find? fun j => j.name = name) = none := by
        rw [List.find?_eq_none]
        intro j hj hn
        rw [decide_eq_true_eq] at hn
        exact h.1 (List.mem_map.mpr ⟨j, hj, hn.trans hi.symm⟩)
      rw [hnone, List.find?_cons_of_pos (by simpa using hi), ← hi]
      simp
    · rw [Function.update_of_ne (Ne.symm hi), List.find?_cons_of_neg (by simpa using hi)]

variable {isError : String → Bool}

def applied (old_val : LogDefines) (i : LogDefine) (l : Logger) : Logger :=
  if old_val.find i = some i then l else i.logger (i.pattern l.formatter)

def deleted (new_val : LogDefines) (i : LogDefine) (l : Logger) : Logger :=
  if new_val.find i = none then (l.setLevel .unknown).clearAppenders else l

theorem applyDefine_eq {i : LogDefine} (h : i.Valid isError) (old_val : LogDefines) (loggers : Loggers) :
    applyDefine isError old_val loggers i =
      some (Function.update loggers i.name (applied old_val i (loggers i.name))) := by
  unfold applyDefine applied
  cases hf : old_val.find i with
  | none => simp [configure_eq h]
  | some it =>
    by_cases hi : i = it
    · simp [hi]
    · simp [hi, Ne.symm hi, configure_eq h]

theorem deleteDefine_eq (new_val : LogDefines) (loggers : Loggers) (i : LogDefine) :
    deleteDefine new_val loggers i = Function.update loggers i.name (deleted new_val i (loggers i.name)) := by
  unfold deleteDefine deleted
  cases hf : new_val.find i with
  | none => simp
  | some it => simp

theorem foldlM_applyDefine (old_val : LogDefines) (l : List LogDefine) (h : ∀ i ∈ l, i.Valid isError)
    (loggers : Loggers) :
    l.foldlM (applyDefine isError old_val) loggers =
      some (l.foldl (fun ls i => Function.update ls i.name (applied old_val i (ls i.name))) loggers) := by
  induction l generalizing loggers with
  | nil => rfl
  | cons i l ih =>
    obtain ⟨hi, hl⟩ := List.forall_mem_cons.mp h
    rw [List.foldlM_cons, applyDefine_eq hi, Option.bind_eq_bind, Option.bind_some, ih hl, List.foldl_cons]

theorem onLoggerConfChanged_spec (old_val : LogDefines) {new_val : LogDefines} (h : ∀ i ∈ new_val.1, i.Valid isError)
    (loggers : Loggers) :
    ∃ ls, onLoggerConfChanged isError old_val new_val loggers = some ls ∧
      (∀ i ∈ new_val.1, ls i.name = applied old_val i (loggers i.name)) ∧
      ∀ name, (∀ i ∈ new_val.1, i.name ≠ name) → (ls name).formatter = (loggers name).formatter := by
  rw [onLoggerConfChanged, foldlM_applyDefine old_val _ h, Option.map_some]
  refine ⟨_, rfl, fun i hi => ?_, fun name hname => ?_⟩
  · simp only [funext₂ (deleteDefine_eq new_val)]
    rw [foldl_update _ _ old_val.nodup, foldl_update _ _ new_val.nodup, (new_val.find?_iff).mpr ⟨hi, rfl⟩,
      Option.map_some, Option.getD_some]
    cases hf : old_val.1.find? fun j => j.name = i.name with
    | none => rfl
    | some j =>
      obtain ⟨-, hj⟩ := (old_val.find?_iff).mp hf
      have hin : new_val.find j ≠ none := by
        rw [new_val.find_eq, hj, (new_val.find?_iff).mpr ⟨hi, rfl⟩]
        exact Option.some_ne_none i
      simp [deleted, hin]
  · have hnone : (new_val.1.find? fun j => j.name = name) = none := by
      rw [List.find?_eq_none]
      intro i hi hn
      exact hname i hi (by simpa using hn)
    simp only [funext₂ (deleteDefine_eq new_val)]
    rw [foldl_update _ _ old_val.nodup, foldl_update _ _ new_val.nodup, hnone]
    cases hf : old_val.1.find? fun j => j.name = name with
    | none => rfl
    | some j =>
      simp only [Option.map_some, Option.map_none, Option.getD_some, Option.getD_none, deleted]
      split
      · rfl
      · rfl

end Loops

section History

variable {isError : String → Bool} {s : State}

/-- The loggers of the value are as their definitions say. -/
def Current (isError : String → Bool) (s : State) : Prop :=
  ∀ i ∈ s.val.1, i.Valid isError → s.loggers i.name = i.logger (s.loggers i.name).formatter ∧
    i.pattern (s.loggers i.name).formatter = (s.loggers i.name).formatter

theorem logger_formatter (i : LogDefine) (pattern : String) : (i.logger pattern).formatter = pattern := rfl

theorem pattern_pattern (i : LogDefine) (f : String) : i.pattern (i.pattern f) = i.pattern f := by
  unfold LogDefine.pattern
  split
  · rfl
  · rfl

theorem setVal_spec (h : Current isError s) {v : LogDefines} (hv : ∀ i ∈ v.1, i.Valid isError) :
    ∃ t, setVal isError s v = some t ∧ t.val = v ∧ Current isError t ∧
      ∀ name, (t.loggers name).formatter = ((v.1.find? fun i => i.name = name).map fun i =>
        i.pattern (s.loggers name).formatter).getD (s.loggers name).formatter := by
  by_cases hsame : v = s.val
  · refine ⟨s, if_pos hsame, hsame.symm, h, fun name => ?_⟩
    cases hf : v.1.find? fun i => i.name = name with
    | none => rfl
    | some i =>
      obtain ⟨hi, rfl⟩ := (v.find?_iff).mp hf
      exact (h i (hsame ▸ hi) (hv i hi)).2.symm
  · obtain ⟨ls, hls, hin, hout⟩ := onLoggerConfChanged_spec s.val hv s.loggers
    have hlogger : ∀ i ∈ v.1, ls i.name = i.logger (i.pattern (s.loggers i.name).formatter) := by
      intro i hi
      rw [hin i hi, applied]
      split
      · rename_i hold
        rw [s.val.find_eq] at hold
        obtain ⟨h1, h2⟩ := h i ((s.val.find?_iff).mp hold).1 (hv i hi)
        rw [h2]
        exact h1
      · rfl
    refine ⟨⟨v, ls⟩, by rw [setVal, if_neg hsame, hls, Option.map_some], rfl, fun i hi _ => ?_, fun name => ?_⟩
    · dsimp only
      rw [hlogger i hi, logger_formatter, pattern_pattern]
      exact ⟨rfl, rfl⟩
    · cases hf : v.1.find? fun i => i.name = name with
      | none =>
        refine hout name fun i hi hn => ?_
        have := List.find?_eq_none.mp hf i hi
        simp [hn] at this
      | some i =>
        obtain ⟨hi, rfl⟩ := (v.find?_iff).mp hf
        dsimp only
        rw [hlogger i hi]
        rfl

theorem initial_current : Current isError State.initial := fun _ hi => nomatch hi

theorem initial_formatter (name : String) : (State.initial.loggers name).formatter = defaultPattern := by
  simp only [State.initial, Loggers.initial]
  by_cases h : name = "root"
  · rw [h, Function.update_self]
    rfl
  · rw [Function.update_of_ne h]
    rfl

/-- After any values, the loggers of the last one are as their definitions say, with the formatter
that was given last. -/
theorem assign_spec (isError : String → Bool) (vals : List LogDefines) (h : ∀ v ∈ vals, ∀ i ∈ v.1, i.Valid isError) :
    ∃ s, assign isError State.initial vals = some s ∧ Current isError s ∧
      (∀ name, (s.loggers name).formatter = lastFormatter name vals) ∧ ∀ v, vals.getLast? = some v → s.val = v := by
  induction vals using List.reverseRecOn with
  | nil => exact ⟨State.initial, rfl, initial_current, initial_formatter, fun v hv => nomatch hv⟩
  | append_singleton vals v ih =>
    obtain ⟨s, hs, hcurrent, hformatter, -⟩ := ih fun u hu => h u (List.mem_append_left _ hu)
    obtain ⟨t, ht, hval, hcurrent', hformatter'⟩ := setVal_spec hcurrent
      (h v (List.mem_append_right _ (List.mem_singleton_self v)))
    refine ⟨t, ?_, hcurrent', fun name => ?_, fun u hu => ?_⟩
    · rw [assign] at hs ⊢
      rw [List.foldlM_append, hs, Option.bind_eq_bind, Option.bind_some, List.foldlM_cons, ht]
      rfl
    · rw [hformatter', hformatter, lastFormatter, lastFormatter, List.foldl_append]
      rfl
    · rw [List.getLast?_append_cons, List.getLast?_singleton, Option.some.injEq] at hu
      exact hval.trans hu

theorem lastFormatter_append (name : String) (vals : List LogDefines) (v : LogDefines) :
    lastFormatter name (vals ++ [v]) =
      ((v.1.find? fun i => i.name = name).map fun i => i.pattern (lastFormatter name vals)).getD
        (lastFormatter name vals) := by
  rw [lastFormatter, List.foldl_append]
  rfl

theorem pattern_eq_iff (i : LogDefine) (f g : String) : i.pattern f = i.pattern g ↔ (i.formatter = "" → f = g) := by
  unfold LogDefine.pattern
  by_cases h : i.formatter = ""
  · simp [h]
  · simp [h]

/-- The loggers of the last value are as if it had been the only one, exactly if each of them that
asks for no formatter has not been given another one than the default before. -/
theorem history_independent_iff (isError : String → Bool) (vals : List LogDefines) (v : LogDefines)
    (hvals : ∀ u ∈ vals, ∀ i ∈ u.1, i.Valid isError) (hv : ∀ i ∈ v.1, i.Valid isError) :
    ∃ s t, assign isError State.initial (vals ++ [v]) = some s ∧ assign isError State.initial [v] = some t ∧
      ((∀ i ∈ v.1, s.loggers i.name = t.loggers i.name) ↔
        ∀ i ∈ v.1, i.formatter = "" → lastFormatter i.name vals = defaultPattern) := by
  have hall : ∀ u ∈ vals ++ [v], ∀ i ∈ u.1, i.Valid isError := by
    intro u hu
    obtain hu | hu := List.mem_append.mp hu
    · exact hvals u hu
    · exact (List.mem_singleton.mp hu) ▸ hv
  obtain ⟨s, hs, hcurrent, hformatter, hval⟩ := assign_spec isError (vals ++ [v]) hall
  obtain ⟨t, ht, hcurrent', hformatter', hval'⟩ := assign_spec isError [v] fun u hu => (List.mem_singleton.mp hu) ▸ hv
  refine ⟨s, t, hs, ht, forall₂_congr fun i hi => ?_⟩
  have hfind : (v.1.find? fun j => j.name = i.name) = some i := (v.find?_iff).mpr ⟨hi, rfl⟩
  have hsi := (hcurrent i ((hval v (by simp)) ▸ hi) (hv i hi)).1
  have hti := (hcurrent' i ((hval' v rfl) ▸ hi) (hv i hi)).1
  have hsf : (s.loggers i.name).formatter = i.pattern (lastFormatter i.name vals) := by
    rw [hformatter, lastFormatter_append, hfind, Option.map_some, Option.getD_some]
  have htf : (t.loggers i.name).formatter = i.pattern defaultPattern := by
    rw [hformatter', ← List.nil_append [v], lastFormatter_append, hfind]
    rfl
  rw [← pattern_eq_iff, ← hsf, ← htf]
  constructor
  · exact fun he => congrArg Logger.formatter he
  · intro he
    rw [hsi, hti, he]

end History

def oneLogger (formatter : String) : LogDefines :=
  ⟨[⟨"system", .info, formatter, []⟩], List.pairwise_singleton _ _⟩

theorem oneLogger_valid (formatter : String) : ∀ i ∈ (oneLogger formatter).1, i.Valid fun _ => false := by
  intro i hi
  obtain rfl := List.mem_singleton.mp hi
  exact ⟨fun _ => rfl, fun a ha => nomatch ha⟩

theorem history_independent_replaced : ∃ s t,
    assign (fun _ => false) State.initial [oneLogger "%m%n", oneLogger "%t%m%n"] = some s ∧
      assign (fun _ => false) State.initial [oneLogger "%t%m%n"] = some t ∧
      s.loggers "system" = t.loggers "system" := by
  obtain ⟨s, t, hs, ht, hiff⟩ := history_independent_iff (fun _ => false) [oneLogger "%m%n"] (oneLogger "%t%m%n")
    (by simpa using oneLogger_valid "%m%n") (oneLogger_valid _)
  refine ⟨s, t, hs, ht, hiff.mpr (fun i hi hf => ?_) _ List.mem_cons_self⟩
  obtain rfl := List.mem_singleton.mp hi
  exact absurd hf (by decide)

/-- The formatter is removed from the definition and stays in the logger. -/
theorem formatter_survives : ∃ s t,
    assign (fun _ => false) State.initial [oneLogger "%m%n", oneLogger ""] = some s ∧
      assign (fun _ => false) State.initial [oneLogger ""] = some t ∧
      (s.loggers "system").formatter = "%m%n" ∧ (t.loggers "system").formatter = defaultPattern ∧
      s.loggers "system" ≠ t.loggers "system" := by
  obtain ⟨s, hs, -, hsf, -⟩ := assign_spec (fun _ => false) [oneLogger "%m%n", oneLogger ""] (by
    simpa using ⟨oneLogger_valid "%m%n", oneLogger_valid ""⟩)
  obtain ⟨t, ht, -, htf, -⟩ := assign_spec (fun _ => false) [oneLogger ""] (by
    simpa using oneLogger_valid "")
  have hs' : (s.loggers "system").formatter = "%m%n" := by
    rw [hsf]
    decide
  have ht' : (t.loggers "system").formatter = defaultPattern := by
    rw [htf]
    decide
  refine ⟨s, t, hs, ht, hs', ht', fun he => ?_⟩
  rw [he, ht'] at hs'
  exact absurd hs' (by decide)

end Windgent.Log
