import Windgent.LexicalCast
import Windgent.LogFormatter

namespace Windgent.Log

open OrderedSet LexicalCast

section Model

variable (emit : Yaml String → String) (load : String → Option (Yaml String))

def Sink.fields : Sink → List (String × Yaml String)
  | .stdout => [("type", .scalar "StdoutLogAppender")]
  | .file filename => [("type", .scalar "FileLogAppender"), ("file", .scalar filename)]

def Appender.node (a : Appender) : Yaml String :=
  assigned <| a.sink.fields ++ levelField a.level ++
    if a.hasFormatter then (a.formatter.map fun p => ("formatter", .scalar p)).toList else []

def Appender.toYamlString (a : Appender) : String := emit a.node

def Logger.toYamlString (name : String) (l : Logger) : Option String := do
  let appenders ← l.appenders.mapM fun i => load (i.toYamlString emit)
  some (emit (assigned ([("name", .scalar name)] ++ levelField l.level ++ [("formatter", .scalar l.formatter)] ++
    if appenders = [] then [] else [("appenders", .seq appenders)])))

/-- `LoggerManager::toYamlString`: the loop over `m_loggers`, in the order of the names. -/
def toYamlString (loggers : List (String × Logger)) : Option String := do
  let nodes ← loggers.mapM fun i => do load (← i.2.toYamlString emit load i.1)
  some (emit (pushed nodes))

def logDefines : Cast LogDefines := set emit load byName (logDefine emit load)

end Model

def patternError (pattern : String) : Bool := (LogFormatter.init pattern.toList).error

def Appender.define (a : Appender) : LogAppenderDefine where
  type := match a.sink with
    | .file _ => 1
    | .stdout => 2
  level := a.level
  formatter := if a.hasFormatter then a.formatter.getD "" else ""
  file := match a.sink with
    | .file filename => filename
    | .stdout => ""

def Logger.define (name : String) (l : Logger) : LogDefine :=
  ⟨name, l.level, l.formatter, l.appenders.map Appender.define⟩

def Good (p : String) : Prop := p ≠ "" ∧ patternError p = false

/-- An appender has a good formatter, which is that of its logger if it is not its own. -/
def Appender.Tidy (inherited : String) (a : Appender) : Prop :=
  ∃ p, a.formatter = some p ∧ Good p ∧ (a.hasFormatter = false → p = inherited)

structure Logger.Tidy (l : Logger) : Prop where
  formatter : Good l.formatter
  appenders : ∀ a ∈ l.appenders, a.Tidy l.formatter

def Logger.unleveled (l : Logger) : Logger :=
  { l with appenders := l.appenders.map fun a => { a with level := .unknown } }

section Tidy

variable {a : Appender} {l : Logger}

theorem good_default : Good defaultPattern := by
  constructor
  · decide
  · decide +kernel

theorem Logger.Tidy.new : Logger.new.Tidy := ⟨good_default, by simp [Logger.new]⟩

theorem Logger.Tidy.clear (h : l.Tidy) (level : Level) : ((l.setLevel level).clearAppenders).Tidy :=
  ⟨h.formatter, by simp [Logger.clearAppenders]⟩

theorem Logger.Tidy.addDefined (h : l.Tidy) {d : LogAppenderDefine} {l' : Logger}
    (hd : addDefined patternError l d = some l') : l'.Tidy := by
  obtain ⟨ap, hap, rfl⟩ := Option.map_eq_some_iff.mp hd
  have hnew : ap.hasFormatter = false ∧ ap.formatter = none := by
    unfold newAppender at hap
    split at hap
    · cases hap
      exact ⟨rfl, rfl⟩
    · split at hap
      · cases hap
        exact ⟨rfl, rfl⟩
      · cases hap
  refine ⟨h.formatter, fun a ha => ?_⟩
  obtain ha | ha := List.mem_append.mp ha
  · exact h.appenders a ha
  · obtain rfl := List.mem_singleton.mp ha
    by_cases hown : d.formatter ≠ "" ∧ patternError d.formatter = false
    · exact ⟨d.formatter, by simp [hown, Appender.setFormatter], hown, fun hnot => by
        simp [hown, Appender.setFormatter] at hnot⟩
    · exact ⟨l.formatter, by simp [hown, hnew], h.formatter, fun _ => rfl⟩

theorem Logger.Tidy.configure (h : l.Tidy) {i : LogDefine} {l' : Logger}
    (hc : configure patternError i l = some l') : l'.Tidy := by
  have hpattern : (if i.formatter ≠ "" then (l.setLevel i.level).setPattern patternError i.formatter
      else l.setLevel i.level).clearAppenders.Tidy := by
    refine ⟨?_, by simp [Logger.clearAppenders]⟩
    by_cases hne : i.formatter = ""
    · simpa [hne, Logger.clearAppenders, Logger.setLevel] using h.formatter
    · cases he : patternError i.formatter with
      | true => simpa [hne, he, Logger.clearAppenders, Logger.setLevel, Logger.setPattern] using h.formatter
      | false =>
        have hgood : Good i.formatter := ⟨hne, he⟩
        simpa [hne, he, Logger.clearAppenders, Logger.setPattern, Logger.setFormatter] using hgood
  rw [Log.configure] at hc
  generalize (if i.formatter ≠ "" then (l.setLevel i.level).setPattern patternError i.formatter
    else l.setLevel i.level).clearAppenders = l₀ at hc hpattern
  generalize i.appenders = ds at hc
  induction ds generalizing l₀ with
  | nil =>
    obtain rfl := Option.some.inj hc
    exact hpattern
  | cons d ds ih =>
    rw [List.foldlM_cons, Option.bind_eq_bind, Option.bind_eq_some_iff] at hc
    obtain ⟨l₁, hd, hc⟩ := hc
    exact ih l₁ (hpattern.addDefined hd) hc

theorem initial_tidy (name : String) : (Loggers.initial name).Tidy := by
  by_cases h : name = "root"
  · rw [Loggers.initial, h, Function.update_self]
    refine ⟨good_default, fun a ha => ?_⟩
    obtain rfl : a = ⟨.stdout, .debug, false, some defaultPattern⟩ := by
      simpa [Logger.addAppenders, Logger.new] using ha
    exact ⟨defaultPattern, rfl, good_default, fun _ => rfl⟩
  · rw [Loggers.initial, Function.update_of_ne h]
    exact .new

def appliedTo (old_val : LogDefines) (i : LogDefine) (l : Logger) : Option Logger :=
  if old_val.find i = some i then some l else configure patternError i l

theorem applyDefine_appliedTo (old_val : LogDefines) (loggers : Loggers) (i : LogDefine) :
    applyDefine patternError old_val loggers i =
      (appliedTo old_val i (loggers i.name)).map (Function.update loggers i.name) := by
  unfold applyDefine appliedTo
  cases hf : old_val.find i with
  | none => rfl
  | some it =>
    by_cases hi : i = it
    · simp [hi]
    · simp [hi, Ne.symm hi]

theorem foldlM_update {g : LogDefine → Logger → Option Logger} {is : List LogDefine}
    (hnames : (is.map LogDefine.name).Nodup) {ls ls' : Loggers}
    (h : is.foldlM (fun ls i => (g i (ls i.name)).map (Function.update ls i.name)) ls = some ls') :
    (∀ i ∈ is, g i (ls i.name) = some (ls' i.name)) ∧ ∀ name, name ∉ is.map LogDefine.name → ls' name = ls name := by
  induction is generalizing ls with
  | nil =>
    obtain rfl := Option.some.inj h
    exact ⟨by simp, fun _ _ => rfl⟩
  | cons i is ih =>
    rw [List.foldlM_cons, Option.bind_eq_bind, Option.bind_eq_some_iff] at h
    obtain ⟨ls₁, hi, h⟩ := h
    obtain ⟨l, hl, rfl⟩ := Option.map_eq_some_iff.mp hi
    rw [List.map_cons, List.nodup_cons] at hnames
    obtain ⟨hin, hout⟩ := ih hnames.2 h
    refine ⟨fun j hj => ?_, fun name hname => ?_⟩
    · obtain rfl | hj := List.mem_cons.mp hj
      · rw [hl, hout _ hnames.1, Function.update_self]
      · have hne : j.name ≠ i.name := fun he => hnames.1 (he ▸ List.mem_map_of_mem hj)
        have := hin j hj
        rwa [Function.update_of_ne hne] at this
    · rw [List.map_cons, List.mem_cons, not_or] at hname
      rw [hout name hname.2, Function.update_of_ne hname.1]

/-- What a value that differs from the last one makes of the loggers. -/
theorem setVal_loggers {s t : State} {v : LogDefines} (hne : v ≠ s.val) (ht : setVal patternError s v = some t) :
    t.val = v ∧ (∀ i ∈ v.1, appliedTo s.val i (s.loggers i.name) = some (t.loggers i.name)) ∧
      ∀ name, name ∉ v.1.map LogDefine.name → t.loggers name = s.loggers name ∨
        t.loggers name = ((s.loggers name).setLevel .unknown).clearAppenders := by
  rw [setVal, if_neg hne, onLoggerConfChanged] at ht
  obtain ⟨ls', hls', rfl⟩ := Option.map_eq_some_iff.mp ht
  obtain ⟨ls, hls, rfl⟩ := Option.map_eq_some_iff.mp hls'
  rw [funext₂ (applyDefine_appliedTo s.val)] at hls
  obtain ⟨hin, hout⟩ := foldlM_update v.nodup hls
  simp only [funext₂ (deleteDefine_eq v), true_and]
  refine ⟨fun i hi => ?_, fun name hname => ?_⟩
  · rw [hin i hi, foldl_update _ _ s.val.nodup]
    cases hf : s.val.1.find? fun j => j.name = i.name with
    | none => rfl
    | some j =>
      obtain ⟨-, hj⟩ := (s.val.find?_iff).mp hf
      have hthere : v.find j ≠ none := by
        rw [v.find_eq, hj, (v.find?_iff).mpr ⟨hi, rfl⟩]
        exact Option.some_ne_none i
      simp [deleted, hthere]
  · rw [← hout name hname, foldl_update _ _ s.val.nodup]
    cases hf : s.val.1.find? fun j => j.name = name with
    | none => exact .inl rfl
    | some j =>
      simp only [Option.map_some, Option.getD_some, deleted]
      split
      · exact .inr rfl
      · exact .inl rfl

/-- The listener leaves every logger with a good formatter, and its appenders too. -/
theorem setVal_tidy {s t : State} (h : ∀ name, (s.loggers name).Tidy) {v : LogDefines}
    (ht : setVal patternError s v = some t) (name : String) : (t.loggers name).Tidy := by
  by_cases hsame : v = s.val
  · rw [setVal, if_pos hsame] at ht
    obtain rfl := Option.some.inj ht
    exact h name
  · obtain ⟨-, hin, hout⟩ := setVal_loggers hsame ht
    by_cases hname : name ∈ v.1.map LogDefine.name
    · obtain ⟨i, hi, rfl⟩ := List.mem_map.mp hname
      have happlied := hin i hi
      unfold appliedTo at happlied
      split at happlied
      · rw [← Option.some.inj happlied]
        exact h i.name
      · exact (h i.name).configure happlied
    · obtain he | he := hout name hname
      · exact he ▸ h name
      · exact he ▸ (h name).clear .unknown

theorem setVal_current {s t : State} (h : Current patternError s) {v : LogDefines}
    (ht : setVal patternError s v = some t) : Current patternError t := by
  by_cases hsame : v = s.val
  · rw [setVal, if_pos hsame] at ht
    obtain rfl := Option.some.inj ht
    exact h
  · obtain ⟨rfl, hin, -⟩ := setVal_loggers hsame ht
    intro i hi hvalid
    have happlied := hin i hi
    unfold appliedTo at happlied
    split at happlied
    · rename_i hold
      rw [s.val.find_eq] at hold
      rw [← Option.some.inj happlied]
      exact h i ((s.val.find?_iff).mp hold).1 hvalid
    · rw [configure_eq hvalid] at happlied
      rw [← Option.some.inj happlied, logger_formatter, pattern_pattern]
      exact ⟨rfl, rfl⟩

theorem assign_tidy {vals : List LogDefines} {s t : State} (h : ∀ name, (s.loggers name).Tidy)
    (hcurrent : Current patternError s) (ht : assign patternError s vals = some t) :
    (∀ name, (t.loggers name).Tidy) ∧ Current patternError t := by
  induction vals generalizing s with
  | nil =>
    obtain rfl := Option.some.inj ht
    exact ⟨h, hcurrent⟩
  | cons v vals ih =>
    rw [assign, List.foldlM_cons, Option.bind_eq_bind, Option.bind_eq_some_iff] at ht
    obtain ⟨u, hu, ht⟩ := ht
    exact ih (setVal_tidy h hu) (setVal_current hcurrent hu) ht

end Tidy

section Documents

variable {emit : Yaml String → String} {load : String → Option (Yaml String)} {a : Appender} {l : Logger}

theorem define_type (a : Appender) : a.define.type = 1 ∨ a.define.type = 2 := by
  cases h : a.sink <;> simp [Appender.define, h]

theorem Appender.Tidy.node_define {inherited : String} (h : a.Tidy inherited) : a.define.node = a.node := by
  obtain ⟨p, hp, ⟨hne, -⟩, -⟩ := h
  cases hs : a.sink <;> cases hf : a.hasFormatter <;>
    simp [LogAppenderDefine.node, Appender.node, Appender.define, Sink.fields, optional, hs, hf, hp, hne]

theorem Appender.Tidy.appender_read {inherited : String} (h : a.Tidy inherited) :
    a.define.read.appender inherited = { a with level := .unknown } := by
  obtain ⟨p, hp, ⟨hne, -⟩, hinherited⟩ := h
  obtain ⟨sink, level, hasFormatter, formatter⟩ := a
  obtain rfl : formatter = some p := hp
  cases hasFormatter with
  | false =>
    obtain rfl := hinherited rfl
    cases sink <;> simp [Appender.define, LogAppenderDefine.read, LogAppenderDefine.appender]
  | true => cases sink <;> simp [Appender.define, LogAppenderDefine.read, LogAppenderDefine.appender, hne]

def Logger.reread (name : String) (l : Logger) : LogDefine :=
  { l.define name with appenders := (l.define name).appenders.map LogAppenderDefine.read }

theorem Logger.Tidy.logger_reread (h : l.Tidy) (name : String) : (l.reread name).logger l.formatter = l.unleveled := by
  have happenders : (l.reread name).appenders.map (fun a => a.appender l.formatter) =
      l.appenders.map fun a => { a with level := .unknown } := by
    simp only [Logger.reread, Logger.define, List.map_map]
    exact List.map_congr_left fun a ha => (h.appenders a ha).appender_read
  rw [LogDefine.logger, happenders]
  rfl

theorem Logger.Tidy.valid_reread (h : l.Tidy) (name : String) : (l.reread name).Valid patternError := by
  refine ⟨fun _ => h.formatter.2, fun d hd => ?_⟩
  obtain ⟨e, he, rfl⟩ := List.mem_map.mp hd
  obtain ⟨a, ha, rfl⟩ := List.mem_map.mp he
  refine ⟨define_type a, fun hne => ?_⟩
  obtain ⟨p, hp, hgood, -⟩ := h.appenders a ha
  have hown : a.define.read.formatter = if a.hasFormatter then p else "" := by
    simp [LogAppenderDefine.read, Appender.define, hp]
  rw [hown] at hne ⊢
  cases hf : a.hasFormatter with
  | false => simp [hf] at hne
  | true => exact hgood.2

theorem Logger.Tidy.toYamlString_eq (h : l.Tidy) (name : String)
    (hload : ∀ a ∈ l.appenders, load (emit a.node) = some a.node) :
    l.toYamlString emit load name = some (emit (l.define name).node) := by
  have hnodes : l.appenders.mapM (fun i => load (i.toYamlString emit)) = some (l.appenders.map Appender.node) := by
    refine mapM_eq_some ?_
    rw [List.forall₂_map_right_iff, List.forall₂_same]
    exact hload
  have hdefine : (l.define name).appenders.map LogAppenderDefine.node = l.appenders.map Appender.node := by
    simp only [Logger.define, List.map_map]
    exact List.map_congr_left fun a ha => (h.appenders a ha).node_define
  have hnode : (l.define name).node =
      assigned ([("name", .scalar name)] ++ levelField l.level ++ [("formatter", .scalar l.formatter)] ++
        if l.appenders.map Appender.node = [] then [] else [("appenders", .seq (l.appenders.map Appender.node))]) := by
    have hformatter : (l.define name).formatter ≠ "" := h.formatter.1
    rw [LogDefine.node, appendersField, hdefine, optional, if_neg hformatter]
    simp [Logger.define]
  rw [hnode, Logger.toYamlString, hnodes]
  rfl

end Documents

section Restore

variable (emit : Yaml String → String) (load : String → Option (Yaml String))

/-- YAML reads the documents of these loggers as they were written. -/
structure Read (ls : List (String × Logger)) : Prop where
  appenders : ∀ i ∈ ls, ∀ a ∈ i.2.appenders, load (emit a.node) = some a.node
  loggers : ∀ i ∈ ls, load (emit (i.2.define i.1).node) = some (i.2.define i.1).node
  all : load (emit (pushed (ls.map fun i => (i.2.define i.1).node))) =
    some (pushed (ls.map fun i => (i.2.define i.1).node))

variable {emit load}

/-- The text of some loggers, and the value that it gives to `logs`. -/
theorem toYamlString_spec {loggers : List (String × Logger)} (hsorted : (loggers.map Prod.fst).Pairwise (· < ·))
    (h : ∀ i ∈ loggers, i.2.Tidy) (hread : Read emit load loggers) :
    ∃ str v, toYamlString emit load loggers = some str ∧ (logDefines emit load).fromStr str = some v ∧
      v.1 = loggers.map fun i => i.2.reread i.1 := by
  have hnodes : loggers.mapM (fun i => do load (← i.2.toYamlString emit load i.1)) =
      some (loggers.map fun i => (i.2.define i.1).node) := by
    refine mapM_eq_some ?_
    rw [List.forall₂_map_right_iff, List.forall₂_same]
    intro i hi
    rw [(h i hi).toYamlString_eq i.1 (hread.appenders i hi)]
    exact hread.loggers i hi
  have hitems : fromItems emit load (logDefine emit load) (emit (pushed (loggers.map fun i => (i.2.define i.1).node))) =
      some (loggers.map fun i => i.2.reread i.1) := by
    rw [fromItems, hread.all]
    refine (congrArg _ (elements_pushed _)).trans (mapM_eq_some ?_)
    rw [List.forall₂_map_right_iff, List.forall₂_map_left_iff, List.forall₂_same]
    intro i hi
    have hof := logDefineOf_node (v := i.2.define i.1) fun a ha => by
      obtain ⟨b, -, rfl⟩ := List.mem_map.mp ha
      exact define_type b
    simp only [logDefine, LogDefine.ofYaml, hread.loggers i hi, Option.bind_some]
    exact hof
  have hascending : Ascending byName.lt (loggers.map fun i => i.2.reread i.1) := by
    rw [List.pairwise_map] at hsorted
    exact List.Pairwise.map _ (fun _ _ hlt => hlt) hsorted
  refine ⟨_, ⟨_, hascending⟩, by rw [toYamlString, hnodes]; rfl, ?_, rfl⟩
  change Option.map _ (fromItems emit load _ _) = _
  rw [hitems, Option.map_some]
  exact congrArg some (foldl_loop (.refl _))

variable (emit load)

/-- The text that the log manager prints in one process, loaded as the `logs` value in another,
gives there the same loggers but for the levels of the appenders, whatever values the listeners of
both have come through. -/
theorem toYamlString_restores {vals vals' : List LogDefines} {s t : State}
    (hs : assign patternError State.initial vals = some s) (ht : assign patternError State.initial vals' = some t)
    {names : List String} (hnames : names.Pairwise (· < ·))
    (hread : Read emit load (names.map fun name => (name, s.loggers name))) :
    ∃ str v u, toYamlString emit load (names.map fun name => (name, s.loggers name)) = some str ∧
      (logDefines emit load).fromStr str = some v ∧ setVal patternError t v = some u ∧
      ∀ name ∈ names, u.loggers name = (s.loggers name).unleveled := by
  obtain ⟨htidy, -⟩ := assign_tidy initial_tidy initial_current hs
  obtain ⟨-, hcurrent⟩ := assign_tidy initial_tidy initial_current ht
  have hall : ∀ i ∈ names.map fun name => (name, s.loggers name), i.2.Tidy := by
    intro i hi
    obtain ⟨name, -, rfl⟩ := List.mem_map.mp hi
    exact htidy name
  have hfst : (names.map fun name => (name, s.loggers name)).map Prod.fst = names := by
    rw [List.map_map]
    exact List.map_id names
  obtain ⟨str, v, hstr, hfrom, hval⟩ := toYamlString_spec (hfst.symm ▸ hnames) hall hread
  rw [List.map_map] at hval
  have hvalid : ∀ i ∈ v.1, i.Valid patternError := by
    intro i hi
    rw [hval] at hi
    obtain ⟨name, -, rfl⟩ := List.mem_map.mp hi
    exact (htidy name).valid_reread name
  obtain ⟨u, hu, huval, hucurrent, hformatter⟩ := setVal_spec hcurrent hvalid
  refine ⟨str, v, u, hstr, hfrom, hu, fun name hname => ?_⟩
  have hmem : (s.loggers name).reread name ∈ v.1 := by
    rw [hval]
    exact List.mem_map.mpr ⟨name, hname, rfl⟩
  have hfind : (v.1.find? fun i => i.name = name) = some ((s.loggers name).reread name) :=
    (v.find?_iff).mpr ⟨hmem, rfl⟩
  have hpattern : (u.loggers name).formatter = (s.loggers name).formatter := by
    rw [hformatter, hfind, Option.map_some, Option.getD_some, LogDefine.pattern]
    exact if_pos (htidy name).formatter.1
  have hlogger := (hucurrent _ (huval.symm ▸ hmem) (hvalid _ hmem)).1
  rw [show ((s.loggers name).reread name).name = name from rfl, hpattern] at hlogger
  exact hlogger.trans ((htidy name).logger_reread name)

end Restore

section Root

def rootAppenderText : String := "type: StdoutLogAppender\nlevel: DEBUG"

def rootText : String :=
  "name: root\nlevel: DEBUG\nformatter: \"%d\x7b%Y-%m-%d %H:%M:%S\x7d%T%t%T%N%T%F%T[%p]%T[%c]%T%f:%l%T%m%n\"\n" ++
    "appenders:\n  - type: StdoutLogAppender\n    level: DEBUG"

def loggersText : String :=
  "- name: root\n  level: DEBUG\n  formatter: \"%d\x7b%Y-%m-%d %H:%M:%S\x7d%T%t%T%N%T%F%T[%p]%T[%c]%T%f:%l%T%m%n\"\n" ++
    "  appenders:\n    - type: StdoutLogAppender\n      level: DEBUG"

def emitRoot : Yaml String → String
  | .map entries => if (entries.lookup "name").isSome then rootText else rootAppenderText
  | _ => loggersText

def rootAppender : Appender := ⟨.stdout, .debug, false, some defaultPattern⟩

def rootNode : Yaml String := (Logger.define "root" ⟨.debug, defaultPattern, [rootAppender]⟩).node

def loadRoot (str : String) : Option (Yaml String) :=
  if str = rootAppenderText then some rootAppender.node
  else if str = rootText then some rootNode
  else if str = loggersText then some (pushed [rootNode])
  else none

theorem read_root : Read emitRoot loadRoot [("root", Loggers.initial "root")] := by
  have hroot : Loggers.initial "root" = ⟨.debug, defaultPattern, [rootAppender]⟩ := rfl
  have h₁ : rootText ≠ rootAppenderText := by decide +kernel
  have h₂ : loggersText ≠ rootAppenderText := by decide +kernel
  have h₃ : loggersText ≠ rootText := by decide +kernel
  rw [hroot]
  refine ⟨?_, ?_, (if_neg h₂).trans ((if_neg h₃).trans (if_pos rfl))⟩
  · intro i hi a ha
    obtain rfl := List.mem_singleton.mp hi
    obtain rfl := List.mem_singleton.mp ha
    exact if_pos rfl
  · intro i hi
    obtain rfl := List.mem_singleton.mp hi
    exact (if_neg h₁).trans (if_pos rfl)

theorem toYamlString_restores_root : ∃ t str v u,
    assign patternError State.initial [oneLogger "%m%n"] = some t ∧
      toYamlString emitRoot loadRoot [("root", Loggers.initial "root")] = some str ∧
      (logDefines emitRoot loadRoot).fromStr str = some v ∧ setVal patternError t v = some u ∧
      u.loggers "root" = ⟨.debug, defaultPattern, [⟨.stdout, .unknown, false, some defaultPattern⟩]⟩ := by
  have hvalid : ∀ v ∈ [oneLogger "%m%n"], ∀ i ∈ v.1, i.Valid patternError := by
    intro v hv i hi
    obtain rfl := List.mem_singleton.mp hv
    obtain rfl := List.mem_singleton.mp hi
    exact ⟨fun _ => by decide +kernel, by simp⟩
  obtain ⟨t, ht, -⟩ := assign_spec patternError [oneLogger "%m%n"] hvalid
  have hs : assign patternError State.initial [] = some State.initial := rfl
  obtain ⟨str, v, u, hstr, hv, hu, hall⟩ := toYamlString_restores emitRoot loadRoot hs ht
    (List.pairwise_singleton _ "root") read_root
  exact ⟨t, str, v, u, ht, hstr, hv, hu, hall "root" (List.mem_singleton_self _)⟩

end Root

end Windgent.Log
