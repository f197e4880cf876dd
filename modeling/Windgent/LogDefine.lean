import Windgent.Log
import Windgent.Yaml
import Mathlib.Data.List.Forall2

namespace Windgent.Log

def Level.toString : Level → String
  | .debug => "DEBUG"
  | .info => "INFO"
  | .warn => "WARN"
  | .error => "ERROR"
  | .fatal => "FATAL"
  | .unknown => "UNKNOWN"

def Level.fromString (str : String) : Level :=
  if str = "debug" then .debug
  else if str = "info" then .info
  else if str = "warn" then .warn
  else if str = "error" then .error
  else if str = "fatal" then .fatal
  else if str = "DEBUG" then .debug
  else if str = "INFO" then .info
  else if str = "WARN" then .warn
  else if str = "ERROR" then .error
  else if str = "FATAL" then .fatal
  else .unknown

/-- `node[key]`, if it is defined; a scalar throws. -/
def field (key : String) : Yaml String → Option (Option (Yaml String))
  | .scalar _ => none
  | .map entries => some (entries.lookup key)
  | _ => some none

/-- `node.as<std::string>()`, which throws when the node is not a scalar. -/
def asString : Yaml String → Option String
  | .scalar text => some text
  | _ => none

def fieldOr (key absent : String) (node : Yaml String) : Option String := do
  match ← field key node with
  | none => some absent
  | some value => asString value

/-- `node[0]` up to `node[node.size() - 1]`; a map is searched for the number. -/
def elements : Yaml String → List (Yaml String)
  | .seq items => items
  | .map entries => (List.range entries.length).map fun j => (entries.lookup (Nat.repr j)).getD .null
  | _ => []

/-- The body of the loop over the appenders; it may leave one out. -/
def appenderOf (a : Yaml String) : Option (Option LogAppenderDefine) := do
  match ← field "type" a with
  | none => some none
  | some type =>
    let type ← asString type
    if type = "FileLogAppender" then
      match ← field "file" a with
      | none => some none
      | some file =>
        let file ← asString file
        let formatter ← fieldOr "formatter" "" a
        some (some ⟨1, .unknown, formatter, file⟩)
    else if type = "StdoutLogAppender" then
      let formatter ← fieldOr "formatter" "" a
      some (some ⟨2, .unknown, formatter, ""⟩)
    else some none

def logDefineOf (n : Yaml String) : Option LogDefine := do
  match ← field "name" n with
  | none => none
  | some name =>
    let name ← asString name
    let level ← fieldOr "level" "" n
    let formatter ← fieldOr "formatter" "" n
    let appenders ← field "appenders" n
    let appenders ← (appenders.elim [] elements).mapM appenderOf
    some ⟨name, Level.fromString level, formatter, appenders.reduceOption⟩

def optional (key text : String) : List (String × Yaml String) := if text = "" then [] else [(key, .scalar text)]

def levelField (level : Level) : List (String × Yaml String) :=
  if level = .unknown then [] else [("level", .scalar level.toString)]

/-- A node that is assigned to by keys only. -/
def assigned (entries : List (String × Yaml String)) : Yaml String := if entries = [] then .null else .map entries

def LogAppenderDefine.node (a : LogAppenderDefine) : Yaml String :=
  assigned <|
    (if a.type = 1 then [("type", .scalar "FileLogAppender"), ("file", .scalar a.file)]
      else if a.type = 2 then [("type", .scalar "StdoutLogAppender")] else []) ++
    levelField a.level ++ optional "formatter" a.formatter

def appendersField (as : List LogAppenderDefine) : List (String × Yaml String) :=
  if as = [] then [] else [("appenders", .seq (as.map LogAppenderDefine.node))]

def LogDefine.node (v : LogDefine) : Yaml String :=
  assigned ([("name", .scalar v.name)] ++ levelField v.level ++ optional "formatter" v.formatter ++
    appendersField v.appenders)

section

-- `ss << node`, and `YAML::Load`, which may throw
variable (emit : Yaml String → String) (load : String → Option (Yaml String))

def LogDefine.toYaml (v : LogDefine) : String := emit v.node

def LogDefine.ofYaml (str : String) : Option LogDefine := (load str).bind logDefineOf

end

structure LogAppenderDefine.Same (a b : LogAppenderDefine) : Prop where
  type : a.type = b.type
  level : a.level = b.level
  formatter : a.formatter = b.formatter
  file : a.type = 1 → a.file = b.file

structure LogDefine.Same (v w : LogDefine) : Prop where
  name : v.name = w.name
  level : v.level = w.level
  formatter : v.formatter = w.formatter
  appenders : List.Forall₂ LogAppenderDefine.Same v.appenders w.appenders

theorem Level.fromString_toString (level : Level) : Level.fromString level.toString = level := by
  cases level <;> rfl

def LogAppenderDefine.read (a : LogAppenderDefine) : LogAppenderDefine :=
  ⟨a.type, .unknown, a.formatter, if a.type = 1 then a.file else ""⟩

theorem fieldOr_map (key absent : String) (entries : List (String × Yaml String)) :
    fieldOr key absent (.map entries) = (entries.lookup key).elim (some absent) asString := by
  rw [fieldOr, field]
  cases entries.lookup key <;> rfl

theorem lookup_levelField {key : String} (h : key ≠ "level") (level : Level) (rest : List (String × Yaml String)) :
    (levelField level ++ rest).lookup key = rest.lookup key := by
  have hb : (key == "level") = false := beq_false_of_ne h
  by_cases hl : level = .unknown <;> simp [levelField, hl, List.lookup_cons, hb]

theorem lookup_optional {key key' : String} (h : key ≠ key') (text : String) (rest : List (String × Yaml String)) :
    (optional key' text ++ rest).lookup key = rest.lookup key := by
  have hb : (key == key') = false := beq_false_of_ne h
  by_cases ht : text = "" <;> simp [optional, ht, List.lookup_cons, hb]

theorem elim_optional (key text : String) {rest : List (String × Yaml String)} (h : rest.lookup key = none) :
    ((optional key text ++ rest).lookup key).elim (some "") asString = some text := by
  by_cases ht : text = ""
  · rw [optional, if_pos ht, List.nil_append, h, ht]
    rfl
  · rw [optional, if_neg ht, List.cons_append, List.lookup_cons_self]
    rfl

theorem elim_levelField (level : Level) {rest : List (String × Yaml String)} (h : rest.lookup "level" = none) :
    (((levelField level ++ rest).lookup "level").elim (some "") asString).map Level.fromString = some level := by
  by_cases hl : level = .unknown
  · rw [levelField, if_pos hl, List.nil_append, h, hl]
    rfl
  · rw [levelField, if_neg hl, List.cons_append, List.lookup_cons_self]
    exact congrArg some (Level.fromString_toString level)

theorem LogAppenderDefine.node_of_file {a : LogAppenderDefine} (h : a.type = 1) :
    a.node = .map (("type", .scalar "FileLogAppender") :: ("file", .scalar a.file) ::
      (levelField a.level ++ optional "formatter" a.formatter)) := by
  simp [LogAppenderDefine.node, assigned, h]

theorem LogAppenderDefine.node_of_stdout {a : LogAppenderDefine} (h : a.type = 2) :
    a.node = .map (("type", .scalar "StdoutLogAppender") ::
      (levelField a.level ++ optional "formatter" a.formatter)) := by
  simp [LogAppenderDefine.node, assigned, h]

theorem appenderOf_node {a : LogAppenderDefine} (h : a.type = 1 ∨ a.type = 2) :
    appenderOf a.node = some (some a.read) := by
  have hf : ((levelField a.level ++ optional "formatter" a.formatter).lookup "formatter").elim (some "") asString =
      some a.formatter := by
    rw [lookup_levelField (by decide), ← List.append_nil (optional _ _)]
    exact elim_optional "formatter" a.formatter rfl
  rcases h with h | h
  · have hread : a.read = ⟨1, .unknown, a.formatter, a.file⟩ := by rw [LogAppenderDefine.read, if_pos h, h]
    rw [LogAppenderDefine.node_of_file h, hread]
    simp [appenderOf, field, fieldOr_map, List.lookup_cons, asString, hf]
  · have hread : a.read = ⟨2, .unknown, a.formatter, ""⟩ := by rw [LogAppenderDefine.read, if_neg (by omega), h]
    rw [LogAppenderDefine.node_of_stdout h, hread]
    simp [appenderOf, field, fieldOr_map, List.lookup_cons, asString, hf]

theorem mapM_appenderOf {as : List LogAppenderDefine} (h : ∀ a ∈ as, a.type = 1 ∨ a.type = 2) :
    (as.map LogAppenderDefine.node).mapM appenderOf = some (as.map fun a => some a.read) := by
  induction as with
  | nil => rfl
  | cons a as ih =>
    rw [List.forall_mem_cons] at h
    rw [List.map_cons, List.mapM_cons, appenderOf_node h.1, ih h.2]
    rfl

theorem lookup_appendersField {key : String} (h : key ≠ "appenders") (as : List LogAppenderDefine) :
    (appendersField as).lookup key = none := by
  have hb : (key == "appenders") = false := beq_false_of_ne h
  by_cases ha : as = [] <;> simp [appendersField, ha, List.lookup_cons, hb]

theorem elements_appendersField (as : List LogAppenderDefine) :
    ((appendersField as).lookup "appenders").elim [] elements = as.map LogAppenderDefine.node := by
  by_cases ha : as = [] <;> simp [appendersField, ha, elements]

/-- All comes back but the levels of the appenders. -/
theorem logDefineOf_node {v : LogDefine} (h : ∀ a ∈ v.appenders, a.type = 1 ∨ a.type = 2) :
    logDefineOf v.node = some { v with appenders := v.appenders.map LogAppenderDefine.read } := by
  have hnode : v.node = .map (("name", .scalar v.name) ::
      (levelField v.level ++ (optional "formatter" v.formatter ++ appendersField v.appenders))) := by
    simp [LogDefine.node, assigned]
  -- each field is found behind those in front of it
  have hlevel : (optional "formatter" v.formatter ++ appendersField v.appenders).lookup "level" = none := by
    rw [lookup_optional (by decide), lookup_appendersField (by decide)]
  obtain ⟨level, hlevel, hl⟩ := Option.map_eq_some_iff.mp (elim_levelField v.level hlevel)
  have hformatter := elim_optional "formatter" v.formatter
    (lookup_appendersField (show "formatter" ≠ "appenders" by decide) v.appenders)
  rw [← lookup_levelField (by decide) v.level] at hformatter
  have happenders := elements_appendersField v.appenders
  rw [← lookup_optional (show "appenders" ≠ "formatter" by decide) v.formatter,
    ← lookup_levelField (by decide) v.level] at happenders
  have hreduce : (v.appenders.map fun a => some a.read).reduceOption = v.appenders.map LogAppenderDefine.read := by
    change List.filterMap id _ = _
    rw [List.filterMap_map]
    exact congrFun List.filterMap_eq_map _
  rw [hnode]
  simp [logDefineOf, field, fieldOr_map, List.lookup_cons, asString, hlevel, hl, hformatter, happenders,
    mapM_appenderOf h, hreduce]

theorem same_read_iff (a : LogAppenderDefine) : a.Same a.read ↔ a.level = .unknown := by
  refine ⟨fun h => h.level, fun h => ⟨rfl, h, rfl, fun ht => ?_⟩⟩
  rw [LogAppenderDefine.read, if_pos ht]

theorem survives_iff {emit : Yaml String → String} {load : String → Option (Yaml String)} {v : LogDefine}
    (hf : load (emit v.node) = some v.node) (h : ∀ a ∈ v.appenders, a.type = 1 ∨ a.type = 2) :
    (∃ w, LogDefine.ofYaml load (v.toYaml emit) = some w ∧ v.Same w) ↔ ∀ a ∈ v.appenders, a.level = .unknown := by
  rw [LogDefine.ofYaml, LogDefine.toYaml, hf, Option.bind_some, logDefineOf_node h]
  simp only [Option.some.injEq, exists_eq_left']
  constructor
  · intro hs a ha
    have := hs.appenders
    rw [List.forall₂_map_right_iff, List.forall₂_same] at this
    exact (same_read_iff a).mp (this a ha)
  · intro hl
    refine ⟨rfl, rfl, rfl, ?_⟩
    rw [List.forall₂_map_right_iff, List.forall₂_same]
    exact fun a ha => (same_read_iff a).mpr (hl a ha)

def terminal : LogDefine := ⟨"system", .info, "", [⟨2, .unknown, "%m%n", ""⟩]⟩

def terminalText : String :=
  "name: system\nlevel: INFO\nappenders:\n  - type: StdoutLogAppender\n    formatter: \"%m%n\""

theorem terminal_survives :
    ∃ w, LogDefine.ofYaml (fun str => if str = terminalText then some terminal.node else none)
      (terminal.toYaml fun _ => terminalText) = some w ∧ terminal.Same w :=
  (survives_iff (if_pos rfl) (by simp [terminal])).mpr (by simp [terminal])

def errors : LogDefine := { terminal with appenders := [⟨2, .error, "%m%n", ""⟩] }

def errorsText : String :=
  "name: system\nlevel: INFO\nappenders:\n  - type: StdoutLogAppender\n    level: ERROR\n    formatter: \"%m%n\""

theorem level_lost :
    let load := fun str => if str = errorsText then some errors.node else none
    let emit := fun _ => errorsText
    load (emit errors.node) = some errors.node ∧
      LogDefine.ofYaml load (errors.toYaml emit) = some terminal ∧ ¬ errors.Same terminal :=
  ⟨if_pos rfl, by decide, fun h => by
    cases h.appenders with
    | cons ha _ => exact absurd ha.level (by decide)⟩

end Windgent.Log
