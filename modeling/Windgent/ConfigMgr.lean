import Windgent.Yaml
import Mathlib.Data.List.Infix
import Mathlib.Data.List.TakeWhile

namespace Windgent.ConfigMgr

def nameChars : List Char := "abcdefghijklmnopqrstuvwxyz._12345678".toList

def ValidName (name : List Char) : Prop := ∀ c ∈ name, c ∈ nameChars

instance (name : List Char) : Decidable (ValidName name) := List.decidableBAll (· ∈ nameChars) name

structure Datas where
  names : List (List Char)
  valid : ∀ name ∈ names, ValidName name

def Datas.empty : Datas := ⟨[], fun _ h => absurd h List.not_mem_nil⟩

/-- `Lookup(name, default_value)`; a name that is not valid throws. -/
def Datas.lookup (datas : Datas) (name : List Char) : Option Datas :=
  if name ∈ datas.names then some datas
  else if h : ValidName name then some ⟨name :: datas.names, List.forall_mem_cons.mpr ⟨h, datas.valid⟩⟩
  else none

structure Listed where
  name : List Char
  place : List Nat
  node : Yaml (List Char)

mutual

def listAllMember (pfx : List Char) (place : List Nat) (node : Yaml (List Char)) : List Listed :=
  if ValidName pfx then
    ⟨pfx, place, node⟩ ::
      match node with
      | .map entries => listEntries pfx place 0 entries
      | _ => []
  else []

def listEntries (pfx : List Char) (place : List Nat) (i : Nat) : List (List Char × Yaml (List Char)) → List Listed
  | [] => []
  | (key, node) :: entries =>
    listAllMember (if pfx = [] then key else pfx ++ '.' :: key) (place ++ [i]) node ++
      listEntries pfx place (i + 1) entries

end

/-- A call of `fromString`: for the node at a place, on the variable of a name. -/
structure Call where
  place : List Nat
  name : List Char
  text : List Char
deriving DecidableEq

def lower (name : List Char) : List Char := name.map Char.toLower

section

-- what `ss << node` writes
variable (emit : Yaml (List Char) → List Char) (datas : Datas)

/-- A node's text: a scalar's own, and what is written for any other node. -/
def text : Yaml (List Char) → List Char
  | .scalar text => text
  | node => emit node

def fromYaml (e : Listed) : Option Call :=
  if e.name = [] then none
  else if lower e.name ∈ datas.names then some ⟨e.place, lower e.name, text emit e.node⟩ else none

def loadFromYaml (root : Yaml (List Char)) : List Call := (listAllMember [] [] root).filterMap (fromYaml emit datas)

def dotted (keys : List (List Char)) : List Char := ['.'].intercalate keys

/-- A call for each node whose dotted path, in lower case, names a variable. -/
def wanted (m : Member (List Char)) : Option Call :=
  if lower (dotted m.keys) ∈ datas.names then some ⟨m.place, lower (dotted m.keys), text emit m.node⟩ else none

def intended (root : Yaml (List Char)) : List Call := (root.members [] []).filterMap (wanted emit datas)

/-- A path that starts with a key, in lower case, to a node whose text has no upper case in its keys. -/
def Plain (m : Member (List Char)) : Prop :=
  (∃ key keys, m.keys = key :: keys ∧ key ≠ []) ∧ lower (dotted m.keys) = dotted m.keys ∧
    text emit (m.node.mapKeys lower) = text emit m.node

end

/-- The name that `listAllMember` gives to the node at the end of a path. -/
def flat (keys : List (List Char)) : List Char :=
  keys.foldl (fun pfx key => if pfx = [] then key else pfx ++ '.' :: key) []

theorem flat_concat (keys : List (List Char)) (key : List Char) :
    flat (keys ++ [key]) = if flat keys = [] then key else flat keys ++ '.' :: key := by
  rw [flat, List.foldl_append]
  rfl

theorem flat_append (keys more : List (List Char)) : flat keys <+: flat (keys ++ more) := by
  induction more using List.reverseRecOn with
  | nil => simp
  | append_singleton more key ih =>
    rw [← List.append_assoc, flat_concat]
    by_cases he : flat (keys ++ more) = []
    · rw [he, List.prefix_nil] at ih
      rw [ih]
      exact List.nil_prefix
    · rw [if_neg he]
      exact ih.trans (List.prefix_append _ _)

def listed (m : Member (List Char)) : Option Listed :=
  if ValidName (flat m.keys) then some ⟨flat m.keys, m.place, m.node⟩ else none

/-- What is left out below a refused key would be refused by its own name too. -/
theorem listed_below {keys : List (List Char)} (h : ¬ ValidName (flat keys)) {m : Member (List Char)}
    (hm : keys <+: m.keys) : listed m = none := by
  obtain ⟨more, hk⟩ := hm
  rw [listed, ← hk, if_neg]
  exact fun hv => h fun c hc => hv c ((flat_append keys more).subset hc)

mutual

theorem listAllMember_eq (keys : List (List Char)) (place : List Nat) :
    ∀ node : Yaml (List Char), listAllMember (flat keys) place node = (node.members keys place).filterMap listed
  | .null | .scalar _ | .seq _ => by
    by_cases h : ValidName (flat keys) <;> simp [listAllMember, Yaml.members, listed, h]
  | .map entries => by
    by_cases h : ValidName (flat keys)
    · rw [listAllMember, if_pos h, listEntries_eq keys place 0 entries]
      simp only [Yaml.members, List.filterMap_cons, listed, if_pos h]
    · rw [listAllMember, if_neg h, eq_comm, List.filterMap_eq_nil_iff]
      exact fun m hm => listed_below h (Yaml.keys_of_mem_members keys place (.map entries) hm)

theorem listEntries_eq (keys : List (List Char)) (place : List Nat) (i : Nat) :
    ∀ entries : List (List Char × Yaml (List Char)),
      listEntries (flat keys) place i entries = (Yaml.entryMembers keys place i entries).filterMap listed
  | [] => rfl
  | (key, node) :: entries => by
    rw [listEntries, ← flat_concat, listAllMember_eq (keys ++ [key]) (place ++ [i]) node,
      listEntries_eq keys place (i + 1) entries, Yaml.entryMembers, List.filterMap_append]

end

theorem flat_eq (keys : List (List Char)) : flat keys = dotted (keys.dropWhile (· = [])) := by
  have hfold : ∀ (keys : List (List Char)) (pfx : List Char), pfx ≠ [] →
      keys.foldl (fun pfx key => if pfx = [] then key else pfx ++ '.' :: key) pfx = dotted (pfx :: keys) := by
    intro keys
    induction keys with
    | nil => exact fun pfx _ => (List.intercalate_singleton).symm
    | cons key keys ih =>
      intro pfx hp
      rw [List.foldl_cons, if_neg hp, ih _ (by simp), dotted, dotted, List.intercalate_cons_cons]
      cases keys <;> simp [List.intercalate_cons_cons]
  induction keys with
  | nil => rfl
  | cons key keys ih =>
    by_cases hk : key = []
    · rw [hk, List.dropWhile_cons_of_pos (by simp), ← ih]
      rfl
    · rw [List.dropWhile_cons_of_neg (by simpa using hk), flat, List.foldl_cons, if_pos rfl, hfold keys key hk]

theorem lower_of_valid {name : List Char} (h : ValidName name) : lower name = name := by
  have hb : (nameChars.all fun c => c.toLower = c) = true := by decide
  have hall : ∀ c ∈ nameChars, c.toLower = c := by simpa using List.all_eq_true.mp hb
  rw [lower, List.map_congr_left fun c hc => hall c (h c hc), List.map_id']

theorem lower_dotted (keys : List (List Char)) : lower (dotted keys) = dotted (keys.map lower) := by
  induction keys with
  | nil => rfl
  | cons key keys ih =>
    cases keys with
    | nil => simp [dotted]
    | cons key' keys =>
      rw [dotted, List.map_cons, List.map_cons, dotted, List.intercalate_cons_cons, List.intercalate_cons_cons]
      rw [dotted, dotted, List.map_cons] at ih
      rw [← ih]
      simp [lower]

theorem length_dropWhile (keys : List (List Char)) :
    (dotted (keys.dropWhile (· = []))).length ≤ (dotted keys).length := by
  induction keys with
  | nil => rfl
  | cons key keys ih =>
    by_cases hk : key = []
    · rw [List.dropWhile_cons_of_pos (by simpa using hk)]
      refine ih.trans ?_
      cases keys with
      | nil => simp [dotted]
      | cons key' keys =>
        rw [dotted, dotted, List.intercalate_cons_cons, List.length_append, List.length_append]
        omega
    · rw [List.dropWhile_cons_of_neg (by simpa using hk)]

theorem flat_lower (keys : List (List Char)) : flat (keys.map lower) = lower (flat keys) := by
  have hd : (keys.map lower).dropWhile (· = []) = (keys.dropWhile (· = [])).map lower := by
    rw [List.dropWhile_map]
    congr 1
    apply congrArg (List.dropWhile · keys)
    funext key
    simp [lower]
  rw [flat_eq, flat_eq, lower_dotted, hd]

theorem flat_shorter {key : List Char} {keys : List (List Char)}
    (h : (flat (key :: keys)).length = (dotted (key :: keys)).length) (hf : flat (key :: keys) ≠ []) : key ≠ [] := by
  rintro rfl
  rw [flat_eq, List.dropWhile_cons_of_pos (by simp)] at h hf
  cases keys with
  | nil => exact hf rfl
  | cons key' keys =>
    have hle := length_dropWhile (key' :: keys)
    rw [h, dotted, List.intercalate_cons_cons, dotted, List.length_append, List.length_append] at hle
    simp only [List.length_singleton] at hle
    omega

section

variable (emit : Yaml (List Char) → List Char) (datas : Datas)

def reached (m : Member (List Char)) : Option Call :=
  if flat m.keys ≠ [] ∧ flat m.keys ∈ datas.names then some ⟨m.place, flat m.keys, text emit m.node⟩ else none

theorem loadFromYaml_eq (root : Yaml (List Char)) :
    loadFromYaml emit datas root = (root.members [] []).filterMap (reached emit datas) := by
  have hl : listAllMember [] [] root = (root.members [] []).filterMap listed := listAllMember_eq [] [] root
  rw [loadFromYaml, hl, List.filterMap_filterMap]
  congr 1
  funext m
  by_cases hv : ValidName (flat m.keys)
  · by_cases he : flat m.keys = [] <;> simp [listed, fromYaml, reached, hv, he, lower_of_valid hv]
  · have hn : flat m.keys ∉ datas.names := fun h => hv (datas.valid _ h)
    simp [listed, reached, hv, hn]

end

variable {emit : Yaml (List Char) → List Char} {datas : Datas}

theorem reached_of_plain {m : Member (List Char)} (h : Plain emit m) :
    reached emit datas m = wanted emit datas m ∧ reached emit datas (m.mapKeys lower) = reached emit datas m := by
  obtain ⟨⟨key, keys, hk, hne⟩, hl, ht⟩ := h
  have hf : flat m.keys = dotted m.keys := by
    rw [flat_eq, hk, List.dropWhile_cons_of_neg (by simpa using hne)]
  have hd : dotted m.keys ≠ [] := by
    rw [hk, dotted]
    cases keys <;> simp [hne, List.intercalate_cons_cons]
  have hm : flat (m.mapKeys lower).keys = dotted m.keys := by
    rw [Member.mapKeys, flat_lower, hf, hl]
  simp only [reached, wanted, hf, hm, hl, hd, ne_eq, not_false_eq_true, true_and]
  rw [Member.mapKeys, ht]

theorem unreached {m : Member (List Char)}
    (h : ¬ (lower (dotted m.keys) ∈ datas.names ∨ lower (flat m.keys) ∈ datas.names)) :
    reached emit datas m = wanted emit datas m ∧ reached emit datas (m.mapKeys lower) = reached emit datas m := by
  rw [not_or] at h
  have hf : flat m.keys ∉ datas.names := fun hf => h.2 (by rwa [lower_of_valid (datas.valid _ hf)])
  have hm : flat (m.mapKeys lower).keys = lower (flat m.keys) := flat_lower m.keys
  simp [reached, wanted, hm, h, hf]

theorem reached_some {m : Member (List Char)} {call : Call} (h : reached emit datas m = some call) :
    flat m.keys ≠ [] ∧ flat m.keys ∈ datas.names ∧ call = ⟨m.place, flat m.keys, text emit m.node⟩ := by
  rw [reached] at h
  split at h
  next hc => exact ⟨hc.1, hc.2, (Option.some.inj h).symm⟩
  next => exact absurd h (by simp)

theorem wanted_some {m : Member (List Char)} {call : Call} (h : wanted emit datas m = some call) :
    call = ⟨m.place, lower (dotted m.keys), text emit m.node⟩ := by
  rw [wanted] at h
  split at h
  next => exact (Option.some.inj h).symm
  next => exact absurd h (by simp)

theorem plain_of_reached (hn : [] ∉ datas.names) {m : Member (List Char)}
    (hw : reached emit datas m = wanted emit datas m)
    (hl : reached emit datas (m.mapKeys lower) = reached emit datas m)
    (h : lower (dotted m.keys) ∈ datas.names ∨ lower (flat m.keys) ∈ datas.names) : Plain emit m := by
  obtain ⟨call, hc⟩ : ∃ call, reached emit datas m = some call := by
    rcases h with h | h
    · rw [hw, wanted, if_pos h]
      exact ⟨_, rfl⟩
    · have hm : flat (m.mapKeys lower).keys = lower (flat m.keys) := flat_lower m.keys
      have hne : lower (flat m.keys) ≠ [] := fun he => hn (he ▸ h)
      rw [← hl, reached, hm, if_pos ⟨hne, h⟩]
      exact ⟨_, rfl⟩
  obtain ⟨hne, hmem, rfl⟩ := reached_some hc
  have hd : flat m.keys = lower (dotted m.keys) := congrArg Call.name (wanted_some (hw ▸ hc))
  have hlen : (flat m.keys).length = (dotted m.keys).length := by rw [hd, lower, List.length_map]
  have ht : text emit m.node = text emit (m.node.mapKeys lower) :=
    congrArg Call.text (reached_some (hl.trans hc)).2.2
  cases hk : m.keys with
  | nil => exact absurd (hk ▸ hne) (by decide)
  | cons key keys =>
    rw [hk] at hlen hne
    have hkey : key ≠ [] := flat_shorter hlen hne
    have hf : flat (key :: keys) = dotted (key :: keys) := by
      rw [flat_eq, List.dropWhile_cons_of_neg (by simpa using hkey)]
    refine ⟨⟨key, keys, hk, hkey⟩, ?_, ht.symm⟩
    rw [← hd, hk, hf]

theorem root_mem (root : Yaml (List Char)) : ⟨[], [], root⟩ ∈ root.members [] [] := by
  cases root <;> simp [Yaml.members]

variable (emit datas)

theorem reaches_iff (root : Yaml (List Char)) :
    (loadFromYaml emit datas root = intended emit datas root ∧
        loadFromYaml emit datas (root.mapKeys lower) = loadFromYaml emit datas root) ↔
      ∀ m ∈ root.members [] [], lower (dotted m.keys) ∈ datas.names ∨
          lower (dotted (m.keys.dropWhile (· = []))) ∈ datas.names → Plain emit m := by
  have hplace := Yaml.nodup_members ([] : List (List Char)) [] root
  have hreached : ∀ m call, reached emit datas m = some call → call.place = m.place :=
    fun m call h => congrArg Call.place (reached_some h).2.2
  have hlowered : ∀ m call, (reached emit datas ∘ Member.mapKeys lower) m = some call → call.place = m.place :=
    fun m call h => hreached (m.mapKeys lower) call h
  have hwanted : ∀ m call, wanted emit datas m = some call → call.place = m.place :=
    fun m call h => congrArg Call.place (wanted_some h)
  have hmap : (root.mapKeys lower).members [] [] = (root.members [] []).map (Member.mapKeys lower) :=
    Yaml.members_mapKeys lower [] [] root
  rw [loadFromYaml_eq, loadFromYaml_eq, intended, hmap, List.filterMap_map,
    Yaml.filterMap_eq_iff hplace hreached hwanted,
    Yaml.filterMap_eq_iff hplace hlowered hreached]
  simp only [Function.comp_apply, ← flat_eq]
  by_cases hn : [] ∈ datas.names
  · -- a variable without a name is never reached, although it is the root's own
    refine iff_of_false (fun h => ?_) fun h => ?_
    · have := h.1 _ (root_mem root)
      simp [reached, wanted, flat, dotted, lower, hn] at this
    · obtain ⟨⟨key, keys, hk, -⟩, -⟩ := h _ (root_mem root) (Or.inl hn)
      exact absurd hk (by simp)
  · refine ⟨fun h m hm => plain_of_reached hn (h.1 m hm) (h.2 m hm), fun h => ?_⟩
    rw [← forall₂_and]
    intro m hm
    by_cases hp : lower (dotted m.keys) ∈ datas.names ∨ lower (flat m.keys) ∈ datas.names
    · exact reached_of_plain (h m hm hp)
    · exact unreached hp

/-- With a variable `a`, and a document that spells it `A`. -/
theorem upper_case_ignored :
    ∃ datas, Datas.empty.lookup ['a'] = some datas ∧
      loadFromYaml (fun _ => []) datas (.map [(['A'], .scalar ['1'])]) = [] ∧
      intended (fun _ => []) datas (.map [(['A'], .scalar ['1'])]) = [⟨[0], ['a'], ['1']⟩] ∧
      loadFromYaml (fun _ => []) datas ((Yaml.map [(['A'], .scalar ['1'])]).mapKeys lower) =
        [⟨[0], ['a'], ['1']⟩] :=
  ⟨_, rfl, by decide, by decide, by decide⟩

end Windgent.ConfigMgr
