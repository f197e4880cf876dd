import Windgent.LogDefine
import Windgent.ConfigVar

namespace Windgent.LexicalCast

open OrderedSet Log

/-- `LexicalCast<T, std::string>` and `LexicalCast<std::string, T>`, which may throw. -/
structure Cast (T : Type) where
  toStr : T → Option String
  fromStr : String → Option T

/-- What `push_back` makes of a new node. -/
def pushed (items : List (Yaml String)) : Yaml String := if items = [] then .null else .seq items

section Model

variable {T : Type} (emit : Yaml String → String) (load : String → Option (Yaml String))

def toItems (c : Cast T) (items : List T) : Option String := do
  let nodes ← items.mapM fun i => do load (← c.toStr i)
  some (emit (pushed nodes))

def fromItems (c : Cast T) (v : String) : Option (List T) := do
  (elements (← load v)).mapM fun item => c.fromStr (emit item)

def toEntries (c : Cast T) (entries : List (String × T)) : Option String := do
  let nodes ← entries.mapM fun i => do some (i.1, ← load (← c.toStr i.2))
  some (emit (assigned nodes))

/-- The loop from `node.begin()` to `node.end()`; an element of a sequence has no `it->second`. -/
def fromEntries (c : Cast T) (v : String) : Option (List (String × T)) := do
  match ← load v with
  | .map entries => entries.mapM fun it => do some (it.1, ← c.fromStr (emit it.2))
  | .seq (_ :: _) => none
  | _ => some []

def vector (c : Cast T) : Cast (List T) := ⟨toItems emit load c, fromItems emit load c⟩

def list (c : Cast T) : Cast (List T) := ⟨toItems emit load c, fromItems emit load c⟩

structure Less (T : Type) where
  lt : T → T → Prop
  decidable : DecidableRel lt
  trans : ∀ a b c, lt a b → lt b c → lt a c
  irrefl : ∀ a, ¬ lt a a

instance (o : Less T) : DecidableRel o.lt := o.decidable

def SetOf (o : Less T) : Type := { l : List T // Ascending o.lt l }

instance [DecidableEq T] (o : Less T) : DecidableEq (SetOf o) := inferInstanceAs (DecidableEq (Subtype _))

def SetOf.empty (o : Less T) : SetOf o := ⟨[], .nil⟩

def SetOf.insert {o : Less T} (s : SetOf o) (a : T) : SetOf o := ⟨OrderedSet.insert o.lt a s.1, s.2.insert o.trans a⟩

def set (o : Less T) (c : Cast T) : Cast (SetOf o) where
  toStr st := toItems emit load c st.1
  fromStr v := (fromItems emit load c v).map fun items => items.foldl SetOf.insert (.empty o)

/-- `std::unordered_set<T>` has the same elements, but a loop meets them in an order of its own. -/
def unorderedSet (o : Less T) (loop : SetOf o → List T) (c : Cast T) : Cast (SetOf o) where
  toStr st := toItems emit load c (loop st)
  fromStr v := (fromItems emit load c v).map fun items => items.foldl SetOf.insert (.empty o)

def byKey (T : Type) : Less (String × T) where
  lt a b := a.1 < b.1
  decidable a b := inferInstanceAs (Decidable (a.1 < b.1))
  trans _ _ _ := String.lt_trans
  irrefl a := String.lt_irrefl a.1

/-- `std::map<std::string, T>` -/
abbrev MapOf (T : Type) : Type := SetOf (byKey T)

def map (c : Cast T) : Cast (MapOf T) where
  toStr mp := toEntries emit load c mp.1
  fromStr v := (fromEntries emit load c v).map fun entries => entries.foldl SetOf.insert (.empty _)

def unorderedMap (loop : MapOf T → List (String × T)) (c : Cast T) : Cast (MapOf T) where
  toStr mp := toEntries emit load c (loop mp)
  fromStr v := (fromEntries emit load c v).map fun entries => entries.foldl SetOf.insert (.empty _)

end Model

section Documents

variable {T : Type} (emit : Yaml String → String) (load : String → Option (Yaml String))

structure Restores (c : Cast T) (v : T) (n : Yaml String) : Prop where
  toStr : c.toStr v = some (emit n)
  load : load (emit n) = some n
  fromStr : c.fromStr (emit n) = some v

/-- The document of a value: the text of a scalar is that of a node, and a container has the
documents of its elements. YAML reads each of these documents as it was written. -/
inductive Document : {T : Type} → Cast T → T → Yaml String → Prop
  | leaf {T : Type} {c : Cast T} {v : T} {n : Yaml String} (h : Restores emit load c v n) : Document c v n
  | vector {T : Type} {c : Cast T} {v : List T} {ns : List (Yaml String)} (hlen : v.length = ns.length)
    (hitems : ∀ p ∈ v.zip ns, Document c p.1 p.2) (hload : load (emit (pushed ns)) = some (pushed ns)) :
    Document (vector emit load c) v (pushed ns)
  | list {T : Type} {c : Cast T} {v : List T} {ns : List (Yaml String)} (hlen : v.length = ns.length)
    (hitems : ∀ p ∈ v.zip ns, Document c p.1 p.2) (hload : load (emit (pushed ns)) = some (pushed ns)) :
    Document (list emit load c) v (pushed ns)
  | set {T : Type} {o : Less T} {c : Cast T} {v : SetOf o} {ns : List (Yaml String)} (hlen : v.1.length = ns.length)
    (hitems : ∀ p ∈ v.1.zip ns, Document c p.1 p.2) (hload : load (emit (pushed ns)) = some (pushed ns)) :
    Document (set emit load o c) v (pushed ns)
  | unorderedSet {T : Type} {o : Less T} {loop : SetOf o → List T} {c : Cast T} {v : SetOf o} {ns : List (Yaml String)}
    (hloop : (loop v).Perm v.1) (hlen : (loop v).length = ns.length)
    (hitems : ∀ p ∈ (loop v).zip ns, Document c p.1 p.2) (hload : load (emit (pushed ns)) = some (pushed ns)) :
    Document (unorderedSet emit load o loop c) v (pushed ns)
  | map {T : Type} {c : Cast T} {v : MapOf T} {ns : List (Yaml String)} (hlen : v.1.length = ns.length)
    (hitems : ∀ p ∈ v.1.zip ns, Document c p.1.2 p.2)
    (hload : load (emit (assigned ((v.1.map Prod.fst).zip ns))) = some (assigned ((v.1.map Prod.fst).zip ns))) :
    Document (map emit load c) v (assigned ((v.1.map Prod.fst).zip ns))
  | unorderedMap {T : Type} {loop : MapOf T → List (String × T)} {c : Cast T} {v : MapOf T} {ns : List (Yaml String)}
    (hloop : (loop v).Perm v.1) (hlen : (loop v).length = ns.length)
    (hitems : ∀ p ∈ (loop v).zip ns, Document c p.1.2 p.2)
    (hload : load (emit (assigned (((loop v).map Prod.fst).zip ns))) =
      some (assigned (((loop v).map Prod.fst).zip ns))) :
    Document (unorderedMap emit load loop c) v (assigned (((loop v).map Prod.fst).zip ns))

variable {emit load}

theorem mapM_eq_some {α β : Type} {f : α → Option β} {l : List α} {l' : List β}
    (h : List.Forall₂ (fun a b => f a = some b) l l') : l.mapM f = some l' := by
  induction h with
  | nil => rfl
  | cons ha _ ih => rw [List.mapM_cons, ha, ih]; rfl

theorem forall₂_of_zip {α β : Type} {R : α → β → Prop} {l : List α} {l' : List β} (hlen : l.length = l'.length)
    (h : ∀ p ∈ l.zip l', R p.1 p.2) : List.Forall₂ R l l' :=
  List.forall₂_iff_zip.mpr ⟨hlen, fun hp => h _ hp⟩

theorem elements_pushed (ns : List (Yaml String)) : elements (pushed ns) = ns := by
  cases ns <;> rfl

theorem items_restored {c : Cast T} {items : List T} {ns : List (Yaml String)} (hlen : items.length = ns.length)
    (h : ∀ p ∈ items.zip ns, Restores emit load c p.1 p.2) (hload : load (emit (pushed ns)) = some (pushed ns)) :
    toItems emit load c items = some (emit (pushed ns)) ∧
      fromItems emit load c (emit (pushed ns)) = some items := by
  have hall := forall₂_of_zip hlen h
  constructor
  · have hto : items.mapM (fun i => do load (← c.toStr i)) = some ns :=
      mapM_eq_some (hall.imp fun i n hr => by rw [hr.toStr]; exact hr.load)
    rw [toItems, hto]
    rfl
  · have hfrom : ns.mapM (fun item => c.fromStr (emit item)) = some items :=
      mapM_eq_some (hall.flip.imp fun n i hr => hr.fromStr)
    rw [fromItems, hload]
    exact (congrArg _ (elements_pushed ns)).trans hfrom

theorem forall₂_keys {R : T → Yaml String → Prop} {entries : List (String × T)} {ns : List (Yaml String)}
    (h : List.Forall₂ (fun i n => R i.2 n) entries ns) :
    List.Forall₂ (fun i it => it.1 = i.1 ∧ R i.2 it.2) entries ((entries.map Prod.fst).zip ns) := by
  induction h with
  | nil => exact .nil
  | cons ha _ ih => exact .cons ⟨rfl, ha⟩ ih

theorem entries_restored {c : Cast T} {entries : List (String × T)} {ns : List (Yaml String)}
    (hlen : entries.length = ns.length) (h : ∀ p ∈ entries.zip ns, Restores emit load c p.1.2 p.2)
    (hload : load (emit (assigned ((entries.map Prod.fst).zip ns))) = some (assigned ((entries.map Prod.fst).zip ns))) :
    toEntries emit load c entries = some (emit (assigned ((entries.map Prod.fst).zip ns))) ∧
      fromEntries emit load c (emit (assigned ((entries.map Prod.fst).zip ns))) = some entries := by
  have hall := forall₂_keys (R := Restores emit load c) (forall₂_of_zip hlen h)
  constructor
  · have hto : entries.mapM (fun i => do some (i.1, ← load (← c.toStr i.2))) =
        some ((entries.map Prod.fst).zip ns) := by
      refine mapM_eq_some (hall.imp fun i it hr => ?_)
      obtain ⟨hkey, hr⟩ := hr
      simp [hr.toStr, hr.load, ← hkey]
    rw [toEntries, hto]
    rfl
  · have hfrom : ((entries.map Prod.fst).zip ns).mapM (fun it => do some (it.1, ← c.fromStr (emit it.2))) =
        some entries := by
      refine mapM_eq_some (hall.flip.imp fun it i hr => ?_)
      obtain ⟨hkey, hr⟩ := hr
      simp [hr.fromStr, hkey]
    rw [fromEntries, hload]
    cases hz : (entries.map Prod.fst).zip ns with
    | nil =>
      rw [hz] at hfrom
      exact hfrom
    | cons it rest =>
      rw [hz] at hfrom
      exact hfrom

theorem foldl_insert {o : Less T} (items : List T) (st : SetOf o) :
    (items.foldl SetOf.insert st).1 = items.foldl (fun s a => OrderedSet.insert o.lt a s) st.1 := by
  induction items generalizing st with
  | nil => rfl
  | cons a items ih => exact ih (st.insert a)

theorem foldl_loop {o : Less T} {st : SetOf o} {items : List T} (h : items.Perm st.1) :
    items.foldl SetOf.insert (.empty o) = st :=
  Subtype.ext ((foldl_insert items (.empty o)).trans (foldl_insert_perm o.trans o.irrefl st.2 h))

/-- The casts of a nested type restore each value that has a document. -/
theorem Document.restores {c : Cast T} {v : T} {n : Yaml String} (h : Document emit load c v n) :
    Restores emit load c v n := by
  induction h with
  | leaf h => exact h
  | vector hlen _ hload ih | list hlen _ hload ih =>
    obtain ⟨hto, hfrom⟩ := items_restored hlen ih hload
    exact ⟨hto, hload, hfrom⟩
  | set hlen _ hload ih =>
    obtain ⟨hto, hfrom⟩ := items_restored hlen ih hload
    exact ⟨hto, hload, Option.map_eq_some_iff.mpr ⟨_, hfrom, foldl_loop (.refl _)⟩⟩
  | unorderedSet hloop hlen _ hload ih =>
    obtain ⟨hto, hfrom⟩ := items_restored hlen ih hload
    exact ⟨hto, hload, Option.map_eq_some_iff.mpr ⟨_, hfrom, foldl_loop hloop⟩⟩
  | map hlen _ hload ih =>
    obtain ⟨hto, hfrom⟩ := entries_restored hlen ih hload
    exact ⟨hto, hload, Option.map_eq_some_iff.mpr ⟨_, hfrom, foldl_loop (.refl _)⟩⟩
  | unorderedMap hloop hlen _ hload ih =>
    obtain ⟨hto, hfrom⟩ := entries_restored hlen ih hload
    exact ⟨hto, hload, Option.map_eq_some_iff.mpr ⟨_, hfrom, foldl_loop hloop⟩⟩

/-- A variable that is given the text of a value is set to this value, so one that is given its
own text keeps it and tells no listener. -/
theorem fromString_document {Thread : Type} [DecidableEq T] [DecidableEq Thread] {c : Cast T} {v : T} {n : Yaml String}
    (h : Document emit load c v n) (cbs : List Nat) (s : ConfigVar.State T Thread) (thread : Thread) :
    ∃ str, c.toStr v = some str ∧
      ConfigVar.step c.fromStr cbs s (.fromString thread str) = ConfigVar.step c.fromStr cbs s (.setVal thread v) ∧
      (s.val = v → s.pending thread = none → ConfigVar.step c.fromStr cbs s (.fromString thread str) = some s) := by
  obtain ⟨hto, -, hfrom⟩ := h.restores
  have hset : ConfigVar.step c.fromStr cbs s (.fromString thread (emit n)) =
      ConfigVar.step c.fromStr cbs s (.setVal thread v) := by
    simp only [ConfigVar.step, hfrom, Option.map_some, Option.getD_some]
  refine ⟨emit n, hto, hset, fun hv hp => ?_⟩
  rw [hset]
  simp [ConfigVar.step, hp, ConfigVar.notify, hv]

end Documents

section Logs

variable (emit : Yaml String → String) (load : String → Option (Yaml String))

def logDefine : Cast LogDefine := ⟨fun v => some (v.toYaml emit), LogDefine.ofYaml load⟩

def byName : Less LogDefine where
  lt a b := a.name < b.name
  decidable a b := inferInstanceAs (Decidable (a.name < b.name))
  trans _ _ _ := String.lt_trans
  irrefl a := String.lt_irrefl a.name

theorem logs_document (v : SetOf byName)
    (h : ∀ i ∈ v.1, ∀ a ∈ i.appenders, (a.type = 1 ∨ a.type = 2) ∧ a.read = a)
    (hload : ∀ i ∈ v.1, load (emit i.node) = some i.node)
    (hlogs : load (emit (pushed (v.1.map LogDefine.node))) = some (pushed (v.1.map LogDefine.node))) :
    Document emit load (set emit load byName (logDefine emit load)) v (pushed (v.1.map LogDefine.node)) := by
  refine .set (List.length_map _).symm (fun p hp => ?_) hlogs
  rw [List.zip_map_right, List.mem_map] at hp
  obtain ⟨⟨i, j⟩, hij, rfl⟩ := hp
  obtain ⟨rfl, hi⟩ : i = j ∧ i ∈ v.1 := by
    obtain ⟨k, hk⟩ := List.mem_iff_get.mp hij
    simp only [List.get_eq_getElem, List.getElem_zip, Prod.mk.injEq] at hk
    exact ⟨hk.1.symm.trans hk.2, hk.1 ▸ List.getElem_mem _⟩
  have hread : i.appenders.map LogAppenderDefine.read = i.appenders := by
    rw [List.map_congr_left fun a ha => (h i hi a ha).2, List.map_id']
  refine .leaf ⟨rfl, hload i hi, ?_⟩
  have hof := logDefineOf_node fun a ha => (h i hi a ha).1
  rw [hread] at hof
  simp only [logDefine, LogDefine.ofYaml, Prod.map_snd, hload i hi, Option.bind_some]
  exact hof

end Logs

section Ports

def portsNode : Yaml String := .map [("http", .seq [.scalar "80", .scalar "8080"]), ("none", .null)]

def portsText : String := "http:\n  - 80\n  - 8080\nnone: ~"

def emitPorts : Yaml String → String
  | .null => "~"
  | .scalar text => text
  | .seq _ => "- 80\n- 8080"
  | .map _ => portsText

def loadPorts (str : String) : Option (Yaml String) :=
  if str = "~" then some .null
  else if str = "- 80\n- 8080" then some (.seq [.scalar "80", .scalar "8080"])
  else if str = portsText then some portsNode
  else some (.scalar str)

def number : Cast Nat where
  toStr i := some (Nat.repr i)
  fromStr str :=
    if str = "" then none
    else str.toList.foldlM (fun n ch => if ch.isDigit then some (10 * n + (ch.toNat - 48)) else none) 0

def ports : MapOf (List Nat) := ⟨[("http", [80, 8080]), ("none", [])], by
  refine List.pairwise_pair.mpr ?_
  change "http" < "none"
  decide⟩

theorem ports_document :
    Document emitPorts loadPorts (map emitPorts loadPorts (vector emitPorts loadPorts number)) ports portsNode := by
  have h80 : Document emitPorts loadPorts number 80 (.scalar "80") := .leaf ⟨rfl, rfl, by decide⟩
  have h8080 : Document emitPorts loadPorts number 8080 (.scalar "8080") := .leaf ⟨rfl, rfl, by decide⟩
  have hhttp : Document emitPorts loadPorts (vector emitPorts loadPorts number) [80, 8080]
      (pushed [.scalar "80", .scalar "8080"]) := .vector rfl (by simp [h80, h8080]) rfl
  have hnone : Document emitPorts loadPorts (vector emitPorts loadPorts number) [] (pushed []) :=
    .vector rfl (by simp) rfl
  have hvalues : ∀ p ∈ ports.1.zip [pushed [.scalar "80", .scalar "8080"], pushed []],
      Document emitPorts loadPorts (vector emitPorts loadPorts number) p.1.2 p.2 := by simp [ports, hhttp, hnone]
  exact .map rfl hvalues rfl

theorem fromString_document_ports :
    ∃ str, (map emitPorts loadPorts (vector emitPorts loadPorts number)).toStr ports = some str ∧
      ConfigVar.step (map emitPorts loadPorts (vector emitPorts loadPorts number)).fromStr [1]
          (ConfigVar.new Nat (SetOf.empty _)) (.fromString 0 str) =
        ConfigVar.step (map emitPorts loadPorts (vector emitPorts loadPorts number)).fromStr [1]
          (ConfigVar.new Nat (SetOf.empty _)) (.setVal 0 ports) ∧
      (SetOf.empty _ = ports → (none : Option (MapOf (List Nat))) = none →
        ConfigVar.step (map emitPorts loadPorts (vector emitPorts loadPorts number)).fromStr [1]
          (ConfigVar.new Nat (SetOf.empty _)) (.fromString 0 str) = some (ConfigVar.new Nat (SetOf.empty _))) :=
  fromString_document ports_document [1] (ConfigVar.new Nat (SetOf.empty _)) 0

end Ports

end Windgent.LexicalCast
