import Windgent.ConfigMgr
import Windgent.Locks

namespace Windgent.ConfigMgr

open Sections Transition

section Model

variable {Ty : Type} [DecidableEq Ty] (Val : Ty → Type)

structure Var where
  type : Ty
  name : List Char
  description : List Char
  val : Val type

structure Registry where
  datas : List (List Char × Nat)
  made : List (Var Val)

inductive Lookups where
  | lookup (name : List Char) (type : Ty) (val : Val type) (description : List Char)
  | lookupAs (name : List Char) (type : Ty)
  | lookupBase (name : List Char)
  | visit

inductive Answer where
  | null
  | found (var : Nat)
  | invalid
  | visited (vars : List Nat)
deriving DecidableEq

variable {Val}

def Lookups.name : Lookups Val → Option (List Char)
  | .lookup name _ _ _ | .lookupAs name _ | .lookupBase name => some name
  | .visit => none

/-- `GetDatas()[name] = v`. -/
def assign (name : List Char) (v : Nat) : List (List Char × Nat) → List (List Char × Nat)
  | [] => [(name, v)]
  | (key, w) :: datas =>
    if name < key then (name, v) :: (key, w) :: datas
    else if key < name then (key, w) :: assign name v datas
    else (key, v) :: datas

def dynamicCast (type : Ty) (r : Registry Val) (v : Nat) : Answer :=
  if (r.made[v]?).map Var.type = some type then .found v else .null

def lookup (name : List Char) (type : Ty) (val : Val type) (description : List Char) :
    Body (Registry Val) Answer :=
  .op id fun r =>
    match r.datas.lookup name with
    | some v => .ret (dynamicCast type r v)
    | none =>
      if ValidName name then
        .op (fun r => { r with made := r.made ++ [⟨type, lower name, description, val⟩] }) fun r =>
          .op (fun r' => { r' with datas := assign name r.made.length r'.datas }) fun _ => .ret (.found r.made.length)
      else .ret .invalid

def lookupAs (name : List Char) (type : Ty) : Body (Registry Val) Answer :=
  .op id fun r =>
    match r.datas.lookup name with
    | some v => .ret (dynamicCast type r v)
    | none => .ret .null

def lookupBase (name : List Char) : Body (Registry Val) Answer :=
  .op id fun r => .ret ((r.datas.lookup name).elim .null .found)

/-- The loop of `Visit`: its callback gets one variable after the other. -/
def visitFrom (visited : List Nat) : List (List Char × Nat) → Body (Registry Val) Answer
  | [] => .ret (.visited visited)
  | (_, v) :: datas => .op id fun _ => visitFrom (visited ++ [v]) datas

def visit : Body (Registry Val) Answer := .op id fun r => visitFrom [] r.datas

omit [DecidableEq Ty] in
theorem readOnly_visitFrom (visited : List Nat) (datas : List (List Char × Nat)) :
    (visitFrom visited datas : Body (Registry Val) Answer).ReadOnly := by
  induction datas generalizing visited with
  | nil => exact .ret _
  | cons e datas ih => exact .op fun _ => ih _

def sections : Lookups Val → Section (Registry Val) Answer
  | .lookup name type val description => ⟨.write, lookup name type val description, by rintro ⟨⟩⟩
  | .lookupAs name type => ⟨.read, lookupAs name type, fun _ => .op fun r => by split <;> exact .ret _⟩
  | .lookupBase name => ⟨.read, lookupBase name, fun _ => .op fun _ => .ret _⟩
  | .visit => ⟨.read, visit, fun _ => .op fun _ => readOnly_visitFrom [] _⟩

end Model

section Agreement

variable {Ty : Type} {Val : Ty → Type}

/-- Each variable that was made is registered under its name, and nothing else is. -/
structure Wf (r : Registry Val) : Prop where
  ascending : r.datas.Pairwise fun a b => a.1 < b.1
  registered : ∀ v var, r.made[v]? = some var → r.datas.lookup var.name = some v
  named : ∀ name v, r.datas.lookup name = some v →
    ValidName name ∧ ∃ var, r.made[v]? = some var ∧ var.name = name

def Typed (r : Registry Val) (name : List Char) (v : Nat) (type : Ty) : Prop :=
  r.datas.lookup name = some v ∧ ∃ var, r.made[v]? = some var ∧ var.type = type

/-- What the registry says about an answer. -/
def Told (r : Registry Val) : Lookups Val → Answer → Prop
  | .lookup name type _ _, .found v | .lookupAs name type, .found v => Typed r name v type
  | .lookup name type _ _, .null => ∃ v other, other ≠ type ∧ Typed r name v other
  | .lookup name _ _ _, .invalid => ¬ ValidName name
  | .lookupBase name, .found v => r.datas.lookup name = some v
  | .lookupAs _ _, .null | .lookupBase _, .null => True
  | .visit, .visited vars => vars.Nodup ∧ ∀ v ∈ vars, ∃ var, r.made[v]? = some var
  | _, _ => False

structure Grows (r r' : Registry Val) : Prop where
  datas : ∀ name v, r.datas.lookup name = some v → r'.datas.lookup name = some v
  made : ∀ (v : Nat) (var : Var Val), r.made[v]? = some var → r'.made[v]? = some var

theorem Grows.refl (r : Registry Val) : Grows r r := ⟨fun _ _ h => h, fun _ _ h => h⟩

theorem Grows.trans {r r' r'' : Registry Val} (h : Grows r r') (h' : Grows r' r'') : Grows r r'' :=
  ⟨fun name v hv => h'.datas name v (h.datas name v hv), fun v var hv => h'.made v var (h.made v var hv)⟩

theorem Grows.typed {r r' : Registry Val} (h : Grows r r') {name : List Char} {v : Nat} {type : Ty}
    (ht : Typed r name v type) : Typed r' name v type := by
  obtain ⟨hv, var, hm, rfl⟩ := ht
  exact ⟨h.datas name v hv, var, h.made v var hm, rfl⟩

theorem Grows.told {r r' : Registry Val} (h : Grows r r') {call : Lookups Val} {answer : Answer}
    (ht : Told r call answer) : Told r' call answer := by
  match call, answer, ht with
  | .lookup .., .found _, ht | .lookupAs .., .found _, ht => exact h.typed ht
  | .lookup .., .null, ⟨v, other, hne, ht⟩ => exact ⟨v, other, hne, h.typed ht⟩
  | .lookup .., .invalid, ht => exact ht
  | .lookupBase _, .found v, ht => exact h.datas _ _ ht
  | .lookupAs .., .null, _ | .lookupBase _, .null, _ => trivial
  | .visit, .visited vars, ht => exact ⟨ht.1, fun v hv => (ht.2 v hv).imp (h.made v)⟩

theorem Told.found {r : Registry Val} {call : Lookups Val} {v : Nat} (h : Told r call (.found v)) {name : List Char}
    (hn : call.name = some name) : r.datas.lookup name = some v := by
  match call, h, hn with
  | .lookup .., h, rfl | .lookupAs .., h, rfl => exact h.1
  | .lookupBase _, h, rfl => exact h

theorem lookup_cons (key first : List Char) (w : Nat) (datas : List (List Char × Nat)) :
    List.lookup key ((first, w) :: datas) = if key = first then some w else datas.lookup key := by
  rw [List.lookup_cons]
  by_cases h : key = first
  · simp [h]
  · simp [h, beq_false_of_ne h]

theorem lookup_assign (name : List Char) (v : Nat) (datas : List (List Char × Nat)) (key : List Char) :
    (assign name v datas).lookup key = if key = name then some v else datas.lookup key := by
  induction datas with
  | nil => exact lookup_cons key name v []
  | cons e datas ih =>
    obtain ⟨first, w⟩ := e
    unfold assign
    split
    · rw [lookup_cons]
    · rename_i hn
      split
      · rename_i hlt
        have hne : first ≠ name := by
          rintro rfl
          exact List.lt_irrefl _ hlt
        rw [lookup_cons, lookup_cons, ih]
        by_cases h : key = first
        · rw [if_pos h, if_pos h, if_neg (h ▸ hne)]
        · rw [if_neg h, if_neg h]
      · rename_i hf
        obtain rfl : name = first := List.le_antisymm (List.not_lt.mp hf) (List.not_lt.mp hn)
        rw [lookup_cons, lookup_cons]
        by_cases h : key = name
        · rw [if_pos h, if_pos h]
        · rw [if_neg h, if_neg h, if_neg h]

theorem mem_assign {name : List Char} {v : Nat} {datas : List (List Char × Nat)} {e : List Char × Nat}
    (h : e ∈ assign name v datas) : e.1 = name ∨ e ∈ datas := by
  induction datas with
  | nil =>
    cases List.mem_singleton.mp h
    exact .inl rfl
  | cons first datas ih =>
    obtain ⟨key, w⟩ := first
    unfold assign at h
    split at h
    · rcases List.mem_cons.mp h with rfl | h
      · exact .inl rfl
      · exact .inr h
    · rename_i hn
      split at h
      · rcases List.mem_cons.mp h with rfl | h
        · exact .inr List.mem_cons_self
        · exact (ih h).imp id (List.mem_cons_of_mem _)
      · rename_i hf
        rcases List.mem_cons.mp h with rfl | h
        · exact .inl (List.le_antisymm (List.not_lt.mp hn) (List.not_lt.mp hf))
        · exact .inr (List.mem_cons_of_mem _ h)

theorem ascending_assign (name : List Char) (v : Nat) {datas : List (List Char × Nat)}
    (h : datas.Pairwise fun a b => a.1 < b.1) : (assign name v datas).Pairwise fun a b => a.1 < b.1 := by
  induction datas with
  | nil => exact List.pairwise_singleton _ _
  | cons first datas ih =>
    obtain ⟨key, w⟩ := first
    obtain ⟨hfirst, hrest⟩ := List.pairwise_cons.mp h
    unfold assign
    split
    · rename_i hn
      refine List.pairwise_cons.mpr ⟨fun e he => ?_, h⟩
      rcases List.mem_cons.mp he with rfl | he
      · exact hn
      · exact List.lt_trans hn (hfirst e he)
    · split
      · rename_i hf
        refine List.pairwise_cons.mpr ⟨fun e he => ?_, ih hrest⟩
        rcases mem_assign he with he | he
        · exact he ▸ hf
        · exact hfirst e he
      · exact List.pairwise_cons.mpr ⟨hfirst, hrest⟩

theorem lookup_of_mem {datas : List (List Char × Nat)} (h : datas.Pairwise fun a b => a.1 < b.1)
    {e : List Char × Nat} (he : e ∈ datas) : datas.lookup e.1 = some e.2 := by
  induction datas with
  | nil => cases he
  | cons first datas ih =>
    obtain ⟨hfirst, hrest⟩ := List.pairwise_cons.mp h
    rw [lookup_cons]
    rcases List.mem_cons.mp he with rfl | he
    · exact if_pos rfl
    · rw [if_neg fun heq => List.lt_irrefl _ (heq ▸ hfirst e he)]
      exact ih hrest he

theorem Wf.nodup {r : Registry Val} (h : Wf r) : (r.datas.map Prod.snd).Nodup := by
  refine List.pairwise_map.mpr (h.ascending.imp_of_mem fun {a b} ha hb hlt heq => ?_)
  obtain ⟨-, var, hvar, hname⟩ := h.named a.1 a.2 (lookup_of_mem h.ascending ha)
  obtain ⟨-, other, hother, hname'⟩ := h.named b.1 b.2 (lookup_of_mem h.ascending hb)
  rw [heq, hother] at hvar
  cases hvar
  rw [← hname, ← hname'] at hlt
  exact List.lt_irrefl _ hlt

theorem Wf.register {r : Registry Val} (h : Wf r) {name : List Char} (hfree : r.datas.lookup name = none)
    (hv : ValidName name) (var : Var Val) (hname : var.name = name) :
    Wf ⟨assign name r.made.length r.datas, r.made ++ [var]⟩ ∧
      Grows r ⟨assign name r.made.length r.datas, r.made ++ [var]⟩ := by
  have hdatas : ∀ key v, r.datas.lookup key = some v → (assign name r.made.length r.datas).lookup key = some v := by
    intro key v hk
    rw [lookup_assign, if_neg, hk]
    rintro rfl
    cases hfree ▸ hk
  have hmade : ∀ (v : Nat) (x : Var Val), r.made[v]? = some x → (r.made ++ [var])[v]? = some x := by
    intro v x hx
    rw [List.getElem?_append_left (List.getElem?_eq_some_iff.mp hx).1, hx]
  refine ⟨⟨ascending_assign name _ h.ascending, fun v x hx => ?_, fun key v hk => ?_⟩, hdatas, hmade⟩
  · rw [List.getElem?_append] at hx
    split at hx
    · exact hdatas _ _ (h.registered v x hx)
    · obtain ⟨hlen, rfl⟩ := List.getElem?_eq_some_iff.mp hx
      have hz : v = r.made.length := by
        rw [List.length_singleton] at hlen
        omega
      simp only [List.getElem_singleton, lookup_assign, hname, if_pos, hz]
  · rw [lookup_assign] at hk
    split at hk
    · rename_i heq
      cases hk
      exact ⟨heq ▸ hv, var, by simp, hname.trans heq.symm⟩
    · obtain ⟨hvalid, x, hx, hn⟩ := h.named key v hk
      exact ⟨hvalid, x, hmade v x hx, hn⟩

variable [DecidableEq Ty]

omit [DecidableEq Ty] in
theorem visitFrom_run (visited : List Nat) (datas : List (List Char × Nat)) (r : Registry Val) :
    ((visitFrom visited datas).run r) = (r, .visited (visited ++ datas.map Prod.snd)) := by
  induction datas generalizing visited with
  | nil => rw [List.map_nil, List.append_nil]; rfl
  | cons e datas ih =>
    have h := ih (visited ++ [e.2])
    rw [List.append_assoc] at h
    exact h

theorem Wf.cast {r : Registry Val} (h : Wf r) {name : List Char} {v : Nat} (hv : r.datas.lookup name = some v)
    (type : Ty) : (dynamicCast type r v = .found v ∧ Typed r name v type) ∨
      (dynamicCast type r v = .null ∧ ∃ other, other ≠ type ∧ Typed r name v other) := by
  obtain ⟨-, var, hvar, -⟩ := h.named name v hv
  by_cases ht : var.type = type
  · exact .inl ⟨by simp [dynamicCast, hvar, ht], hv, var, hvar, ht⟩
  · exact .inr ⟨by simp [dynamicCast, hvar, ht], var.type, ht, hv, var, hvar, rfl⟩

theorem Wf.call {r : Registry Val} (h : Wf r) (call : Lookups Val) :
    Wf ((sections call).body.run r).1 ∧ Grows r ((sections call).body.run r).1 ∧
      Told ((sections call).body.run r).1 call ((sections call).body.run r).2 := by
  match call with
  | .lookupBase name =>
    refine ⟨h, .refl r, ?_⟩
    cases hv : r.datas.lookup name with
    | none => simp [sections, lookupBase, Body.run, hv, Told]
    | some v => simp [sections, lookupBase, Body.run, hv, Told]
  | .visit =>
    simp only [sections, visit, Body.run, visitFrom_run, id_eq]
    refine ⟨h, .refl r, h.nodup, fun v hv => ?_⟩
    obtain ⟨e, he, rfl⟩ := List.mem_map.mp hv
    obtain ⟨-, var, hvar, -⟩ := h.named e.1 e.2 (lookup_of_mem h.ascending he)
    exact ⟨var, hvar⟩
  | .lookupAs name type =>
    cases hv : r.datas.lookup name with
    | none => simpa [sections, lookupAs, Body.run, hv, Told] using ⟨h, Grows.refl r⟩
    | some v =>
      simp only [sections, lookupAs, Body.run, hv, id_eq]
      refine ⟨h, .refl r, ?_⟩
      rcases h.cast hv type with ⟨hc, ht⟩ | ⟨hc, -⟩
      · exact hc ▸ ht
      · rw [hc]
        trivial
  | .lookup name type val description =>
    cases hv : r.datas.lookup name with
    | some v =>
      simp only [sections, lookup, Body.run, hv, id_eq]
      refine ⟨h, .refl r, ?_⟩
      rcases h.cast hv type with ⟨hc, ht⟩ | ⟨hc, other, hne, ht⟩
      · exact hc ▸ ht
      · rw [hc]
        exact ⟨v, other, hne, ht⟩
    | none =>
      simp only [sections, lookup, Body.run, hv, id_eq]
      by_cases hvalid : ValidName name
      · obtain ⟨hwf, hgrows⟩ :=
          h.register hv hvalid ⟨type, lower name, description, val⟩ (lower_of_valid hvalid)
        simp only [if_pos hvalid, Body.run]
        refine ⟨hwf, hgrows, ?_, ⟨type, lower name, description, val⟩, by simp, rfl⟩
        rw [lookup_assign, if_pos rfl]
      · simp only [if_neg hvalid, Body.run]
        exact ⟨h, .refl r, hvalid⟩

def calls (ι : Type) (call : ι × Lookups Val) : Section (Registry Val) Answer := sections call.2

def Registry.empty : Registry Val := ⟨[], []⟩

omit [DecidableEq Ty] in
theorem Wf.empty : Wf (Registry.empty : Registry Val) :=
  ⟨.nil, fun _ _ h => by simp [Registry.empty] at h, fun _ _ h => by simp [Registry.empty] at h⟩

/-- The answer to a call that asks for a registered variable. -/
def Lookups.resolved (r : Registry Val) (v : Nat) : Lookups Val → Answer
  | .lookup _ type _ _ | .lookupAs _ type => dynamicCast type r v
  | .lookupBase _ => .found v
  | .visit => .null

theorem run_resolved {r : Registry Val} {name : List Char} {v : Nat} (hv : r.datas.lookup name = some v)
    {call : Lookups Val} (hn : call.name = some name) :
    (sections call).body.run r = (r, call.resolved r v) := by
  match call, hn with
  | .lookup .., rfl => simp [sections, lookup, Body.run, hv, Lookups.resolved]
  | .lookupAs .., rfl => simp [sections, lookupAs, Body.run, hv, Lookups.resolved]
  | .lookupBase _, rfl => simp [sections, lookupBase, Body.run, hv, Lookups.resolved]

theorem Grows.resolved {r r' : Registry Val} (h : Grows r r') {v : Nat} {var : Var Val} (hv : r.made[v]? = some var)
    (call : Lookups Val) : call.resolved r' v = call.resolved r v := by
  cases call <;> simp [Lookups.resolved, dynamicCast, hv, h.made v var hv]

variable {ι : Type}

/-- The answers of calls that ran one after the other, from one registry to another. -/
structure Fits (r r' : Registry Val) (log : List ((ι × Lookups Val) × Answer)) : Prop where
  wf : Wf r'
  grows : Grows r r'
  told : ∀ e ∈ log, Told r' e.1.2 e.2
  resolved : ∀ e ∈ log, ∀ name v, r.datas.lookup name = some v → e.1.2.name = some name → e.2 = e.1.2.resolved r v

theorem Wf.answers {r : Registry Val} (h : Wf r) (order : List (ι × Lookups Val)) :
    Fits r (after (calls ι) r order) (Sections.answers (calls ι) r order) := by
  have hstart : Fits (ι := ι) r r [] := ⟨h, .refl r, by simp, by simp⟩
  refine answers_invariant (calls ι) (J := Fits r) (fun r' log call hf => ?_) hstart order
  obtain ⟨hwf, hgrows, htold⟩ := hf.wf.call call.2
  refine ⟨hwf, hf.grows.trans hgrows, fun e he => ?_, fun e he name v hv hn => ?_⟩
  · rcases List.mem_append.mp he with he | he
    · exact hgrows.told (hf.told e he)
    · cases List.mem_singleton.mp he
      exact htold
  · rcases List.mem_append.mp he with he | he
    · exact hf.resolved e he name v hv hn
    · cases List.mem_singleton.mp he
      obtain ⟨-, var, hvar, -⟩ := h.named name v hv
      rw [← hf.grows.resolved hvar]
      exact congrArg Prod.snd (run_resolved (hf.grows.datas name v hv) hn)

/-- Any number of threads look variables up, register them and visit them. All answers fit one
registry, in which each name stands for one variable and each variable for its own name; and a
lookup that began after a variable was found under a name is answered with that variable. -/
theorem lookups_agree (before later : List (Label (ι × Lookups Val)))
    {s t : State Locks.RWMutex (Registry Val) (ι × Lookups Val) Answer}
    (hs : exec (step Locks.RWMutex.lock (calls ι)) (start Locks.RWMutex.new .empty) before = some s)
    (ht : exec (step Locks.RWMutex.lock (calls ι)) s later = some t) :
    ∃ r, Wf r ∧ (∀ e ∈ t.returned, Told r e.1.2 e.2) ∧ (t.jobs = [] → t.shared = r) ∧
      ∀ e ∈ s.returned, ∀ name v, e.1.2.name = some name → e.2 = .found v →
        ∀ e' ∈ t.returned, e'.1 ∉ s.returned.map Prod.fst → e'.1 ∉ s.jobs.map Job.call →
          e'.1.2.name = some name → e'.2 = e'.1.2.resolved r v := by
  have hstart : Serialized (calls ι) Locks.RWMutex.Held (Registry.empty : Registry Val) []
      (start Locks.RWMutex.new .empty) := .start ⟨rfl, rfl, fun _ => rfl⟩
  have hsorder := hstart.exec Locks.RWMutex.lawful before hs
  have htorder := hsorder.exec Locks.RWMutex.lawful later ht
  have hse := hsorder.explains
  have hte := htorder.explains
  have hsf := Wf.empty.answers ([] ++ acquired Locks.RWMutex.lock (calls ι) (start Locks.RWMutex.new .empty) before)
  have htf := Wf.empty.answers ([] ++ acquired Locks.RWMutex.lock (calls ι) (start Locks.RWMutex.new .empty) before ++
    acquired Locks.RWMutex.lock (calls ι) s later)
  have hmf := hsf.wf.answers (acquired Locks.RWMutex.lock (calls ι) s later)
  refine ⟨_, htf.wf, fun e he => ?_, fun hj => ?_, fun e he name v hn hv e' he' hr hj hn' => ?_⟩
  · exact htf.told e (hte.answers.mem_iff.mpr (List.mem_append_left _ he))
  · exact hte.shared (by simp [hj])
  · -- what `s` returned is registered when the later calls begin
    have hfound := hsf.told e (hse.answers.mem_iff.mpr (List.mem_append_left _ he))
    rw [hv] at hfound
    have hlookup := hfound.found hn
    obtain ⟨-, var, hvar, -⟩ := hsf.wf.named name v hlookup
    have hgrows := hmf.grows
    rw [← after_append] at hgrows
    rw [hgrows.resolved hvar]
    exact hmf.resolved e' (hse.later hte he' hr hj) name v hlookup hn'

def level : Nat × Lookups (fun _ : Bool => Nat) := (1, .lookup ['l'] true 5 [])

def levelAgain : Nat × Lookups (fun _ : Bool => Nat) := (2, .lookup ['l'] false 7 [])

def levelBase : Nat × Lookups (fun _ : Bool => Nat) := (3, .lookupBase ['l'])

theorem lookups_agree_race :
    ∃ r : Registry (fun _ : Bool => Nat), Wf r ∧
      (∀ e ∈ [(level, Answer.found 0), (levelBase, .found 0), (levelAgain, .null)], Told r e.1.2 e.2) ∧
      (([] : List (Job (Registry fun _ : Bool => Nat) (Nat × Lookups fun _ : Bool => Nat) Answer)) = [] →
        (⟨[(['l'], 0)], [⟨true, ['l'], [], 5⟩]⟩ : Registry fun _ : Bool => Nat) = r) ∧
      ∀ e ∈ [(level, Answer.found 0)], ∀ name v, e.1.2.name = some name → e.2 = .found v →
        ∀ e' ∈ [(level, Answer.found 0), (levelBase, .found 0), (levelAgain, .null)],
          e'.1 ∉ [(level, Answer.found 0)].map Prod.fst → e'.1 ∉ [] → e'.1.2.name = some name →
            e'.2 = e'.1.2.resolved r v :=
  lookups_agree
    [.enter level, .enter levelAgain, .advance 0, .advance 0, .enter levelBase, .advance 0, .leave 0]
    [.enter levelBase, .enter levelAgain, .advance 0, .leave 0, .enter levelAgain, .advance 0, .unlock 0, .leave 0]
    (s := ⟨Locks.RWMutex.new, ⟨[(['l'], 0)], [⟨true, ['l'], [], 5⟩]⟩, [], [(level, .found 0)]⟩)
    (t := ⟨Locks.RWMutex.new, ⟨[(['l'], 0)], [⟨true, ['l'], [], 5⟩]⟩, [],
      [(level, .found 0), (levelBase, .found 0), (levelAgain, .null)]⟩) rfl rfl

end Agreement

end Windgent.ConfigMgr
