import Windgent.Transition
import Mathlib.Logic.Function.Basic

namespace Windgent.ConfigVar

open Transition

section Model

variable {T Thread : Type}

/-- A `ConfigVar`: its value, the values of the calls of `setVal` that are between their two
sections, and for each listener the `(old_val, new_val)` it was called with. -/
structure State (T Thread : Type) where
  val : T
  pending : Thread → Option T
  calls : Nat → List (T × T)

def new (Thread : Type) (val : T) : State T Thread := ⟨val, fun _ => none, fun _ => []⟩

inductive Action (T Thread : Type) where
  | setVal (thread : Thread) (val : T)
  | fromString (thread : Thread) (val : String)
  | assign (thread : Thread)
deriving DecidableEq

variable [DecidableEq T] [DecidableEq Thread]

/-- The read-locked section of `setVal`: it returns if nothing changes, else it calls the
listeners `cbs` and goes on to the write-locked section. -/
def notify (cbs : List Nat) (s : State T Thread) (thread : Thread) (val : T) : State T Thread :=
  if val = s.val then s
  else
    { s with
      pending := Function.update s.pending thread (some val)
      calls := fun i => if i ∈ cbs then s.calls i ++ [(s.val, val)] else s.calls i }

/-- The sections of the calls. `fromStr` is the conversion of `fromString`, `none` where it
throws: the exception is caught there and nothing is set. -/
def step (fromStr : String → Option T) (cbs : List Nat) (s : State T Thread) : Action T Thread → Option (State T Thread)
  | .setVal thread val => if s.pending thread = none then some (notify cbs s thread val) else none
  | .fromString thread str =>
      if s.pending thread = none then some (((fromStr str).map (notify cbs s thread)).getD s) else none
  | .assign thread =>
      (s.pending thread).map fun val => { s with val := val, pending := Function.update s.pending thread none }

end Model

section Agreement

variable {T Thread : Type} {s : State T Thread}

def Quiet (s : State T Thread) : Prop := ∀ thread, s.pending thread = none

/-- Each notification goes on from the value that the one before it announced. -/
def Chained (v : T) : List (T × T) → Prop
  | [] => True
  | c :: cs => c.1 = v ∧ Chained c.2 cs

def latest (v : T) (cs : List (T × T)) : T := cs.foldl (fun _ c => c.2) v

/-- The listeners agree with the value: they were told it last, and were told each value
together with its predecessor. -/
def Agrees (initial : T) (s : State T Thread) : Prop :=
  ∀ i, (∀ c, (s.calls i).getLast? = some c → c.2 = s.val) ∧ Chained initial (s.calls i)

@[simp] theorem latest_append (v : T) (cs : List (T × T)) (c : T × T) : latest v (cs ++ [c]) = c.2 := by
  rw [latest, List.foldl_append]
  rfl

theorem chained_append {v : T} {cs : List (T × T)} {c : T × T} :
    Chained v (cs ++ [c]) ↔ Chained v cs ∧ c.1 = latest v cs := by
  induction cs generalizing v with
  | nil => simp [Chained, latest]
  | cons d cs ih => rw [List.cons_append, Chained, Chained, ih, and_assoc]; rfl

theorem latest_of_getLast {v : T} {cs : List (T × T)} {c : T × T} (h : cs.getLast? = some c) : latest v cs = c.2 := by
  obtain ⟨ds, rfl⟩ := List.getLast?_eq_some_iff.mp h
  exact latest_append v ds c

variable {cbs : List Nat} {initial : T}

/-- At most one call is between its sections, and it has announced its value. -/
structure Inv (cbs : List Nat) (initial : T) (s : State T Thread) : Prop where
  silent : ∀ i ∉ cbs, s.calls i = []
  chained : ∀ i ∈ cbs, Chained initial (s.calls i)
  single : ∀ a b, s.pending a ≠ none → s.pending b ≠ none → a = b
  promised : ∀ a w, s.pending a = some w → w ≠ s.val ∧ ∀ i ∈ cbs, latest initial (s.calls i) = w
  current : Quiet s → ∀ i ∈ cbs, latest initial (s.calls i) = s.val

theorem new_inv (cbs : List Nat) (initial : T) : Inv cbs initial (new Thread initial) where
  silent _ _ := rfl
  chained _ _ := trivial
  single _ _ ha := absurd rfl ha
  promised _ _ hw := nomatch hw
  current _ _ _ := rfl

theorem Inv.assign [DecidableEq Thread] (h : Inv cbs initial s) {thread : Thread} {val : T}
    (hp : s.pending thread = some val) :
    Inv cbs initial { s with val := val, pending := Function.update s.pending thread none } := by
  have hnone : ∀ a, Function.update s.pending thread none a = none := by
    intro a
    by_cases ha : a = thread
    · rw [ha, Function.update_self]
    · rw [Function.update_of_ne ha]
      by_contra hne
      apply ha
      exact h.single a thread hne (by rw [hp]; exact Option.some_ne_none val)
  constructor
  · exact h.silent
  · exact h.chained
  · exact fun a _ ha => absurd (hnone a) ha
  · intro a w hw
    have := (hnone a).symm.trans hw
    cases this
  · exact fun _ => (h.promised thread val hp).2

theorem Inv.agrees (h : Inv cbs initial s) (hq : Quiet s) : Agrees initial s := by
  intro i
  by_cases hi : i ∈ cbs
  · exact ⟨fun c hc => (latest_of_getLast hc).symm.trans (h.current hq i hi), h.chained i hi⟩
  · rw [h.silent i hi]
    exact ⟨fun c hc => (nomatch hc), trivial⟩

end Agreement

section Runs

variable {T Thread : Type} [DecidableEq T] [DecidableEq Thread]
variable {fromStr : String → Option T} {cbs : List Nat} {initial : T} {s t : State T Thread}

def announced (fromStr : String → Option T) (s : State T Thread) : Action T Thread → Option T
  | .setVal _ val => if val = s.val then none else some val
  | .fromString _ str => (fromStr str).filter fun val => val ≠ s.val
  | .assign _ => none

/-- The listeners are called only while no other `setVal` is between its sections. -/
def Unhurried (fromStr : String → Option T) (s : State T Thread) (a : Action T Thread) : Prop :=
  announced fromStr s a ≠ none → Quiet s

def UnhurriedRun (fromStr : String → Option T) (cbs : List Nat) : State T Thread → List (Action T Thread) → Prop
  | _, [] => True
  | s, a :: as => Unhurried fromStr s a ∧ ∀ t, step fromStr cbs s a = some t → UnhurriedRun fromStr cbs t as

theorem step_cases {a : Action T Thread} (h : step fromStr cbs s a = some t) :
    (announced fromStr s a = none ∧ t = s) ∨
      (∃ thread val, announced fromStr s a = some val ∧ s.pending thread = none ∧ val ≠ s.val ∧
        t = notify cbs s thread val) ∨
      (∃ thread val, announced fromStr s a = none ∧ s.pending thread = some val ∧
        t = { s with val := val, pending := Function.update s.pending thread none }) := by
  have hnotify : ∀ thread val,
      (val = s.val ∧ notify cbs s thread val = s) ∨ val ≠ s.val := by
    intro thread val
    by_cases hv : val = s.val
    · exact Or.inl ⟨hv, if_pos hv⟩
    · exact Or.inr hv
  cases a with
  | setVal thread val =>
    simp only [step] at h
    split at h
    · rename_i hp
      obtain rfl := Option.some.inj h
      obtain ⟨hv, he⟩ | hv := hnotify thread val
      · exact Or.inl ⟨if_pos hv, he⟩
      · exact Or.inr (Or.inl ⟨thread, val, if_neg hv, hp, hv, rfl⟩)
    · cases h
  | fromString thread str =>
    simp only [step] at h
    split at h
    · rename_i hp
      obtain rfl := Option.some.inj h
      cases hf : fromStr str with
      | none => exact Or.inl ⟨by simp [announced, hf], rfl⟩
      | some val =>
        obtain ⟨hv, he⟩ | hv := hnotify thread val
        · exact Or.inl ⟨by simp [announced, hf, hv], he⟩
        · exact Or.inr (Or.inl ⟨thread, val, by simp [announced, hf, hv], hp, hv, rfl⟩)
    · cases h
  | assign thread =>
    obtain ⟨val, hval, rfl⟩ := Option.map_eq_some_iff.mp h
    exact Or.inr (Or.inr ⟨thread, val, rfl, hval, rfl⟩)

theorem Inv.notify (h : Inv cbs initial s) (hq : Quiet s) {thread : Thread} {val : T} (hv : val ≠ s.val) :
    Inv cbs initial (notify cbs s thread val) := by
  have hcalls : ∀ i ∈ cbs, (ConfigVar.notify cbs s thread val).calls i = s.calls i ++ [(s.val, val)] := by
    intro i hi
    simp only [ConfigVar.notify, if_neg hv, if_pos hi]
  have hpending : ∀ a, (ConfigVar.notify cbs s thread val).pending a ≠ none → a = thread := by
    intro a ha
    by_contra hne
    apply ha
    simp only [ConfigVar.notify, if_neg hv, Function.update_of_ne hne]
    exact hq a
  have hthread : (ConfigVar.notify cbs s thread val).pending thread = some val := by
    simp only [ConfigVar.notify, if_neg hv, Function.update_self]
  constructor
  · intro i hi
    simp only [ConfigVar.notify, if_neg hv, if_neg hi]
    exact h.silent i hi
  · intro i hi
    rw [hcalls i hi, chained_append]
    exact ⟨h.chained i hi, (h.current hq i hi).symm⟩
  · intro a b ha hb
    exact (hpending a ha).trans (hpending b hb).symm
  · intro a w hw
    obtain rfl := hpending a (by rw [hw]; exact Option.some_ne_none w)
    rw [hthread] at hw
    obtain rfl := Option.some.inj hw
    refine ⟨?_, fun i hi => ?_⟩
    · simp only [ConfigVar.notify, if_neg hv]
      exact hv
    · rw [hcalls i hi, latest_append]
  · intro hquiet
    have := hquiet thread
    rw [hthread] at this
    cases this

theorem Inv.step (h : Inv cbs initial s) {a : Action T Thread} (hok : Unhurried fromStr s a)
    (ht : step fromStr cbs s a = some t) : Inv cbs initial t := by
  obtain ⟨-, rfl⟩ | ⟨thread, val, ha, -, hv, rfl⟩ | ⟨thread, val, -, hp, rfl⟩ := step_cases ht
  · exact h
  · exact h.notify (hok (by rw [ha]; exact Option.some_ne_none val)) hv
  · exact h.assign hp

theorem chained_of_step {a : Action T Thread} {i : Nat} (ht : step fromStr cbs s a = some t)
    (hc : Chained initial (t.calls i)) : Chained initial (s.calls i) := by
  obtain ⟨-, rfl⟩ | ⟨thread, val, -, -, hv, rfl⟩ | ⟨thread, val, -, -, rfl⟩ := step_cases ht
  · exact hc
  · simp only [notify, if_neg hv] at hc
    split at hc
    · exact (chained_append.mp hc).1
    · exact hc
  · exact hc

theorem chained_of_exec {as : List (Action T Thread)} {i : Nat} (ht : exec (step fromStr cbs) s as = some t)
    (hc : Chained initial (t.calls i)) : Chained initial (s.calls i) := by
  induction as generalizing s with
  | nil =>
    obtain rfl := Option.some.inj ht
    exact hc
  | cons a as ih =>
    obtain ⟨u, hu, ht⟩ := Option.bind_eq_some_iff.mp ht
    exact chained_of_step hu (ih ht)

/-- A notification while a value is announced and not assigned breaks the chain. -/
theorem Inv.unhurried (h : Inv cbs initial s) {a : Action T Thread} (ht : ConfigVar.step fromStr cbs s a = some t)
    {i : Nat} (hi : i ∈ cbs) (hc : Chained initial (t.calls i)) : Unhurried fromStr s a := by
  intro ha b
  by_contra hb
  obtain ⟨w, hw⟩ := Option.ne_none_iff_exists'.mp hb
  obtain ⟨hne, hlatest⟩ := h.promised b w hw
  obtain ⟨hn, -⟩ | ⟨thread, val, -, -, hv, rfl⟩ | ⟨thread, val, hn, -⟩ := step_cases ht
  · exact ha hn
  · simp only [ConfigVar.notify, if_neg hv, if_pos hi] at hc
    have hlast := (chained_append.mp hc).2
    rw [hlatest i hi] at hlast
    exact hne hlast.symm
  · exact ha hn

theorem Inv.exec (h : Inv cbs initial s) {as : List (Action T Thread)} (hok : UnhurriedRun fromStr cbs s as)
    (ht : exec (ConfigVar.step fromStr cbs) s as = some t) : Inv cbs initial t := by
  induction as generalizing s with
  | nil =>
    obtain rfl := Option.some.inj ht
    exact h
  | cons a as ih =>
    obtain ⟨u, hu, ht⟩ := Option.bind_eq_some_iff.mp ht
    exact ih (h.step hok.1 hu) (hok.2 u hu) ht

theorem Inv.unhurriedRun (h : Inv cbs initial s) {as : List (Action T Thread)}
    (ht : Transition.exec (ConfigVar.step fromStr cbs) s as = some t) {i : Nat} (hi : i ∈ cbs)
    (hc : Chained initial (t.calls i)) : UnhurriedRun fromStr cbs s as := by
  induction as generalizing s with
  | nil => trivial
  | cons a as ih =>
    obtain ⟨u, hu, ht⟩ := Option.bind_eq_some_iff.mp ht
    have hok := h.unhurried hu hi (chained_of_exec ht hc)
    refine ⟨hok, fun u' hu' => ?_⟩
    rw [hu] at hu'
    obtain rfl := Option.some.inj hu'
    exact ih (h.step hok hu) ht

theorem silent_exec {as : List (Action T Thread)} (ht : Transition.exec (ConfigVar.step fromStr []) s as = some t) :
    t.calls = s.calls := by
  induction as generalizing s with
  | nil =>
    obtain rfl := Option.some.inj ht
    rfl
  | cons a as ih =>
    obtain ⟨u, hu, ht⟩ := Option.bind_eq_some_iff.mp ht
    rw [ih ht]
    obtain ⟨-, rfl⟩ | ⟨thread, val, -, -, hv, rfl⟩ | ⟨thread, val, -, -, rfl⟩ := step_cases hu
    · rfl
    · simp [ConfigVar.notify, hv]
    · rfl

/-- Whenever no `setVal` is in progress, the listeners agree with the value exactly if there are
none or no call has notified them while another was between its sections. -/
theorem agrees_iff_unhurried (as : List (Action T Thread))
    (ht : Transition.exec (ConfigVar.step fromStr cbs) (new Thread initial) as = some t) (hq : Quiet t) :
    Agrees initial t ↔ cbs = [] ∨ UnhurriedRun fromStr cbs (new Thread initial) as := by
  constructor
  · intro hagrees
    cases cbs with
    | nil => exact Or.inl rfl
    | cons i cbs =>
      right
      exact (new_inv (i :: cbs) initial).unhurriedRun ht List.mem_cons_self (hagrees i).2
  · rintro (rfl | hok)
    · intro i
      rw [silent_exec ht]
      exact ⟨fun c hc => (nomatch hc), trivial⟩
    · exact ((new_inv cbs initial).exec hok ht).agrees hq

def inTurn : List (Action Nat Bool) := [.setVal false 1, .assign false, .fromString true "7", .assign true]

def readSeven (str : String) : Option Nat := if str = "7" then some 7 else none

theorem agrees_in_turn : ∃ t, Transition.exec (ConfigVar.step readSeven [1, 2]) (new Bool 0) inTurn = some t ∧
    t.val = 7 ∧ Agrees 0 t := by
  obtain ⟨t, ht⟩ : ∃ t, Transition.exec (ConfigVar.step readSeven [1, 2]) (new Bool 0) inTurn = some t := ⟨_, rfl⟩
  have hq : Quiet t := by
    obtain rfl := Option.some.inj ht
    exact fun thread => by cases thread <;> rfl
  have hval : t.val = 7 := by
    obtain rfl := Option.some.inj ht
    rfl
  refine ⟨t, ht, hval, (agrees_iff_unhurried inTurn ht hq).mpr (Or.inr ?_)⟩
  refine ⟨fun _ _ => rfl, fun t ht => ?_⟩
  obtain rfl := Option.some.inj ht
  refine ⟨fun ha => absurd rfl ha, fun t ht => ?_⟩
  obtain rfl := Option.some.inj ht
  refine ⟨fun _ thread => by cases thread <;> rfl, fun t ht => ?_⟩
  obtain rfl := Option.some.inj ht
  exact ⟨fun ha => absurd rfl ha, fun _ _ => trivial⟩

def crossed : List (Action Nat Bool) := [.setVal false 1, .setVal true 2, .assign true, .assign false]

theorem listeners_differ_after_crossed_calls :
    ∃ t, Transition.exec (ConfigVar.step (fun _ => none) [1]) (new Bool 0) crossed = some t ∧ Quiet t ∧ t.val = 1 ∧
      t.calls 1 = [(0, 1), (0, 2)] ∧ ¬ Agrees 0 t := by
  refine ⟨_, rfl, fun thread => by cases thread <;> rfl, rfl, rfl, fun h => ?_⟩
  have hlast := (h 1).1 (0, 2) rfl
  cases hlast

end Runs

end Windgent.ConfigVar
