import Mathlib.Logic.Function.Basic
import Windgent.Transition

namespace Windgent.Threads

open Transition

inductive Pc where
  | begin
  | identify
  | swap
  | notify
  | call
  | calling
  | ended
deriving DecidableEq

/-- An object has one owner, who is in the constructor, outside of a call, or in `pthread_join`. -/
inductive Owner where
  | wait
  | idle
  | join
deriving DecidableEq

variable (C : Type)

structure Thread where
  id : Int
  threadId : Nat
  cb : Option C
  name : String
  sem : Nat
  owner : Owner
  number : Nat

/-- A thread with its `t_thread` and `t_thread_name`, and with the local `cb` of `run`. It is
released when it is joined or detached. The last fields are history: the callback that was given,
those that were called, and how often the thread was released. -/
structure Task where
  handle : Nat
  tid : Int
  arg : Nat
  pc : Pc
  cb : Option C
  thread : Option Nat
  name : String
  released : Bool
  given : C
  calls : List C
  releases : Nat

/-- The objects by address, the threads in the order of their creation, and how often an object
was used that was not there any more, or a thread that was released. -/
structure State where
  objects : Nat → Option (Thread C)
  tasks : List (Task C)
  faults : Nat

inductive Action where
  -- the constructor at an address up to `m_sem.wait()`, with what `pthread_create` makes
  | construct (a handle : Nat) (tid : Int) (cb : C) (name : String)
  -- a statement of `run`
  | run (n : Nat)
  -- `m_sem.wait()`
  | wait (a : Nat)
  | join (a : Nat)
  -- the return of `pthread_join`
  | joined (a : Nat)
  | destroy (a : Nat)
  -- `SetName` in the callback of a thread
  | setName (n : Nat) (name : String)

variable {C}

def Task.gone (t : Task C) : Bool := t.released && t.pc = .ended

def State.fault (s : State C) : State C := { s with faults := s.faults + 1 }

def State.put (s : State C) (a n : Nat) (o : Option (Thread C)) (t : Task C) : State C :=
  { s with objects := Function.update s.objects a o, tasks := s.tasks.set n t }

/-- The thread that a `pthread_t` stands for. -/
def State.target (s : State C) (handle : Nat) : Option Nat :=
  s.tasks.findIdx? fun t => t.handle = handle && !t.gone

def Thread.new (handle : Nat) (cb : C) (name : String) (number : Nat) : Thread C :=
  ⟨-1, handle, some cb, if name = "" then "UNKNOWN" else name, 0, .wait, number⟩

def Task.new (handle : Nat) (tid : Int) (arg : Nat) (cb : C) : Task C :=
  ⟨handle, tid, arg, .begin, none, none, "UNKNOWN", false, cb, [], 0⟩

def construct (s : State C) (a handle : Nat) (tid : Int) (cb : C) (name : String) : State C :=
  { s with
    objects := Function.update s.objects a (some (.new handle cb name s.tasks.length))
    tasks := s.tasks ++ [.new handle tid a cb] }

def advance (s : State C) (n : Nat) (t : Task C) : Option (State C) :=
  match t.pc, s.objects t.arg with
  | .begin, some o =>
    some { s with tasks := s.tasks.set n { t with pc := .identify, thread := some t.arg, name := o.name } }
  | .identify, some o => some (s.put t.arg n (some { o with id := t.tid }) { t with pc := .swap })
  | .swap, some o => some (s.put t.arg n (some { o with cb := none }) { t with pc := .notify, cb := o.cb })
  | .notify, some o => some (s.put t.arg n (some { o with sem := o.sem + 1 }) { t with pc := .call })
  | .call, _ =>
    t.cb.map fun cb => { s with tasks := s.tasks.set n { t with pc := .calling, calls := cb :: t.calls } }
  | .calling, _ => some { s with tasks := s.tasks.set n { t with pc := .ended } }
  | .ended, _ => none
  | _, none => some s.fault

/-- `pthread_join` or `pthread_detach`, with what becomes of the object. -/
def release (s : State C) (a n : Nat) (o : Option (Thread C)) : State C :=
  match s.tasks[n]? with
  | some t =>
    if t.released then s.fault else s.put a n o { t with released := true, releases := t.releases + 1 }
  | none => s.fault

def step (s : State C) : Action C → Option (State C)
  | .construct a handle tid cb name =>
    if (s.objects a).isNone && handle ≠ 0 && s.tasks.all (fun t => t.handle ≠ handle || t.gone) then
      some (construct s a handle tid cb name)
    else none
  | .run n => s.tasks[n]?.bind (advance s n)
  | .wait a => do
    let o ← s.objects a
    if o.owner = .wait ∧ 0 < o.sem then
      some { s with objects := Function.update s.objects a (some { o with sem := o.sem - 1, owner := .idle }) }
    else none
  | .join a => do
    let o ← s.objects a
    if o.owner ≠ .idle then none
    else if o.threadId = 0 then some s
    else some { s with objects := Function.update s.objects a (some { o with owner := .join }) }
  | .joined a => do
    let o ← s.objects a
    if o.owner ≠ .join then none
    else
      match s.target o.threadId with
      | none => some s.fault
      | some n =>
        if (s.tasks[n]?.map Task.pc) = some .ended then
          some (release s a n (some { o with threadId := 0, owner := .idle }))
        else none
  | .destroy a => do
    let o ← s.objects a
    if o.owner ≠ .idle then none
    else if o.threadId = 0 then some { s with objects := Function.update s.objects a none }
    else
      match s.target o.threadId with
      | none => some s.fault
      | some n => some (release s a n none)
  | .setName n name => do
    let t ← s.tasks[n]?
    if t.pc ≠ .calling then none
    else
      match t.thread with
      | none => some { s with tasks := s.tasks.set n { t with name := name } }
      | some a =>
        match s.objects a with
        | some o => some (s.put a n (some { o with name := name }) { t with name := name })
        | none => some s.fault

/-- `SetName` is called while the object of its thread is there. -/
def Regular (s : State C) : Action C → Prop
  | .setName n _ => (s.tasks[n]?.bind fun t => s.objects t.arg).map Thread.number = some n
  | _ => True

instance (s : State C) (b : Action C) : Decidable (Regular s b) :=
  match b with
  | .setName n _ => inferInstanceAs (Decidable ((s.tasks[n]?.bind fun t => s.objects t.arg).map Thread.number = some n))
  | .construct .. | .run _ | .wait _ | .join _ | .joined _ | .destroy _ => inferInstanceAs (Decidable True)

def noThreads : State C := ⟨fun _ => none, [], 0⟩

def State.own (s : State C) (n : Nat) (t : Task C) : Option (Thread C) :=
  (s.objects t.arg).filter fun o => o.number = n

/-- How many statements of `run` are done. -/
@[simp] def Pc.index : Pc → Nat
  | .begin => 0
  | .identify => 1
  | .swap => 2
  | .notify => 3
  | .call => 4
  | .calling => 5
  | .ended => 6

/-- How far a thread is and what it has made of its object, if that is there. -/
structure Ok (t : Task C) (x : Option (Thread C)) : Prop where
  handle : t.handle ≠ 0
  thread : t.thread = if t.pc = .begin then none else some t.arg
  -- `run` uses the object only while its constructor waits
  early : t.pc.index ≤ 3 → ∃ o, x = some o ∧ o.owner = .wait
  waiting : ∀ o, x = some o → o.owner = .wait → o.sem = if t.pc.index ≤ 3 then 0 else 1
  -- the handle of an object is that of its thread until it is joined
  threadId : ∀ o, x = some o →
    o.threadId = t.handle ∨ o.threadId = 0 ∧ o.owner = .idle ∧ t.pc = .ended
  released : t.released = false ↔ ∃ o, x = some o ∧ o.threadId = t.handle
  id : ∀ o, x = some o → 2 ≤ t.pc.index → o.id = t.tid
  name : ∀ o, x = some o → 1 ≤ t.pc.index → o.name = t.name
  given : ∀ o, x = some o → o.cb = if t.pc.index ≤ 2 then some t.given else none
  cb : 3 ≤ t.pc.index → t.cb = some t.given
  calls : t.calls = if t.pc.index ≤ 4 then [] else [t.given]
  releases : t.releases = t.released.toNat

structure Inv (s : State C) : Prop where
  faults : s.faults = 0
  tasks : ∀ n t, s.tasks[n]? = some t → Ok t (s.own n t)
  objects : ∀ a o, s.objects a = some o → ∃ t, s.tasks[o.number]? = some t ∧ t.arg = a
  handles : ∀ (n m : Nat) (t u : Task C), s.tasks[n]? = some t → s.tasks[m]? = some u → t.gone = false →
    u.gone = false → t.handle = u.handle → n = m

section Ok

variable {t : Task C} {o : Thread C}

theorem Ok.begin (h : Ok t (some o)) (hpc : t.pc = .begin) :
    Ok { t with pc := .identify, thread := some t.arg, name := o.name } (some o) := by
  cases h
  constructor <;> simp_all

theorem Ok.identify (h : Ok t (some o)) (hpc : t.pc = .identify) :
    Ok { t with pc := .swap } (some { o with id := t.tid }) := by
  cases h
  constructor <;> simp_all

theorem Ok.swap (h : Ok t (some o)) (hpc : t.pc = .swap) :
    Ok { t with pc := .notify, cb := o.cb } (some { o with cb := none }) := by
  cases h
  constructor <;> simp_all

theorem Ok.notify (h : Ok t (some o)) (hpc : t.pc = .notify) :
    Ok { t with pc := .call } (some { o with sem := o.sem + 1 }) := by
  cases h
  constructor <;> simp_all

theorem Ok.call {x : Option (Thread C)} (h : Ok t x) (hpc : t.pc = .call) :
    Ok { t with pc := .calling, calls := t.given :: t.calls } x := by
  cases h
  constructor <;> simp_all

theorem Ok.calling {x : Option (Thread C)} (h : Ok t x) (hpc : t.pc = .calling) : Ok { t with pc := .ended } x := by
  cases h
  constructor <;> simp_all

theorem Ok.wait (h : Ok t (some o)) (howner : o.owner = .wait) (hsem : 0 < o.sem) :
    Ok t (some { o with sem := o.sem - 1, owner := .idle }) := by
  have hlate : ¬ t.pc.index ≤ 3 := by
    intro hle
    have hw := h.waiting o rfl howner
    rw [if_pos hle] at hw
    omega
  exact {
    handle := h.handle
    thread := h.thread
    early := fun hle => absurd hle hlate
    waiting := by rintro p ⟨⟩ ⟨⟩
    threadId := by
      rintro p ⟨⟩
      rcases h.threadId o rfl with hid | ⟨-, hidle, -⟩
      · exact .inl hid
      · rw [howner] at hidle
        cases hidle
    released := by
      rw [h.released]
      constructor
      · rintro ⟨p, ⟨⟩, hid⟩
        exact ⟨_, rfl, hid⟩
      · rintro ⟨p, ⟨⟩, hid⟩
        exact ⟨o, rfl, hid⟩
    id := by rintro p ⟨⟩; exact h.id o rfl
    name := by rintro p ⟨⟩; exact h.name o rfl
    given := by rintro p ⟨⟩; exact h.given o rfl
    cb := h.cb
    calls := h.calls
    releases := h.releases }

theorem Ok.join (h : Ok t (some o)) (howner : o.owner = .idle) (hne : o.threadId ≠ 0) :
    Ok t (some { o with owner := .join }) := by
  cases h
  constructor <;> simp_all

theorem Ok.joined (h : Ok t (some o)) (hid : o.threadId = t.handle) (hpc : t.pc = .ended) :
    Ok { t with released := true, releases := t.releases + 1 } (some { o with threadId := 0, owner := .idle }) := by
  have hreleased := h.released.mpr ⟨o, rfl, hid⟩
  have hne := h.handle.symm
  cases h
  constructor <;> simp_all

theorem Ok.forgotten (h : Ok t (some o)) (howner : o.owner = .idle) (hz : o.threadId = 0) : Ok t none := by
  have hne := h.handle.symm
  cases h
  constructor <;> simp_all

theorem Ok.detached (h : Ok t (some o)) (howner : o.owner = .idle) (hid : o.threadId = t.handle) :
    Ok { t with released := true, releases := t.releases + 1 } none := by
  have hreleased := h.released.mpr ⟨o, rfl, hid⟩
  cases h
  constructor <;> simp_all

theorem Ok.setName (h : Ok t (some o)) (name : String) : Ok { t with name := name } (some { o with name := name }) := by
  cases h
  constructor <;> simp_all

end Ok

section Steps

variable {s t' : State C} {n : Nat} {t : Task C} {o : Thread C}

theorem own_eq_some {x : Thread C} : s.own n t = some x ↔ s.objects t.arg = some x ∧ x.number = n := by
  simp [State.own, Option.filter_eq_some_iff]

theorem Inv.change (h : Inv s) (hn : s.tasks[n]? = some t) {u : Task C} (harg : u.arg = t.arg)
    (hhandle : u.handle = t.handle) (hgone : u.gone = false → t.gone = false)
    {objects : Nat → Option (Thread C)} (hother : ∀ a, a ≠ t.arg → objects a = s.objects a)
    (hown : objects t.arg = s.objects t.arg ∨
      (s.own n t).isSome ∧ ∀ o, objects t.arg = some o → o.number = n)
    (hok : Ok u ((objects t.arg).filter fun o => o.number = n)) :
    Inv { s with objects := objects, tasks := s.tasks.set n u } := by
  have hlt : n < s.tasks.length := (List.getElem?_eq_some_iff.mp hn).1
  have hself : (s.tasks.set n u)[n]? = some u := List.getElem?_set_self hlt
  refine ⟨h.faults, fun m v hm => ?_, fun a o ha => ?_, fun i j v w hi hj hv hw he => ?_⟩
  · by_cases hmn : m = n
    · subst hmn
      obtain rfl := Option.some.inj (hself.symm.trans hm)
      rw [State.own, harg]
      exact hok
    · rw [List.getElem?_set_ne (Ne.symm hmn)] at hm
      have hv := h.tasks m v hm
      have heq : (objects v.arg).filter (fun o => o.number = m) = s.own m v := by
        by_cases ha : v.arg = t.arg
        · rcases hown with he | ⟨hs, hnew⟩
          · rw [State.own, ha, he]
          · obtain ⟨y, hy⟩ := Option.isSome_iff_exists.mp hs
            obtain ⟨hy, hynum⟩ := own_eq_some.mp hy
            have hl : (objects t.arg).filter (fun o => o.number = m) = none :=
              Option.filter_eq_none_iff.mpr fun o ho => by simpa [hnew o ho] using Ne.symm hmn
            have hr : s.own m v = none := by
              refine Option.filter_eq_none_iff.mpr fun o ho => ?_
              rw [ha, hy] at ho
              obtain rfl := Option.some.inj ho
              simpa [hynum] using Ne.symm hmn
            rw [ha, hl, hr]
        · rw [hother _ ha]
          rfl
      change Ok v ((objects v.arg).filter fun o => o.number = m)
      rw [heq]
      exact hv
  · change objects a = some o at ha
    have hold : ∃ v, s.tasks[o.number]? = some v ∧ v.arg = a := by
      by_cases hat : a = t.arg
      · subst hat
        rcases hown with he | ⟨-, hnew⟩
        · exact h.objects _ o (he ▸ ha)
        · exact ⟨t, by rw [hnew o ha, hn], rfl⟩
      · exact h.objects a o (hother a hat ▸ ha)
    obtain ⟨v, hv, hva⟩ := hold
    by_cases hon : o.number = n
    · rw [hon] at hv ⊢
      obtain rfl := Option.some.inj (hn.symm.trans hv)
      exact ⟨u, hself, harg.trans hva⟩
    · exact ⟨v, by rwa [List.getElem?_set_ne (Ne.symm hon)], hva⟩
  · have hback : ∀ (k : Nat) (x : Task C), (s.tasks.set n u)[k]? = some x → x.gone = false →
        ∃ y : Task C, s.tasks[k]? = some y ∧ y.gone = false ∧ y.handle = x.handle := by
      intro k x hk hx
      by_cases hkn : k = n
      · subst hkn
        obtain rfl := Option.some.inj (hself.symm.trans hk)
        exact ⟨t, hn, hgone hx, hhandle.symm⟩
      · exact ⟨x, by rwa [List.getElem?_set_ne (Ne.symm hkn)] at hk, hx, rfl⟩
    obtain ⟨v', hv', hgv, hev⟩ := hback i v hi hv
    obtain ⟨w', hw', hgw, hew⟩ := hback j w hj hw
    exact h.handles i j v' w' hv' hw' hgv hgw (hev.trans (he.trans hew.symm))

theorem Inv.task (h : Inv s) (hn : s.tasks[n]? = some t) {u : Task C} (harg : u.arg = t.arg)
    (hhandle : u.handle = t.handle) (hgone : u.gone = false → t.gone = false) (hok : Ok u (s.own n t)) :
    Inv { s with tasks := s.tasks.set n u } :=
  h.change hn harg hhandle hgone (fun _ _ => rfl) (.inl rfl) hok

theorem Inv.put (h : Inv s) (hn : s.tasks[n]? = some t) (ho : s.own n t = some o) {u : Task C}
    (harg : u.arg = t.arg) (hhandle : u.handle = t.handle) (hgone : u.gone = false → t.gone = false)
    {x : Option (Thread C)} (hnumber : ∀ o, x = some o → o.number = n) (hok : Ok u x) :
    Inv (s.put t.arg n x u) := by
  refine h.change hn harg hhandle hgone (fun a ha => Function.update_of_ne ha _ _) (.inr ⟨by rw [ho]; rfl, ?_⟩) ?_
  · rw [Function.update_self]
    exact hnumber
  · have hself : x.filter (fun o => o.number = n) = x := by
      cases x with
      | none => rfl
      | some o => exact Option.filter_some_pos (by simpa using hnumber o rfl)
    rw [Function.update_self, hself]
    exact hok

theorem Inv.advance (h : Inv s) (hn : s.tasks[n]? = some t) (ht : advance s n t = some t') : Inv t' := by
  have hok := h.tasks n t hn
  by_cases hearly : t.pc.index ≤ 3
  · obtain ⟨o, ho, -⟩ := hok.early hearly
    obtain ⟨hobj, hnumber⟩ := own_eq_some.mp ho
    have hok : Ok t (some o) := ho ▸ hok
    have hrun : t.gone = false := by
      have hne : t.pc ≠ .ended := by
        intro hpc
        rw [hpc] at hearly
        exact absurd hearly (by decide)
      simp [Task.gone, hne]
    cases hpc : t.pc with
    | begin =>
      simp only [Threads.advance, hpc, hobj, Option.some.injEq] at ht
      subst ht
      exact h.task hn (by rfl) (by rfl) (fun _ => hrun) (ho.symm ▸ hok.begin hpc)
    | identify =>
      simp only [Threads.advance, hpc, hobj, Option.some.injEq] at ht
      subst ht
      exact h.put hn ho (by rfl) (by rfl) (fun _ => hrun) (by rintro y ⟨⟩; exact hnumber) (hok.identify hpc)
    | swap =>
      simp only [Threads.advance, hpc, hobj, Option.some.injEq] at ht
      subst ht
      exact h.put hn ho (by rfl) (by rfl) (fun _ => hrun) (by rintro y ⟨⟩; exact hnumber) (hok.swap hpc)
    | notify =>
      simp only [Threads.advance, hpc, hobj, Option.some.injEq] at ht
      subst ht
      exact h.put hn ho (by rfl) (by rfl) (fun _ => hrun) (by rintro y ⟨⟩; exact hnumber) (hok.notify hpc)
    | call | calling | ended =>
      rw [hpc] at hearly
      exact absurd hearly (by decide)
  · have hlate := Nat.lt_of_not_le hearly
    cases hpc : t.pc with
    | call =>
      have hcb := hok.cb (Nat.le_of_lt hlate)
      simp only [Threads.advance, hpc, hcb, Option.map_some, Option.some.injEq] at ht
      subst ht
      exact h.task hn (by rfl) (by rfl) (fun _ => by simp [Task.gone, hpc]) (hcb ▸ hok.call hpc)
    | calling =>
      simp only [Threads.advance, hpc, Option.some.injEq] at ht
      subst ht
      exact h.task hn (by rfl) (by rfl) (fun _ => by simp [Task.gone, hpc]) (hok.calling hpc)
    | ended => simp [Threads.advance, hpc] at ht
    | begin | identify | swap | notify =>
      rw [hpc] at hlate
      exact absurd hlate (by decide)

variable {a : Nat}

theorem Inv.task_of (h : Inv s) (ho : s.objects a = some o) :
    ∃ t, s.tasks[o.number]? = some t ∧ t.arg = a ∧ s.own o.number t = some o := by
  obtain ⟨t, ht, hta⟩ := h.objects a o ho
  exact ⟨t, ht, hta, own_eq_some.mpr ⟨hta ▸ ho, rfl⟩⟩

theorem Inv.target (h : Inv s) (hn : s.tasks[n]? = some t) (hgone : t.gone = false) :
    s.target t.handle = some n := by
  obtain ⟨hlt, ht⟩ := List.getElem?_eq_some_iff.mp hn
  rw [State.target, List.findIdx?_eq_some_iff_getElem]
  refine ⟨hlt, by simp [ht, hgone], fun m hm hp => ?_⟩
  simp only [Bool.and_eq_true, decide_eq_true_eq, Bool.not_eq_true'] at hp
  have hmn := h.handles m n _ t (List.getElem?_eq_getElem (Nat.lt_trans hm hlt)) hn hp.2 hgone hp.1
  omega

theorem Inv.object (h : Inv s) (ho : s.objects a = some o) {x : Option (Thread C)}
    (hnumber : ∀ y, x = some y → y.number = o.number)
    (hok : ∀ t, Ok t (some o) → Ok t x) : Inv { s with objects := Function.update s.objects a x } := by
  obtain ⟨t, ht, rfl, hown⟩ := h.task_of ho
  have hput := h.put ht hown rfl rfl id hnumber (hok t (hown ▸ h.tasks _ t ht))
  have hset : s.tasks.set o.number t = s.tasks := by
    obtain ⟨hlt, hget⟩ := List.getElem?_eq_some_iff.mp ht
    rw [← hget, List.set_getElem_self]
  rwa [State.put, hset] at hput

theorem Inv.construct (h : Inv s) {handle : Nat} (tid : Int) (cb : C) (name : String)
    (ha : s.objects a = none) (hhandle : handle ≠ 0)
    (hfree : ∀ t ∈ s.tasks, t.handle ≠ handle ∨ t.gone = true) : Inv (Threads.construct s a handle tid cb name) := by
  have hlast : (Threads.construct s a handle tid cb name).tasks[s.tasks.length]? =
      some (.new handle tid a cb) := List.getElem?_concat_length
  have hcases : ∀ (m : Nat) (v : Task C), (Threads.construct s a handle tid cb name).tasks[m]? = some v →
      s.tasks[m]? = some v ∨ m = s.tasks.length ∧ v = .new handle tid a cb := by
    intro m v hm
    rcases Nat.lt_or_ge m s.tasks.length with hlt | hge
    · exact .inl ((List.getElem?_append_left hlt).symm.trans hm)
    · have hlt := (List.getElem?_eq_some_iff.mp hm).1
      have hm' : m = s.tasks.length := by
        simp only [Threads.construct, List.length_append, List.length_singleton] at hlt
        omega
      subst hm'
      exact .inr ⟨rfl, (Option.some.inj (hlast.symm.trans hm)).symm⟩
  refine ⟨h.faults, fun m v hm => ?_, fun b o hb => ?_, fun i j v w hi hj hv hw he => ?_⟩
  · rcases hcases m v hm with hm | ⟨rfl, rfl⟩
    · have hlt := (List.getElem?_eq_some_iff.mp hm).1
      have heq : (Threads.construct s a handle tid cb name).own m v = s.own m v := by
        by_cases hva : v.arg = a
        · have hne : s.tasks.length ≠ m := by omega
          simp [State.own, Threads.construct, Thread.new, hva, ha, hne]
        · simp [State.own, Threads.construct, hva]
      rw [heq]
      exact h.tasks m v hm
    · have hown : (Threads.construct s a handle tid cb name).own s.tasks.length
          (.new handle tid a cb) = some (.new handle cb name s.tasks.length) := by
        simp [State.own, Threads.construct, Task.new, Thread.new]
      rw [hown]
      constructor <;> simp [Task.new, Thread.new, hhandle]
  · by_cases hba : b = a
    · subst hba
      simp only [Threads.construct, Function.update_self, Option.some.injEq] at hb
      subst hb
      exact ⟨_, hlast, rfl⟩
    · simp only [Threads.construct, Function.update_of_ne hba] at hb
      obtain ⟨v, hv, hvb⟩ := h.objects b o hb
      exact ⟨v, (List.getElem?_append_left (List.getElem?_eq_some_iff.mp hv).1).trans hv, hvb⟩
  · have hnew : ∀ (k : Nat) (x : Task C), s.tasks[k]? = some x → x.gone = false → x.handle ≠ handle := by
      intro k x hk hx
      exact (hfree x (List.mem_of_getElem? hk)).resolve_right (by simp [hx])
    rcases hcases i v hi with hi | ⟨rfl, rfl⟩ <;> rcases hcases j w hj with hj | ⟨rfl, rfl⟩
    · exact h.handles i j v w hi hj hv hw he
    · exact absurd he (hnew i v hi hv)
    · exact absurd he.symm (hnew j w hj hw)
    · rfl

theorem Inv.release (h : Inv s) (ho : s.objects a = some o) (hne : o.threadId ≠ 0) :
    ∃ t, s.tasks[o.number]? = some t ∧ s.target o.threadId = some o.number ∧ Ok t (some o) ∧
      o.threadId = t.handle ∧ ∀ x, (∀ y, x = some y → y.number = o.number) →
        Ok { t with released := true, releases := t.releases + 1 } x → Inv (release s a o.number x) := by
  obtain ⟨t, ht, rfl, hown⟩ := h.task_of ho
  have hok := hown ▸ h.tasks _ t ht
  have hid : o.threadId = t.handle := (hok.threadId o rfl).resolve_right fun hz => hne hz.1
  have hreleased : t.released = false := hok.released.mpr ⟨o, rfl, hid⟩
  have hgone : t.gone = false := by simp [Task.gone, hreleased]
  refine ⟨t, ht, hid ▸ h.target ht hgone, hok, hid, fun x hnumber hx => ?_⟩
  simp only [Threads.release, ht, hreleased, Bool.false_eq_true, if_false]
  exact h.put ht hown (by rfl) (by rfl) (fun _ => hgone) hnumber hx

theorem Inv.joining (h : Inv s) (ho : s.objects a = some o) (howner : o.owner = .join) : o.threadId ≠ 0 := by
  obtain ⟨t, ht, -, hown⟩ := h.task_of ho
  have hok := hown ▸ h.tasks _ t ht
  intro hz
  rcases hok.threadId o rfl with hid | ⟨-, hidle, -⟩
  · exact hok.handle (hid ▸ hz)
  · rw [howner] at hidle
    cases hidle

theorem Inv.step (h : Inv s) {b : Action C} (hb : Regular s b) (ht : step s b = some t') : Inv t' := by
  cases b with
  | construct a handle tid cb name =>
    simp only [Threads.step, Option.ite_none_right_eq_some, Option.some.injEq] at ht
    obtain ⟨hguard, rfl⟩ := ht
    simp only [ne_eq, Bool.and_eq_true, Option.isNone_iff_eq_none, decide_eq_true_eq, List.all_eq_true,
      Bool.or_eq_true] at hguard
    exact h.construct tid cb name hguard.1.1 hguard.1.2 hguard.2
  | run n =>
    obtain ⟨t, hn, ht⟩ := Option.bind_eq_some_iff.mp ht
    exact h.advance hn ht
  | wait a =>
    obtain ⟨o, ho, ht⟩ := Option.bind_eq_some_iff.mp ht
    simp only [Option.ite_none_right_eq_some, Option.some.injEq] at ht
    obtain ⟨⟨howner, hsem⟩, rfl⟩ := ht
    exact h.object ho (by rintro y ⟨⟩; rfl) fun t hok => hok.wait howner hsem
  | join a =>
    obtain ⟨o, ho, ht⟩ := Option.bind_eq_some_iff.mp ht
    split at ht
    · cases ht
    · rename_i howner
      split at ht
      · cases ht
        exact h
      · rename_i hne
        cases ht
        exact h.object ho (by rintro y ⟨⟩; rfl) fun t hok => hok.join (not_not.mp howner) hne
  | joined a =>
    obtain ⟨o, ho, ht⟩ := Option.bind_eq_some_iff.mp ht
    split at ht
    · cases ht
    · rename_i howner
      obtain ⟨t, ht', htarget, hok, hid, hrelease⟩ := h.release ho (h.joining ho (not_not.mp howner))
      simp only [htarget, ht', Option.map_some, Option.some.injEq, Option.ite_none_right_eq_some] at ht
      obtain ⟨hend, rfl⟩ := ht
      exact hrelease _ (by rintro y ⟨⟩; rfl) (hok.joined hid hend)
  | destroy a =>
    obtain ⟨o, ho, ht⟩ := Option.bind_eq_some_iff.mp ht
    split at ht
    · cases ht
    · rename_i howner
      have howner : o.owner = .idle := not_not.mp howner
      split at ht
      · rename_i hz
        cases ht
        exact h.object ho (by rintro y ⟨⟩) fun t hok => hok.forgotten howner hz
      · rename_i hne
        obtain ⟨t, -, htarget, hok, hid, hrelease⟩ := h.release ho hne
        simp only [htarget, Option.some.injEq] at ht
        subst ht
        exact hrelease none (by rintro y ⟨⟩) (hok.detached howner hid)
  | setName n name =>
    obtain ⟨t, hn, ht⟩ := Option.bind_eq_some_iff.mp ht
    split at ht
    · cases ht
    · rename_i hpc
      have hpc : t.pc = .calling := not_not.mp hpc
      have hthread : t.thread = some t.arg := by
        rw [(h.tasks n t hn).thread, hpc]
        rfl
      simp only [Regular, hn, Option.bind_some, Option.map_eq_some_iff] at hb
      obtain ⟨o, ho, hnumber⟩ := hb
      have hown := own_eq_some.mpr ⟨ho, hnumber⟩
      have hok : Ok t (some o) := hown ▸ h.tasks n t hn
      simp only [hthread, ho, Option.some.injEq] at ht
      subst ht
      refine h.put hn hown (by rfl) (by rfl) (by exact id) (by rintro y ⟨⟩; exact hnumber) ?_
      rw [← hthread]
      exact hok.setName name

theorem inv_noThreads : Inv (noThreads : State C) :=
  ⟨rfl, by simp [noThreads], by simp [noThreads], by simp [noThreads]⟩

theorem run_early (ho : s.objects a = some o) (howner : o.owner = .wait) (hn : s.tasks[o.number]? = some t)
    (harg : t.arg = a) (hearly : t.pc.index ≤ 3) :
    ∃ u p v, step s (.run o.number) = some u ∧ u.objects a = some p ∧ p.owner = .wait ∧ p.number = o.number ∧
      u.tasks[o.number]? = some v ∧ v.arg = a ∧ v.pc.index = t.pc.index + 1 := by
  obtain ⟨hlt, -⟩ := List.getElem?_eq_some_iff.mp hn
  subst harg
  simp only [step, hn, Option.bind_some, advance, ho]
  cases hpc : t.pc with
  | begin => exact ⟨_, o, _, rfl, ho, howner, rfl, List.getElem?_set_self hlt, rfl, rfl⟩
  | identify => exact ⟨_, _, _, rfl, Function.update_self .., howner, rfl, List.getElem?_set_self hlt, rfl, rfl⟩
  | swap => exact ⟨_, _, _, rfl, Function.update_self .., howner, rfl, List.getElem?_set_self hlt, rfl, rfl⟩
  | notify => exact ⟨_, _, _, rfl, Function.update_self .., howner, rfl, List.getElem?_set_self hlt, rfl, rfl⟩
  | call | calling | ended => simp [hpc] at hearly

/-- The constructor of an object waits for at most four more statements of its thread. -/
theorem wait_returns (h : Inv s) (ho : s.objects a = some o) (howner : o.owner = .wait) :
    ∃ k ≤ 4, (exec step s (List.replicate k (.run o.number) ++ [.wait a])).isSome := by
  obtain ⟨t, ht, harg, -⟩ := h.task_of ho
  refine ⟨4 - t.pc.index, Nat.sub_le _ _, ?_⟩
  generalize hd : 4 - t.pc.index = d
  induction d generalizing s o t with
  | zero =>
    have hown : s.own o.number t = some o := own_eq_some.mpr ⟨harg ▸ ho, rfl⟩
    have hsem := (hown ▸ h.tasks _ t ht).waiting o rfl howner
    rw [if_neg (by omega)] at hsem
    simp [exec, step, ho, howner, hsem]
  | succ d ih =>
    obtain ⟨u, p, v, hu, hp, hpw, hpn, hv, hva, hvi⟩ := run_early ho howner ht harg (by omega)
    have hregular : Regular s (.run o.number) := trivial
    have hrest := ih (h.step hregular hu) hp hpw v (hpn ▸ hv) hva (by omega)
    rw [List.replicate_succ, List.cons_append, exec, hu, Option.bind_some, ← hpn]
    exact hrest

theorem joined_iff (h : Inv s) (ho : s.objects a = some o) (howner : o.owner = .join) :
    ∃ t, s.tasks[o.number]? = some t ∧ ((step s (.joined a)).isSome ↔ t.pc = .ended) := by
  obtain ⟨t, ht, htarget, -⟩ := h.release ho (h.joining ho howner)
  refine ⟨t, ht, ?_⟩
  simp only [step, ho, Option.bind_eq_bind, Option.bind_some, howner, htarget, ht, Option.map_some]
  by_cases hpc : t.pc = .ended <;> simp [hpc]

end Steps

structure Sound (s : State C) : Prop where
  -- no object is used that is not there any more, and no thread is released again
  faults : s.faults = 0
  -- when the constructor has returned `m_id` is that of the thread, which has taken the callback
  built : ∀ a o, s.objects a = some o → o.owner ≠ .wait →
    ∃ t, s.tasks[o.number]? = some t ∧ t.arg = a ∧ o.id = t.tid ∧ o.name = t.name ∧ o.cb = none
  -- the constructor returns after at most four more statements of the thread
  returns : ∀ a o, s.objects a = some o → o.owner = .wait →
    ∃ k ≤ 4, (exec step s (List.replicate k (.run o.number) ++ [.wait a])).isSome
  -- `join` waits for the end of the thread and for nothing else
  joins : ∀ a o, s.objects a = some o → o.owner = .join →
    ∃ t, s.tasks[o.number]? = some t ∧ ((step s (.joined a)).isSome ↔ t.pc = .ended)
  -- the callback that was given is called once, before the thread is joined
  calls : ∀ n t, s.tasks[n]? = some t → t.calls = (if t.pc.index ≤ 4 then [] else [t.given]) ∧
    ∀ o, s.objects t.arg = some o → o.number = n → o.threadId = 0 → t.pc = .ended
  -- a thread is released once, when its object is joined or destroyed
  releases : ∀ n t, s.tasks[n]? = some t → t.releases ≤ 1 ∧
    (t.releases = 0 ↔ ∃ o, s.objects t.arg = some o ∧ o.number = n ∧ o.threadId ≠ 0)

theorem Inv.sound {s : State C} (h : Inv s) : Sound s := by
  refine ⟨h.faults, fun a o ho howner => ?_, fun a o ho howner => wait_returns h ho howner,
    fun a o ho howner => joined_iff h ho howner, fun n t hn => ?_, fun n t hn => ?_⟩
  · obtain ⟨t, ht, harg, hown⟩ := h.task_of ho
    have hok := hown ▸ h.tasks _ t ht
    have hlate : ¬ t.pc.index ≤ 3 := by
      intro hle
      obtain ⟨o', ho', hw⟩ := hok.early hle
      obtain rfl := Option.some.inj ho'
      exact howner hw
    refine ⟨t, ht, harg, hok.id o rfl (by omega), hok.name o rfl (by omega), ?_⟩
    rw [hok.given o rfl, if_neg (by omega)]
  · have hok := h.tasks n t hn
    refine ⟨hok.calls, fun o ho hnumber hz => ?_⟩
    rcases hok.threadId o (own_eq_some.mpr ⟨ho, hnumber⟩) with hid | ⟨-, -, hend⟩
    · exact absurd (hid.symm.trans hz) hok.handle
    · exact hend
  · have hok := h.tasks n t hn
    have hrel : t.releases = 0 ↔ t.released = false := by
      rw [hok.releases]
      cases t.released <;> simp
    refine ⟨hok.releases ▸ Bool.toNat_le _, hrel.trans (hok.released.trans ?_)⟩
    constructor
    · rintro ⟨o, ho, hid⟩
      obtain ⟨hobj, hnumber⟩ := own_eq_some.mp ho
      exact ⟨o, hobj, hnumber, hid ▸ hok.handle⟩
    · rintro ⟨o, hobj, hnumber, hne⟩
      have ho := own_eq_some.mpr ⟨hobj, hnumber⟩
      exact ⟨o, ho, (hok.threadId o ho).resolve_right fun hz => hne hz.1⟩

/-- Threads are made, joined and destroyed by the owners of their objects in any order of steps: `run`
uses an object only while its constructor waits, and the constructor comes to its end; the callback is
called once; each thread is released once, by its own object; and `join` returns behind the callback. -/
theorem threads_sound {s : State C} (h : Run (· = noThreads) step Regular s) : Sound s :=
  (h.invariant (I := Inv) (by rintro s rfl; exact inv_noThreads) fun _ _ _ hi hok hs => hi.step hok hs).sound

/-- When its object is gone, a thread has a `t_thread` that `SetName` must not follow. -/
example : (exec step (noThreads : State String)
    [.construct 1 7 100 "a" "", .run 0, .run 0, .run 0, .run 0, .wait 1, .run 0, .destroy 1, .setName 0 "worker"]).map
      State.faults = some 1 := by decide

def reused : List (Action String) :=
  [.construct 1 7 100 "a" "", .run 0, .run 0, .run 0, .run 0, .wait 1, .run 0, .setName 0 "worker", .destroy 1,
    .construct 1 8 101 "b" "b", .run 1, .run 1, .run 1, .run 1, .wait 1, .run 1, .run 1, .join 1, .joined 1,
    .construct 2 8 102 "c" "c", .run 0, .run 2]

theorem threads_sound_reused : ∃ s : State String, Run (· = noThreads) step Regular s ∧ Sound s ∧
    s.tasks.map Task.calls = [["a"], ["b"], []] ∧ s.tasks.map Task.releases = [1, 1, 0] := by
  have hend : (exec (guarded step Regular) noThreads reused).map
      (fun s => (s.tasks.map Task.calls, s.tasks.map Task.releases)) = some ([["a"], ["b"], []], [1, 1, 0]) := by decide
  obtain ⟨s, hs, he⟩ := Option.map_eq_some_iff.mp hend
  have hstart : Run (· = (noThreads : State String)) step Regular noThreads := .start rfl
  have hrun := hstart.exec reused hs
  exact ⟨s, hrun, threads_sound hrun, (Prod.mk.inj he).1, (Prod.mk.inj he).2⟩

end Windgent.Threads
