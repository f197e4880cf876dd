import Windgent.Slots
import Windgent.IOManager.Events
import Windgent.Transition

namespace Windgent.FdTables

open MachineInt Transition IOManager

/-- An `FdContext` object: the call of `contextResize` that made it, and its slot. -/
abbrev Object := Nat × Nat

/-- Between the locked sections of a call: before the write section of `addEvent`, before
the section of a context, and before the write section of `FdManager::get`. -/
inductive Pc where
  | idle
  | grow (fd : Nat) (event : Event)
  | add (ctx : Object) (event : Event)
  -- `delEvent` and `cancelEvent` of an event, `cancelAll` without one
  | remove (ctx : Object) (event : Option Event)
  | create (fd : Nat)
deriving DecidableEq

/-- What the calls of `FdManager::get(fd, true)` and `FdManager::del` have come to. -/
inductive Entry where
  | got (fd ctx : Nat)
  | deleted (fd : Nat)
deriving DecidableEq

/-- `fdContexts` and `fds` are the two tables, `events` are the registered events of each
object. `resizes` and `made` number the new objects, `log` is a history variable with its
last entry first. -/
structure State (C : Type) where
  pc : C → Pc
  fdContexts : Slots Object
  resizes : Nat
  events : Object → BitVec 32
  fds : Slots Nat
  made : Nat
  log : List Entry

inductive Action (C : Type) where
  | addEvent (c : C) (fd : Nat) (event : Event)
  | contextResize (c : C)
  | addLocked (c : C) (ctl : Bool)
  | removeEvent (c : C) (fd : Nat) (event : Option Event)
  | removeLocked (c : C) (ctl : Bool)
  | get (c : C) (fd : Nat) (auto_create : Bool)
  | create (c : C)
  | del (c : C) (fd : Nat)

section Model

variable {C : Type} [DecidableEq C]

def State.contextResize (s : State C) (size : Nat) : State C :=
  { s with
    fdContexts := (s.fdContexts.resize size).fill fun i => (s.resizes, i)
    resizes := s.resizes + 1 }

/-- `fd * 1.5` as a `size_t`. -/
def grown (fd : Nat) : Nat := fd * 3 / 2

/-- What the read section of `IOManager` finds for a descriptor. -/
def State.find (s : State C) (fd : Nat) : Option Object :=
  if (fd : Int) < toInt s.fdContexts.size then s.fdContexts.slot fd else none

def State.at_ (s : State C) (c : C) (pc : Pc) : State C := { s with pc := Function.update s.pc c pc }

def removed : Option Event → BitVec 32
  | some e => e.mask
  | none => Event.read.mask ||| Event.write.mask

/-- `m_fds` before the assignment of `FdManager::get`. -/
def State.room (s : State C) (fd : Nat) : Slots Nat :=
  if toInt s.fds.size ≤ fd then s.fds.resize (grown fd) else s.fds

/-- A locked section of a call; `none` is a failed assertion or an access outside of a
vector. -/
def step (s : State C) : Action C → Option (State C)
  | .addEvent c fd event =>
    if s.pc c = .idle ∧ fd < 2 ^ 31 then
      if (fd : Int) < toInt s.fdContexts.size then (s.fdContexts.slot fd).map fun o => s.at_ c (.add o event)
      else some (s.at_ c (.grow fd event))
    else none
  | .contextResize c =>
    match s.pc c with
    | .grow fd event =>
      let s := s.contextResize (grown fd)
      (s.fdContexts.slot fd).map fun o => s.at_ c (.add o event)
    | _ => none
  | .addLocked c ctl =>
    match s.pc c with
    | .add o event =>
      if s.events o &&& event.mask ≠ 0 then none
      else if ctl then
        some { s.at_ c .idle with events := Function.update s.events o (s.events o ||| event.mask) }
      else some (s.at_ c .idle)
    | _ => none
  | .removeEvent c fd event =>
    if s.pc c = .idle ∧ fd < 2 ^ 31 then
      if toInt s.fdContexts.size ≤ fd then some s
      else (s.fdContexts.slot fd).map fun o => s.at_ c (.remove o event)
    else none
  | .removeLocked c ctl =>
    match s.pc c with
    | .remove o event =>
      if s.events o &&& removed event = 0 then some (s.at_ c .idle)
      else if ctl then
        some { s.at_ c .idle with events := Function.update s.events o (s.events o &&& ~~~removed event) }
      else some (s.at_ c .idle)
    | _ => none
  | .get c fd auto_create =>
    if s.pc c = .idle ∧ fd < 2 ^ 31 then
      if toInt s.fds.size ≤ fd then some (if auto_create then s.at_ c (.create fd) else s)
      else match s.fds.slot fd with
        | some ctx => some (if auto_create then { s with log := .got fd ctx :: s.log } else s)
        | none => some (if auto_create then s.at_ c (.create fd) else s)
    else none
  | .create c =>
    match s.pc c with
    | .create fd =>
      if fd < (s.room fd).size then
        some { s.at_ c .idle with
          fds := (s.room fd).assign fd (some s.made)
          made := s.made + 1
          log := .got fd s.made :: s.log }
      else none
    | _ => none
  | .del c fd =>
    if s.pc c = .idle ∧ fd < 2 ^ 31 then
      let fds := if toInt s.fds.size ≤ fd then s.fds else s.fds.assign fd none
      some { s with fds := fds, log := .deleted fd :: s.log }
    else none

def start : State C where
  pc _ := .idle
  fdContexts := (Slots.null 32).fill fun i => (0, i)
  resizes := 1
  events _ := 0
  fds := Slots.null 64
  made := 0
  log := []

def Init (s : State C) : Prop := s = start

def Kept (s t : State C) : Prop :=
  s.fdContexts.size ≤ t.fdContexts.size ∧ ∀ fd o, s.fdContexts.slot fd = some o → t.find fd = some o

/-- An object with registered events is the one that is found for its descriptor. -/
def Reached (s : State C) : Prop := ∀ o, s.events o ≠ 0 → s.find o.2 = some o

end Model

/-- Calls of `get(fd, true)` without a `del(fd)` between them return the same context. -/
def SameUntilDel (log : List Entry) : Prop :=
  ∀ fd c c' later mid earlier, log = later ++ .got fd c' :: (mid ++ .got fd c :: earlier) →
    .deleted fd ∉ mid → c = c'

def latest (fd : Nat) : List Entry → Option Nat
  | [] => none
  | .got fd' ctx :: log => if fd' = fd then some ctx else latest fd log
  | .deleted fd' :: log => if fd' = fd then none else latest fd log

section Log

variable {log : List Entry}

theorem latest_of_got (fd c : Nat) (earlier : List Entry) {mid : List Entry} (hmid : .deleted fd ∉ mid) :
    ∃ x, latest fd (mid ++ .got fd c :: earlier) = some x ∧ (x = c ∨ ∃ l m, mid = l ++ .got fd x :: m) := by
  induction mid with
  | nil => exact ⟨c, by simp [latest], .inl rfl⟩
  | cons e mid ih =>
    rw [List.mem_cons, not_or] at hmid
    obtain ⟨x, hx, hor⟩ := ih hmid.2
    have hold : x = c ∨ ∃ l m, e :: mid = l ++ .got fd x :: m := by
      refine hor.imp id ?_
      rintro ⟨l, m, rfl⟩
      exact ⟨e :: l, m, rfl⟩
    cases e with
    | got fd' ctx =>
      by_cases hfd : fd' = fd
      · subst hfd
        exact ⟨ctx, by simp [latest], .inr ⟨[], mid, rfl⟩⟩
      · exact ⟨x, by simpa [latest, hfd] using hx, hold⟩
    | deleted fd' =>
      have hfd : fd' ≠ fd := fun h => hmid.1 (h ▸ rfl)
      exact ⟨x, by simpa [latest, hfd] using hx, hold⟩

theorem SameUntilDel.got (h : SameUntilDel log) {fd ctx : Nat}
    (hlast : ∀ ctx', latest fd log = some ctx' → ctx' = ctx) : SameUntilDel (.got fd ctx :: log) := by
  intro fd' c c' later mid earlier hlog hmid
  cases later with
  | nil =>
    obtain ⟨hhead, rfl⟩ := List.cons.inj hlog
    obtain ⟨rfl, rfl⟩ := Entry.got.inj hhead
    obtain ⟨x, hx, rfl | ⟨l, m, rfl⟩⟩ := latest_of_got fd c earlier hmid
    · exact hlast x hx
    · rw [← hlast x hx]
      refine h fd c x l m earlier (by simp) fun hm => hmid ?_
      simp [hm]
  | cons e later => exact h fd' c c' later mid earlier (List.cons.inj hlog).2 hmid

theorem SameUntilDel.deleted (h : SameUntilDel log) (fd : Nat) : SameUntilDel (.deleted fd :: log) := by
  intro fd' c c' later mid earlier hlog hmid
  cases later with
  | nil => cases (List.cons.inj hlog).1
  | cons e later => exact h fd' c c' later mid earlier (List.cons.inj hlog).2 hmid

structure Current (fds : Slots Nat) (log : List Entry) : Prop where
  slot : ∀ fd ctx, latest fd log = some ctx → fds.slot fd = some ctx
  same : SameUntilDel log

variable {fds : Slots Nat}

theorem Current.got (h : Current fds log) {fd ctx : Nat} (hctx : fds.slot fd = some ctx) :
    Current fds (.got fd ctx :: log) := by
  refine ⟨fun fd' ctx' hlast => ?_, h.same.got fun ctx' hlast => ?_⟩
  · by_cases hfd : fd = fd'
    · subst hfd
      simp only [latest, if_true] at hlast
      rwa [← hlast]
    · simp only [latest, hfd, if_false] at hlast
      exact h.slot fd' ctx' hlast
  · have hslot := h.slot fd ctx' hlast
    rw [hctx, Option.some.injEq] at hslot
    exact hslot.symm

theorem Current.deleted (h : Current fds log) {fd : Nat} {fds' : Slots Nat}
    (hfds : ∀ fd', fd' ≠ fd → fds'.slot fd' = fds.slot fd') : Current fds' (.deleted fd :: log) := by
  refine ⟨fun fd' ctx hlast => ?_, h.same.deleted fd⟩
  by_cases hfd : fd = fd'
  · simp [latest, hfd] at hlast
  · simp only [latest, hfd, if_false] at hlast
    rw [hfds fd' (Ne.symm hfd)]
    exact h.slot fd' ctx hlast

theorem Current.create (h : Current fds log) {fd n : Nat} (hnone : fds.slot fd = none)
    {fds' : Slots Nat} (hfds : ∀ i, fds'.slot i = fds.slot i) (hfd : fd < fds'.size) :
    Current (fds'.assign fd (some n)) (.got fd n :: log) := by
  refine ⟨fun fd' ctx hlast => ?_, h.same.got fun ctx' hlast => ?_⟩
  · by_cases hne : fd = fd'
    · subst hne
      simp only [latest, if_true] at hlast
      rw [Slots.assign_slot_self hfd, hlast]
    · simp only [latest, hne, if_false] at hlast
      rw [Slots.assign_slot_of_ne _ (Ne.symm hne), hfds]
      exact h.slot fd' ctx hlast
  · rw [h.slot fd ctx' hlast] at hnone
    cases hnone

end Log

section Run

variable {C : Type} {s t : State C}

/-- The write sections find the tables as the read sections before them did: the table of
contexts is not larger than what it is resized to (and an `int` holds its size), the slot
of a new `FdCtx` is still empty. -/
def Safe (s : State C) : Action C → Prop
  | .contextResize c => ∀ fd event, s.pc c = .grow fd event →
      s.fdContexts.size ≤ grown fd ∧ grown fd < 2 ^ 31
  | .create c => ∀ fd, s.pc c = .create fd →
      s.fds.slot fd = none ∧ (toInt s.fds.size ≤ fd → s.fds.size ≤ grown fd)
  | _ => True

def Pc.object : Pc → Option Object
  | .add o _ => some o
  | .remove o _ => some o
  | _ => none

structure Tabled (s : State C) : Prop where
  size_lt : s.fdContexts.size < 2 ^ 31
  own : ∀ i o, s.fdContexts.slot i = some o → o.2 = i
  held : ∀ c o, (s.pc c).object = some o → s.fdContexts.slot o.2 = some o
  registered : ∀ o, s.events o ≠ 0 → s.fdContexts.slot o.2 = some o

theorem Tabled.find (h : Tabled s) {fd : Nat} {o : Object} (hslot : s.fdContexts.slot fd = some o) :
    s.find fd = some o := by
  have hlt := Slots.lt_of_slot hslot
  rw [State.find, toInt_of_lt h.size_lt, if_pos (by omega), hslot]

theorem Tabled.at_ [DecidableEq C] (h : Tabled s) (c : C) {pc : Pc}
    (hpc : ∀ o, pc.object = some o → s.fdContexts.slot o.2 = some o) : Tabled (s.at_ c pc) := by
  refine ⟨h.size_lt, h.own, fun d o ho => ?_, h.registered⟩
  by_cases hd : d = c
  · subst hd
    simp only [State.at_, Function.update_self] at ho
    exact hpc o ho
  · simp only [State.at_, Function.update_of_ne hd] at ho
    exact h.held d o ho

theorem Tabled.idle [DecidableEq C] (h : Tabled s) (c : C) : Tabled (s.at_ c .idle) := h.at_ c (by simp [Pc.object])

theorem Tabled.setEvents (h : Tabled s) {o : Object} (ho : s.fdContexts.slot o.2 = some o) (v : BitVec 32) :
    Tabled { s with events := Function.update s.events o v } := by
  refine ⟨h.size_lt, h.own, h.held, fun o' ho' => ?_⟩
  by_cases hne : o' = o
  · rw [hne, ho]
  · exact h.registered o' (by simpa [hne] using ho')

theorem contextResize_slot {n : Nat} (hn : s.fdContexts.size ≤ n) {i : Nat} {o : Object}
    (ho : s.fdContexts.slot i = some o) : (s.contextResize n).fdContexts.slot i = some o :=
  Slots.fill_slot _ ((Slots.resize_slot hn i).trans ho)

theorem Tabled.contextResize (h : Tabled s) {n : Nat} (hn : s.fdContexts.size ≤ n) (hlt : n < 2 ^ 31) :
    Tabled (s.contextResize n) := by
  refine ⟨hlt, fun i o ho => ?_, fun c o ho => contextResize_slot hn (h.held c o ho),
    fun o ho => contextResize_slot hn (h.registered o ho)⟩
  rcases Slots.slot_of_fill ho with hold | rfl
  · exact h.own i o ((Slots.resize_slot hn i).symm.trans hold)
  · rfl

theorem Tabled.other (h : Tabled s) (fds : Slots Nat) (made : Nat) (log : List Entry) :
    Tabled { s with fds := fds, made := made, log := log } := ⟨h.size_lt, h.own, h.held, h.registered⟩

theorem Tabled.kept (h : Tabled t) (heq : t.fdContexts = s.fdContexts) : Tabled t ∧ Kept s t :=
  ⟨h, by rw [heq], fun i o ho => h.find (heq ▸ ho)⟩

theorem start_tabled : Tabled (start : State C) := by
  refine ⟨(by decide : 32 < 2 ^ 31), fun i o ho => ?_, by simp [start, Pc.object], by simp [start]⟩
  rcases Slots.slot_of_fill ho with hold | rfl
  · cases hold
  · rfl

theorem start_current : Current (start : State C).fds (start : State C).log := by
  refine ⟨by simp [start, latest], ?_⟩
  intro fd c c' later mid earlier hlog
  simp [start] at hlog

theorem room_slot {fd : Nat} (hsize : toInt s.fds.size ≤ fd → s.fds.size ≤ grown fd) (i : Nat) :
    (s.room fd).slot i = s.fds.slot i := by
  by_cases hresize : toInt s.fds.size ≤ fd
  · rw [State.room, if_pos hresize]
    exact Slots.resize_slot (hsize hresize) i
  · rw [State.room, if_neg hresize]

variable [DecidableEq C]

theorem Tabled.enter (h : Tabled s) (c : C) {fd : Nat} {o : Object} (ho : s.fdContexts.slot fd = some o) {pc : Pc}
    (hpc : pc.object = some o) : Tabled (s.at_ c pc) := by
  refine h.at_ c fun o' ho' => ?_
  obtain rfl : o = o' := Option.some.inj (hpc.symm.trans ho')
  rwa [h.own fd o ho]

inductive Does (s : State C) (a : Action C) : State C → Prop
  | pass : Does s a s
  | goto (c : C) (pc : Pc) (hpc : pc.object = none) : Does s a (s.at_ c pc)
  | enter (c : C) {fd : Nat} {o : Object} (ho : s.fdContexts.slot fd = some o) (pc : Pc) (hpc : pc.object = some o) :
    Does s a (s.at_ c pc)
  | contextResize {c : C} {fd : Nat} {event : Event} {o : Object} (ha : a = .contextResize c)
    (hpc : s.pc c = .grow fd event) (ho : (s.contextResize (grown fd)).fdContexts.slot fd = some o) :
    Does s a ((s.contextResize (grown fd)).at_ c (.add o event))
  | setEvents {c : C} {o : Object} (ho : (s.pc c).object = some o) (v : BitVec 32) :
    Does s a { s.at_ c .idle with events := Function.update s.events o v }
  | got {fd ctx : Nat} (hctx : s.fds.slot fd = some ctx) : Does s a { s with log := .got fd ctx :: s.log }
  | create {c : C} {fd : Nat} (ha : a = .create c) (hpc : s.pc c = .create fd) (hlt : fd < (s.room fd).size) :
    Does s a { s.at_ c .idle with
      fds := (s.room fd).assign fd (some s.made)
      made := s.made + 1
      log := .got fd s.made :: s.log }
  | del (fd : Nat) : Does s a { s with
      fds := if toInt s.fds.size ≤ fd then s.fds else s.fds.assign fd none
      log := .deleted fd :: s.log }

theorem step_does {a : Action C} (hs : step s a = some t) : Does s a t := by
  cases a with
  | addEvent c fd event =>
    simp only [step] at hs
    split at hs
    · split at hs
      · obtain ⟨o, ho, rfl⟩ := Option.map_eq_some_iff.mp hs
        exact .enter c ho _ rfl
      · cases hs
        exact .goto c _ rfl
    · cases hs
  | contextResize c =>
    simp only [step] at hs
    split at hs
    · rename_i fd event hpc
      obtain ⟨o, ho, rfl⟩ := Option.map_eq_some_iff.mp hs
      exact .contextResize rfl hpc ho
    · cases hs
  | addLocked c ctl =>
    simp only [step] at hs
    split at hs
    · rename_i o event hpc
      split at hs
      · cases hs
      · split at hs
        · cases hs
          exact .setEvents (by rw [hpc]; rfl) _
        · cases hs
          exact .goto c _ rfl
    · cases hs
  | removeEvent c fd event =>
    simp only [step] at hs
    split at hs
    · split at hs
      · cases hs
        exact .pass
      · obtain ⟨o, ho, rfl⟩ := Option.map_eq_some_iff.mp hs
        exact .enter c ho _ rfl
    · cases hs
  | removeLocked c ctl =>
    simp only [step] at hs
    split at hs
    · rename_i o event hpc
      split at hs
      · cases hs
        exact .goto c _ rfl
      · split at hs
        · cases hs
          exact .setEvents (by rw [hpc]; rfl) _
        · cases hs
          exact .goto c _ rfl
    · cases hs
  | get c fd auto_create =>
    have hmiss : some (if auto_create then s.at_ c (.create fd) else s) = some t → Does s (.get c fd auto_create) t := by
      rintro ⟨⟩
      split
      · exact .goto c _ rfl
      · exact .pass
    simp only [step] at hs
    split at hs
    · split at hs
      · exact hmiss hs
      · split at hs
        · rename_i ctx hctx
          cases hs
          split
          · exact .got hctx
          · exact .pass
        · exact hmiss hs
    · cases hs
  | create c =>
    simp only [step] at hs
    split at hs
    · rename_i fd hpc
      split at hs
      · rename_i hlt
        cases hs
        exact .create rfl hpc hlt
      · cases hs
    · cases hs
  | del c fd =>
    simp only [step] at hs
    split at hs
    · cases hs
      exact .del fd
    · cases hs

/-- A step leaves the table of contexts, or it is the write section of `addEvent`. -/
theorem Tabled.step (h : Tabled s) {a : Action C} (hsafe : Safe s a) (hs : step s a = some t) :
    Tabled t ∧ Kept s t := by
  cases step_does hs with
  | pass => exact h.kept rfl
  | goto c pc hpc => exact (h.at_ c (by simp [hpc])).kept rfl
  | enter c ho pc hpc => exact (h.enter c ho hpc).kept rfl
  | @contextResize c fd event o ha hpc ho =>
    subst ha
    obtain ⟨hsize, hlt⟩ := hsafe fd event hpc
    have ht := (h.contextResize hsize hlt).enter c ho (show (Pc.add o event).object = some o from rfl)
    exact ⟨ht, hsize, fun i o' ho' => ht.find (contextResize_slot hsize ho')⟩
  | @setEvents c o ho v => exact ((h.idle c).setEvents (h.held c o ho) v).kept rfl
  | got hctx => exact (h.other _ _ _).kept rfl
  | @create c => exact ((h.idle c).other _ _ _).kept rfl
  | del fd => exact (h.other _ _ _).kept rfl

theorem Current.step (h : Current s.fds s.log) {a : Action C} (hsafe : Safe s a) (hs : step s a = some t) :
    Current t.fds t.log := by
  cases step_does hs with
  | pass | goto | enter | contextResize | setEvents => exact h
  | got hctx => exact h.got hctx
  | @create c fd ha hpc hlt =>
    subst ha
    obtain ⟨hnone, hsize⟩ := hsafe fd hpc
    exact h.create hnone (room_slot hsize) hlt
  | del fd =>
    refine h.deleted fun fd' hne => ?_
    split
    · rfl
    · exact Slots.assign_slot_of_ne _ hne _

/-- Both tables keep what they hold in a run whose write sections find them as the read
sections before them did. -/
theorem tables_kept_of_run (h : Run Init step Safe s) :
    Reached s ∧ SameUntilDel s.log ∧ ∀ a t, Safe s a → step s a = some t → Kept s t := by
  obtain ⟨htabled, hcurrent⟩ : Tabled s ∧ Current s.fds s.log := by
    refine Run.invariant (I := fun s => Tabled s ∧ Current s.fds s.log) ?_ ?_ h
    · rintro s rfl
      exact ⟨start_tabled, start_current⟩
    · rintro s a t ⟨htabled, hcurrent⟩ hsafe hs
      exact ⟨(htabled.step hsafe hs).1, hcurrent.step hsafe hs⟩
  exact ⟨fun o ho => htabled.find (htabled.registered o ho), hcurrent.same,
    fun a t hsafe hs => (htabled.step hsafe hs).2⟩

end Run

instance {C : Type} (s : State C) (a : Action C) : Decidable (Safe s a) :=
  match a with
  | .contextResize c =>
    match h : s.pc c with
    | .grow fd event => decidable_of_iff (s.fdContexts.size ≤ grown fd ∧ grown fd < 2 ^ 31)
        ⟨fun hr _ _ he => (Pc.grow.inj (h.symm.trans he)).1 ▸ hr, fun hall => hall fd event h⟩
    | .idle | .add .. | .remove .. | .create .. => isTrue fun _ _ he => nomatch h.symm.trans he
  | .create c =>
    match h : s.pc c with
    | .create fd => decidable_of_iff (s.fds.slot fd = none ∧ (toInt s.fds.size ≤ fd → s.fds.size ≤ grown fd))
        ⟨fun hr _ he => Pc.create.inj (h.symm.trans he) ▸ hr, fun hall => hall fd h⟩
    | .idle | .add .. | .remove .. | .grow .. => isTrue fun _ he => nomatch h.symm.trans he
  | .addEvent .. => isTrue trivial
  | .addLocked .. => isTrue trivial
  | .removeEvent .. => isTrue trivial
  | .removeLocked .. => isTrue trivial
  | .get .. => isTrue trivial
  | .del .. => isTrue trivial

theorem tables_kept_two_clients : ∃ s : State Bool, Run Init step Safe s ∧ s.fdContexts.size = 150 ∧
    s.find 100 = some (1, 100) ∧ s.events (1, 100) = Event.read.mask ∧ s.log = [.got 70 0, .got 70 0] ∧
    Reached s ∧ SameUntilDel s.log := by
  have h : (exec (guarded step Safe) (start : State Bool)
      [.addEvent false 100 .read, .get true 70 true, .contextResize false, .create true, .addLocked false true,
        .get true 70 true, .removeEvent true 40 none, .addEvent false 60 .write]).map
      (fun s => (s.fdContexts.size, s.find 100, s.events (1, 100), s.log)) =
      some (150, some (1, 100), Event.read.mask, [.got 70 0, .got 70 0]) := by
    decide +kernel
  obtain ⟨s, hs, he⟩ := Option.map_eq_some_iff.mp h
  simp only [Prod.mk.injEq] at he
  have hrun : Run Init step Safe s := Run.exec (.start rfl) _ hs
  obtain ⟨hreached, hsame, -⟩ := tables_kept_of_run hrun
  exact ⟨s, hrun, he.1, he.2.1, he.2.2.1, he.2.2.2, hreached, hsame⟩

/-- Two callers of `addEvent` see the small table; the second one resizes the table of the
first to its own descriptor. Two callers of `get` see an empty slot and fill it one after
the other. -/
theorem contexts_lost :
    (∃ s a t, Reachable Init step (s : State Bool) ∧ step s a = some t ∧ ¬ Kept s t ∧ ¬ Reached t) ∧
      ∃ s : State Bool, Reachable Init step s ∧ ¬ SameUntilDel s.log := by
  constructor
  · have h : ((exec (guarded step (fun _ _ => True)) (start : State Bool)
        [.addEvent false 100 .read, .addEvent true 50 .read, .contextResize false, .addLocked false true]).bind
        fun s => (step s (.contextResize true)).map fun t =>
          (s.fdContexts.size, t.fdContexts.size, t.events (1, 100), t.find 100)) =
        some (150, 75, Event.read.mask, none) := by
      decide +kernel
    obtain ⟨s, hs, hrest⟩ := Option.bind_eq_some_iff.mp h
    obtain ⟨t, ht, he⟩ := Option.map_eq_some_iff.mp hrest
    simp only [Prod.mk.injEq] at he
    obtain ⟨hsize, hsize', hevents, hfind⟩ := he
    refine ⟨s, _, t, Run.exec (.start rfl) _ hs, ht, fun hkept => ?_, fun hreached => ?_⟩
    · have := hkept.1
      omega
    · have := hreached (1, 100) (by rw [hevents]; decide)
      rw [hfind] at this
      cases this
  · have h : (exec (guarded step (fun _ _ => True)) (start : State Bool)
        [.get false 5 true, .get true 5 true, .create false, .create true]).map State.log =
        some [.got 5 1, .got 5 0] := by
      decide +kernel
    obtain ⟨s, hs, hlog⟩ := Option.map_eq_some_iff.mp h
    refine ⟨s, Run.exec (.start rfl) _ hs, fun hsame => ?_⟩
    have := hsame 5 0 1 [] [] [] hlog (by simp)
    cases this

end Windgent.FdTables
