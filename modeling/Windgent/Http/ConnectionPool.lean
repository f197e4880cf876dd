import Windgent.Custody
import Windgent.MachineInt
import Windgent.Transition
import Mathlib.Algebra.BigOperators.Group.Finset.Piecewise
import Mathlib.Data.Fintype.Fin

namespace Windgent.Http.Pool

open MachineInt Transition Custody

structure Connection where
  createTime : Nat := 0
  request : Nat := 0
deriving DecidableEq

structure Check where
  conn : Nat
  connected : Bool
  createTime : Nat
  now : Nat
deriving DecidableEq

/-- Where a client is: outside of the pool without or with a connection, in
`getConnection`, or in `releasePtr`. -/
inductive Pc where
  | idle
  | started (now : Nat)
  | dropping (invalid : List Nat) (size : Nat) (ptr : Option Check)
  | creating
  | created (conn : Nat)
  | holding (conn : Nat)
  | checking (conn : Nat)
  | deleting (conn : Nat)
  | deleted
  | pushing (conn : Nat)
deriving DecidableEq

def Pc.owned : Pc → List Nat
  | .dropping invalid _ ptr => invalid ++ (ptr.map Check.conn).toList
  | .created conn | .holding conn | .checking conn | .deleting conn | .pushing conn => [conn]
  | _ => []

def Pc.Outside : Pc → Prop
  | .idle | .holding _ => True
  | _ => False

instance : DecidablePred Pc.Outside := fun p => by cases p <;> unfold Pc.Outside <;> infer_instance

structure Limits where
  maxSize : UInt32
  maxAliveTime : UInt32
  maxRequest : UInt32

/-- The pool, its connections and its clients. The last fields are history: the deleted
connections, how often each connection was handed out, and the checks of those that were
handed out from the list. -/
structure State (C : Type) where
  conns : List Nat
  total : Int
  heap : Nat → Connection
  next : Nat
  pc : C → Pc
  freed : List Nat
  handouts : Nat → Nat
  handed : List Check

/-- The loop of `getConnection` under the lock: the connections that it discards, the
one that it takes, and those that stay. -/
def popLoop (maxAliveTime now : Nat) (connected : Nat → Bool) (heap : Nat → Connection) :
    List Nat → List Nat × Option Nat × List Nat
  | [] => ([], none, [])
  | conn :: conns =>
    if !connected conn || addU64 (heap conn).createTime maxAliveTime < now then
      let r := popLoop maxAliveTime now connected heap conns
      (conn :: r.1, r.2)
    else ([], some conn, conns)

/-- The steps of the clients; what the peers, the network and the clock do is part of
the step. -/
inductive Action (C : Type) where
  | begin (c : C) (now : Nat)
  | pop (c : C) (connected : Nat → Bool)
  | drop (c : C)
  | subtract (c : C)
  | fail (c : C)
  | create (c : C) (now : Nat)
  | increment (c : C)
  | release (c : C)
  | check (c : C) (connected : Bool) (now : Nat)
  | delete (c : C)
  | decrement (c : C)
  | push (c : C)

def Action.client {C : Type} : Action C → C
  | .begin c _ | .pop c _ | .drop c | .subtract c | .fail c | .create c _ | .increment c | .release c
  | .check c _ _ | .delete c | .decrement c | .push c => c

variable {C : Type} [DecidableEq C]

def State.goto (s : State C) (c : C) (p : Pc) : State C := { s with pc := Function.update s.pc c p }

def State.handOut (s : State C) (conn : Nat) : State C :=
  { s with handouts := Function.update s.handouts conn (s.handouts conn + 1) }

/-- Arithmetic on `std::atomic<int32_t>`. -/
def State.addTotal (s : State C) (n : Int) : State C := { s with total := Int.bmod (s.total + n) (2 ^ 32) }

/-- One step of `getConnection` or `releasePtr`. -/
def step (l : Limits) (s : State C) : Action C → Option (State C)
  | .begin c now =>
    match s.pc c with
    | .idle => some (s.goto c (.started now))
    | _ => none
  | .pop c connected =>
    match s.pc c with
    | .started now =>
      let r := popLoop l.maxAliveTime.toNat now connected s.heap s.conns
      let ptr := r.2.1.map fun conn => ⟨conn, connected conn, (s.heap conn).createTime, now⟩
      some ({ s with conns := r.2.2 }.goto c (.dropping r.1 r.1.length ptr))
    | _ => none
  | .drop c =>
    match s.pc c with
    | .dropping (conn :: invalid) size ptr =>
      some ({ s with freed := conn :: s.freed }.goto c (.dropping invalid size ptr))
    | _ => none
  | .subtract c =>
    match s.pc c with
    | .dropping [] size (some k) =>
      some ((({ s with handed := k :: s.handed }.addTotal (-size)).handOut k.conn).goto c (.holding k.conn))
    | .dropping [] size none => some ((s.addTotal (-size)).goto c .creating)
    | _ => none
  | .fail c =>
    match s.pc c with
    | .creating => some (s.goto c .idle)
    | _ => none
  | .create c now =>
    match s.pc c with
    | .creating =>
      some ({ s with next := s.next + 1, heap := Function.update s.heap s.next ⟨now, 0⟩ }.goto c (.created s.next))
    | _ => none
  | .increment c =>
    match s.pc c with
    | .created conn => some (((s.addTotal 1).handOut conn).goto c (.holding conn))
    | _ => none
  | .release c =>
    match s.pc c with
    | .holding conn =>
      let heap := Function.update s.heap conn { s.heap conn with request := addU64 (s.heap conn).request 1 }
      some ({ s with heap := heap }.goto c (.checking conn))
    | _ => none
  | .check c connected now =>
    match s.pc c with
    | .checking conn =>
      if !connected || addU64 (s.heap conn).createTime l.maxAliveTime.toNat < now ||
          l.maxRequest.toNat < (s.heap conn).request then some (s.goto c (.deleting conn))
      else some (s.goto c (.pushing conn))
    | _ => none
  | .delete c =>
    match s.pc c with
    | .deleting conn => some ({ s with freed := conn :: s.freed }.goto c .deleted)
    | _ => none
  | .decrement c =>
    match s.pc c with
    | .deleted => some ((s.addTotal (-1)).goto c .idle)
    | _ => none
  | .push c =>
    match s.pc c with
    | .pushing conn => some ({ s with conns := s.conns ++ [conn] }.goto c .idle)
    | _ => none

structure Init (s : State C) : Prop where
  conns : s.conns = []
  total : s.total = 0
  next : s.next = 0
  pc : ∀ c, s.pc c = .idle
  freed : s.freed = []
  handouts : ∀ n, s.handouts n = 0
  handed : s.handed = []

def State.live (s : State C) : Nat := (Finset.range s.next \ s.freed.toFinset).card

/-- The books of the pool: a live connection is in one place, a deleted one was deleted
once and is in none, the counter is right when no call is in progress, and what was
handed out of the list was connected and young enough. -/
structure Accounted (l : Limits) (s : State C) : Prop where
  place : ∀ n < s.next, n ∉ s.freed →
    (s.conns.count n = 1 ∧ ∀ c, n ∉ (s.pc c).owned) ∨
    (n ∉ s.conns ∧ ∃ c, (s.pc c).owned.count n = 1 ∧ ∀ c', c' ≠ c → n ∉ (s.pc c').owned)
  once : s.freed.Nodup
  gone : ∀ n ∈ s.freed, n ∉ s.conns ∧ ∀ c, n ∉ (s.pc c).owned
  total : (∀ c, (s.pc c).Outside) → s.total = Int.bmod s.live (2 ^ 32)
  handed : ∀ k ∈ s.handed, k.connected = true ∧ k.now ≤ k.createTime + l.maxAliveTime.toNat

inductive Holder (C : Type) where
  | pool | grave
  | client (c : C)
deriving DecidableEq

def State.held (s : State C) : Holder C → List Nat
  | .pool => s.conns
  | .grave => s.freed
  | .client c => (s.pc c).owned

/-- What the counter does not show yet: deletions that are not subtracted, and a
creation that is not added. -/
def Pc.owed : Pc → Int
  | .dropping invalid size _ => size - invalid.length
  | .created _ => -1
  | .deleted => 1
  | _ => 0

inductive Moved (s t : State C) (c : C) : Prop
  | stay (hp : t.conns = s.conns) (hf : t.freed = s.freed) (hn : t.next = s.next)
      (ho : (t.pc c).owned = (s.pc c).owned)
  | take (xs : List Nat) (hp : s.conns = xs ++ t.conns) (hf : t.freed = s.freed) (hn : t.next = s.next)
      (ho : (t.pc c).owned = xs) (hs : (s.pc c).owned = [])
  | free (n : Nat) (hp : t.conns = s.conns) (hf : t.freed = n :: s.freed) (hn : t.next = s.next)
      (ho : (s.pc c).owned = n :: (t.pc c).owned)
  | give (n : Nat) (hp : t.conns = s.conns ++ [n]) (hf : t.freed = s.freed) (hn : t.next = s.next)
      (ho : (t.pc c).owned = []) (hs : (s.pc c).owned = [n])
  | new (hp : t.conns = s.conns) (hf : t.freed = s.freed) (hn : t.next = s.next + 1)
      (ho : (t.pc c).owned = [s.next]) (hs : (s.pc c).owned = [])

def Check.Fresh (l : Limits) (k : Check) : Prop := k.connected = true ∧ k.now ≤ k.createTime + l.maxAliveTime.toNat

def Pc.Fresh (l : Limits) : Pc → Prop
  | .dropping _ _ (some k) => k.Fresh l
  | _ => True

structure Effect (l : Limits) (s t : State C) (c : C) : Prop where
  others : ∀ d, d ≠ c → t.pc d = s.pc d
  moved : Moved s t c
  total : ∃ n : Int, (t.total = Int.bmod (s.total + n) (2 ^ 32) ∨ (t.total = s.total ∧ n = 0)) ∧
    n = ((t.next : Int) - t.freed.length + (t.pc c).owed) - ((s.next : Int) - s.freed.length + (s.pc c).owed)
  fresh : (s.pc c).Fresh l → (t.pc c).Fresh l
  handed : ∀ k ∈ t.handed, k ∈ s.handed ∨ ∃ size, s.pc c = .dropping [] size (some k)
  frame : ∀ n, n ∉ (s.pc c).owned → n ≠ s.next → t.heap n = s.heap n ∧ t.handouts n = s.handouts n

theorem popLoop_spec (maxAliveTime now : Nat) (connected : Nat → Bool) (heap : Nat → Connection) (conns : List Nat) :
    let r := popLoop maxAliveTime now connected heap conns
    conns = r.1 ++ (r.2.1.toList ++ r.2.2) ∧
      ∀ n ∈ r.2.1, connected n = true ∧ ¬ addU64 (heap n).createTime maxAliveTime < now := by
  induction conns with
  | nil => simp [popLoop]
  | cons conn conns ih =>
    simp only [popLoop]
    split
    · refine ⟨?_, ih.2⟩
      rw [List.cons_append, ← ih.1]
    · rename_i hok
      simp only [Bool.or_eq_true, Bool.not_eq_true', decide_eq_true_eq, not_or] at hok
      refine ⟨rfl, fun n hn => ?_⟩
      obtain rfl : conn = n := by simpa using hn
      exact ⟨by simpa using hok.1, hok.2⟩

theorem popLoop_mem {maxAliveTime now : Nat} {connected : Nat → Bool} {heap : Nat → Connection} {conns : List Nat}
    {n : Nat} (hn : (popLoop maxAliveTime now connected heap conns).2.1 = some n ∨
      n ∈ (popLoop maxAliveTime now connected heap conns).2.2) : n ∈ conns := by
  rw [(popLoop_spec maxAliveTime now connected heap conns).1]
  apply List.mem_append_right
  rw [List.mem_append, Option.mem_toList]
  exact hn

theorem goto_others (s : State C) (c : C) (p : Pc) (d : C) (hd : d ≠ c) : (s.goto c p).pc d = s.pc d :=
  Function.update_of_ne hd _ _

@[simp] theorem goto_self (s : State C) (c : C) (p : Pc) : (s.goto c p).pc c = p := Function.update_self ..

/-- A step that moves no connection and leaves the counter alone. -/
theorem effect_stay (l : Limits) (s : State C) (c : C) (p : Pc) (ho : p.owned = (s.pc c).owned)
    (hw : p.owed = (s.pc c).owed) (hf : p.Fresh l) : Effect l s (s.goto c p) c where
  others := goto_others s c p
  moved := .stay rfl rfl rfl (by rw [goto_self, ho])
  total := ⟨0, .inr ⟨rfl, rfl⟩, by rw [goto_self, hw]; simp [State.goto]⟩
  fresh _ := by rwa [goto_self]
  handed _ hk := .inl hk
  frame _ _ _ := ⟨rfl, rfl⟩

inductive Does (l : Limits) (s : State C) : Action C → State C → Prop
  | begin {c : C} {now : Nat} (hp : s.pc c = .idle) : Does l s (.begin c now) (s.goto c (.started now))
  | pop {c : C} {connected : Nat → Bool} {now : Nat} (hp : s.pc c = .started now) :
    Does l s (.pop c connected)
      ({ s with conns := (popLoop l.maxAliveTime.toNat now connected s.heap s.conns).2.2 }.goto c
        (.dropping (popLoop l.maxAliveTime.toNat now connected s.heap s.conns).1
          (popLoop l.maxAliveTime.toNat now connected s.heap s.conns).1.length
          ((popLoop l.maxAliveTime.toNat now connected s.heap s.conns).2.1.map fun conn =>
            ⟨conn, connected conn, (s.heap conn).createTime, now⟩)))
  | drop {c : C} {conn : Nat} {invalid : List Nat} {size : Nat} {ptr : Option Check}
    (hp : s.pc c = .dropping (conn :: invalid) size ptr) :
    Does l s (.drop c) ({ s with freed := conn :: s.freed }.goto c (.dropping invalid size ptr))
  | take {c : C} {size : Nat} {k : Check} (hp : s.pc c = .dropping [] size (some k)) :
    Does l s (.subtract c)
      ((({ s with handed := k :: s.handed }.addTotal (-size)).handOut k.conn).goto c (.holding k.conn))
  | miss {c : C} {size : Nat} (hp : s.pc c = .dropping [] size none) :
    Does l s (.subtract c) ((s.addTotal (-size)).goto c .creating)
  | fail {c : C} (hp : s.pc c = .creating) : Does l s (.fail c) (s.goto c .idle)
  | create {c : C} {now : Nat} (hp : s.pc c = .creating) :
    Does l s (.create c now)
      ({ s with next := s.next + 1, heap := Function.update s.heap s.next ⟨now, 0⟩ }.goto c (.created s.next))
  | increment {c : C} {conn : Nat} (hp : s.pc c = .created conn) :
    Does l s (.increment c) (((s.addTotal 1).handOut conn).goto c (.holding conn))
  | release {c : C} {conn : Nat} (hp : s.pc c = .holding conn) :
    Does l s (.release c)
      ({ s with
          heap := Function.update s.heap conn { s.heap conn with request := addU64 (s.heap conn).request 1 } }.goto c
        (.checking conn))
  | refuse {c : C} {conn : Nat} {connected : Bool} {now : Nat} (hp : s.pc c = .checking conn)
    (hbad : (!connected || addU64 (s.heap conn).createTime l.maxAliveTime.toNat < now ||
      l.maxRequest.toNat < (s.heap conn).request) = true) :
    Does l s (.check c connected now) (s.goto c (.deleting conn))
  | accept {c : C} {conn : Nat} {connected : Bool} {now : Nat} (hp : s.pc c = .checking conn)
    (hgood : ¬ (!connected || addU64 (s.heap conn).createTime l.maxAliveTime.toNat < now ||
      l.maxRequest.toNat < (s.heap conn).request) = true) :
    Does l s (.check c connected now) (s.goto c (.pushing conn))
  | delete {c : C} {conn : Nat} (hp : s.pc c = .deleting conn) :
    Does l s (.delete c) ({ s with freed := conn :: s.freed }.goto c .deleted)
  | decrement {c : C} (hp : s.pc c = .deleted) : Does l s (.decrement c) ((s.addTotal (-1)).goto c .idle)
  | push {c : C} {conn : Nat} (hp : s.pc c = .pushing conn) :
    Does l s (.push c) ({ s with conns := s.conns ++ [conn] }.goto c .idle)

theorem step_does {l : Limits} {s t : State C} {a : Action C} (h : step l s a = some t) : Does l s a t := by
  cases a with
  | begin c now =>
    simp only [step] at h
    split at h
    next hp => exact Option.some.inj h ▸ .begin hp
    next => cases h
  | pop c connected =>
    simp only [step] at h
    split at h
    next now hp => exact Option.some.inj h ▸ .pop hp
    next => cases h
  | drop c =>
    simp only [step] at h
    split at h
    next conn invalid size ptr hp => exact Option.some.inj h ▸ .drop hp
    next => cases h
  | subtract c =>
    simp only [step] at h
    split at h
    next size k hp => exact Option.some.inj h ▸ .take hp
    next size hp => exact Option.some.inj h ▸ .miss hp
    next => cases h
  | fail c =>
    simp only [step] at h
    split at h
    next hp => exact Option.some.inj h ▸ .fail hp
    next => cases h
  | create c now =>
    simp only [step] at h
    split at h
    next hp => exact Option.some.inj h ▸ .create hp
    next => cases h
  | increment c =>
    simp only [step] at h
    split at h
    next conn hp => exact Option.some.inj h ▸ .increment hp
    next => cases h
  | release c =>
    simp only [step] at h
    split at h
    next conn hp => exact Option.some.inj h ▸ .release hp
    next => cases h
  | check c connected now =>
    simp only [step] at h
    split at h
    next conn hp =>
      split at h
      next hbad => exact Option.some.inj h ▸ .refuse hp hbad
      next hgood => exact Option.some.inj h ▸ .accept hp hgood
    next => cases h
  | delete c =>
    simp only [step] at h
    split at h
    next conn hp => exact Option.some.inj h ▸ .delete hp
    next => cases h
  | decrement c =>
    simp only [step] at h
    split at h
    next hp => exact Option.some.inj h ▸ .decrement hp
    next => cases h
  | push c =>
    simp only [step] at h
    split at h
    next conn hp => exact Option.some.inj h ▸ .push hp
    next => cases h

theorem step_effect {l : Limits} {s t : State C} {a : Action C} (h : step l s a = some t) :
    Effect l s t a.client := by
  cases step_does h with
  | begin hp => exact effect_stay l s _ _ (by rw [hp]; rfl) (by rw [hp]; rfl) trivial
  | @pop c connected now hp =>
    obtain ⟨hsplit, hfresh⟩ := popLoop_spec l.maxAliveTime.toNat now connected s.heap s.conns
    refine ⟨goto_others _ c _, ?_, ⟨0, .inr ⟨rfl, rfl⟩, ?_⟩, fun _ => ?_, fun k hk => .inl hk, fun _ _ _ => ⟨rfl, rfl⟩⟩
    · refine .take _ (hsplit.trans (List.append_assoc _ _ _).symm) rfl rfl ?_ (by rw [Action.client, hp]; rfl)
      rw [Action.client, goto_self, Pc.owned, Option.map_map]
      congr 2
      exact congrFun Option.map_id _
    · rw [Action.client, goto_self, hp]
      simp [Pc.owed, State.goto]
    · rw [Action.client, goto_self]
      cases hr : (popLoop l.maxAliveTime.toNat now connected s.heap s.conns).2.1 with
      | none => trivial
      | some n =>
        obtain ⟨hc, hold⟩ := hfresh n hr
        refine ⟨hc, ?_⟩
        have hle : addU64 (s.heap n).createTime l.maxAliveTime.toNat ≤
            (s.heap n).createTime + l.maxAliveTime.toNat :=
          Nat.mod_le _ _
        simp only
        omega
  | @drop c conn invalid size ptr hp =>
    refine ⟨goto_others _ c _, .free conn rfl rfl rfl (by rw [Action.client, goto_self, hp]; rfl),
      ⟨0, .inr ⟨rfl, rfl⟩, ?_⟩, fun hf => ?_, fun k hk => .inl hk, fun _ _ _ => ⟨rfl, rfl⟩⟩
    · rw [Action.client, goto_self, hp]
      simp only [Pc.owed, State.goto, List.length_cons]
      push_cast
      omega
    · rw [Action.client, goto_self]
      rw [Action.client, hp] at hf
      cases ptr with
      | none => trivial
      | some k => exact hf
  | @take c size k hp =>
    refine ⟨goto_others _ c _, .stay rfl rfl rfl (by rw [Action.client, goto_self, hp]; rfl),
      ⟨-size, .inl rfl, ?_⟩, fun _ => by rw [Action.client, goto_self]; trivial, fun k' hk' => ?_,
      fun n hn _ => ⟨rfl, Function.update_of_ne (fun h => hn (by simp [Action.client, hp, Pc.owned, h])) _ _⟩⟩
    · rw [Action.client, goto_self, hp]
      simp only [Pc.owed, State.goto, State.handOut, State.addTotal, List.length_nil]
      push_cast
      omega
    · obtain rfl | hk' := List.mem_cons.mp hk'
      · exact .inr ⟨size, hp⟩
      · exact .inl hk'
  | @miss c size hp =>
    refine ⟨goto_others _ c _, .stay rfl rfl rfl (by rw [Action.client, goto_self, hp]; rfl),
      ⟨-size, .inl rfl, ?_⟩, fun _ => by rw [Action.client, goto_self]; trivial, fun k hk => .inl hk,
      fun _ _ _ => ⟨rfl, rfl⟩⟩
    rw [Action.client, goto_self, hp]
    simp only [Pc.owed, State.goto, State.addTotal, List.length_nil]
    push_cast
    omega
  | fail hp => exact effect_stay l s _ _ (by rw [hp]; rfl) (by rw [hp]; rfl) trivial
  | @create c now hp =>
    refine ⟨goto_others _ c _, .new rfl rfl rfl (by rw [Action.client, goto_self]; rfl) (by rw [Action.client, hp]; rfl),
      ⟨0, .inr ⟨rfl, rfl⟩, ?_⟩, fun _ => by rw [Action.client, goto_self]; trivial, fun k hk => .inl hk,
      fun n _ hn => ⟨Function.update_of_ne hn _ _, rfl⟩⟩
    rw [Action.client, goto_self, hp]
    simp only [Pc.owed, State.goto]
    push_cast
    omega
  | @increment c conn hp =>
    refine ⟨goto_others _ c _, .stay rfl rfl rfl (by rw [Action.client, goto_self, hp]; rfl),
      ⟨1, .inl rfl, ?_⟩, fun _ => by rw [Action.client, goto_self]; trivial, fun k hk => .inl hk,
      fun n hn _ => ⟨rfl, Function.update_of_ne (fun h => hn (by simp [Action.client, hp, Pc.owned, h])) _ _⟩⟩
    rw [Action.client, goto_self, hp]
    simp only [Pc.owed, State.goto, State.handOut, State.addTotal]
    omega
  | @release c conn hp =>
    refine ⟨goto_others _ c _, .stay rfl rfl rfl (by rw [Action.client, goto_self, hp]; rfl),
      ⟨0, .inr ⟨rfl, rfl⟩, ?_⟩, fun _ => by rw [Action.client, goto_self]; trivial, fun k hk => .inl hk,
      fun n hn _ => ⟨Function.update_of_ne (fun h => hn (by simp [Action.client, hp, Pc.owned, h])) _ _, rfl⟩⟩
    rw [Action.client, goto_self, hp]
    simp [Pc.owed, State.goto]
  | refuse hp _ => exact effect_stay l s _ _ (by rw [hp]; rfl) (by rw [hp]; rfl) trivial
  | accept hp _ => exact effect_stay l s _ _ (by rw [hp]; rfl) (by rw [hp]; rfl) trivial
  | @delete c conn hp =>
    refine ⟨goto_others _ c _, .free conn rfl rfl rfl (by rw [Action.client, goto_self, hp]; rfl),
      ⟨0, .inr ⟨rfl, rfl⟩, ?_⟩, fun _ => by rw [Action.client, goto_self]; trivial, fun k hk => .inl hk,
      fun _ _ _ => ⟨rfl, rfl⟩⟩
    rw [Action.client, goto_self, hp]
    simp only [Pc.owed, State.goto, List.length_cons]
    push_cast
    omega
  | @decrement c hp =>
    refine ⟨goto_others _ c _, .stay rfl rfl rfl (by rw [Action.client, goto_self, hp]; rfl),
      ⟨-1, .inl rfl, ?_⟩, fun _ => by rw [Action.client, goto_self]; trivial, fun k hk => .inl hk,
      fun _ _ _ => ⟨rfl, rfl⟩⟩
    rw [Action.client, goto_self, hp]
    simp only [Pc.owed, State.goto, State.addTotal]
    omega
  | @push c conn hp =>
    refine ⟨goto_others _ c _, .give conn rfl rfl rfl (by rw [Action.client, goto_self]; rfl)
        (by rw [Action.client, hp]; rfl),
      ⟨0, .inr ⟨rfl, rfl⟩, ?_⟩, fun _ => by rw [Action.client, goto_self]; trivial, fun k hk => .inl hk,
      fun _ _ _ => ⟨rfl, rfl⟩⟩
    rw [Action.client, goto_self, hp]
    simp [Pc.owed, State.goto]

/-- The invariant of the pool. -/
structure Inv [Fintype C] (l : Limits) (s : State C) : Prop where
  kept : Kept s.held s.next
  total : s.total = Int.bmod ((s.next : Int) - s.freed.length + ∑ c, (s.pc c).owed) (2 ^ 32)
  fresh : ∀ c, (s.pc c).Fresh l
  handed : ∀ k ∈ s.handed, k.Fresh l

omit [DecidableEq C] in
theorem Moved.next_le {s t : State C} {c : C} (h : Moved s t c) : s.next ≤ t.next := by
  cases h with
  | stay _ _ hn _ => exact hn.ge
  | take _ _ _ hn _ _ => exact hn.ge
  | free _ _ _ hn _ => exact hn.ge
  | give _ _ _ hn _ _ => exact hn.ge
  | new _ _ hn _ _ => exact hn ▸ Nat.le_succ _

theorem Moved.kept {s t : State C} {c : C} (h : Moved s t c) (ho : ∀ d, d ≠ c → t.pc d = s.pc d)
    (hk : Kept s.held s.next) : Kept t.held t.next := by
  have hother : ∀ d n, d ≠ c → (t.held (.client d)).count n = (s.held (.client d)).count n := by
    intro d n hd
    simp only [State.held, ho d hd]
  cases h with
  | stay hp hf hn hown =>
    rw [hn]
    refine hk.congr (fun k n => ?_)
    cases k with
    | pool => simp only [State.held, hp]
    | grave => simp only [State.held, hf]
    | client d =>
      by_cases hd : d = c
      · subst hd
        simp only [State.held, hown]
      · exact hother d n hd
  | take xs hp hf hn hown hs =>
    rw [hn]
    refine hk.move (a := .pool) (b := .client c) (by simp) xs (fun n => ?_) (fun n => ?_) (fun k n h1 h2 => ?_)
    · simp only [State.held, hp, List.count_append]
      omega
    · simp only [State.held, hown, hs, List.count_nil, Nat.zero_add]
    · cases k with
      | pool => exact absurd rfl h1
      | grave => simp only [State.held, hf]
      | client d => exact hother d n (fun hd => h2 (hd ▸ rfl))
  | free m hp hf hn hown =>
    rw [hn]
    refine hk.move (a := .client c) (b := .grave) (by simp) [m] (fun n => ?_) (fun n => ?_) (fun k n h1 h2 => ?_)
    · simp only [State.held, hown, List.count_cons, List.count_nil]
      omega
    · simp only [State.held, hf, List.count_cons, List.count_nil]
      omega
    · cases k with
      | pool => simp only [State.held, hp]
      | grave => exact absurd rfl h2
      | client d => exact hother d n (fun hd => h1 (hd ▸ rfl))
  | give m hp hf hn hown hs =>
    rw [hn]
    refine hk.move (a := .client c) (b := .pool) (by simp) [m] (fun n => ?_) (fun n => ?_) (fun k n h1 h2 => ?_)
    · simp only [State.held, hown, hs, List.count_nil, Nat.zero_add]
    · simp only [State.held, hp, List.count_append]
    · cases k with
      | pool => exact absurd rfl h2
      | grave => simp only [State.held, hf]
      | client d => exact hother d n (fun hd => h1 (hd ▸ rfl))
  | new hp hf hn hown hs =>
    rw [hn]
    refine hk.create (a := .client c) (fun n => ?_) (fun k n h1 => ?_)
    · simp only [State.held, hown, hs, List.count_nil, Nat.zero_add]
    · cases k with
      | pool => simp only [State.held, hp]
      | grave => simp only [State.held, hf]
      | client d => exact hother d n (fun hd => h1 (hd ▸ rfl))

section Accounts

variable [Fintype C] {l : Limits} {s t : State C}

theorem sum_owed {c : C} (ho : ∀ d, d ≠ c → t.pc d = s.pc d) :
    ∑ d, (t.pc d).owed = ∑ d, (s.pc d).owed + ((t.pc c).owed - (s.pc c).owed) := by
  rw [← Finset.add_sum_erase _ _ (Finset.mem_univ c), ← Finset.add_sum_erase Finset.univ (fun d => (s.pc d).owed)
    (Finset.mem_univ c)]
  have hsame : ∑ d ∈ Finset.univ.erase c, (t.pc d).owed = ∑ d ∈ Finset.univ.erase c, (s.pc d).owed :=
    Finset.sum_congr rfl (fun d hd => by rw [ho d (Finset.ne_of_mem_erase hd)])
  rw [hsame]
  omega

theorem Inv.step (hi : Inv l s) {a : Action C} (h : step l s a = some t) : Inv l t := by
  have he := step_effect h
  refine ⟨he.moved.kept he.others hi.kept, ?_, fun d => ?_, fun k hk => ?_⟩
  · obtain ⟨n, hn | ⟨hn, h0⟩, heq⟩ := he.total
    · rw [hn, hi.total, Int.bmod_add_bmod, sum_owed he.others, heq]
      congr 1
      omega
    · rw [hn, hi.total, sum_owed he.others]
      congr 1
      omega
  · by_cases hd : d = a.client
    · rw [hd]
      exact he.fresh (hi.fresh _)
    · rw [he.others d hd]
      exact hi.fresh d
  · obtain hk | ⟨size, hp⟩ := he.handed k hk
    · exact hi.handed k hk
    · have := hi.fresh a.client
      rw [hp] at this
      exact this

theorem init_inv (h : Init s) : Inv l s := by
  refine ⟨?_, ?_, fun c => ?_, fun k hk => ?_⟩
  · rw [h.next]
    refine (kept_empty.mpr ⟨.pool⟩).congr (fun k n => ?_)
    cases k with
    | pool => simp [State.held, h.conns]
    | grave => simp [State.held, h.freed]
    | client c => simp [State.held, h.pc, Pc.owned]
  · simp [h.total, h.next, h.freed, h.pc, Pc.owed]
  · rw [h.pc]
    trivial
  · simp [h.handed] at hk

theorem Inv.live_eq (hi : Inv l s) : (s.live : Int) = s.next - s.freed.length := by
  have hsub : s.freed.toFinset ⊆ Finset.range s.next := by
    intro n hn
    exact Finset.mem_range.mpr (hi.kept.lt (h := .grave) (List.mem_toFinset.mp hn))
  have hcard : s.freed.toFinset.card = s.freed.length :=
    List.toFinset_card_of_nodup (hi.kept.nodup .grave)
  have hle := Finset.card_le_card hsub
  rw [Finset.card_range, hcard] at hle
  rw [State.live, Finset.card_sdiff_of_subset hsub, Finset.card_range, hcard]
  omega

theorem Inv.accounted (hi : Inv l s) : Accounted l s := by
  have hk := hi.kept
  have hsole : ∀ {h : Holder C} {n : Nat}, n ∈ s.held h → ∀ k, k ≠ h → n ∉ s.held k :=
    fun hn k hne hm => hne (hk.unique hm hn)
  refine ⟨fun n hn hfree => ?_, hk.nodup .grave, fun n hn => ⟨?_, fun c => ?_⟩, fun hout => ?_, hi.handed⟩
  · obtain ⟨h, hone⟩ := hk.exists hn
    have hmem : n ∈ s.held h := List.count_pos_iff.mp (by omega)
    cases h with
    | pool => exact .inl ⟨hone, fun c => hsole hmem (.client c) (by simp)⟩
    | grave => exact absurd hmem hfree
    | client c =>
      exact .inr ⟨hsole hmem .pool (by simp), c, hone, fun d hd => hsole hmem (.client d) (by simpa using hd)⟩
  · exact hsole (h := .grave) hn .pool (by simp)
  · exact hsole (h := .grave) hn (.client c) (by simp)
  · have hsum : ∑ c, (s.pc c).owed = 0 := by
      refine Finset.sum_eq_zero (fun c _ => ?_)
      have hc := hout c
      cases hp : s.pc c <;> simp_all [Pc.Outside, Pc.owed]
    rw [hi.total, hsum, Int.add_zero, hi.live_eq]

/-- The accounts are right in every state that any clients can bring the pool to. -/
theorem accounted_of_run (l : Limits) (s : State C) (h : Reachable Init (step l) s) : Accounted l s :=
  (Reachable.invariant (I := Inv l) (fun _ => init_inv) (fun _ _ _ hi hs => hi.step hs) h).accounted

end Accounts

def emptyPool : State (Fin 2) := ⟨[], 0, fun _ => {}, 0, fun _ => .idle, [], fun _ => 0, []⟩

theorem emptyPool_init : Init emptyPool := ⟨rfl, rfl, rfl, fun _ => rfl, rfl, fun _ => rfl, rfl⟩

theorem accounted_replaced_connection :
    ∃ s : State (Fin 2), s.total = 1 ∧ s.freed = [0] ∧ s.pc 1 = .holding 1 ∧ Accounted ⟨1, 100, 1⟩ s := by
  have h : (exec (guarded (step ⟨1, 100, 1⟩) (fun _ _ => True)) emptyPool
      [.begin 0 5, .pop 0 (fun _ => true), .subtract 0, .create 0 6, .increment 0, .release 0, .check 0 true 7, .push 0,
        .begin 1 8, .pop 1 (fun _ => false), .drop 1, .subtract 1, .create 1 9, .increment 1]).map
        (fun s => (s.total, s.freed, s.pc 1)) = some (1, [0], .holding 1) := by
    decide +kernel
  obtain ⟨s, hs, he⟩ := Option.map_eq_some_iff.mp h
  simp only [Prod.mk.injEq] at he
  exact ⟨s, he.1, he.2.1, he.2.2, accounted_of_run _ s (Run.exec (.start emptyPool_init) _ hs)⟩

end Windgent.Http.Pool
