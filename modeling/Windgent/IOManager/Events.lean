import Windgent.MachineInt
import Mathlib.Algebra.BigOperators.Group.Finset.Basic
import Mathlib.Algebra.BigOperators.Intervals
import Mathlib.Algebra.Order.BigOperators.Group.Finset
import Mathlib.Data.Fintype.Basic

namespace Windgent.IOManager

open MachineInt

/-- The two directions a descriptor can be watched in. -/
inductive Event where
  | read
  | write
deriving DecidableEq

def Event.mask : Event → BitVec 32
  | .read => 0x1
  | .write => 0x4

def EPOLLERR : BitVec 32 := 0x8
def EPOLLHUP : BitVec 32 := 0x10
def EPOLLET : BitVec 32 := 0x80000000

inductive Task where
  | fiber (id : Nat)
  | cb (id : Nat)
deriving DecidableEq

structure EventContext where
  scheduler : Option Nat
  fiber : Option Nat
  cb : Option Nat
deriving DecidableEq

def EventContext.empty : EventContext := ⟨none, none, none⟩

structure FdContext where
  read : EventContext
  write : EventContext
  events : BitVec 32
deriving DecidableEq

def FdContext.empty : FdContext := ⟨.empty, .empty, 0⟩

def FdContext.getContext (c : FdContext) : Event → EventContext
  | .read => c.read
  | .write => c.write

def FdContext.setContext (c : FdContext) (e : Event) (ctx : EventContext) : FdContext :=
  match e with
  | .read => { c with read := ctx }
  | .write => { c with write := ctx }

def FdContext.has (c : FdContext) (e : Event) : Bool := c.events &&& e.mask != 0

/-- The pointer constructors of `FiberAndThread` swap the callback or the fiber
out of the event context. -/
def EventContext.takeTask (ctx : EventContext) : Option Task × EventContext :=
  match ctx.cb with
  | some c => (some (.cb c), { ctx with cb := none, scheduler := none })
  | none => (ctx.fiber.map .fiber, { ctx with fiber := none, scheduler := none })

/-- `triggerEvent`: the changed context and what is scheduled where. It fails
on its assertion and on a null scheduler. -/
def FdContext.triggerEvent (c : FdContext) (e : Event) :
    Option (FdContext × List (Nat × Task)) :=
  if c.has e then
    (c.getContext e).scheduler.map fun sched =>
      let (task, ctx) := (c.getContext e).takeTask
      (({ c with events := c.events &&& ~~~e.mask }).setContext e ctx,
        task.toList.map (fun t => (sched, t)))
  else none

/-- How a registration ended. -/
inductive Consumer where
  | delEvent
  | cancelEvent
  | cancelAll
  | dispatch
deriving DecidableEq

/-- History of one successful `addEvent`: its own task, who consumed it, and
what these consumptions scheduled. -/
structure Registration where
  fd : Nat
  event : Event
  scheduler : Nat
  task : Task
  consumed : List Consumer
  scheduled : List (Nat × Task)
deriving DecidableEq

/-- `table` is `m_fdContexts` below `size`; `epoll` is the kernel's interest
set; `queued` is everything handed to `schedule` so far. `history` and `live`
are history variables: the registrations in order, and the one that each
descriptor and direction currently holds. -/
structure State where
  size : Nat
  table : Nat → FdContext
  pending : Int
  epoll : Nat → Option (BitVec 32)
  queued : List (Nat × Task)
  history : List Registration
  live : Nat → Event → Option Nat

def init : State :=
  ⟨32, fun _ => .empty, 0, fun _ => none, [], [], fun _ _ => none⟩

/-- `contextResize`: new slots get an empty context, dropped slots are gone. -/
def contextResize (s : State) (size : Nat) : State :=
  { s with size := size, table := fun fd => if fd < size then s.table fd else .empty }

def State.covers (s : State) (fd : Nat) : Bool := (fd : Int) < toInt s.size

def State.setFd (s : State) (fd : Nat) (c : FdContext) : State :=
  { s with table := Function.update s.table fd c }

/-- What the kernel watches for an event mask: a descriptor without events is
removed from the set. -/
def interest (events : BitVec 32) : Option (BitVec 32) :=
  if events = 0 then none else some (EPOLLET ||| events)

/-- A successful `epoll_ctl` that leaves `events` watched on `fd`. -/
def State.setEpoll (s : State) (fd : Nat) (events : BitVec 32) : State :=
  { s with epoll := Function.update s.epoll fd (interest events) }

def State.consume (s : State) (fd : Nat) (e : Event) (how : Consumer) (out : List (Nat × Task)) :
    State :=
  match s.live fd e with
  | none => s
  | some i =>
    { s with
      history := s.history.modify i
        (fun r => { r with consumed := r.consumed ++ [how], scheduled := r.scheduled ++ out })
      live := Function.update s.live fd (Function.update (s.live fd) e none) }

def State.trigger (s : State) (fd : Nat) (e : Event) (how : Consumer) : Option State :=
  ((s.table fd).triggerEvent e).map fun p =>
    let t := (s.setFd fd p.1).consume fd e how p.2
    { t with queued := t.queued ++ p.2, pending := t.pending - 1 }

/-- The caller of `addEvent`: `Scheduler::GetThis()`, `Fiber::GetThis()` and
whether that fiber is in state `EXEC`. -/
structure Caller where
  scheduler : Option Nat
  fiber : Nat
  exec : Bool
deriving DecidableEq

def register (s : State) (fd : Nat) (e : Event) (cb : Option Nat) (who : Caller) : Option State :=
  let c := s.table fd
  if c.getContext e ≠ .empty then none
  else if cb = none ∧ who.exec = false then none
  else
    let ctx : EventContext := match cb with
      | some f => ⟨who.scheduler, none, some f⟩
      | none => ⟨who.scheduler, some who.fiber, none⟩
    let task : Task := match cb with
      | some f => .cb f
      | none => .fiber who.fiber
    let t := s.setFd fd (({ c with events := c.events ||| e.mask }).setContext e ctx)
    some { t with
      pending := t.pending + 1
      history := t.history ++ [⟨fd, e, who.scheduler.getD 0, task, [], []⟩]
      live := Function.update t.live fd (Function.update (t.live fd) e (some t.history.length)) }

/-- The first lines of `addEvent`: a table without `fd` is resized to `fd * 1.5`. -/
def State.lookup (s : State) (fd : Nat) : State :=
  if s.covers fd then s else contextResize s (fd * 3 / 2)

/-- The part of `addEvent` under the mutex of the context, with the outcome
`ctl` of its `epoll_ctl`. -/
def addEventLocked (s : State) (fd : Nat) (e : Event) (cb : Option Nat) (who : Caller) (ctl : Bool) :
    Option (State × Int) :=
  if s.size ≤ fd then none
  else if (s.table fd).has e then none
  else if ctl then
    (register (s.setEpoll fd ((s.table fd).events ||| e.mask)) fd e cb who).map (fun t => (t, 0))
  else some (s, -1)

def addEvent (s : State) (fd : Nat) (e : Event) (cb : Option Nat) (who : Caller) (ctl : Bool) :
    Option (State × Int) :=
  addEventLocked (s.lookup fd) fd e cb who ctl

def delEvent (s : State) (fd : Nat) (e : Event) (ctl : Bool) : State × Bool :=
  if s.covers fd = false then (s, false)
  else if (s.table fd).has e = false then (s, false)
  else if ctl then
    let new_event := (s.table fd).events &&& ~~~e.mask
    let t := s.setEpoll fd new_event
    let u := t.setFd fd (({ s.table fd with events := new_event }).setContext e .empty)
    ({ u with pending := u.pending - 1 }.consume fd e .delEvent [], true)
  else (s, false)

def cancelEvent (s : State) (fd : Nat) (e : Event) (ctl : Bool) : Option (State × Bool) :=
  if s.covers fd = false then some (s, false)
  else if (s.table fd).has e = false then some (s, false)
  else if ctl then
    ((s.setEpoll fd ((s.table fd).events &&& ~~~e.mask)).trigger fd e .cancelEvent).map
      (fun t => (t, true))
  else some (s, false)

/-- Trigger `e` if it is in `mask`, as the two last tests of `cancelAll` and of
the dispatch do one after the other. -/
def State.triggerIf (s : State) (mask : BitVec 32) (fd : Nat) (e : Event) (how : Consumer) :
    Option State :=
  if mask &&& e.mask = 0 then some s else s.trigger fd e how

def cancelAll (s : State) (fd : Nat) (ctl : Bool) : Option (State × Bool) :=
  if s.covers fd = false then some (s, false)
  else if (s.table fd).events = 0 then some (s, false)
  else if ctl then do
    let t := s.setEpoll fd 0
    let u ← t.triggerIf (t.table fd).events fd .read .cancelAll
    let v ← u.triggerIf (u.table fd).events fd .write .cancelAll
    some (v, true)
  else some (s, false)

def realEvent (report : BitVec 32) : BitVec 32 :=
  let events := if report &&& (EPOLLERR ||| EPOLLHUP) ≠ 0 then
    report ||| Event.read.mask ||| Event.write.mask else report
  (if events &&& Event.read.mask ≠ 0 then Event.read.mask else 0) |||
    (if events &&& Event.write.mask ≠ 0 then Event.write.mask else 0)

/-- The body of the dispatch loop of `idle` for one report on `fd`. -/
def dispatch (s : State) (fd : Nat) (report : BitVec 32) (ctl : Bool) : Option State :=
  let real_event := realEvent report
  if (s.table fd).events &&& real_event = 0 then some s
  else if ctl then do
    let t := s.setEpoll fd ((s.table fd).events &&& ~~~real_event)
    let u ← t.triggerIf real_event fd .read .dispatch
    u.triggerIf real_event fd .write .dispatch
  else some s

inductive Op where
  | addEvent (fd : Nat) (e : Event) (cb : Option Nat) (who : Caller) (ctl : Bool)
  | delEvent (fd : Nat) (e : Event) (ctl : Bool)
  | cancelEvent (fd : Nat) (e : Event) (ctl : Bool)
  | cancelAll (fd : Nat) (ctl : Bool)
  | dispatch (fd : Nat) (report : BitVec 32) (ctl : Bool)

/-- One operation; `none` is a failed assertion or an invalid access. -/
def step (s : State) : Op → Option State
  | .addEvent fd e cb who ctl => (addEvent s fd e cb who ctl).map (·.1)
  | .delEvent fd e ctl => some (delEvent s fd e ctl).1
  | .cancelEvent fd e ctl => (cancelEvent s fd e ctl).map (·.1)
  | .cancelAll fd ctl => (cancelAll s fd ctl).map (·.1)
  | .dispatch fd report ctl => dispatch s fd report ctl

end Windgent.IOManager
