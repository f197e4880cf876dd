import Windgent.Scheduler.Basic
import Mathlib.Logic.Function.Basic

namespace Windgent.Scheduler.Worker

variable {W : Type}

inductive Fiber (W : Type) where
  | idle (w : W)
  | sub (n : Nat)
deriving DecidableEq

inductive Kind where
  | task
  | callback
  | idle
deriving DecidableEq

/-- The next step of a worker: a queue section, a counter update, or a statement
that touches a fiber. -/
inductive Pc (W : Type) where
  -- `run` has not been entered
  | fresh
  | scan
  -- the test for `TERM` and `EXCEPT` of a removed entry
  | taken (f : Fiber W)
  -- the decrement for an entry that is not run
  | skip
  -- the assertion of `Fiber::reset`, with a callback to run or with `nullptr`
  | resetting (f : Fiber W) (run : Bool)
  | setInit (f : Fiber W) (run : Bool)
  -- the assertion of `swapIn`
  | swapIn (f : Fiber W) (k : Kind)
  | setExec (f : Fiber W) (k : Kind)
  -- the `swapcontext` of `swapIn`
  | restore (f : Fiber W) (k : Kind)
  -- the fiber runs its own code
  | inside (f : Fiber W) (k : Kind)
  -- the assertion of `YieldToHold` and `YieldToReady`
  | yielding (f : Fiber W) (k : Kind) (v : FiberState)
  | setState (f : Fiber W) (k : Kind) (v : FiberState)
  -- the `swapcontext` of `swapOut` saves the fiber
  | save (f : Fiber W) (k : Kind)
  -- and restores the scheduler
  | saved (f : Fiber W) (k : Kind)
  -- `--m_activeThreadCount`, or `--m_idleThreadCount` behind the idle fiber
  | decrement (f : Fiber W) (k : Kind)
  | testReady (f : Fiber W) (k : Kind)
  | putBack (n : Nat) (k : Kind)
  | testEnd (f : Fiber W) (k : Kind)
  | setHold (f : Fiber W) (k : Kind)
  | testIdle
  -- `++m_idleThreadCount`
  | beginIdle
  | left
deriving DecidableEq

def Pc.run : Pc W → Option (Fiber W × Kind)
  | .fresh | .scan | .skip | .testIdle | .beginIdle | .left => none
  | .taken f => some (f, .task)
  | .resetting f _ | .setInit f _ => some (f, .callback)
  | .swapIn f k | .setExec f k | .restore f k | .inside f k | .yielding f k _ | .setState f k _ |
    .save f k | .saved f k | .decrement f k | .testReady f k | .testEnd f k | .setHold f k => some (f, k)
  | .putBack n k => some (.sub n, k)

def Pc.fiber (p : Pc W) : Option (Fiber W) := p.run.map Prod.fst

/-- The worker executes on the stack of `f`: after the restore of its context
and before the save. -/
def Pc.Inside (p : Pc W) (f : Fiber W) : Prop :=
  match p with
  | .inside g _ | .yielding g _ _ | .setState g _ _ | .save g _ => g = f
  | _ => False

/-- `stopped` is set when `stop()` has set both flags. `registered` counts the
wake-ups a fiber has asked for, `next` is the id of the next `Fiber` object,
`cbFiber` the local variable `cb_fiber` of `run`. History variables: `serial`
numbers the entries, `removed` records who removed which, and `readyYields` and
`putBacks` count the `READY` yields of a fiber and its returns to the queue. -/
structure State (W : Type) where
  queue : List (FiberAndThread W)
  active : Int
  idle : Int
  stopped : Bool
  state : Fiber W → FiberState
  saved : Fiber W → Bool
  registered : Nat → Nat
  next : Nat
  pc : W → Pc W
  cbFiber : W → Option (Fiber W)
  serial : Nat
  removed : List (FiberAndThread W × W)
  readyYields : Nat → Nat
  putBacks : Nat → Nat

structure Init (s : State W) : Prop where
  queue : s.queue = []
  active : s.active = 0
  idle : s.idle = 0
  stopped : s.stopped = false
  state : ∀ f, s.state f = .init
  saved : ∀ f, s.saved f = true
  registered : ∀ n, s.registered n = 0
  next : s.next = 0
  pc : ∀ w, s.pc w = .fresh
  cbFiber : ∀ w, s.cbFiber w = none
  serial : s.serial = 0
  removed : s.removed = []
  readyYields : ∀ n, s.readyYields n = 0
  putBacks : ∀ n, s.putBacks n = 0

/-- The actions; `who` is the worker inside whose fiber a call is made, if it is
not made from outside. -/
inductive Action (W : Type) where
  | scheduleFiber (who thd : Option W)
  | scheduleCb (who : Option W) (c : Nat) (thd : Option W)
  -- a fiber is scheduled because of its registration
  | wake (who : Option W) (n : Nat)
  | stop
  -- a thread enters `run`, or the caller's thread finds in `stop` that it need not
  | enter (w : W)
  | bypass (w : W)
  -- the running fiber registers itself for a wake-up
  | register (w : W)
  | switchTo (w thd : W)
  | yieldToHold (w : W)
  | yieldToReady (w : W)
  -- the end of `MainFunc`, normally or by an exception
  | finish (w : W) (thrown : Bool)
  -- `idle` finds `stopping()` true and returns
  | idleExit (w : W)
  -- the direct `swapOut` of `IOManager::idle`
  | swapOut (w : W)
  | advance (w : W)

variable [DecidableEq W]

def State.goto (s : State W) (w : W) (p : Pc W) : State W :=
  { s with pc := Function.update s.pc w p }

def State.setState (s : State W) (f : Fiber W) (v : FiberState) : State W :=
  { s with state := Function.update s.state f v }

def State.setSaved (s : State W) (f : Fiber W) (b : Bool) : State W :=
  { s with saved := Function.update s.saved f b }

def State.setCbFiber (s : State W) (w : W) (c : Option (Fiber W)) : State W :=
  { s with cbFiber := Function.update s.cbFiber w c }

def State.scheduleNoLock (s : State W) (task : Task) (thd : Option W) : State W :=
  { s with queue := s.queue ++ [⟨task, thd, s.serial⟩], serial := s.serial + 1 }

def State.newFiber (s : State W) : State W :=
  { (s.setState (.sub s.next) .init).setSaved (.sub s.next) true with next := s.next + 1 }

def State.stopping (s : State W) : Prop := s.stopped = true ∧ s.queue = [] ∧ s.active = 0

instance (s : State W) : Decidable s.stopping := inferInstanceAs (Decidable (_ ∧ _))

def ended : FiberState → Bool
  | .term | .except => true
  | _ => false

/-- `cb_fiber.reset()` where the kind of the run asks for it. -/
def State.release (s : State W) (w : W) (k : Kind) : State W :=
  if k = .callback then s.setCbFiber w none else s

/-- The removal of an entry by `w` in its queue section. -/
def State.remove (s : State W) (w : W) (ft : FiberAndThread W) (q : List (FiberAndThread W)) : State W :=
  { s with queue := q, active := s.active + 1, removed := (ft, w) :: s.removed }

/-- The queue section at the head of `run` and the choice of the branch. -/
def takeTask (s : State W) (w : W) : State W :=
  match scan w (fun n => s.state (.sub n)) s.queue with
  | none => s.goto w .testIdle
  | some (ft, q) =>
    match ft.task with
    | .fiber n => (s.remove w ft q).goto w (.taken (.sub n))
    | .cb _ =>
      match s.cbFiber w with
      | some f => (s.remove w ft q).goto w (.resetting f true)
      | none =>
        ((s.remove w ft q).newFiber.setCbFiber w (some (.sub s.next))).goto w
          (.swapIn (.sub s.next) .callback)

def State.countYield (s : State W) (f : Fiber W) (v : FiberState) : State W :=
  match f, v with
  | .sub n, .ready => { s with readyYields := Function.update s.readyYields n (s.readyYields n + 1) }
  | _, _ => s

def State.countPutBack (s : State W) (n : Nat) : State W :=
  { s with putBacks := Function.update s.putBacks n (s.putBacks n + 1) }

def advance (s : State W) (w : W) : Option (State W) :=
  match s.pc w with
  | .fresh => none
  | .scan => some (takeTask s w)
  | .taken f => some (s.goto w (if ended (s.state f) then .skip else .swapIn f .task))
  | .skip => some ({ s with active := s.active - 1 }.goto w .scan)
  | .resetting f run =>
    if ended (s.state f) ∨ s.state f = .init then some ((s.setSaved f true).goto w (.setInit f run))
    else none
  | .setInit f run =>
    some ((s.setState f .init).goto w (if run then .swapIn f .callback else .scan))
  | .swapIn f k => if s.state f ≠ .exec then some (s.goto w (.setExec f k)) else none
  | .setExec f k => some ((s.setState f .exec).goto w (.restore f k))
  | .restore f k => some ((s.setSaved f false).goto w (.inside f k))
  | .inside _ _ => none
  | .yielding f k v => if s.state f = .exec then some (s.goto w (.setState f k v)) else none
  | .setState f k v => some (((s.countYield f v).setState f v).goto w (.save f k))
  | .save f k => some ((s.setSaved f true).goto w (.saved f k))
  | .saved f k => some (s.goto w (.decrement f k))
  | .decrement f k =>
    some (if k = .idle then { s with idle := s.idle - 1 }.goto w (.testEnd f k)
      else { s with active := s.active - 1 }.goto w (.testReady f k))
  | .testReady f k =>
    match f with
    | .sub n => some (s.goto w (if s.state f = .ready then .putBack n k else .testEnd f k))
    | .idle _ => none
  | .putBack n k =>
    some ((((s.countPutBack n).scheduleNoLock (.fiber n) none).release w k).goto w .scan)
  | .testEnd f k =>
    some (s.goto w (if ended (s.state f) then (if k = .callback then .resetting f false else .scan)
      else .setHold f k))
  | .setHold f k => some (((s.setState f .hold).release w k).goto w .scan)
  | .testIdle => some (s.goto w (if s.state (.idle w) = .term then .left else .beginIdle))
  | .beginIdle => some ({ s with idle := s.idle + 1 }.goto w (.swapIn (.idle w) .idle))
  | .left => none

def State.running (s : State W) : Option W → Bool
  | none => true
  | some w =>
    match s.pc w with
    | .inside _ _ => true
    | _ => false

def step (s : State W) : Action W → Option (State W)
  | .scheduleFiber who thd =>
    if s.running who then some (s.newFiber.scheduleNoLock (.fiber s.next) thd) else none
  | .scheduleCb who c thd => if s.running who then some (s.scheduleNoLock (.cb c) thd) else none
  | .wake who n =>
    if s.running who ∧ 0 < s.registered n then
      some ({ s with registered := Function.update s.registered n (s.registered n - 1) }.scheduleNoLock
        (.fiber n) none)
    else none
  | .stop => some { s with stopped := true }
  | .enter w => if s.pc w = .fresh then some (s.goto w .scan) else none
  | .bypass w => if s.pc w = .fresh ∧ s.stopping then some (s.goto w .left) else none
  | .register w =>
    match s.pc w with
    | .inside (.sub n) _ =>
      some { s with registered := Function.update s.registered n (s.registered n + 1) }
    | _ => none
  | .switchTo w thd =>
    match s.pc w with
    | .inside (.sub n) k =>
      some ((s.scheduleNoLock (.fiber n) (some thd)).goto w (.yielding (.sub n) k .hold))
    | _ => none
  | .yieldToHold w =>
    match s.pc w with
    | .inside f k => some (s.goto w (.yielding f k .hold))
    | _ => none
  | .yieldToReady w =>
    match s.pc w with
    | .inside (.sub n) k => some (s.goto w (.yielding (.sub n) k .ready))
    | _ => none
  | .finish w thrown =>
    match s.pc w with
    | .inside (.sub n) k =>
      some (s.goto w (.setState (.sub n) k (if thrown then .except else .term)))
    | _ => none
  | .idleExit w =>
    match s.pc w with
    | .inside (.idle v) k => if s.stopping then some (s.goto w (.setState (.idle v) k .term)) else none
    | _ => none
  | .swapOut w =>
    match s.pc w with
    | .inside (.idle v) k => some (s.goto w (.save (.idle v) k))
    | _ => none
  | .advance w => advance s w

end Windgent.Scheduler.Worker
