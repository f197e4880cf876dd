import Windgent.IOManager.Events
import Windgent.TimerManager.Basic
import Windgent.Transition

namespace Windgent.Hook

/-- `do_io` tries again after a wake-up, `connect_with_timeout` does not. -/
inductive Kind where
  | io
  | connect
deriving DecidableEq

structure Call where
  kind : Kind
  fd : Nat
  event : IOManager.Event
  timeout : Nat
  fiber : Nat
  iom : Nat
deriving DecidableEq

inductive Result where
  | final
  | interrupted
  | blocked
deriving DecidableEq

inductive Pc where
  | attempt
  | addCondTimer
  | addEvent
  | yieldToHold
  | parked
  -- `timer->cancel()` after the wake-up
  | cancelTimer
  | testCancelled
  -- `timer->cancel()` after a failed `addEvent`
  | giveUp
  | returned
deriving DecidableEq

/-- The callback of a timer: not due yet, handed to the scheduler, and behind each
of its three statements. -/
inductive Phase where
  | waiting
  | queued
  | tested
  | marked
  | done
deriving DecidableEq

/-- `round` numbers the timers of the call and their callbacks, `timer` is the
address of the last one. The callbacks share `cancelled`. `resumes` counts the
entries of the fiber that have been taken from the queue. -/
structure System where
  io : IOManager.State
  timers : TimerManager.State
  pc : Pc
  round : Nat
  timer : Nat
  cancelled : Bool
  phase : Nat → Phase
  resumes : Nat

inductive Action where
  | attempt (r : Result)
  | addCondTimer (a now : Nat)
  | addEvent (ctl : Bool)
  | yieldToHold
  | resume
  | cancelTimer
  | testCancelled
  -- an idle worker collects and schedules the expired callbacks
  | listExpiredCbs (now tmp : Nat)
  -- the callback tests the condition, sets it, and cancels the event
  | test (k : Nat)
  | mark (k : Nat)
  | cancelEvent (k : Nat) (ctl : Bool)
  -- another thread triggers events
  | trigger (op : IOManager.Op)

def triggers : IOManager.Op → Bool
  | .dispatch .. | .cancelEvent .. | .cancelAll .. => true
  | .addEvent .. | .delEvent .. => false

variable (c : Call)

def wakes (io : IOManager.State) : Nat := io.queued.count (c.iom, .fiber c.fiber)

/-- The fiber is in the queue. -/
def System.Queued (s : System) : Prop := s.resumes < wakes c s.io

instance (s : System) : Decidable (s.Queued c) := inferInstanceAs (Decidable (_ < _))

/-- `wcond.lock()` succeeds: the frame of the call or a callback holds the condition. -/
def System.alive (s : System) : Bool :=
  s.pc ≠ .returned || (List.range (s.round + 1)).any (fun k => s.phase k = .tested || s.phase k = .marked)

def step (s : System) : Action → Option System
  | .attempt r =>
    if s.pc = .attempt then
      match r, c.kind with
      | .blocked, _ => some { s with pc := .addCondTimer }
      | .interrupted, .io => some s
      | _, _ => some { s with pc := .returned }
    else none
  | .addCondTimer a now =>
    if s.pc = .addCondTimer ∧ s.timers.heap a = none then
      let m := s.timers.set a (TimerManager.newTimer c.timeout (some (s.round + 1)) false now)
      some { s with
        timers := (TimerManager.addTimer m a).1, timer := a, round := s.round + 1, pc := .addEvent }
    else none
  | .addEvent ctl =>
    if s.pc = .addEvent then
      (IOManager.addEvent s.io c.fd c.event none ⟨some c.iom, c.fiber, true⟩ ctl).map fun p =>
        { s with io := p.1, pc := if p.2 = (0 : Int) then .yieldToHold else .giveUp }
    else none
  | .yieldToHold => if s.pc = .yieldToHold then some { s with pc := .parked } else none
  | .resume =>
    if s.pc = .parked ∧ s.Queued c then some { s with resumes := s.resumes + 1, pc := .cancelTimer }
    else none
  | .cancelTimer =>
    match s.pc with
    | .cancelTimer => (TimerManager.cancel s.timers s.timer).map fun p =>
        { s with timers := p.1, pc := .testCancelled }
    | .giveUp => (TimerManager.cancel s.timers s.timer).map fun p =>
        { s with timers := p.1, pc := .returned }
    | _ => none
  | .testCancelled =>
    if s.pc = .testCancelled then
      some { s with pc := if s.cancelled = false ∧ c.kind = .io then .attempt else .returned }
    else none
  | .listExpiredCbs now tmp =>
    if s.timers.heap tmp = none then
      let p := TimerManager.listExpiredCbs s.timers now tmp
      some { s with timers := p.1, phase := fun k => if some k ∈ p.2 then .queued else s.phase k }
    else none
  | .test k =>
    if s.phase k = .queued then
      some { s with
        phase := Function.update s.phase k (if s.alive ∧ s.cancelled = false then .tested else .done) }
    else none
  | .mark k =>
    if s.phase k = .tested then
      some { s with cancelled := true, phase := Function.update s.phase k .marked }
    else none
  | .cancelEvent k ctl =>
    if s.phase k = .marked then
      (IOManager.cancelEvent s.io c.fd c.event ctl).map fun p =>
        { s with io := p.1, phase := Function.update s.phase k .done }
    else none
  | .trigger op =>
    if triggers op then (IOManager.step s.io op).map fun io => { s with io := io } else none

structure Init (s : System) : Prop where
  io : Transition.Reachable (· = IOManager.init) IOManager.step s.io
  timers : s.timers.timers = [] ∧ s.timers.heap = fun _ => none
  pc : s.pc = .attempt
  cancelled : s.cancelled = false
  phase : ∀ k, s.phase k = .waiting
  resumes : s.resumes = wakes c s.io

end Windgent.Hook
