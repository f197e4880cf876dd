import Windgent.MachineInt
import Windgent.OrderedSet
import Mathlib.Logic.Function.Basic

namespace Windgent.TimerManager

open MachineInt

structure Timer where
  recur : Bool
  ms : Nat
  next : Nat
  cb : Option Nat
deriving DecidableEq

/-- `heap` holds the `Timer` objects by address, `timers` the addresses in
`m_timers` in the order of the set. -/
structure State where
  heap : Nat → Option Timer
  timers : List Nat
  tickled : Bool
  previouseTime : Nat

def State.next (s : State) (a : Nat) : Nat := ((s.heap a).map Timer.next).getD 0

def Comparator (next : Nat → Nat) (a b : Nat) : Prop :=
  next a < next b ∨ (next a = next b ∧ a < b)

instance (next : Nat → Nat) : DecidableRel (Comparator next) :=
  fun _ _ => inferInstanceAs (Decidable (_ ∨ _))

def State.set (s : State) (a : Nat) (t : Timer) : State :=
  { s with heap := Function.update s.heap a (some t) }

/-- The constructor: the expiry time is computed before the lock is taken. -/
def newTimer (ms : Nat) (cb : Option Nat) (recur : Bool) (now : Nat) : Timer :=
  ⟨recur, ms, addU64 now ms, cb⟩

/-- The locked section of the private `addTimer`, and whether it is followed by
`onTimerInsertedAtFront`. -/
def addTimer (s : State) (a : Nat) : State × Bool :=
  let timers := OrderedSet.insert (Comparator s.next) a s.timers
  let at_front := timers.head? = some a ∧ s.tickled = false
  ({ s with timers := timers, tickled := if at_front then true else s.tickled }, at_front)

/-- `cancel`; erasing the end of the set is an invalid access. -/
def cancel (s : State) (a : Nat) : Option (State × Bool) :=
  (s.heap a).bind fun t =>
    if t.cb = none then some (s, false)
    else
      let s := s.set a { t with cb := none }
      (OrderedSet.find (Comparator s.next) a s.timers).map fun it =>
        ({ s with timers := s.timers.erase it }, true)

def refresh (s : State) (a now : Nat) : Option (State × Bool) :=
  (s.heap a).map fun t =>
    if t.cb = none then (s, false)
    else match OrderedSet.find (Comparator s.next) a s.timers with
      | none => (s, false)
      | some it =>
        let s := ({ s with timers := s.timers.erase it }).set a { t with next := addU64 now t.ms }
        ({ s with timers := OrderedSet.insert (Comparator s.next) a s.timers }, true)

/-- `reset`: its result and whether `onTimerInsertedAtFront` follows. -/
def reset (s : State) (a ms : Nat) (from_now : Bool) (now : Nat) : Option ((State × Bool) × Bool) :=
  (s.heap a).map fun t =>
    if ms = t.ms ∧ from_now = false then ((s, false), true)
    else if t.cb = none then ((s, false), false)
    else match OrderedSet.find (Comparator s.next) a s.timers with
      | none => ((s, false), false)
      | some it =>
        let start := if from_now then now else subU64 t.next t.ms
        let s := ({ s with timers := s.timers.erase it }).set a
          { t with ms := ms, next := addU64 start ms }
        (addTimer s a, true)

/-- `getTimeOfNextTimer`: an empty set returns `~0ull` and leaves `m_tickled`. -/
def getTimeOfNextTimer (s : State) (now : Nat) : State × Nat :=
  match s.timers with
  | [] => (s, modulus - 1)
  | a :: _ => ({ s with tickled := false }, if s.next a ≤ now then 0 else s.next a - now)

def detectClockRollover (s : State) (now : Nat) : State × Bool :=
  ({ s with previouseTime := now },
    decide (now < s.previouseTime ∧ now < subU64 s.previouseTime (60 * 60 * 1000)))

def requeue (now : Nat) : List Nat → State → State
  | [], s => s
  | a :: expired, s =>
    match s.heap a with
    | none => requeue now expired s
    | some t =>
      if t.recur then
        let s := s.set a { t with next := addU64 now t.ms }
        requeue now expired { s with timers := OrderedSet.insert (Comparator s.next) a s.timers }
      else requeue now expired (s.set a { t with cb := none })

/-- How many timers are expired at `now`: those below a temporary timer at the
address `tmp` and the following ones at `now` itself. -/
def expiredCount (s : State) (now tmp : Nat) : Nat :=
  let below := (s.timers.takeWhile (fun a => Comparator s.next a tmp)).length
  below + ((s.timers.drop below).takeWhile (fun a => s.next a = now)).length

/-- The write-locked section of `listExpiredCbs`, with the clock read before
it; `tmp` is the address of the temporary timer. -/
def listExpiredCbs (s : State) (now tmp : Nat) : State × List (Option Nat) :=
  match s.timers with
  | [] => (s, [])
  | first :: _ =>
    let (s, rollover) := detectClockRollover s now
    if rollover = false ∧ now < s.next first then (s, [])
    else
      let s' := s.set tmp ⟨false, 0, now, none⟩
      let n := if rollover then s.timers.length else expiredCount s' now tmp
      let expired := s.timers.take n
      (requeue now expired { s with timers := s.timers.drop n },
        expired.map (fun a => (s.heap a).bind Timer.cb))

end Windgent.TimerManager
