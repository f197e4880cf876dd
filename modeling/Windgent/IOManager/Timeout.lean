import Windgent.TimerManager.Armed

namespace Windgent.IOManager

open MachineInt TimerManager Transition

def stopping (s : TimerManager.State) (now pendingEventCount : Nat) (schedulerStopping : Bool) : Nat × Bool :=
  let timeout := (getTimeOfNextTimer s now).2
  (timeout, decide (timeout = modulus - 1 ∧ pendingEventCount = 0 ∧ schedulerStopping = true))

def MAX_TIMEOUT : Nat := 3000

/-- What a round of the loop around `epoll_wait` makes of `next_timeout`. -/
def clampTimeout (next_timeout : Nat) : Nat :=
  if next_timeout ≠ modulus - 1 then
    if (MAX_TIMEOUT : Int) < toInt next_timeout then MAX_TIMEOUT else next_timeout
  else MAX_TIMEOUT

/-- The timeout that `idle` passes to `epoll_wait` after `k` calls that ended with `EINTR`. -/
def epollTimeout (s : TimerManager.State) (now pendingEventCount : Nat) (schedulerStopping : Bool) (k : Nat) :
    Option Int :=
  match stopping s now pendingEventCount schedulerStopping with
  | (_, true) => none
  | (next_timeout, false) => some (toInt (clampTimeout^[k + 1] next_timeout))

def timeToNext (s : TimerManager.State) (now : Nat) : Option Nat := (s.timers.map fun a => s.next a - now).min?

def boundedTimeout (s : TimerManager.State) (now : Nat) : Nat := (timeToNext s now).elim MAX_TIMEOUT (min MAX_TIMEOUT)

/-- The distances that survive the conversions to `int`. -/
def Convertible (d : Nat) : Prop :=
  d ≤ MAX_TIMEOUT ∨ d = modulus - 1 ∨ (MAX_TIMEOUT ≤ d % 2 ^ 32 ∧ d % 2 ^ 32 < 2 ^ 31)

theorem clampTimeout_idem (d : Nat) : clampTimeout (clampTimeout d) = clampTimeout d := by
  have hmax : clampTimeout MAX_TIMEOUT = MAX_TIMEOUT := by decide
  by_cases hd : d ≠ modulus - 1
  · by_cases hgt : (MAX_TIMEOUT : Int) < toInt d
    · have hc : clampTimeout d = MAX_TIMEOUT := by simp [clampTimeout, hd, hgt]
      rw [hc, hmax]
    · have hc : clampTimeout d = d := by simp [clampTimeout, hd, hgt]
      rw [hc, hc]
  · have hc : clampTimeout d = MAX_TIMEOUT := by simp [clampTimeout, hd]
    rw [hc, hmax]

theorem clampTimeout_iterate (d k : Nat) : clampTimeout^[k + 1] d = clampTimeout d := by
  induction k with
  | zero => rfl
  | succ k ih => rw [Function.iterate_succ_apply', ih, clampTimeout_idem]

theorem toInt_clampTimeout (d : Nat) : toInt (clampTimeout d) = (min MAX_TIMEOUT d : Nat) ↔ Convertible d := by
  have hmax : toInt MAX_TIMEOUT = (MAX_TIMEOUT : Nat) := toInt_of_lt (by decide)
  unfold Convertible
  by_cases hd : d ≠ modulus - 1
  · by_cases hgt : (MAX_TIMEOUT : Int) < toInt d
    · have hc : clampTimeout d = MAX_TIMEOUT := by simp [clampTimeout, hd, hgt]
      rw [hc, hmax]
      rw [toInt_eq_mod] at hgt
      unfold MAX_TIMEOUT at *
      split at hgt <;> omega
    · have hc : clampTimeout d = d := by simp [clampTimeout, hd, hgt]
      rw [hc]
      rw [toInt_eq_mod] at hgt ⊢
      unfold MAX_TIMEOUT modulus at *
      split at hgt <;> omega
  · have hc : clampTimeout d = MAX_TIMEOUT := by simp [clampTimeout, hd]
    rw [hc, hmax]
    unfold MAX_TIMEOUT modulus at *
    omega

theorem timeToNext_cons {s : TimerManager.State} (h : WellFormed s) {a : Nat} {l : List Nat} (hs : s.timers = a :: l)
    (now : Nat) : timeToNext s now = some (s.next a - now) := by
  refine List.min?_eq_some_iff.mpr ⟨List.mem_map.mpr ⟨a, by simp [hs], rfl⟩, ?_⟩
  intro d hd
  obtain ⟨b, hb, rfl⟩ := List.mem_map.mp hd
  exact Nat.sub_le_sub_right (h.head_le hs b hb) now

theorem getTimeOfNextTimer_eq {s : TimerManager.State} (h : WellFormed s) (now : Nat) :
    (getTimeOfNextTimer s now).2 = (timeToNext s now).getD (modulus - 1) := by
  cases hs : s.timers with
  | nil => simp [getTimeOfNextTimer, timeToNext, hs]
  | cons a l =>
    rw [timeToNext_cons h hs]
    simp only [getTimeOfNextTimer, hs, Option.getD_some]
    split <;> omega

theorem epollTimeout_eq {s : TimerManager.State} (h : WellFormed s) (now pendingEventCount : Nat)
    (schedulerStopping : Bool)
    (k : Nat) : epollTimeout s now pendingEventCount schedulerStopping k =
      if (timeToNext s now).getD (modulus - 1) = modulus - 1 ∧ pendingEventCount = 0 ∧ schedulerStopping = true then
        none
      else some (toInt (clampTimeout ((timeToNext s now).getD (modulus - 1)))) := by
  simp only [epollTimeout, stopping, getTimeOfNextTimer_eq h, clampTimeout_iterate]
  split <;> rename_i heq <;> obtain ⟨rfl, hb⟩ := Prod.mk.inj heq
  · rw [if_pos (of_decide_eq_true hb)]
  · rw [if_neg (of_decide_eq_false hb)]

/-- Every wait is bounded by the next timer exactly when the conversions keep the distance to it. -/
theorem epollTimeout_iff {s : TimerManager.State} (h : Reachable Empty operate s) (now pendingEventCount : Nat)
    (schedulerStopping : Bool) :
    (∀ k r, epollTimeout s now pendingEventCount schedulerStopping k = some r →
      r = boundedTimeout s now ∧ 0 ≤ r ∧ r ≤ 3000) ↔
    ∀ d, timeToNext s now = some d → Convertible d := by
  obtain ⟨hw, -⟩ := invariant_of_run h
  have hle : boundedTimeout s now ≤ 3000 := by
    unfold boundedTimeout
    cases timeToNext s now with
    | none => exact Nat.le_refl _
    | some d => exact Nat.min_le_left _ _
  refine ⟨fun hall d hd => ?_, fun hconv k r hr => ?_⟩
  · by_contra hbad
    have hne : d ≠ modulus - 1 := fun he => hbad (.inr (.inl he))
    have heq := epollTimeout_eq hw now pendingEventCount schedulerStopping 0
    rw [hd, Option.getD_some, if_neg fun hs => hne hs.1] at heq
    refine hbad ((toInt_clampTimeout d).mp ?_)
    simpa only [boundedTimeout, hd, Option.elim_some] using (hall 0 _ heq).1
  · have hrb : r = boundedTimeout s now := by
      rw [epollTimeout_eq hw] at hr
      split at hr
      · simp at hr
      · obtain rfl := Option.some.inj hr
        unfold boundedTimeout
        cases hd : timeToNext s now with
        | none => exact toInt_of_lt (by decide)
        | some d => exact (toInt_clampTimeout d).mpr (hconv d hd)
    omega

def oneTimer (ms now : Nat) : TimerManager.State :=
  (addTimer (TimerManager.State.set ⟨fun _ => none, [], false, now⟩ 8 (newTimer ms (some 1) false now)) 8).1

theorem oneTimer_reachable (ms now : Nat) : Reachable Empty operate (oneTimer ms now) := by
  have hop : operate ⟨fun _ => none, [], false, now⟩ (.addTimer 8 ms 1 false now) = some (oneTimer ms now) := rfl
  exact Run.next (.start ⟨rfl, rfl, rfl⟩) trivial hop

theorem oneTimer_timeToNext (ms now : Nat) : timeToNext (oneTimer ms now) now = some (addU64 now ms - now) := by
  rw [timeToNext_cons (invariant_of_run (oneTimer_reachable ms now)).1 rfl]
  simp [oneTimer, addTimer, TimerManager.State.next, newTimer]

theorem epollTimeout_hour :
    (∀ d, timeToNext (oneTimer 3600000 1700000000000) 1700000000000 = some d → Convertible d) ∧
    ∀ k r, epollTimeout (oneTimer 3600000 1700000000000) 1700000000000 0 false k = some r →
      r = boundedTimeout (oneTimer 3600000 1700000000000) 1700000000000 ∧ 0 ≤ r ∧ r ≤ 3000 := by
  have hconv : ∀ d, timeToNext (oneTimer 3600000 1700000000000) 1700000000000 = some d → Convertible d := by
    intro d hd
    rw [oneTimer_timeToNext] at hd
    cases hd
    exact .inr (.inr (by decide))
  exact ⟨hconv, (epollTimeout_iff (oneTimer_reachable _ _) _ _ _).mpr hconv⟩

/-- A timer of thirty days makes the wait infinite. -/
theorem epollTimeout_negative : Reachable Empty operate (oneTimer 2592000000 1700000000000) ∧
    boundedTimeout (oneTimer 2592000000 1700000000000) 1700000000000 = 3000 ∧
    ∀ k, epollTimeout (oneTimer 2592000000 1700000000000) 1700000000000 0 false k = some (-1702967296) := by
  have hw := (invariant_of_run (oneTimer_reachable 2592000000 1700000000000)).1
  refine ⟨oneTimer_reachable _ _, ?_, fun k => ?_⟩
  · rw [boundedTimeout, oneTimer_timeToNext]
    decide
  · rw [epollTimeout_eq hw, oneTimer_timeToNext]
    decide

end Windgent.IOManager
