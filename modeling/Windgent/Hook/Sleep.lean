import Windgent.TimerManager.Pending
import Windgent.TimerManager.Expiry

namespace Windgent.Hook.Sleep

open MachineInt TimerManager Transition

/-- The calls of the hooked functions. -/
inductive Request where
  | sleep (seconds : Nat)
  | usleep (usec : Nat)
  | nanosleep (tv_sec tv_nsec : Nat)
deriving DecidableEq

def Request.Valid : Request → Prop
  | .sleep seconds => seconds < 2 ^ 32
  | .usleep usec => usec < 2 ^ 32
  | .nanosleep tv_sec tv_nsec => tv_sec < 2 ^ 63 ∧ tv_nsec < 2 ^ 63

instance : DecidablePred Request.Valid
  | .sleep _ => inferInstanceAs (Decidable (_ < _))
  | .usleep _ => inferInstanceAs (Decidable (_ < _))
  | .nanosleep _ _ => inferInstanceAs (Decidable (_ ∧ _))

/-- The interval that is passed to `addTimer`. -/
def Request.timeout_ms : Request → Nat
  | .sleep seconds => seconds * 1000 % 2 ^ 32
  | .usleep usec => usec / 1000
  | .nanosleep tv_sec tv_nsec => toUInt64 (toInt (tv_sec * 1000 + tv_nsec / 1000 / 1000))

def Request.nanoseconds : Request → Nat
  | .sleep seconds => seconds * 10 ^ 9
  | .usleep usec => usec * 10 ^ 3
  | .nanosleep tv_sec tv_nsec => tv_sec * 10 ^ 9 + tv_nsec

def Request.Exact : Request → Prop
  | .sleep seconds => seconds * 1000 < 2 ^ 32
  | .usleep usec => 1000 ∣ usec
  | .nanosleep tv_sec tv_nsec => 10 ^ 6 ∣ tv_nsec ∧ tv_sec * 1000 + tv_nsec / 10 ^ 6 < 2 ^ 31

instance : DecidablePred Request.Exact
  | .sleep _ => inferInstanceAs (Decidable (_ < _))
  | .usleep usec => inferInstanceAs (Decidable (1000 ∣ usec))
  | .nanosleep _ tv_nsec => inferInstanceAs (Decidable (10 ^ 6 ∣ tv_nsec ∧ _ < _))

theorem timeout_of_exact {r : Request} (h : r.Exact) : r.timeout_ms * 10 ^ 6 = r.nanoseconds := by
  cases r with
  | sleep seconds =>
    simp only [Request.Exact] at h
    simp only [Request.timeout_ms, Request.nanoseconds, Nat.mod_eq_of_lt h]
    ring
  | usleep usec =>
    obtain ⟨ms, rfl⟩ := h
    simp only [Request.timeout_ms, Request.nanoseconds]
    omega
  | nanosleep tv_sec tv_nsec =>
    obtain ⟨⟨ms, rfl⟩, hlt⟩ := h
    have hms : 10 ^ 6 * ms / 1000 / 1000 = ms := by omega
    have hlt' : tv_sec * 1000 + ms < 2 ^ 31 := by omega
    simp only [Request.timeout_ms, Request.nanoseconds, hms]
    rw [toInt_of_lt hlt', toUInt64_of_nonneg ⟨by omega, by exact_mod_cast hlt'⟩ (by omega)]
    simp only [Int.toNat_natCast]
    ring

structure Sleeper where
  timer : Nat
  request : Request
  called : Nat
deriving DecidableEq

/-- `woken` holds the fibers whose timers were expired, with the clock at that time. -/
structure System where
  manager : State
  clock : Nat
  sleeping : List Sleeper
  woken : List (Sleeper × Nat)

/-- Clock readings are made before the locked sections. -/
inductive Action where
  | tick
  | sleep (timer : Nat) (request : Request) (cb called now : Nat)
  | operate (op : Operation)
  | listExpiredCbs (now tmp : Nat)

/-- The pointer to the timer of a sleeping fiber is not kept, so that other code does not
operate on it. -/
def Foreign (sleeping : List Sleeper) : Operation → Prop
  | .addTimer .. => True
  | .cancel a => ∀ x ∈ sleeping, x.timer ≠ a
  | .refresh a _ => ∀ x ∈ sleeping, x.timer ≠ a
  | .reset a _ _ _ => ∀ x ∈ sleeping, x.timer ≠ a
  | .getTimeOfNextTimer _ => True
  | .listExpiredCbs .. => False

instance (sleeping : List Sleeper) : DecidablePred (Foreign sleeping)
  | .addTimer .. => isTrue trivial
  | .cancel _ => inferInstanceAs (Decidable (∀ x ∈ sleeping, _))
  | .refresh _ _ => inferInstanceAs (Decidable (∀ x ∈ sleeping, _))
  | .reset _ _ _ _ => inferInstanceAs (Decidable (∀ x ∈ sleeping, _))
  | .getTimeOfNextTimer _ => isTrue trivial
  | .listExpiredCbs .. => isFalse id

def step (s : System) : Action → Option System
  | .tick => some { s with clock := s.clock + 1 }
  | .sleep timer request cb called now =>
    if request.Valid ∧ called ≤ now ∧ now ≤ s.clock then
      (operate s.manager (.addTimer timer request.timeout_ms cb false now)).map fun m =>
        { s with manager := m, sleeping := ⟨timer, request, called⟩ :: s.sleeping }
    else none
  | .operate op =>
    if Foreign s.sleeping op then (operate s.manager op).map fun m => { s with manager := m } else none
  | .listExpiredCbs now tmp =>
    if now ≤ s.clock then
      (operate s.manager (.listExpiredCbs now tmp)).map fun m =>
        { s with
          manager := m
          sleeping := s.sleeping.filter fun x => x.timer ∉ expired s.manager now tmp
          woken := (s.sleeping.filter fun x => x.timer ∈ expired s.manager now tmp).map (·, s.clock) ++ s.woken }
    else none

def Init (s : System) : Prop := Empty s.manager ∧ s.sleeping = [] ∧ s.woken = []

def Sleeper.Elapsed (x : Sleeper) (clock : Nat) : Prop :=
  x.called * 10 ^ 6 + x.request.nanoseconds ≤ clock * 10 ^ 6

/-- Requests are converted exactly and end in the range of the clock, and
`detectClockRollover` does not take a reading for one of a clock that went back. -/
def Regular (s : System) : Action → Prop
  | .sleep _ request _ _ now => request.Exact ∧ now * 10 ^ 6 + request.nanoseconds < modulus * 10 ^ 6
  | .listExpiredCbs now _ => (detectClockRollover s.manager now).2 = false
  | _ => True

instance (s : System) : DecidablePred (Regular s)
  | .tick => isTrue trivial
  | .sleep .. => inferInstanceAs (Decidable (_ ∧ _))
  | .operate _ => isTrue trivial
  | .listExpiredCbs .. => inferInstanceAs (Decidable (_ = _))

/-- No timer of a sleeping fiber is due before the requested time has passed. -/
structure Inv (s : System) : Prop where
  wellFormed : WellFormed s.manager
  sleeping : ∀ x ∈ s.sleeping, ∃ t, s.manager.heap x.timer = some t ∧ x.Elapsed t.next
  woken : ∀ w ∈ s.woken, w.1.Elapsed w.2

theorem Sleeper.Elapsed.mono {x : Sleeper} {c d : Nat} (h : x.Elapsed c) (hcd : c ≤ d) : x.Elapsed d :=
  le_trans h (Nat.mul_le_mul_right _ hcd)

theorem operate_wellFormed {m m' : State} (h : WellFormed m) {op : Operation} (ho : operate m op = some m') :
    WellFormed m' := by
  rw [← applyWrites_writes ho]
  exact h.writes (h.safeWrites ho)

/-- Operations of other code leave the timers of sleeping fibers alone. -/
theorem operate_foreign {m m' : State} {sleeping : List Sleeper} {op : Operation} (hf : Foreign sleeping op)
    (ho : operate m op = some m') {x : Sleeper} (hx : x ∈ sleeping) (hs : m.heap x.timer ≠ none) :
    m'.heap x.timer = m.heap x.timer := by
  cases op with
  | addTimer a ms cb recur now =>
    simp only [operate] at ho
    split at ho
    · rename_i hfree
      cases ho
      have hne : x.timer ≠ a := fun he => hs (by rw [he, hfree])
      exact Function.update_of_ne hne _ _
    · cases ho
  | cancel a =>
    obtain ⟨⟨u, r⟩, hc, rfl⟩ := Option.map_eq_some_iff.mp ho
    obtain rfl | ⟨v, -, rfl⟩ := cancel_cases hc
    · rfl
    · exact withdraw_heap_of_ne _ (hf x hx)
  | refresh a now =>
    obtain ⟨⟨u, r⟩, hc, rfl⟩ := Option.map_eq_some_iff.mp ho
    obtain rfl | ⟨v, w, -, -, rfl, rfl⟩ := refresh_cases hc
    · rfl
    · exact withdraw_heap_of_ne _ (hf x hx)
  | reset a ms from_now now =>
    obtain ⟨⟨⟨u, n⟩, r⟩, hc, rfl⟩ := Option.map_eq_some_iff.mp ho
    obtain ⟨rfl, -⟩ | ⟨v, -, -, heq⟩ := reset_cases hc
    · rfl
    · rw [show u = (u, n).1 from rfl, heq]
      exact withdraw_heap_of_ne _ (hf x hx)
  | getTimeOfNextTimer now =>
    cases ho
    unfold getTimeOfNextTimer
    split <;> rfl
  | listExpiredCbs now tmp => exact hf.elim

theorem Inv.tick {s : System} (h : Inv s) : Inv { s with clock := s.clock + 1 } :=
  ⟨h.wellFormed, h.sleeping, h.woken⟩

theorem Inv.operate {s : System} (h : Inv s) {op : Operation} {m : State} (hf : Foreign s.sleeping op)
    (ho : TimerManager.operate s.manager op = some m) : Inv { s with manager := m } := by
  refine ⟨operate_wellFormed h.wellFormed ho, fun x hx => ?_, h.woken⟩
  obtain ⟨t, ht, hle⟩ := h.sleeping x hx
  exact ⟨t, (operate_foreign hf ho hx (by simp [ht])).trans ht, hle⟩

theorem Inv.sleep {s : System} (h : Inv s) {timer cb called now : Nat} {request : Request} {m : State}
    (hexact : request.Exact) (hend : now * 10 ^ 6 + request.nanoseconds < modulus * 10 ^ 6) (hcalled : called ≤ now)
    (ho : TimerManager.operate s.manager (.addTimer timer request.timeout_ms cb false now) = some m) :
    Inv { s with manager := m, sleeping := ⟨timer, request, called⟩ :: s.sleeping } := by
  have hconv := timeout_of_exact hexact
  have hforeign : Foreign s.sleeping (.addTimer timer request.timeout_ms cb false now) := trivial
  have hkeep := h.operate hforeign ho
  refine ⟨hkeep.wellFormed, fun x hx => ?_, h.woken⟩
  rcases List.mem_cons.mp hx with rfl | hx
  · simp only [TimerManager.operate] at ho
    split at ho
    · cases ho
      refine ⟨_, Function.update_self .., ?_⟩
      have hlt : now + request.timeout_ms < modulus := by
        rw [← hconv, ← Nat.add_mul] at hend
        exact Nat.lt_of_mul_lt_mul_right hend
      simp only [Sleeper.Elapsed, newTimer, addU64_of_lt hlt, Nat.add_mul, ← hconv]
      exact Nat.add_le_add_right (Nat.mul_le_mul_right _ hcalled) _
    · cases ho
  · exact hkeep.sleeping x hx

theorem Inv.listExpiredCbs {s : System} (h : Inv s) {now tmp : Nat} {m : State}
    (hr : (detectClockRollover s.manager now).2 = false) (hnow : now ≤ s.clock)
    (ho : TimerManager.operate s.manager (.listExpiredCbs now tmp) = some m) :
    Inv { s with
      manager := m
      sleeping := s.sleeping.filter fun x => x.timer ∉ expired s.manager now tmp
      woken := (s.sleeping.filter fun x => x.timer ∈ expired s.manager now tmp).map (·, s.clock) ++ s.woken } := by
  have hw := operate_wellFormed h.wellFormed ho
  simp only [TimerManager.operate] at ho
  split at ho
  · rename_i hfree
    cases ho
    have htmp : tmp ∉ s.manager.timers := fun hm => by simpa [hfree] using h.wellFormed.alive tmp hm
    refine ⟨hw, fun x hx => ?_, fun w hm => ?_⟩
    · obtain ⟨hx, hout⟩ := List.mem_filter.mp hx
      obtain ⟨t, ht, hle⟩ := h.sleeping x hx
      have hkeep := (listExpiredCbs_expired now h.wellFormed tmp).2.2 x.timer (of_decide_eq_true hout)
      exact ⟨t, hkeep.1.trans ht, hle⟩
    · rcases List.mem_append.mp hm with hm | hm
      · obtain ⟨x, hx, rfl⟩ := List.mem_map.mp hm
        obtain ⟨hx, hin⟩ := List.mem_filter.mp hx
        obtain ⟨t, ht, hle⟩ := h.sleeping x hx
        have hdue := of_decide_eq_true hin
        rw [expired_eq_filter now h.wellFormed htmp hr] at hdue
        have hnext : s.manager.next x.timer = t.next := by simp [State.next, ht]
        have hpast := of_decide_eq_true (List.mem_filter.mp hdue).2
        exact hle.mono (by omega)
      · exact h.woken w hm
  · cases ho

theorem inv_step {s t : System} {a : Action} (h : Inv s) (hok : Regular s a) (hs : step s a = some t) : Inv t := by
  cases a with
  | tick =>
    cases hs
    exact h.tick
  | sleep timer request cb called now =>
    simp only [step] at hs
    split at hs
    · rename_i hg
      obtain ⟨m, hm, rfl⟩ := Option.map_eq_some_iff.mp hs
      exact h.sleep hok.1 hok.2 hg.2.1 hm
    · cases hs
  | operate op =>
    simp only [step] at hs
    split at hs
    · rename_i hf
      obtain ⟨m, hm, rfl⟩ := Option.map_eq_some_iff.mp hs
      exact h.operate hf hm
    · cases hs
  | listExpiredCbs now tmp =>
    simp only [step] at hs
    split at hs
    · rename_i hnow
      obtain ⟨m, hm, rfl⟩ := Option.map_eq_some_iff.mp hs
      exact h.listExpiredCbs hok hnow hm
    · cases hs

/-- In every run of regular steps no fiber is woken before the time it asked for has passed. -/
theorem woken_elapsed {s : System} (h : Run Init step Regular s) : ∀ w ∈ s.woken, w.1.Elapsed w.2 := by
  have hinv : Inv s := by
    refine Run.invariant (I := Inv) ?_ (fun s a t hi hok hs => inv_step hi hok hs) h
    rintro s ⟨⟨-, htimers, -⟩, hsleeping, hwoken⟩
    refine ⟨⟨by simp [htimers], by simp [htimers]⟩, by simp [hsleeping], by simp [hwoken]⟩
  exact hinv.woken

theorem woken_elapsed_usleep : ∃ s, Run Init step Regular s ∧
    s.woken = [(⟨8, .usleep 2000, 1000⟩, 1002)] ∧ (Sleeper.mk 8 (.usleep 2000) 1000).Elapsed 1002 := by
  have h : (exec (guarded step Regular) ⟨⟨fun _ => none, [], false, 1000⟩, 1000, [], []⟩
      [.sleep 8 (.usleep 2000) 1 1000 1000, .tick, .listExpiredCbs 1001 9, .tick, .listExpiredCbs 1002 9]).map
      System.woken = some [(⟨8, .usleep 2000, 1000⟩, 1002)] := by
    decide +kernel
  obtain ⟨s, hs, he⟩ := Option.map_eq_some_iff.mp h
  have hrun : Run Init step Regular s := Run.exec (.start ⟨⟨rfl, rfl, rfl⟩, rfl, rfl⟩) _ hs
  exact ⟨s, hrun, he, woken_elapsed hrun (⟨8, .usleep 2000, 1000⟩, 1002) (by simp [he])⟩

/-- `usleep(1500)` ends after one millisecond. -/
theorem usleep_early : ∃ s, Reachable Init step s ∧
    s.woken = [(⟨8, .usleep 1500, 1000⟩, 1001)] ∧ ¬ (Sleeper.mk 8 (.usleep 1500) 1000).Elapsed 1001 := by
  have h : (exec (guarded step (fun _ _ => True)) ⟨⟨fun _ => none, [], false, 1000⟩, 1000, [], []⟩
      [.sleep 8 (.usleep 1500) 1 1000 1000, .tick, .listExpiredCbs 1001 9]).map
      System.woken = some [(⟨8, .usleep 1500, 1000⟩, 1001)] := by
    decide +kernel
  obtain ⟨s, hs, he⟩ := Option.map_eq_some_iff.mp h
  refine ⟨s, Run.exec (.start ⟨⟨rfl, rfl, rfl⟩, rfl, rfl⟩) _ hs, he, ?_⟩
  simp [Sleeper.Elapsed, Request.nanoseconds]

end Windgent.Hook.Sleep
