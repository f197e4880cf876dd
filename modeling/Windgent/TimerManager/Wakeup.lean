import Windgent.TimerManager.Order
import Windgent.Transition
import Mathlib.Order.WithBot

namespace Windgent.TimerManager

open MachineInt OrderedSet Transition

/-- Where the waiting worker is in the loop of `IOManager::idle`: before
`getTimeOfNextTimer`, in `epoll_wait` with a deadline, and before the two
locked sections of `listExpiredCbs` with its clock reading. -/
inductive Worker where
  | computing
  | waiting (deadline : WithTop Nat)
  | checking (now : Nat)
  | listing (now : Nat)
deriving DecidableEq

/-- `made` are the timers between their construction and the locked section of
`addTimer`; `called` says whether `onTimerInsertedAtFront` has been called
since the worker's last `getTimeOfNextTimer`. -/
structure System where
  manager : State
  clock : Nat
  worker : Worker
  called : Bool
  made : List Nat

inductive Action where
  | tick (d : Nat)
  | construct (a ms : Nat) (cb : Option Nat) (recur : Bool)
  | addTimer (a : Nat)
  | cancel (a : Nat)
  | refresh (a : Nat)
  | reset (a ms : Nat) (from_now : Bool)
  | getTimeOfNextTimer
  | wake
  | check
  | listExpiredCbs (tmp : Nat)

def deadline (s : State) (now : Nat) : WithTop Nat :=
  if s.timers = [] then ⊤ else ((now + (getTimeOfNextTimer s now).2 : Nat) : WithTop Nat)

/-- One locked section, together with the call of `onTimerInsertedAtFront` that
follows it. A timer is known to other threads once `addTimer` has returned. -/
def step (s : System) : Action → Option System
  | .tick d => if s.clock + d < modulus then some { s with clock := s.clock + d } else none
  | .construct a ms cb recur =>
    if s.manager.heap a = none ∧ ms < modulus then
      some { s with manager := s.manager.set a (newTimer ms cb recur s.clock), made := a :: s.made }
    else none
  | .addTimer a =>
    if a ∈ s.made then
      let p := addTimer s.manager a
      some { s with manager := p.1, called := s.called || p.2, made := s.made.filter (· ≠ a) }
    else none
  | .cancel a =>
    if a ∈ s.made then none
    else (cancel s.manager a).map fun p => { s with manager := p.1 }
  | .refresh a =>
    if a ∈ s.made then none
    else (refresh s.manager a s.clock).map fun p => { s with manager := p.1 }
  | .reset a ms from_now =>
    if a ∈ s.made ∨ modulus ≤ ms then none
    else (reset s.manager a ms from_now s.clock).map fun p =>
      { s with manager := p.1.1, called := s.called || p.1.2 }
  | .getTimeOfNextTimer =>
    if s.worker = .computing then
      some { s with
        manager := (getTimeOfNextTimer s.manager s.clock).1
        worker := .waiting (deadline s.manager s.clock)
        called := false }
    else none
  | .wake =>
    match s.worker with
    | .waiting _ => some { s with worker := .checking s.clock }
    | _ => none
  | .check =>
    match s.worker with
    | .checking now =>
      some { s with worker := if s.manager.timers = [] then .computing else .listing now }
    | _ => none
  | .listExpiredCbs tmp =>
    match s.worker with
    | .listing now =>
      if s.manager.heap tmp = none then
        some { s with manager := (listExpiredCbs s.manager now tmp).1, worker := .computing }
      else none
    | _ => none

def Init (s : System) : Prop :=
  s.manager.heap = (fun _ => none) ∧ s.manager.timers = [] ∧ s.manager.tickled = false ∧
    s.manager.previouseTime = s.clock ∧ s.clock < modulus ∧ s.worker = .computing ∧
    s.called = false ∧ s.made = []

/-- A worker that is blocked past the earliest timer has been notified. -/
def NoLostWakeup (s : System) : Prop :=
  ∀ d, s.worker = .waiting d → (s.clock : WithTop Nat) < d →
    (∃ a ∈ s.manager.timers, (s.manager.next a : WithTop Nat) < d) → s.called = true

def Timed (s : State) (clock : Nat) : Prop :=
  ∀ a t, s.heap a = some t → ∃ t0, t0 ≤ clock ∧ t.next = addU64 t0 t.ms

theorem Timed.mono {s : State} {c d : Nat} (h : Timed s c) (hcd : c ≤ d) : Timed s d := by
  intro a t ht
  obtain ⟨t0, h0, hn⟩ := h a t ht
  exact ⟨t0, Nat.le_trans h0 hcd, hn⟩

theorem Timed.set {s : State} {clock : Nat} (h : Timed s clock) (a : Nat) {t : Timer}
    (ht : ∃ t0, t0 ≤ clock ∧ t.next = addU64 t0 t.ms) : Timed (s.set a t) clock := by
  intro b u hu
  by_cases hb : b = a
  · subst hb
    have htu : t = u := by simpa using hu
    exact htu ▸ ht
  · exact h b u (by simpa [hb] using hu)

theorem Timed.requeue {s : State} {clock now : Nat} (h : Timed s clock) (hn : now ≤ clock)
    (expired : List Nat) : Timed (requeue now expired s) clock := by
  induction expired generalizing s with
  | nil => exact h
  | cons a expired ih =>
    simp only [TimerManager.requeue]
    split
    · exact ih h
    · rename_i t ht
      split
      · exact ih (s := { s.set a { t with next := addU64 now t.ms } with timers := _ })
          (h.set a ⟨now, hn, rfl⟩)
      · exact ih (h.set a (h a t ht))

/-- The start time that `reset` recovers is the clock reading that made `m_next`. -/
theorem subU64_addU64 {t0 ms : Nat} (h0 : t0 < modulus) : subU64 (addU64 t0 ms) ms = t0 := by
  unfold subU64 addU64 modulus at *
  omega

/-- The worker waits safely: a set flag means it was notified, and while it was
not notified no timer is due before its deadline. -/
structure Quiet (s : State) (clock : Nat) (called : Bool) (d : WithTop Nat) : Prop where
  tickled : s.tickled = true → called = true
  later : called = false → d ≤ clock ∨ ∀ a ∈ s.timers, d ≤ s.next a

theorem Quiet.tick {s : State} {clock k : Nat} {called : Bool} {d : WithTop Nat}
    (h : Quiet s clock called d) : Quiet s (clock + k) called d := by
  refine ⟨h.tickled, fun hc => (h.later hc).imp (fun hd => ?_) id⟩
  exact hd.trans (WithTop.coe_le_coe.mpr (Nat.le_add_right clock k))

theorem Quiet.withdraw {s : State} {clock : Nat} {called : Bool} {d : WithTop Nat}
    (h : Quiet s clock called d) (hw : WellFormed s) (a : Nat) (t : Timer) :
    Quiet (s.withdraw a t) clock called d := by
  refine ⟨h.tickled, fun hc => (h.later hc).imp id (fun hl b hb => ?_)⟩
  have hne : b ≠ a := fun he => hw.nodup.not_mem_erase (he ▸ hb)
  have hn : (s.withdraw a t).next b = s.next b := set_next_of_ne _ t hne
  rw [hn]
  exact hl b (List.mem_of_mem_erase hb)

theorem Quiet.addTimer {s : State} {clock : Nat} {called : Bool} {d : WithTop Nat}
    (h : Quiet s clock called d) (a : Nat) :
    Quiet (addTimer s a).1 clock (called || (addTimer s a).2) d := by
  by_cases hfront : (OrderedSet.insert (Comparator s.next) a s.timers).head? = some a ∧ s.tickled = false
  · have ht : (TimerManager.addTimer s a).2 = true := by simpa [TimerManager.addTimer] using hfront
    rw [ht, Bool.or_true]
    exact ⟨fun _ => rfl, fun hc => by simp at hc⟩
  · have hn : (TimerManager.addTimer s a).2 = false := by
      simpa [TimerManager.addTimer] using hfront
    have hflag : (TimerManager.addTimer s a).1.tickled = s.tickled := by
      simp [TimerManager.addTimer, hfront]
    rw [hn, Bool.or_false]
    refine ⟨fun ht => h.tickled (hflag ▸ ht), fun hc => (h.later hc).imp id (fun hl b hb => ?_)⟩
    have hflag' : s.tickled = false := by
      by_contra htrue
      have := h.tickled (by simpa using htrue)
      simp [this] at hc
    have hm : a ∈ OrderedSet.insert (Comparator s.next) a s.timers := mem_insert_self comparator_tri a s.timers
    obtain ⟨c, l, hcl⟩ := List.exists_cons_of_ne_nil (List.ne_nil_of_mem hm)
    have hca : c ≠ a := by
      rintro rfl
      exact hfront ⟨by rw [hcl]; rfl, hflag'⟩
    obtain ⟨hlt, hhead⟩ := head_insert comparator_tri (by rw [hcl]; rfl) hca
    have hdc : d ≤ s.next c := hl c (List.mem_of_head? hhead)
    rcases mem_of_mem_insert hb with rfl | hb
    · have hle : s.next c ≤ s.next b := comparator_le hlt
      exact hdc.trans (WithTop.coe_le_coe.mpr hle)
    · exact hl b hb

theorem Quiet.postpone {s : State} {clock : Nat} {called : Bool} {d : WithTop Nat}
    (h : Quiet s clock called d) {a : Nat} (ha : a ∈ s.timers) {t : Timer}
    (ht : s.next a ≤ t.next) : Quiet { s.withdraw a t with
      timers := OrderedSet.insert (Comparator (s.withdraw a t).next) a (s.withdraw a t).timers }
      clock called d := by
  refine ⟨h.tickled, fun hc => (h.later hc).imp id (fun hl b hb => ?_)⟩
  by_cases hba : b = a
  · subst hba
    have hn : (s.withdraw b t).next b = t.next := set_next_self _ b t
    change d ≤ (s.withdraw b t).next b
    rw [hn]
    exact (hl b ha).trans (WithTop.coe_le_coe.mpr ht)
  · have hn : (s.withdraw a t).next b = s.next b := set_next_of_ne _ t hba
    change d ≤ (s.withdraw a t).next b
    rw [hn]
    exact hl b (List.mem_of_mem_erase ((mem_of_mem_insert hb).resolve_left hba))

structure Inv (s : System) : Prop where
  wellFormed : WellFormed s.manager
  timed : Timed s.manager s.clock
  clock_lt : s.clock < modulus
  made : ∀ a ∈ s.made, (s.manager.heap a).isSome = true ∧ a ∉ s.manager.timers
  reading : ∀ now, s.worker = .checking now ∨ s.worker = .listing now → now ≤ s.clock
  quiet : ∀ d, s.worker = .waiting d → Quiet s.manager s.clock s.called d

theorem Inv.noLostWakeup {s : System} (h : Inv s) : NoLostWakeup s := by
  rintro d hd hclock ⟨a, ha, hlt⟩
  by_contra hc
  rcases (h.quiet d hd).later (by simpa using hc) with hle | hl
  · exact absurd hclock hle.not_gt
  · exact absurd hlt (hl a ha).not_gt

/-- The steps that keep the notification protocol: `getTimeOfNextTimer` does not
find an empty set with the flag still set, and a refreshed timer does not wrap. -/
def Safe (s : System) : Action → Prop
  | .getTimeOfNextTimer => ¬ (s.manager.timers = [] ∧ s.manager.tickled = true)
  | .refresh a => ∀ t, s.manager.heap a = some t → s.clock + t.ms < modulus
  | _ => True

theorem init_inv {s : System} (h : Init s) : Inv s := by
  obtain ⟨hheap, htimers, -, -, hclock, hworker, -, hmade⟩ := h
  refine ⟨⟨by simp [htimers], by simp [htimers]⟩, fun a t ht => by simp [hheap] at ht, hclock,
    by simp [hmade], by simp [hworker], by simp [hworker]⟩

theorem mem_addTimer {s : State} {a b : Nat} (h : b ∈ (addTimer s a).1.timers) :
    b = a ∨ b ∈ s.timers := mem_of_mem_insert h

theorem mem_withdraw {s : State} {a b : Nat} {t : Timer} (h : b ∈ (s.withdraw a t).timers) :
    b ∈ s.timers := List.mem_of_mem_erase h

theorem isSome_update {heap : Nat → Option Timer} {a b : Nat} (t : Timer)
    (h : (heap b).isSome = true) : (Function.update heap a (some t) b).isSome = true := by
  by_cases hb : b = a
  · simp [hb]
  · simpa [hb] using h

theorem Inv.construct {s t : System} (h : Inv s) {a ms : Nat} {cb : Option Nat} {recur : Bool}
    (ht : step s (.construct a ms cb recur) = some t) : Inv t := by
  simp only [step] at ht
  split at ht
  · rename_i hnone
    cases ht
    have ha : a ∉ s.manager.timers := by
      intro hm
      have := h.wellFormed.alive a hm
      simp [hnone.1] at this
    refine ⟨h.wellFormed.set ha _, h.timed.set a ⟨s.clock, Nat.le_refl _, rfl⟩, h.clock_lt, ?_,
      h.reading, fun d hd => ⟨(h.quiet d hd).tickled, fun hc => ?_⟩⟩
    · intro b hb
      rcases List.mem_cons.mp hb with rfl | hb
      · exact ⟨by simp, ha⟩
      · exact ⟨isSome_update _ (h.made b hb).1, (h.made b hb).2⟩
    · refine ((h.quiet d hd).later hc).imp id (fun hl b hb => ?_)
      have hne : b ≠ a := fun he => ha (he ▸ hb)
      rw [set_next_of_ne _ _ hne]
      exact hl b hb
  · simp at ht

theorem Inv.addTimer {s t : System} (h : Inv s) {a : Nat} (ht : step s (.addTimer a) = some t) :
    Inv t := by
  simp only [step] at ht
  split at ht
  · rename_i ha
    cases ht
    refine ⟨h.wellFormed.addTimer (h.made a ha).1, h.timed, h.clock_lt, ?_, h.reading,
      fun d hd => (h.quiet d hd).addTimer a⟩
    intro b hb
    obtain ⟨hb, hne⟩ : b ∈ s.made ∧ b ≠ a := by simpa using hb
    exact ⟨(h.made b hb).1, fun hm => (h.made b hb).2 ((mem_addTimer hm).resolve_left hne)⟩
  · simp at ht

/-- A section that rewrites one timer of the set, seen from the rest of the
system. -/
theorem Inv.rewritten {s : System} (h : Inv s) {m : State} {c : Bool} {a : Nat} (hw : WellFormed m)
    (ht : Timed m s.clock)
    (hheap : ∃ u', m.heap = Function.update s.manager.heap a (some u'))
    (hmem : ∀ b ∈ m.timers, b ∈ s.manager.timers)
    (hq : ∀ d, s.worker = .waiting d → Quiet m s.clock c d) :
    Inv { s with manager := m, called := c } := by
  obtain ⟨u', hheap⟩ := hheap
  refine ⟨hw, ht, h.clock_lt, fun b hb => ⟨?_, fun hm => (h.made b hb).2 (hmem b hm)⟩, h.reading, hq⟩
  rw [hheap]
  exact isSome_update _ (h.made b hb).1

theorem Inv.cancel {s t : System} (h : Inv s) {a : Nat} (ht : step s (.cancel a) = some t) :
    Inv t := by
  simp only [step] at ht
  split at ht
  · simp at ht
  · obtain ⟨⟨m, r⟩, hm, rfl⟩ := Option.map_eq_some_iff.mp ht
    obtain rfl | ⟨u, hu, rfl⟩ := cancel_cases hm
    · exact h
    · exact h.rewritten (h.wellFormed.withdraw a _) (h.timed.set a (h.timed a u hu)) ⟨_, rfl⟩
        (fun b hb => mem_withdraw hb) (fun d hd => (h.quiet d hd).withdraw h.wellFormed a _)

theorem Inv.refresh {s t : System} (h : Inv s) {a : Nat} (hsafe : Safe s (.refresh a))
    (ht : step s (.refresh a) = some t) : Inv t := by
  simp only [step] at ht
  split at ht
  · simp at ht
  · obtain ⟨⟨m, r⟩, hm, rfl⟩ := Option.map_eq_some_iff.mp ht
    have hw := h.wellFormed.refresh hm
    obtain rfl | ⟨u, v, hu, hmem, rfl, rfl⟩ := refresh_cases hm
    · exact h
    · have hlate : s.manager.next a ≤ addU64 s.clock u.ms := by
        obtain ⟨t0, h0, hn⟩ := h.timed a u hu
        have hfit := hsafe u hu
        have hnext : s.manager.next a = u.next := by simp [State.next, hu]
        rw [hnext, hn, addU64_of_lt hfit, addU64_of_lt (by omega)]
        omega
      refine h.rewritten hw (h.timed.set a ⟨s.clock, Nat.le_refl _, rfl⟩) ⟨_, rfl⟩ ?_
        (fun d hd => (h.quiet d hd).postpone hmem hlate)
      intro b hb
      rcases mem_of_mem_insert hb with rfl | hb
      · exact hmem
      · exact mem_withdraw hb

theorem Inv.reset {s t : System} (h : Inv s) {a ms : Nat} {from_now : Bool}
    (ht : step s (.reset a ms from_now) = some t) : Inv t := by
  simp only [step] at ht
  split at ht
  · simp at ht
  · obtain ⟨⟨⟨m, n⟩, r⟩, hm, rfl⟩ := Option.map_eq_some_iff.mp ht
    have hw := h.wellFormed.reset hm
    obtain ⟨rfl, rfl⟩ | ⟨u, hu, hmem, hadd⟩ := reset_cases hm
    · simpa using h
    · obtain ⟨rfl, rfl⟩ := Prod.mk.inj hadd
      refine h.rewritten hw ?_ ⟨_, rfl⟩ ?_
        (fun d hd => ((h.quiet d hd).withdraw h.wellFormed a _).addTimer a)
      · obtain ⟨t0, h0, hn⟩ := h.timed a u hu
        refine Timed.set h.timed a ?_
        cases from_now with
        | true => exact ⟨s.clock, Nat.le_refl _, rfl⟩
        | false =>
          refine ⟨t0, h0, ?_⟩
          simp only [Bool.false_eq_true, if_false]
          rw [hn, subU64_addU64 (Nat.lt_of_le_of_lt h0 h.clock_lt)]
      · intro b hb
        rcases mem_addTimer hb with rfl | hb
        · exact hmem
        · exact mem_withdraw hb

theorem deadline_quiet {s : State} (h : WellFormed s) {clock : Nat}
    (hs : ¬ (s.timers = [] ∧ s.tickled = true)) :
    Quiet (getTimeOfNextTimer s clock).1 clock false (deadline s clock) := by
  cases htim : s.timers with
  | nil =>
    have hflag : s.tickled = false := by simpa [htim] using hs
    have hg : (getTimeOfNextTimer s clock).1 = s := by simp [getTimeOfNextTimer, htim]
    rw [hg]
    exact ⟨by simp [hflag], fun _ => .inr (by simp [htim])⟩
  | cons a l =>
    have hg : getTimeOfNextTimer s clock =
        ({ s with tickled := false }, if s.next a ≤ clock then 0 else s.next a - clock) := by
      simp [getTimeOfNextTimer, htim]
    have hd : deadline s clock =
        ((clock + if s.next a ≤ clock then 0 else s.next a - clock : Nat) : WithTop Nat) := by
      rw [deadline, hg, if_neg (by rw [htim]; exact List.cons_ne_nil a l)]
    rw [hd, hg]
    refine ⟨by simp, fun _ => ?_⟩
    by_cases hdue : s.next a ≤ clock
    · exact .inl (by simp [hdue])
    · refine .inr (fun b hb => WithTop.coe_le_coe.mpr ?_)
      have hle := h.head_le htim b hb
      change clock + (if s.next a ≤ clock then 0 else s.next a - clock) ≤ s.next b
      rw [if_neg hdue]
      omega

theorem Inv.getTimeOfNextTimer {s t : System} (h : Inv s) (hsafe : Safe s .getTimeOfNextTimer)
    (ht : step s .getTimeOfNextTimer = some t) : Inv t := by
  simp only [step] at ht
  split at ht
  · cases ht
    have hheap : (TimerManager.getTimeOfNextTimer s.manager s.clock).1.heap = s.manager.heap := by
      unfold TimerManager.getTimeOfNextTimer
      split <;> rfl
    have htimers : (TimerManager.getTimeOfNextTimer s.manager s.clock).1.timers = s.manager.timers := by
      unfold TimerManager.getTimeOfNextTimer
      split <;> rfl
    refine ⟨h.wellFormed.getTimeOfNextTimer s.clock, ?_, h.clock_lt, ?_, by simp, ?_⟩
    · intro a u hu
      exact h.timed a u (hheap ▸ hu)
    · intro a ha
      rw [hheap, htimers]
      exact h.made a ha
    · intro d hd
      obtain rfl : deadline s.manager s.clock = d := by simpa using hd
      exact deadline_quiet h.wellFormed hsafe
  · simp at ht

theorem Timed.listExpiredCbs {s : State} {clock now : Nat} (h : Timed s clock) (hn : now ≤ clock)
    (tmp : Nat) : Timed (listExpiredCbs s now tmp).1 clock := by
  unfold TimerManager.listExpiredCbs
  split
  · exact h
  · dsimp only
    split
    · exact h
    · exact Timed.requeue (s := { (detectClockRollover s now).1 with timers := _ }) h hn _

theorem requeue_frame (now : Nat) (expired : List Nat) (s : State) :
    (∀ a, (s.heap a).isSome = true → ((requeue now expired s).heap a).isSome = true) ∧
      ∀ a ∈ (requeue now expired s).timers, a ∈ expired ∨ a ∈ s.timers := by
  induction expired generalizing s with
  | nil => exact ⟨fun _ h => h, fun _ h => .inr h⟩
  | cons b expired ih =>
    simp only [requeue]
    split
    · exact ⟨(ih s).1, fun a ha => ((ih s).2 a ha).imp (List.mem_cons_of_mem b) id⟩
    · rename_i t _
      split
      · refine ⟨fun a ha => (ih _).1 a (isSome_update _ ha), fun a ha => ?_⟩
        rcases (ih _).2 a ha with hm | hm
        · exact .inl (List.mem_cons_of_mem b hm)
        · rcases mem_of_mem_insert hm with rfl | hm
          · exact .inl List.mem_cons_self
          · exact .inr hm
      · exact ⟨fun a ha => (ih _).1 a (isSome_update _ ha),
          fun a ha => ((ih _).2 a ha).imp (List.mem_cons_of_mem b) id⟩

theorem listExpiredCbs_frame (s : State) (now tmp : Nat) :
    (∀ a, (s.heap a).isSome = true → ((listExpiredCbs s now tmp).1.heap a).isSome = true) ∧
      ∀ a ∈ (listExpiredCbs s now tmp).1.timers, a ∈ s.timers := by
  unfold listExpiredCbs
  split
  · exact ⟨fun _ h => h, fun _ h => h⟩
  · dsimp only
    split
    · exact ⟨fun _ h => h, fun _ h => h⟩
    · refine ⟨fun a ha => (requeue_frame now _ _).1 a ha, fun a ha => ?_⟩
      exact ((requeue_frame now _ _).2 a ha).elim List.mem_of_mem_take List.mem_of_mem_drop

theorem Inv.step {s t : System} (h : Inv s) {act : Action} (hsafe : Safe s act)
    (ht : step s act = some t) : Inv t := by
  cases act with
  | tick d =>
    simp only [TimerManager.step] at ht
    split at ht
    · cases ht
      exact ⟨h.wellFormed, h.timed.mono (Nat.le_add_right _ _), by assumption, h.made,
        fun now hn => Nat.le_trans (h.reading now hn) (Nat.le_add_right _ _),
        fun e he => (h.quiet e he).tick⟩
    · simp at ht
  | construct a ms cb recur => exact h.construct ht
  | addTimer a => exact h.addTimer ht
  | cancel a => exact h.cancel ht
  | refresh a => exact h.refresh hsafe ht
  | reset a ms from_now => exact h.reset ht
  | getTimeOfNextTimer => exact h.getTimeOfNextTimer hsafe ht
  | wake =>
    simp only [TimerManager.step] at ht
    split at ht
    · cases ht
      exact ⟨h.wellFormed, h.timed, h.clock_lt, h.made, by simp, by simp⟩
    · simp at ht
  | check =>
    simp only [TimerManager.step] at ht
    split at ht
    · rename_i now hwork
      cases ht
      refine ⟨h.wellFormed, h.timed, h.clock_lt, h.made, ?_, ?_⟩
      · intro now' hn
        by_cases hz : s.manager.timers = []
        · simp [hz] at hn
        · obtain rfl : now = now' := by simpa [hz] using hn
          exact h.reading now (.inl hwork)
      · intro d hd
        by_cases hz : s.manager.timers = [] <;> simp [hz] at hd
    · simp at ht
  | listExpiredCbs tmp =>
    simp only [TimerManager.step] at ht
    split at ht
    · rename_i now hwork
      split at ht
      · cases ht
        have hf := listExpiredCbs_frame s.manager now tmp
        refine ⟨h.wellFormed.listExpiredCbs now tmp, h.timed.listExpiredCbs (h.reading now (.inr hwork)) tmp,
          h.clock_lt, fun a ha => ⟨hf.1 a (h.made a ha).1, fun hm => (h.made a ha).2 (hf.2 a hm)⟩,
          by simp, by simp⟩
      · simp at ht
    · simp at ht

/-- No timer wake-up is lost in a run in which `getTimeOfNextTimer` never finds
an empty set with `m_tickled` set and no refreshed expiry time wraps. -/
theorem no_lost_wakeup_of_run {s : System} (h : Run Init step Safe s) : NoLostWakeup s :=
  (Run.invariant (fun _ h0 => init_inv h0) (fun _ _ _ hi hok hs => hi.step hok hs) h).noLostWakeup

def start : System := ⟨⟨fun _ => none, [], false, 1000⟩, 1000, .computing, false, []⟩

theorem start_init : Init start := ⟨rfl, rfl, rfl, rfl, by decide, rfl, rfl, rfl⟩

instance (s : System) (act : Action) : Decidable (Safe s act) :=
  match act with
  | .getTimeOfNextTimer => inferInstanceAs (Decidable (¬ (_ ∧ _)))
  | .refresh a =>
    match h : s.manager.heap a with
    | none => isTrue (fun t ht => by simp [h] at ht)
    | some t => decidable_of_iff (s.clock + t.ms < modulus)
        ⟨fun hlt u hu => by rw [h, Option.some.injEq] at hu; exact hu ▸ hlt, fun hall => hall t h⟩
  | .tick .. => isTrue trivial
  | .construct .. => isTrue trivial
  | .addTimer .. => isTrue trivial
  | .cancel .. => isTrue trivial
  | .reset .. => isTrue trivial
  | .wake => isTrue trivial
  | .check => isTrue trivial
  | .listExpiredCbs .. => isTrue trivial

theorem no_lost_wakeup_two_timers : ∃ s, Run Init step Safe s ∧ s.worker = .waiting (1500 : Nat) ∧
    s.manager.timers = [8, 7] ∧ s.called = true ∧ NoLostWakeup s := by
  have h : (exec (guarded step Safe) start
      [.construct 7 500 (some 1) false, .addTimer 7, .getTimeOfNextTimer, .construct 8 20 (some 2) true,
        .addTimer 8]).map (fun s => (s.worker, s.manager.timers, s.called)) =
      some (.waiting (1500 : Nat), [8, 7], true) := by
    decide +kernel
  obtain ⟨s, hs, he⟩ := Option.map_eq_some_iff.mp h
  simp only [Prod.mk.injEq] at he
  have hrun : Run Init step Safe s := Run.exec (.start start_init) _ hs
  exact ⟨s, hrun, he.1, he.2.1, he.2.2, no_lost_wakeup_of_run hrun⟩

/-- A cancelled first timer leaves `m_tickled` set, the empty set does not clear
it, and the next timer is then added without a notification. -/
theorem wakeup_lost_after_cancel : ∃ s, Reachable Init step s ∧ ¬ NoLostWakeup s := by
  have h : (exec (guarded step (fun _ _ => True)) start
      [.construct 7 500 (some 1) false, .addTimer 7, .cancel 7, .getTimeOfNextTimer,
        .construct 8 20 (some 2) false, .addTimer 8]).map
        (fun s => (s.worker, s.manager.timers, s.called)) = some (.waiting ⊤, [8], false) := by
    decide +kernel
  obtain ⟨s, hs, he⟩ := Option.map_eq_some_iff.mp h
  simp only [Prod.mk.injEq] at he
  refine ⟨s, Run.exec (.start start_init) _ hs, fun hn => ?_⟩
  have hc := hn ⊤ he.1 (WithTop.coe_lt_top _) ⟨8, by simp [he.2.1], WithTop.coe_lt_top _⟩
  simp [he.2.2] at hc

end Windgent.TimerManager
