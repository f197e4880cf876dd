import Windgent.IOManager.Accounting

namespace Windgent.IOManager

open Transition

def FdContext.Usable (c : FdContext) (e : Event) : Prop :=
  c.has e = true ∧ (c.getContext e).scheduler.isSome = true

instance (c : FdContext) (e : Event) : Decidable (c.Usable e) := inferInstanceAs (Decidable (_ ∧ _))

/-- What the trigger of `e` hands to `schedule`, if the report triggers it. -/
def wakes (c : FdContext) (report : BitVec 32) (e : Event) : List (Nat × Task) :=
  if c.has e && reported report e then
    match (c.getContext e).scheduler, (c.getContext e).takeTask.1 with
    | some sched, some task => [(sched, task)]
    | _, _ => []
  else []

def fires (c : FdContext) (report : BitVec 32) (e : Event) : Nat :=
  if c.has e && reported report e then 1 else 0

/-- The intended outcome of one report: exactly the events that are reported and
registered are triggered, everything else stays. -/
structure Dispatched (s : State) (fd : Nat) (report : BitVec 32) (t : State) : Prop where
  events : (t.table fd).events = maskOf (fun e => (s.table fd).has e && !reported report e)
  queued : t.queued = s.queued ++ wakes (s.table fd) report .read ++ wakes (s.table fd) report .write
  pending : t.pending = s.pending - (fires (s.table fd) report .read + fires (s.table fd) report .write : Nat)
  nonneg : 0 ≤ t.pending
  kept : ∀ e, reported report e = false → (t.table fd).getContext e = (s.table fd).getContext e
  watched : s.epoll fd = interest (s.table fd).events → t.epoll fd = interest (t.table fd).events
  frame : ∀ i, i ≠ fd → t.table i = s.table i ∧ t.epoll i = s.epoll i

def DispatchMeets (s : State) (fd : Nat) (report : BitVec 32) (ctl : Bool) : Prop :=
  ∃ t, dispatch s fd report ctl = some t ∧ Dispatched s fd report t

theorem trigger_usable {s t : State} {fd : Nat} {e : Event} {how : Consumer}
    (h : s.trigger fd e how = some t) : (s.table fd).Usable e := by
  by_contra hn
  rw [trigger_none how] at h
  · simp at h
  · rcases Bool.eq_false_or_eq_true ((s.table fd).has e) with he | he
    · exact .inr (by simpa [FdContext.Usable, he] using hn)
    · exact .inl he

theorem triggerIf_usable {s t : State} {m : BitVec 32} {fd : Nat} {e : Event} {how : Consumer}
    (h : s.triggerIf m fd e how = some t) (hm : m &&& e.mask ≠ 0) : (s.table fd).Usable e := by
  unfold State.triggerIf at h
  rw [if_neg hm] at h
  exact trigger_usable h

theorem nothing_fires {s : State} (h : Sound s) {fd : Nat} {report : BitVec 32}
    (hn : ∀ e, ((s.table fd).has e && reported report e) = false) : Dispatched s fd report s := by
  refine ⟨?_, ?_, ?_, ?_, fun _ _ => rfl, id, fun _ _ => ⟨rfl, rfl⟩⟩
  · rw [(h.ok fd).mask]
    congr 1
    funext e
    have he := hn e
    cases hh : (s.table fd).has e <;> cases hr : reported report e <;> simp_all
  · simp [wakes, hn]
  · simp [fires, hn]
  · have ht := h.total_le
    omega

structure Fired (s : State) (fd : Nat) (report : BitVec 32) (e : Event) (t : State) : Prop where
  sound : Sound t
  has : ∀ d, (t.table fd).has d = ((s.table fd).has d && !(decide (d = e) && reported report e))
  context : ∀ d, d ≠ e ∨ reported report e = false →
    (t.table fd).getContext d = (s.table fd).getContext d
  queued : t.queued = s.queued ++ wakes (s.table fd) report e
  pending : t.pending = s.pending - (fires (s.table fd) report e : Nat)
  epoll : t.epoll = s.epoll
  table : ∀ i, i ≠ fd → t.table i = s.table i

theorem fired_of_usable {s : State} (h : Sound s) {fd : Nat} {report : BitVec 32} {e : Event}
    (hu : reported report e = true → (s.table fd).Usable e) :
    ∃ t, s.triggerIf (realEvent report) fd e .dispatch = some t ∧ Fired s fd report e t := by
  have hbit := realEvent_bit report e
  rcases triggerIf_spec h (m := realEvent report) (e := e)
    (fun hz => hu (hbit ▸ bne_iff_ne.mpr hz)) .dispatch with ⟨hz, ht⟩ | ⟨hz, sched, task, hs, htask, ht⟩
  · have hr : reported report e = false := by rw [← hbit, hz]; rfl
    exact ⟨s, ht, h, by simp [hr], fun _ _ => rfl, by simp [wakes, hr], by simp [fires, hr], rfl,
      fun _ _ => rfl⟩
  · have hr : reported report e = true := by rw [← hbit]; exact bne_iff_ne.mpr hz
    have he := (hu hr).1
    refine ⟨_, ht, h.release he _ _, ?_, ?_, ?_, ?_, by simp, fun i hi => by simp [hi]⟩
    · intro d
      by_cases hd : d = e <;> simp [hd, hr]
    · intro d hd
      have hne : d ≠ e := by simpa [hr] using hd
      simp [hne]
    · simp [wakes, he, hr, hs, htask]
    · simp [fires, he, hr]

theorem Fired.other {s t : State} {fd : Nat} {report : BitVec 32} {e d : Event}
    (h : Fired s fd report e t) (hd : d ≠ e) : ((t.table fd).Usable d ↔ (s.table fd).Usable d) ∧
      wakes (t.table fd) report d = wakes (s.table fd) report d ∧
      fires (t.table fd) report d = fires (s.table fd) report d := by
  have hh : (t.table fd).has d = (s.table fd).has d := by simp [h.has, hd]
  have hc := h.context d (.inl hd)
  simp only [FdContext.Usable, wakes, fires, hh, hc, and_self]

theorem dispatched_of_fired {s u t : State} {fd : Nat} {report : BitVec 32} {m : BitVec 32}
    (hm : m = (s.table fd).events &&& ~~~realEvent report) (hs : Sound s)
    (hu : Fired (s.setEpoll fd m) fd report .read u) (ht : Fired u fd report .write t) :
    Dispatched s fd report t := by
  obtain ⟨-, hw, hf⟩ := hu.other (d := .write) (by simp)
  have hhas : (t.table fd).has = fun e => (s.table fd).has e && !reported report e := by
    funext d
    rw [ht.has, hu.has]
    cases d <;> simp
  have hevents : (t.table fd).events = m := by
    rw [(ht.sound.ok fd).mask, hhas, hm, (hs.ok fd).mask, realEvent_eq, maskOf_diff]
  refine ⟨?_, ?_, ?_, ?_, ?_, ?_, ?_⟩
  · rw [(ht.sound.ok fd).mask, hhas]
  · rw [ht.queued, hu.queued, hw]
    rfl
  · rw [ht.pending, hu.pending, hf]
    rw [setEpoll_table]
    change s.pending - _ - _ = _
    omega
  · have hl := ht.sound.total_le
    omega
  · intro e he
    cases e with
    | read => rw [ht.context .read (.inl (by simp)), hu.context .read (.inr he)]; rfl
    | write => rw [ht.context .write (.inr he), hu.context .write (.inl (by simp))]; rfl
  · intro _
    rw [ht.epoll, hu.epoll, hevents]
    simp [State.setEpoll]
  · intro i hi
    rw [ht.table i hi, hu.table i hi, ht.epoll, hu.epoll]
    simp [State.setEpoll, hi]

theorem both_bit {c : FdContext} (h : c.Ok) (report : BitVec 32) :
    c.events &&& realEvent report = 0 ↔ ∀ e, (c.has e && reported report e) = false := by
  rw [realEvent_eq]
  nth_rewrite 1 [h.mask]
  rw [maskOf_and, maskOf_eq_zero]

theorem dispatch_usable {s t : State} (h : Sound s) {fd : Nat} {report : BitVec 32}
    (ht : dispatch s fd report true = some t) (hb : (s.table fd).events &&& realEvent report ≠ 0)
    (e : Event) (he : reported report e = true) : (s.table fd).Usable e := by
  simp only [dispatch, hb, if_false, if_true, Option.bind_eq_bind, Option.bind_eq_some_iff] at ht
  obtain ⟨u, hu, hv⟩ := ht
  have hbit : ∀ d, reported report d = true → realEvent report &&& d.mask ≠ 0 :=
    fun d hd => bne_iff_ne.mp ((realEvent_bit report d).trans hd)
  have hread : reported report .read = true → (s.table fd).Usable .read := by
    intro hd
    have hr := triggerIf_usable hu (hbit _ hd)
    rwa [setEpoll_table] at hr
  cases e with
  | read => exact hread he
  | write =>
    have hw := triggerIf_usable hv (hbit _ he)
    obtain ⟨u', hu', hf⟩ := fired_of_usable (h.setEpoll fd ((s.table fd).events &&& ~~~realEvent report)) hread
    rw [hu, Option.some.injEq] at hu'
    subst hu'
    exact (hf.other (by simp)).1.mp hw

/-- Dispatch does what it is for in exactly these cases: the report concerns no
registered event, or `epoll_ctl` succeeds and every direction that the report
stands for is registered with a scheduler. -/
theorem dispatch_meets_iff {s : State} (h : Reachable (· = init) step s) (fd : Nat)
    (report : BitVec 32) (ctl : Bool) :
    DispatchMeets s fd report ctl ↔
      (∀ e, ¬ ((s.table fd).has e = true ∧ reported report e = true)) ∨
        (ctl = true ∧ ∀ e, reported report e = true → (s.table fd).has e = true ∧
          ((s.table fd).getContext e).scheduler.isSome = true) := by
  have hs : Sound s := Reachable.invariant (fun s h => h ▸ init_sound) (fun s op t hi ht => hi.step ht) h
  have hnone : (∀ e, ¬ ((s.table fd).has e = true ∧ reported report e = true)) ↔
      (s.table fd).events &&& realEvent report = 0 := by
    rw [both_bit (hs.ok fd)]
    simp only [Bool.and_eq_false_iff, not_and, Bool.not_eq_true]
    refine forall_congr' (fun e => ?_)
    cases (s.table fd).has e <;> simp
  rw [hnone]
  by_cases hb : (s.table fd).events &&& realEvent report = 0
  · refine ⟨fun _ => .inl hb, fun _ => ⟨s, by simp only [dispatch, hb, if_true], ?_⟩⟩
    exact nothing_fires hs ((both_bit (hs.ok fd) report).mp hb)
  · constructor
    · rintro ⟨t, ht, hd⟩
      refine .inr ?_
      cases ctl with
      | true => exact ⟨rfl, dispatch_usable hs ht hb⟩
      | false =>
        simp only [dispatch, hb, if_false, Bool.false_eq_true, Option.some.injEq] at ht
        subst ht
        exfalso
        apply hb
        rw [hd.events, realEvent_eq, maskOf_and, maskOf_eq_zero]
        intro e
        cases reported report e <;> simp
    · rintro (hz | ⟨rfl, hall⟩)
      · exact absurd hz hb
      · obtain ⟨u, hu, hfu⟩ := fired_of_usable
          (hs.setEpoll fd ((s.table fd).events &&& ~~~realEvent report)) (hall .read)
        obtain ⟨v, hv, hfv⟩ := fired_of_usable hfu.sound
          (fun he => (hfu.other (d := .write) (by simp)).1.mpr (hall .write he))
        refine ⟨v, ?_, dispatched_of_fired rfl hs hfu hfv⟩
        simp only [dispatch, hb, if_false, if_true, hu]
        exact hv

theorem dispatch_meets_read_event : ∃ s, Reachable (· = init) step s ∧ s.pending = 2 ∧
    DispatchMeets s 40 Event.read.mask true := by
  have h : (exec (guarded step (fun _ _ => True)) init
      [.addEvent 40 .read none ⟨some 7, 3, true⟩ true,
        .addEvent 40 .write (some 5) ⟨some 7, 4, true⟩ true]).map
        (fun s => (s.pending, s.table 40)) =
      some (2, ⟨⟨some 7, some 3, none⟩, ⟨some 7, none, some 5⟩, 0x5⟩) := by
    decide +kernel
  obtain ⟨s, hs, he⟩ := Option.map_eq_some_iff.mp h
  obtain ⟨hp, ht⟩ := Prod.mk.inj he
  have hrun : Reachable (· = init) step s := Run.exec (.start rfl) _ hs
  refine ⟨s, hrun, hp, (dispatch_meets_iff hrun 40 Event.read.mask true).mpr (.inr ⟨rfl, ?_⟩)⟩
  intro e he
  rw [ht]
  cases e <;> decide +revert

/-- A refused connection reports an error to a fiber that waits for `WRITE`
only: the assertion of `triggerEvent(READ)` fails. -/
theorem dispatch_fails_on_error_report : ∃ s, Reachable (· = init) step s ∧
    (s.table 40).has .write = true ∧ dispatch s 40 (EPOLLERR ||| EPOLLHUP) true = none ∧
    ¬ DispatchMeets s 40 (EPOLLERR ||| EPOLLHUP) true := by
  have h : (exec (guarded step (fun _ _ => True)) init
      [.addEvent 40 .write none ⟨some 7, 3, true⟩ true]).map
        (fun s => ((s.table 40).has .write, (dispatch s 40 (EPOLLERR ||| EPOLLHUP) true).isSome)) =
      some (true, false) := by
    decide +kernel
  obtain ⟨s, hs, he⟩ := Option.map_eq_some_iff.mp h
  obtain ⟨hw, hd⟩ := Prod.mk.inj he
  have hn : dispatch s 40 (EPOLLERR ||| EPOLLHUP) true = none := by simpa using hd
  refine ⟨s, Run.exec (.start rfl) _ hs, hw, hn, ?_⟩
  rintro ⟨t, ht, -⟩
  simp [hn] at ht

end Windgent.IOManager
