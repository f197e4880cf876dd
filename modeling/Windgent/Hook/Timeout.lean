import Windgent.Hook.Basic
import Windgent.IOManager.Accounting
import Windgent.TimerManager.Order

namespace Windgent.Hook

open Transition

variable (c : Call)

/-- The fiber is registered for its event, and a cancellation finds it. -/
structure Watching (io : IOManager.State) : Prop where
  has : (io.table c.fd).has c.event = true
  context : (io.table c.fd).getContext c.event = ⟨some c.iom, some c.fiber, none⟩
  covers : io.covers c.fd = true

structure Keeps (io io' : IOManager.State) : Prop where
  wakes : wakes c io ≤ wakes c io'
  watching : Watching c io → Watching c io' ∨ Hook.wakes c io < Hook.wakes c io'

variable {c} {io io' io'' : IOManager.State} {fd : Nat} {e : IOManager.Event} {how : IOManager.Consumer}

theorem Keeps.refl : Keeps c io io := ⟨Nat.le_refl _, .inl⟩

theorem Keeps.trans (h : Keeps c io io') (h' : Keeps c io' io'') : Keeps c io io'' := by
  refine ⟨Nat.le_trans h.wakes h'.wakes, fun hw => ?_⟩
  obtain hw | hlt := h.watching hw
  · exact (h'.watching hw).imp id (Nat.lt_of_le_of_lt h.wakes)
  · exact .inr (Nat.lt_of_lt_of_le hlt h'.wakes)

theorem keeps_setEpoll (io : IOManager.State) (fd : Nat) (m : BitVec 32) : Keeps c io (io.setEpoll fd m) :=
  ⟨Nat.le_refl _, fun h => .inl ⟨h.has, h.context, h.covers⟩⟩

theorem wakes_release (io : IOManager.State) (fd : Nat) (e : IOManager.Event) (how : IOManager.Consumer)
    (out : List (Nat × IOManager.Task)) :
    wakes c (io.release fd e how out) = wakes c io + out.count (c.iom, .fiber c.fiber) := by
  rw [wakes, IOManager.release_queued, List.count_append, wakes]

theorem trigger_release (hs : IOManager.Sound io) (ht : io.trigger fd e how = some io') :
    ∃ sched task, ((io.table fd).getContext e).scheduler = some sched ∧
      ((io.table fd).getContext e).takeTask.1 = some task ∧ io' = io.release fd e how [(sched, task)] := by
  cases he : (io.table fd).has e with
  | false => simp [IOManager.trigger_none how (.inl he)] at ht
  | true =>
    cases hc : ((io.table fd).getContext e).scheduler with
    | none => simp [IOManager.trigger_none how (.inr hc)] at ht
    | some sched =>
      obtain ⟨task, htask, htr⟩ := IOManager.trigger_spec hs he hc how
      rw [htr, Option.some.injEq] at ht
      exact ⟨sched, task, rfl, htask, ht.symm⟩

theorem keeps_trigger (hs : IOManager.Sound io) (ht : io.trigger fd e how = some io') : Keeps c io io' := by
  obtain ⟨sched, task, hsched, htask, rfl⟩ := trigger_release hs ht
  refine ⟨by rw [wakes_release]; exact Nat.le_add_right _ _, fun hw => ?_⟩
  by_cases hown : c.fd = fd ∧ c.event = e
  · obtain ⟨rfl, rfl⟩ := hown
    rw [hw.context] at hsched htask
    obtain rfl : c.iom = sched := by simpa using hsched
    obtain rfl : .fiber c.fiber = task := by simpa [IOManager.EventContext.takeTask] using htask
    refine .inr ?_
    rw [wakes_release, List.count_singleton_self]
    exact Nat.lt_succ_self _
  · refine .inl ⟨?_, ?_, ?_⟩
    · rw [IOManager.release_table]
      by_cases hfd : c.fd = fd
      · have he : c.event ≠ e := fun he => hown ⟨hfd, he⟩
        simpa [hfd, he] using hfd ▸ hw.has
      · simpa [hfd] using hw.has
    · rw [IOManager.release_table]
      by_cases hfd : c.fd = fd
      · have he : c.event ≠ e := fun he => hown ⟨hfd, he⟩
        simpa [hfd, he] using hfd ▸ hw.context
      · simpa [hfd] using hw.context
    · have hcov := hw.covers
      rwa [IOManager.State.covers, ← IOManager.release_size io fd e how [(sched, task)]] at hcov

theorem keeps_triggerIf (hs : IOManager.Sound io) {m : BitVec 32}
    (ht : io.triggerIf m fd e how = some io') : Keeps c io io' := by
  unfold IOManager.State.triggerIf at ht
  split at ht
  · exact Option.some.inj ht ▸ .refl
  · exact keeps_trigger hs ht

theorem keeps_both (hs : IOManager.Sound io) {x m m' : BitVec 32} {v : IOManager.State}
    (hv : (io.setEpoll fd x).triggerIf m fd .read how = some v)
    (hw : v.triggerIf m' fd .write how = some io') : Keeps c io io' := by
  have hx := hs.setEpoll fd x
  exact (keeps_setEpoll io fd x).trans ((keeps_triggerIf hx hv).trans (keeps_triggerIf (hx.triggerIf hv) hw))

theorem keeps_cancelEvent (hs : IOManager.Sound io) {ctl r : Bool}
    (ht : IOManager.cancelEvent io fd e ctl = some (io', r)) : Keeps c io io' := by
  unfold IOManager.cancelEvent at ht
  split at ht
  · cases ht
    exact .refl
  · split at ht
    · cases ht
      exact .refl
    · split at ht
      · obtain ⟨u, hu, he⟩ := Option.map_eq_some_iff.mp ht
        cases he
        exact (keeps_setEpoll io fd _).trans (keeps_trigger (hs.setEpoll fd _) hu)
      · cases ht
        exact .refl

theorem keeps_step (hs : IOManager.Sound io) {op : IOManager.Op} (hop : triggers op = true)
    (ht : IOManager.step io op = some io') : Keeps c io io' := by
  cases op with
  | addEvent fd e cb who ctl => simp [triggers] at hop
  | delEvent fd e ctl => simp [triggers] at hop
  | cancelEvent fd e ctl =>
    simp only [IOManager.step, Option.map_eq_some_iff] at ht
    obtain ⟨⟨u, r⟩, hu, rfl⟩ := ht
    exact keeps_cancelEvent hs hu
  | cancelAll fd ctl =>
    simp only [IOManager.step, Option.map_eq_some_iff] at ht
    obtain ⟨⟨u, r⟩, hu, rfl⟩ := ht
    unfold IOManager.cancelAll at hu
    split at hu
    · cases hu
      exact .refl
    · split at hu
      · cases hu
        exact .refl
      · split at hu
        · simp only [Option.bind_eq_bind, Option.bind_eq_some_iff] at hu
          obtain ⟨v, hv, w, hw, he⟩ := hu
          cases he
          exact keeps_both hs hv hw
        · cases hu
          exact .refl
  | dispatch fd report ctl =>
    simp only [IOManager.step, IOManager.dispatch] at ht
    split at ht
    · cases ht
      exact .refl
    · split at ht
      · simp only [Option.bind_eq_bind, Option.bind_eq_some_iff] at ht
        obtain ⟨v, hv, hw⟩ := ht
        exact keeps_both hs hv hw
      · cases ht
        exact .refl

theorem cancelEvent_wakes (hs : IOManager.Sound io) (hw : Watching c io) {r : Bool}
    (ht : IOManager.cancelEvent io c.fd c.event true = some (io', r)) : wakes c io < wakes c io' := by
  simp only [IOManager.cancelEvent, hw.covers, hw.has, Bool.true_eq_false, if_false, if_true,
    Option.map_eq_some_iff, Prod.mk.injEq] at ht
  obtain ⟨u, hu, rfl, -⟩ := ht
  obtain ⟨sched, task, hsched, htask, rfl⟩ := trigger_release (hs.setEpoll c.fd _) hu
  rw [IOManager.setEpoll_table, hw.context] at hsched htask
  obtain rfl : c.iom = sched := by simpa using hsched
  obtain rfl : .fiber c.fiber = task := by simpa [IOManager.EventContext.takeTask] using htask
  rw [wakes_release, List.count_singleton_self]
  exact Nat.lt_succ_self _

theorem lookup_covers (io : IOManager.State) {fd : Nat} (hfit : fd * 3 / 2 < 2 ^ 31)
    (hsize : fd < (io.lookup fd).size) : (io.lookup fd).covers fd = true := by
  unfold IOManager.State.lookup at hsize ⊢
  by_cases hc : io.covers fd = true
  · rw [if_pos hc]
    exact hc
  · rw [if_neg hc] at hsize ⊢
    have hlt : fd < fd * 3 / 2 := hsize
    rw [IOManager.State.covers, IOManager.contextResize, MachineInt.toInt_of_lt hfit, decide_eq_true_eq]
    omega

theorem lookup_queued (io : IOManager.State) (fd : Nat) : (io.lookup fd).queued = io.queued := by
  unfold IOManager.State.lookup
  split <;> rfl

theorem addEventLocked_spec (hs : IOManager.Sound io) (hc : c.fd < io.size → io.covers c.fd = true)
    {ctl : Bool} {r : Int}
    (ht : IOManager.addEventLocked io c.fd c.event none ⟨some c.iom, c.fiber, true⟩ ctl = some (io', r)) :
    io'.queued = io.queued ∧ (r = 0 → Watching c io') := by
  obtain ⟨hsize, hfree, hcase⟩ := IOManager.addEventLocked_cases ht
  obtain ⟨hctl, hio⟩ | ⟨-, hr⟩ := hcase
  · refine ⟨by rw [hio], fun h0 => ?_⟩
    simp only [IOManager.addEventLocked, Nat.not_le.mpr hsize, hfree, hctl, if_false,
      Bool.false_eq_true, Option.some.injEq, Prod.mk.injEq] at ht
    omega
  · have hfiber : (io'.table c.fd).getContext c.event = ⟨some c.iom, some c.fiber, none⟩ := by
      simp only [IOManager.register] at hr
      split at hr
      · simp at hr
      · simp only [Bool.true_eq_false, and_false, if_false, Option.some.injEq] at hr
        rw [← hr]
        simp only [IOManager.State.setFd, Function.update_self]
        cases c.event <;> rfl
    obtain ⟨ctx, task, -, -, -, hsz, -, hqueued, -, htable, -, -⟩ :=
      IOManager.register_spec (hs.setEpoll c.fd _) hfree hr
    refine ⟨hqueued, fun _ => ⟨?_, hfiber, ?_⟩⟩
    · rw [htable]
      simp
    · have hcov := hc hsize
      rw [IOManager.State.covers] at hcov ⊢
      rw [hsz]
      exact hcov

/-- `addEvent` registers the fiber when it returns 0, and schedules nothing. -/
theorem addEvent_spec (hs : IOManager.Sound io) (hfit : c.fd * 3 / 2 < 2 ^ 31) {ctl : Bool} {r : Int}
    (ht : IOManager.addEvent io c.fd c.event none ⟨some c.iom, c.fiber, true⟩ ctl = some (io', r)) :
    wakes c io' = wakes c io ∧ (r = 0 → Watching c io') := by
  rw [IOManager.addEvent] at ht
  obtain ⟨hq, hw⟩ := addEventLocked_spec (hs.lookup c.fd) (lookup_covers io hfit) ht
  exact ⟨by rw [wakes, hq, lookup_queued, wakes], hw⟩

def Phase.Pending : Phase → Prop
  | .queued | .tested | .marked => True
  | .waiting | .done => False

def Pc.Waits : Pc → Prop
  | .addEvent | .yieldToHold | .parked => True
  | _ => False

variable (c)

/-- While the fiber is suspended, its current timer is still in the set, the callback of
that timer has yet to call `cancelEvent`, or the fiber is queued. -/
def TimeoutKept (s : System) : Prop :=
  s.pc = .parked → s.timer ∈ s.timers.timers ∨ (s.phase s.round).Pending ∨ s.Queued c

/-- As long as the fiber waits, the callback of its current timer finds the condition
unset, and calls `cancelEvent` after `addEvent` and with success; and the descriptor is
small enough for a table that an `int` can index. -/
def Safe (s : System) : Action → Prop
  | .addEvent _ => c.fd * 3 / 2 < 2 ^ 31
  | .test k => k = s.round → s.pc.Waits → ¬ s.Queued c → s.cancelled = false
  | .cancelEvent k ctl => k = s.round → s.pc.Waits → ¬ s.Queued c → s.pc ≠ .addEvent ∧ ctl = true
  | _ => True

def Armed (s : System) : Prop :=
  s.timer ∈ s.timers.timers ∧ ∃ t, s.timers.heap s.timer = some t ∧ t.cb = some s.round

structure Inv (s : System) : Prop where
  sound : IOManager.Sound s.io
  wellFormed : TimerManager.WellFormed s.timers
  resumes : s.resumes ≤ wakes c s.io
  watched : s.pc = .yieldToHold ∨ s.pc = .parked → s.Queued c ∨ Watching c s.io
  armed : s.pc.Waits → Armed s ∨ (s.phase s.round).Pending ∨ s.Queued c

variable {c} {s t : System}

theorem Inv.timeoutKept (h : Inv c s) : TimeoutKept c s := by
  intro hp
  exact (h.armed (by rw [hp]; trivial)).imp (fun ha => ha.1) id

theorem Inv.leave (h : Inv c s) {p : Pc} (hp : ¬ p.Waits) : Inv c { s with pc := p } := by
  refine ⟨h.sound, h.wellFormed, h.resumes, fun hq => ?_, fun hw => absurd hw hp⟩
  obtain rfl | rfl := hq <;> exact absurd trivial hp

theorem Inv.keep (h : Inv c s) (hs : IOManager.Sound io) (hk : Keeps c s.io io) :
    Inv c { s with io := io } := by
  have hqueued : s.Queued c → ({ s with io := io } : System).Queued c := fun hq => Nat.lt_of_lt_of_le hq hk.wakes
  refine ⟨hs, h.wellFormed, Nat.le_trans h.resumes hk.wakes, fun hq => ?_, fun hw => ?_⟩
  · obtain hq | hw := h.watched hq
    · exact .inl (hqueued hq)
    · exact (hk.watching hw).symm.imp (Nat.lt_of_le_of_lt h.resumes) id
  · exact (h.armed hw).imp id (Or.imp id hqueued)

theorem Inv.addCondTimer (h : Inv c s) {a : Nat} (now : Nat) (ha : s.timers.heap a = none) :
    Inv c { s with
      timers := (TimerManager.addTimer (s.timers.set a
        (TimerManager.newTimer c.timeout (some (s.round + 1)) false now)) a).1
      timer := a, round := s.round + 1, pc := .addEvent } := by
  have hout : a ∉ s.timers.timers := fun hm => by simpa [ha] using h.wellFormed.alive a hm
  have hwf := h.wellFormed.set hout (TimerManager.newTimer c.timeout (some (s.round + 1)) false now)
  refine ⟨h.sound, hwf.addTimer (by simp), h.resumes, by simp, fun _ => .inl ⟨?_, ?_⟩⟩
  · exact OrderedSet.mem_insert_self TimerManager.comparator_tri a _
  · exact ⟨TimerManager.newTimer c.timeout (some (s.round + 1)) false now, Function.update_self _ _ _, rfl⟩

theorem Inv.addEvent (h : Inv c s) (hp : s.pc = .addEvent) (hfit : c.fd * 3 / 2 < 2 ^ 31) {ctl : Bool}
    {r : Int}
    (ht : IOManager.addEvent s.io c.fd c.event none ⟨some c.iom, c.fiber, true⟩ ctl = some (io, r)) :
    Inv c { s with io := io, pc := if r = (0 : Int) then .yieldToHold else .giveUp } := by
  obtain ⟨hwakes, hwatch⟩ := addEvent_spec h.sound hfit ht
  have hstep : IOManager.step s.io (.addEvent c.fd c.event none ⟨some c.iom, c.fiber, true⟩ ctl) = some io := by
    rw [IOManager.step, ht]
    rfl
  have hbase : Inv c { s with io := io } := by
    refine ⟨h.sound.step hstep, h.wellFormed, hwakes ▸ h.resumes, by simp [hp], fun hw => ?_⟩
    refine (h.armed hw).imp id (Or.imp id (fun hq => ?_))
    rw [System.Queued, hwakes]
    exact hq
  by_cases hr : r = 0
  · rw [if_pos hr]
    exact ⟨hbase.sound, hbase.wellFormed, hbase.resumes, fun _ => .inr (hwatch hr),
      fun _ => hbase.armed (by simp [hp, Pc.Waits])⟩
  · rw [if_neg hr]
    exact hbase.leave id

theorem Inv.listExpiredCbs (h : Inv c s) (now tmp : Nat) :
    Inv c { s with
      timers := (TimerManager.listExpiredCbs s.timers now tmp).1
      phase := fun k =>
        if some k ∈ (TimerManager.listExpiredCbs s.timers now tmp).2 then .queued else s.phase k } := by
  refine ⟨h.sound, h.wellFormed.listExpiredCbs now tmp, h.resumes, h.watched, fun hw => ?_⟩
  by_cases hout : some s.round ∈ (TimerManager.listExpiredCbs s.timers now tmp).2
  · exact .inr (.inl (by simp [hout, Phase.Pending]))
  · obtain ⟨hmem, t, ht, hcb⟩ | hpq := h.armed hw
    · obtain hstay | hcb' := TimerManager.listExpiredCbs_cases h.wellFormed now tmp hmem ht
      · exact .inl ⟨hstay.1, t, hstay.2, hcb⟩
      · exact absurd (hcb ▸ hcb') hout
    · exact .inr (hpq.imp (fun hp => by simpa [hout] using hp) id)

theorem Inv.callback (h : Inv c s) {k : Nat} {p : Phase} {b : Bool}
    (hk : k = s.round → s.pc.Waits → ¬ s.Queued c → p.Pending) :
    Inv c { s with cancelled := b, phase := Function.update s.phase k p } := by
  refine ⟨h.sound, h.wellFormed, h.resumes, h.watched, fun hw => ?_⟩
  by_cases hq : s.Queued c
  · exact .inr (.inr hq)
  · refine (h.armed hw).imp id (Or.imp (fun hp => ?_) id)
    by_cases hkr : k = s.round
    · subst hkr
      simpa using hk rfl hw hq
    · simpa [Ne.symm hkr] using hp

theorem Inv.cancelEvent (h : Inv c s) {k : Nat} {ctl r : Bool} (hsafe : Safe c s (.cancelEvent k ctl))
    (ht : IOManager.cancelEvent s.io c.fd c.event ctl = some (io, r)) :
    Inv c { s with io := io, phase := Function.update s.phase k .done } := by
  have hstep : IOManager.step s.io (.cancelEvent c.fd c.event ctl) = some io := by
    rw [IOManager.step, ht]
    rfl
  have hbase := h.keep (h.sound.step hstep) (keeps_cancelEvent h.sound ht)
  refine hbase.callback (b := s.cancelled) (fun hk hw hq => absurd ?_ hq)
  by_cases hqs : s.Queued c
  · exact Nat.lt_of_lt_of_le hqs (keeps_cancelEvent h.sound ht).wakes
  · obtain ⟨hpc, rfl⟩ := hsafe hk hw hqs
    have hwatch : Watching c s.io := by
      refine (h.watched ?_).resolve_left hqs
      cases hp : s.pc <;> simp_all [Pc.Waits]
    exact Nat.lt_of_le_of_lt h.resumes (cancelEvent_wakes h.sound hwatch ht)

theorem Inv.step (h : Inv c s) {a : Action} (hsafe : Safe c s a) (ht : step c s a = some t) : Inv c t := by
  cases a with
  | attempt r =>
    simp only [Hook.step, Option.ite_none_right_eq_some] at ht
    obtain ⟨-, ht⟩ := ht
    split at ht
    · exact Option.some.inj ht ▸ h.leave id
    · exact Option.some.inj ht ▸ h
    · exact Option.some.inj ht ▸ h.leave id
  | addCondTimer a now =>
    simp only [Hook.step, Option.ite_none_right_eq_some, Option.some.injEq] at ht
    exact ht.2 ▸ h.addCondTimer now ht.1.2
  | addEvent ctl =>
    simp only [Hook.step, Option.ite_none_right_eq_some, Option.map_eq_some_iff] at ht
    obtain ⟨hp, ⟨io, r⟩, hio, rfl⟩ := ht
    exact h.addEvent hp hsafe hio
  | yieldToHold =>
    simp only [Hook.step, Option.ite_none_right_eq_some, Option.some.injEq] at ht
    obtain ⟨hp, rfl⟩ := ht
    exact ⟨h.sound, h.wellFormed, h.resumes, fun _ => h.watched (.inl hp),
      fun _ => h.armed (by rw [hp]; trivial)⟩
  | resume =>
    simp only [Hook.step, Option.ite_none_right_eq_some, Option.some.injEq] at ht
    obtain ⟨⟨-, hq⟩, rfl⟩ := ht
    exact ⟨h.sound, h.wellFormed, hq, by simp, fun hw => hw.elim⟩
  | cancelTimer =>
    simp only [Hook.step] at ht
    split at ht
    · obtain ⟨⟨m, r⟩, hm, rfl⟩ := Option.map_eq_some_iff.mp ht
      exact ⟨h.sound, h.wellFormed.cancel hm, h.resumes, by simp, fun hw => hw.elim⟩
    · obtain ⟨⟨m, r⟩, hm, rfl⟩ := Option.map_eq_some_iff.mp ht
      exact ⟨h.sound, h.wellFormed.cancel hm, h.resumes, by simp, fun hw => hw.elim⟩
    · simp at ht
  | testCancelled =>
    simp only [Hook.step, Option.ite_none_right_eq_some, Option.some.injEq] at ht
    refine ht.2 ▸ h.leave ?_
    split <;> exact id
  | listExpiredCbs now tmp =>
    simp only [Hook.step, Option.ite_none_right_eq_some, Option.some.injEq] at ht
    exact ht.2 ▸ h.listExpiredCbs now tmp
  | test k =>
    simp only [Hook.step, Option.ite_none_right_eq_some, Option.some.injEq] at ht
    refine ht.2 ▸ h.callback (b := s.cancelled) (fun hk hw hq => ?_)
    have halive : s.alive = true := by
      cases hp : s.pc <;> simp_all [System.alive, Pc.Waits]
    rw [if_pos ⟨halive, hsafe hk hw hq⟩]
    trivial
  | mark k =>
    simp only [Hook.step, Option.ite_none_right_eq_some, Option.some.injEq] at ht
    exact ht.2 ▸ h.callback (fun _ _ _ => trivial)
  | cancelEvent k ctl =>
    simp only [Hook.step, Option.ite_none_right_eq_some, Option.map_eq_some_iff] at ht
    obtain ⟨-, ⟨io, r⟩, hio, rfl⟩ := ht
    exact h.cancelEvent hsafe hio
  | trigger op =>
    simp only [Hook.step, Option.ite_none_right_eq_some, Option.map_eq_some_iff] at ht
    obtain ⟨hop, io, hio, rfl⟩ := ht
    exact h.keep (h.sound.step hio) (keeps_step h.sound hop hio)

theorem init_inv (h : Init c s) : Inv c s := by
  have hsound : IOManager.Sound s.io :=
    Reachable.invariant (fun _ h0 => h0 ▸ IOManager.init_sound) (fun _ _ _ hi ht => hi.step ht) h.io
  refine ⟨hsound, ⟨?_, ?_⟩, Nat.le_of_eq h.resumes, by simp [h.pc], fun hw => ?_⟩
  · simp [h.timers.1]
  · simp [h.timers.1]
  · rw [h.pc] at hw
    exact hw.elim

/-- No finite timeout is lost in a run in which the callback of the current timer meets
the fiber behind its `addEvent` and with an unset condition. -/
theorem timeout_kept_of_run (h : Run (Init c) (step c) (Safe c) s) : TimeoutKept c s :=
  (Run.invariant (fun _ h0 => init_inv h0) (fun _ _ _ hi hok ht => hi.step hok ht) h).timeoutKept

instance (p : Pc) : Decidable p.Waits :=
  match p with
  | .addEvent | .yieldToHold | .parked => isTrue trivial
  | .attempt | .addCondTimer | .cancelTimer | .testCancelled | .giveUp | .returned => isFalse id

instance (s : System) (a : Action) : Decidable (Safe c s a) :=
  match a with
  | .addEvent _ => inferInstanceAs (Decidable (_ < _))
  | .test k => inferInstanceAs (Decidable (k = _ → _))
  | .cancelEvent k _ => inferInstanceAs (Decidable (k = _ → _))
  | .attempt _ | .addCondTimer .. | .yieldToHold | .resume | .cancelTimer | .testCancelled |
    .listExpiredCbs .. | .mark _ | .trigger _ => isTrue trivial

def recv : Call := ⟨.io, 5, .read, 20, 7, 1⟩

def start : System := ⟨IOManager.init, ⟨fun _ => none, [], false, 0⟩, .attempt, 0, 0, false, fun _ => .waiting, 0⟩

theorem start_init : Init recv start :=
  ⟨.start rfl, ⟨rfl, rfl⟩, rfl, rfl, fun _ => rfl, rfl⟩

theorem timeout_kept_marked : ∃ s, Run (Init recv) (step recv) (Safe recv) s ∧
    (s.pc = .parked ∧ s.timers.timers = [] ∧ s.phase 1 = .marked) ∧ TimeoutKept recv s := by
  have h : (exec (guarded (step recv) (Safe recv)) start
      [.attempt .blocked, .addCondTimer 0 1000, .addEvent true, .yieldToHold, .listExpiredCbs 1020 1,
        .test 1, .mark 1]).map (fun s => (s.pc, s.timers.timers, s.phase 1)) =
      some (.parked, [], .marked) := by
    decide +kernel
  obtain ⟨s, hs, he⟩ := Option.map_eq_some_iff.mp h
  have hrun : Run (Init recv) (step recv) (Safe recv) s := Run.exec (.start start_init) _ hs
  exact ⟨s, hrun, by simpa using he, timeout_kept_of_run hrun⟩

/-- The timer expires before `addEvent`: its callback cancels nothing, and the fiber
parks without a timer. -/
theorem timeout_lost_before_addEvent : ∃ s, Reachable (Init recv) (step recv) s ∧ ¬ TimeoutKept recv s := by
  have h : (exec (guarded (step recv) (fun _ _ => True)) start
      [.attempt .blocked, .addCondTimer 0 1000, .listExpiredCbs 1020 1, .test 1, .mark 1, .cancelEvent 1 true,
        .addEvent true, .yieldToHold]).map
        (fun s => (s.pc, s.timers.timers, s.phase s.round, s.resumes, wakes recv s.io)) =
      some (.parked, [], .done, 0, 0) := by
    decide +kernel
  obtain ⟨s, hs, he⟩ := Option.map_eq_some_iff.mp h
  obtain ⟨hp, htimers, hphase, hresumes, hwakes⟩ : s.pc = .parked ∧ s.timers.timers = [] ∧
    s.phase s.round = .done ∧ s.resumes = 0 ∧ wakes recv s.io = 0 := by simpa using he
  refine ⟨s, Run.exec (.start start_init) _ hs, fun hkept => ?_⟩
  have hno := hkept hp
  rw [htimers, hphase, System.Queued, hresumes, hwakes] at hno
  simp [Phase.Pending] at hno

end Windgent.Hook
