import Windgent.IOManager.Accounting
import Mathlib.Data.List.Perm.Basic

namespace Windgent.IOManager

open MachineInt Transition

/-- The books of the manager: the counter, the contexts and the history of the
registrations tell the same story. -/
structure Books (s : State) : Prop where
  sound : Sound s
  size_lt : s.size < 2 ^ 31
  size_ge : 32 ≤ s.size
  pending : s.pending = s.total
  scheduler : ∀ fd e, (s.table fd).has e = true → ((s.table fd).getContext e).scheduler.isSome
  live_iff : ∀ fd e, (s.table fd).has e = (s.live fd e).isSome
  held : ∀ fd e i, s.live fd e = some i → ∃ r, s.history[i]? = some r ∧ r.fd = fd ∧ r.event = e ∧
    r.consumed = [] ∧ r.scheduled = [] ∧ ((s.table fd).getContext e).scheduler = some r.scheduler ∧
    ((s.table fd).getContext e).takeTask.1 = some r.task
  closed : ∀ i r, s.history[i]? = some r → s.live r.fd r.event = some i ∨ ∃ how, r.consumed = [how] ∧
    r.scheduled = if how = .delEvent then [] else [(r.scheduler, r.task)]
  queue : s.queued.Perm (s.history.flatMap (·.scheduled))

theorem Books.covers {s : State} (h : Books s) (fd : Nat) : s.covers fd = decide (fd < s.size) := by
  unfold State.covers
  rw [toInt_of_lt h.size_lt]
  simp

theorem Books.setEpoll {s : State} (h : Books s) (fd : Nat) (m : BitVec 32) : Books (s.setEpoll fd m) :=
  ⟨h.sound.setEpoll fd m, h.size_lt, h.size_ge, h.pending, h.scheduler, h.live_iff, h.held, h.closed, h.queue⟩

theorem flatMap_modify {α β : Type} (g : α → List β) (f : α → α) (out : List β)
    (hf : ∀ a, g (f a) = g a ++ out) (l : List α) (i : Nat) (hi : i < l.length) :
    ((l.modify i f).flatMap g).Perm (l.flatMap g ++ out) := by
  induction l generalizing i with
  | nil => simp at hi
  | cons a l ih =>
    cases i with
    | zero =>
      simp only [List.modify_zero_cons, List.flatMap_cons, hf, List.append_assoc]
      exact List.Perm.append_left _ List.perm_append_comm
    | succ i =>
      simp only [List.modify_succ_cons, List.flatMap_cons, List.append_assoc]
      exact (ih i (by simpa using hi)).append_left _

theorem release_other (s : State) {fd fd' : Nat} {e e' : Event} (how : Consumer)
    (out : List (Nat × Task)) {i : Nat} (hi : s.live fd e = some i) (hne : ¬ (fd' = fd ∧ e' = e)) :
    (s.release fd e how out).live fd' e' = s.live fd' e' ∧
      ((s.release fd e how out).table fd').has e' = (s.table fd').has e' ∧
      ((s.release fd e how out).table fd').getContext e' = (s.table fd').getContext e' := by
  rw [(release_history s fd e how out hi).2, release_table]
  by_cases hfd : fd' = fd
  · subst hfd
    have hne' : e' ≠ e := fun h' => hne ⟨rfl, h'⟩
    simp [hne']
  · simp [hfd]

theorem release_same (s : State) {fd : Nat} {e : Event} (how : Consumer) (out : List (Nat × Task))
    {i : Nat} (hi : s.live fd e = some i) : (s.release fd e how out).live fd e = none ∧
      ((s.release fd e how out).table fd).has e = false := by
  rw [(release_history s fd e how out hi).2, release_table]
  simp

theorem Books.release {s : State} (h : Books s) {fd : Nat} {e : Event}
    (he : (s.table fd).has e = true) {how : Consumer} {out : List (Nat × Task)}
    (hout : ∀ sched task, ((s.table fd).getContext e).scheduler = some sched →
      ((s.table fd).getContext e).takeTask.1 = some task →
      out = if how = .delEvent then [] else [(sched, task)]) : Books (s.release fd e how out) := by
  obtain ⟨i, hi⟩ := Option.isSome_iff_exists.mp ((h.live_iff fd e).symm.trans he)
  obtain ⟨r, hr, hrfd, hre, hrc, hrs, hsch, htask⟩ := h.held fd e i hi
  have hhist := (release_history s fd e how out hi).1
  have hsame := release_same s how out hi
  have hlt : i < s.history.length := (List.getElem?_eq_some_iff.mp hr).1
  refine ⟨h.sound.release he how out, by simpa using h.size_lt, by simpa using h.size_ge, ?_, ?_, ?_, ?_, ?_, ?_⟩
  · have ht := release_total h.sound he how out
    have hp := h.pending
    rw [release_pending]
    omega
  · intro fd' e' he'
    by_cases hc : fd' = fd ∧ e' = e
    · obtain ⟨rfl, rfl⟩ := hc
      simp at he'
    · obtain ⟨-, h2, h3⟩ := release_other s how out hi hc
      rw [h3]
      exact h.scheduler fd' e' (h2 ▸ he')
  · intro fd' e'
    by_cases hc : fd' = fd ∧ e' = e
    · obtain ⟨rfl, rfl⟩ := hc
      simp [hsame]
    · obtain ⟨h1, h2, -⟩ := release_other s how out hi hc
      rw [h1, h2]
      exact h.live_iff fd' e'
  · intro fd' e' j hj
    have hc : ¬ (fd' = fd ∧ e' = e) := by
      rintro ⟨rfl, rfl⟩
      simp [hsame.1] at hj
    obtain ⟨h1, -, h3⟩ := release_other s how out hi hc
    obtain ⟨r', hr', hfd', he', hrest⟩ := h.held fd' e' j (h1 ▸ hj)
    have hne : i ≠ j := by
      rintro rfl
      rw [hr, Option.some.injEq] at hr'
      subst hr'
      exact hc ⟨hfd' ▸ hrfd, he' ▸ hre⟩
    refine ⟨r', ?_, hfd', he', ?_⟩
    · rw [hhist, List.getElem?_modify_ne _ _ hne]
      exact hr'
    · rw [h3]
      exact hrest
  · intro j r' hr'
    rw [hhist] at hr'
    by_cases hij : i = j
    · subst hij
      rw [List.getElem?_modify_eq, hr, Option.map_eq_map, Option.map_some, Option.some.injEq] at hr'
      subst hr'
      exact .inr ⟨how, by simp [hrc], by simpa [hrs] using hout _ _ hsch htask⟩
    · rw [List.getElem?_modify_ne _ _ hij] at hr'
      rcases h.closed j r' hr' with hlive' | hdone
      · have hc : ¬ (r'.fd = fd ∧ r'.event = e) := by
          rintro ⟨rfl, rfl⟩
          rw [hi, Option.some.injEq] at hlive'
          exact hij hlive'
        exact .inl ((release_other s how out hi hc).1 ▸ hlive')
      · exact .inr hdone
  · rw [release_queued, hhist]
    exact (h.queue.append_right out).trans (flatMap_modify _ _ out (fun _ => rfl) _ _ hlt).symm

theorem register_other {s t : State} (hs : Sound s) {fd fd' : Nat} {e e' : Event} {cb : Option Nat} {who : Caller}
    (he : (s.table fd).has e = false) (hr : register s fd e cb who = some t) (hne : ¬ (fd' = fd ∧ e' = e)) :
    t.live fd' e' = s.live fd' e' ∧ (t.table fd').has e' = (s.table fd').has e' ∧
      (t.table fd').getContext e' = (s.table fd').getContext e' := by
  obtain ⟨ctx, task, -, -, -, -, -, -, -, htable, -, hlive⟩ := register_spec hs he hr
  rw [htable, hlive]
  by_cases hfd : fd' = fd
  · subst hfd
    have hne' : e' ≠ e := fun h' => hne ⟨rfl, h'⟩
    simp [hne']
  · simp [hfd]

theorem Books.register {s t : State} (h : Books s) {fd : Nat} {e : Event} {cb : Option Nat}
    {who : Caller} (hfd : fd < s.size) (he : (s.table fd).has e = false)
    (hwho : who.scheduler.isSome = true) (hr : register s fd e cb who = some t) : Books t := by
  obtain ⟨sched, hsched⟩ := Option.isSome_iff_exists.mp hwho
  obtain ⟨ctx, task, hctx, -, htask, hsize, -, hq, hpend, htable, hhist, hlive⟩ :=
    register_spec h.sound he hr
  rw [hsched] at hctx
  have hself : t.live fd e = some s.history.length ∧ (t.table fd).has e = true ∧
      (t.table fd).getContext e = ctx := by
    rw [hlive, htable]
    simp
  have hnone : s.live fd e = none := by
    rw [← Option.not_isSome_iff_eq_none, ← h.live_iff, he]
    simp
  refine ⟨h.sound.register hfd he hr, hsize ▸ h.size_lt, hsize ▸ h.size_ge, ?_, ?_, ?_, ?_, ?_, ?_⟩
  · rw [hpend, register_total hfd he hsize htable, h.pending]
    push_cast
    rfl
  · intro fd' e' he'
    by_cases hc : fd' = fd ∧ e' = e
    · obtain ⟨rfl, rfl⟩ := hc
      rw [hself.2.2, hctx]
      rfl
    · obtain ⟨-, h2, h3⟩ := register_other h.sound he hr hc
      rw [h3]
      exact h.scheduler fd' e' (h2 ▸ he')
  · intro fd' e'
    by_cases hc : fd' = fd ∧ e' = e
    · obtain ⟨rfl, rfl⟩ := hc
      rw [hself.1, hself.2.1]
      rfl
    · obtain ⟨h1, h2, -⟩ := register_other h.sound he hr hc
      rw [h1, h2]
      exact h.live_iff fd' e'
  · intro fd' e' j hj
    by_cases hc : fd' = fd ∧ e' = e
    · obtain ⟨rfl, rfl⟩ := hc
      obtain rfl := Option.some.inj (hself.1.symm.trans hj)
      refine ⟨⟨fd', e', who.scheduler.getD 0, task, [], []⟩, ?_, rfl, rfl, rfl, rfl, ?_, ?_⟩
      · simp [hhist]
      · simp [hself.2.2, hctx, hsched]
      · simpa [hself.2.2] using htask
    · obtain ⟨h1, -, h3⟩ := register_other h.sound he hr hc
      obtain ⟨r, hr', hrest⟩ := h.held fd' e' j (h1 ▸ hj)
      refine ⟨r, ?_, h3 ▸ hrest⟩
      rw [hhist, List.getElem?_append_left (List.getElem?_eq_some_iff.mp hr').1]
      exact hr'
  · intro j r hr'
    rw [hhist] at hr'
    obtain hj | hj := Nat.lt_or_ge j s.history.length
    · rw [List.getElem?_append_left hj] at hr'
      refine (h.closed j r hr').imp_left fun hl => ?_
      have hc : ¬ (r.fd = fd ∧ r.event = e) := by
        rintro ⟨rfl, rfl⟩
        cases hnone.symm.trans hl
      exact (register_other h.sound he hr hc).1.trans hl
    · -- the new entry
      rw [List.getElem?_append_right hj, List.getElem?_singleton] at hr'
      split at hr'
      · rename_i hz
        obtain rfl := Option.some.inj hr'
        have hlast : s.history.length = j := by omega
        exact .inl (hself.1.trans (congrArg some hlast))
      · cases hr'
  · rw [hq, hhist]
    simpa using h.queue

structure Unchanged (s t : State) : Prop where
  table : t.table = s.table
  pending : t.pending = s.pending
  epoll : t.epoll = s.epoll
  queued : t.queued = s.queued
  history : t.history = s.history
  live : t.live = s.live

theorem Unchanged.refl (s : State) : Unchanged s s := ⟨rfl, rfl, rfl, rfl, rfl, rfl⟩

def Watched (s : State) : Prop := ∀ fd, s.epoll fd = interest (s.table fd).events

theorem Watched.unchanged {s t : State} (h : Watched s) (hu : Unchanged s t) : Watched t := by
  intro fd
  rw [hu.epoll, hu.table]
  exact h fd

theorem Watched.update {s t : State} (h : Watched s) (fd : Nat) (m : BitVec 32)
    (he : t.epoll = (s.setEpoll fd m).epoll) (hfd : (t.table fd).events = m)
    (hother : ∀ i, i ≠ fd → t.table i = s.table i) : Watched t := by
  intro i
  rw [he]
  by_cases hi : i = fd
  · subst hi
    simp [State.setEpoll, hfd]
  · simpa [State.setEpoll, hi, hother i hi] using h i

theorem Books.lookup {s : State} (h : Books s) {fd : Nat} (hfd : fd * 3 / 2 < 2 ^ 31) :
    Books (s.lookup fd) ∧ fd < (s.lookup fd).size ∧ Unchanged s (s.lookup fd) := by
  unfold State.lookup
  rw [h.covers]
  by_cases hc : fd < s.size
  · rw [if_pos (decide_eq_true hc)]
    exact ⟨h, hc, Unchanged.refl s⟩
  · rw [if_neg (by simpa using hc)]
    have hge := h.size_ge
    have hle : s.size ≤ fd * 3 / 2 := by omega
    have ht := contextResize_table s h.sound.beyond hle
    have hu : Unchanged s (contextResize s (fd * 3 / 2)) := ⟨ht, rfl, rfl, rfl, rfl, rfl⟩
    refine ⟨⟨h.sound.contextResize _, hfd, Nat.le_trans hge hle, ?_, ?_, ?_, ?_, h.closed, h.queue⟩,
      ?_, hu⟩
    · rw [total_resize s h.sound.beyond hle, hu.pending, h.pending]
    · rw [ht]
      exact h.scheduler
    · rw [ht]
      exact h.live_iff
    · rw [ht]
      exact h.held
    · change fd < fd * 3 / 2
      omega

theorem Books.triggerIf {s : State} (h : Books s) (m : BitVec 32) (fd : Nat) (e : Event)
    {how : Consumer} (hd : how ≠ .delEvent) (hm : m &&& e.mask ≠ 0 → (s.table fd).has e = true) :
    ∃ t, s.triggerIf m fd e how = some t ∧ Books t ∧ t.epoll = s.epoll ∧
      (∀ i, i ≠ fd → t.table i = s.table i) ∧
      ∀ d, (t.table fd).has d = ((s.table fd).has d && !(decide (d = e) && m &&& e.mask != 0)) := by
  have hm' : m &&& e.mask ≠ 0 → (s.table fd).has e = true ∧
      ((s.table fd).getContext e).scheduler.isSome = true :=
    fun hz => ⟨hm hz, h.scheduler fd e (hm hz)⟩
  rcases triggerIf_spec h.sound hm' how with ⟨hz, ht⟩ | ⟨hz, sched, task, hs, htask, ht⟩
  · exact ⟨s, ht, h, rfl, fun _ _ => rfl, fun d => by simp [hz]⟩
  · refine ⟨_, ht, h.release (hm hz) ?_, by simp, fun i hi => by simp [hi], fun d => ?_⟩
    · intro sched' task' hs' htask'
      rw [hs, Option.some.injEq] at hs'
      rw [htask, Option.some.injEq] at htask'
      simp [hd, hs', htask']
    · by_cases hde : d = e
      · have hz' : (m &&& e.mask != 0) = true := bne_iff_ne.mpr hz
        rw [hde, hz']
        simp
      · simp [hde]

def Op.ctl : Op → Bool
  | .addEvent _ _ _ _ ctl => ctl
  | .delEvent _ _ ctl => ctl
  | .cancelEvent _ _ ctl => ctl
  | .cancelAll _ ctl => ctl
  | .dispatch _ _ ctl => ctl

/-- What callers promise: `addEvent` runs in an `EXEC` fiber of a scheduler and
adds a new event, a report is about registered events. -/
def Admissible (s : State) : Op → Prop
  | .addEvent fd e _ who _ =>
    who.scheduler.isSome = true ∧ who.exec = true ∧ (s.table fd).has e = false
  | .dispatch fd report _ => ∀ e, reported report e = true → (s.table fd).has e = true
  | _ => True

instance (s : State) (op : Op) : Decidable (Admissible s op) :=
  match op with
  | .addEvent .. => inferInstanceAs (Decidable (_ ∧ _))
  | .delEvent .. => isTrue trivial
  | .cancelEvent .. => isTrue trivial
  | .cancelAll .. => isTrue trivial
  | .dispatch fd report _ =>
    decidable_of_iff ((reported report .read = true → (s.table fd).has .read = true) ∧
      (reported report .write = true → (s.table fd).has .write = true))
      ⟨fun h e => match e with
        | .read => h.1
        | .write => h.2, fun h => ⟨h .read, h .write⟩⟩

/-- A table made for the descriptor has a size that fits an `int`. -/
def Op.Fits : Op → Prop
  | .addEvent fd _ _ _ _ => fd * 3 / 2 < 2 ^ 31
  | _ => True

instance (op : Op) : Decidable op.Fits :=
  match op with
  | .addEvent .. => inferInstanceAs (Decidable (_ < _))
  | .delEvent .. => isTrue trivial
  | .cancelEvent .. => isTrue trivial
  | .cancelAll .. => isTrue trivial
  | .dispatch .. => isTrue trivial

def Settled (s : State) (op : Op) : Prop :=
  ∃ t, step s op = some t ∧ Books t ∧ Watched t ∧ (op.ctl = false → Unchanged s t)

theorem Settled.same {s : State} {op : Op} (h : Books s) (hw : Watched s) (hs : step s op = some s) :
    Settled s op := ⟨s, hs, h, hw, fun _ => Unchanged.refl s⟩

theorem register_some {s : State} (h : Books s) {fd : Nat} {e : Event}
    (he : (s.table fd).has e = false) (cb : Option Nat) {who : Caller} (hexec : who.exec = true) :
    ∃ t, register s fd e cb who = some t := by
  unfold register
  simp [(h.sound.ok fd).empty e he, hexec]

theorem addEventLocked_books {s : State} (h : Books s) (hw : Watched s) {fd : Nat} {e : Event}
    (cb : Option Nat) {who : Caller} (ctl : Bool) (hfd : fd < s.size)
    (he : (s.table fd).has e = false) (hsched : who.scheduler.isSome = true)
    (hexec : who.exec = true) : ∃ p, addEventLocked s fd e cb who ctl = some p ∧ Books p.1 ∧
      Watched p.1 ∧ (ctl = false → p.1 = s) := by
  unfold addEventLocked
  rw [if_neg (Nat.not_le.mpr hfd), if_neg (by simp [he])]
  cases ctl with
  | false => exact ⟨(s, -1), rfl, h, hw, fun _ => rfl⟩
  | true =>
    have hb := h.setEpoll fd ((s.table fd).events ||| e.mask)
    obtain ⟨t, ht⟩ := register_some hb he cb hexec
    refine ⟨(t, 0), by simp [ht], hb.register hfd he hsched ht, ?_, by simp⟩
    obtain ⟨ctx, task, -, -, -, -, hepoll, -, -, htable, -, -⟩ := register_spec hb.sound he ht
    refine hw.update fd _ hepoll ?_ (fun i hi => ?_)
    · rw [htable, Function.update_self, put_events, (h.sound.ok fd).mask, maskOf_or]
      rfl
    · rw [htable, Function.update_of_ne hi]
      rfl

theorem addEvent_settled {s : State} (h : Books s) (hw : Watched s) {fd : Nat} {e : Event}
    {cb : Option Nat} {who : Caller} {ctl : Bool} (ha : Admissible s (.addEvent fd e cb who ctl))
    (hfit : fd * 3 / 2 < 2 ^ 31) : Settled s (.addEvent fd e cb who ctl) := by
  obtain ⟨hsched, hexec, he⟩ := ha
  obtain ⟨hb, hfd, hu⟩ := h.lookup hfit
  rw [← hu.table] at he
  obtain ⟨p, hp, hpb, hpw, hps⟩ := addEventLocked_books hb (hw.unchanged hu) cb ctl hfd he hsched hexec
  refine ⟨p.1, ?_, hpb, hpw, fun hc => ?_⟩
  · rw [step, addEvent, hp, Option.map_some]
  · rw [hps hc]
    exact hu

theorem delEvent_settled {s : State} (h : Books s) (hw : Watched s) (fd : Nat) (e : Event)
    (ctl : Bool) : Settled s (.delEvent fd e ctl) := by
  by_cases hc : s.covers fd = true ∧ (s.table fd).has e = true ∧ ctl = true
  · obtain ⟨hc, he, rfl⟩ := hc
    have hb : Books ((s.setEpoll fd ((s.table fd).events &&& ~~~e.mask)).release fd e .delEvent []) :=
      (h.setEpoll fd _).release he (fun _ _ _ _ => rfl)
    refine ⟨_, rfl, ?_⟩
    rw [delEvent_eq h.sound hc he]
    refine ⟨hb, hw.update fd ((s.table fd).events &&& ~~~e.mask) (by simp) ?_ ?_,
      by simp [Op.ctl]⟩
    · rw [release_table, Function.update_self, put_events, (h.sound.ok fd).mask, maskOf_clear]
      rfl
    · intro i hi
      rw [release_table, Function.update_of_ne hi]
      rfl
  · exact Settled.same h hw (congrArg some (delEvent_unchanged hc))

theorem cancelEvent_settled {s : State} (h : Books s) (hw : Watched s) (fd : Nat) (e : Event)
    (ctl : Bool) : Settled s (.cancelEvent fd e ctl) := by
  by_cases hc : s.covers fd = true ∧ (s.table fd).has e = true ∧ ctl = true
  · obtain ⟨hc, he, rfl⟩ := hc
    have hb := h.setEpoll fd ((s.table fd).events &&& ~~~e.mask)
    obtain ⟨sched, hs⟩ := Option.isSome_iff_exists.mp (h.scheduler fd e he)
    obtain ⟨task, htask, ht⟩ := trigger_spec hb.sound he hs .cancelEvent
    refine ⟨(s.setEpoll fd ((s.table fd).events &&& ~~~e.mask)).release fd e .cancelEvent
      [(sched, task)], by simp [step, cancelEvent, hc, he, ht], hb.release he ?_, ?_, by simp [Op.ctl]⟩
    · intro sched' task' hs' htask'
      rw [setEpoll_table, hs, Option.some.injEq] at hs'
      rw [htask, Option.some.injEq] at htask'
      simp [hs', htask']
    · refine hw.update fd ((s.table fd).events &&& ~~~e.mask) (by simp) ?_ ?_
      · rw [release_table, Function.update_self, put_events, (h.sound.ok fd).mask, maskOf_clear]
        rfl
      · intro i hi
        rw [release_table, Function.update_of_ne hi]
        rfl
  · refine Settled.same h hw ?_
    simp only [step, cancelEvent]
    cases hc' : s.covers fd <;> cases he : (s.table fd).has e <;> cases ctl <;> simp_all

theorem events_bit {c : FdContext} (e : Event) : c.events &&& e.mask ≠ 0 ↔ c.has e = true := by
  simp [FdContext.has]

theorem cancelAll_settled {s : State} (h : Books s) (hw : Watched s) (fd : Nat) (ctl : Bool) :
    Settled s (.cancelAll fd ctl) := by
  by_cases hc : s.covers fd = true ∧ (s.table fd).events ≠ 0 ∧ ctl = true
  · obtain ⟨hc, he, rfl⟩ := hc
    obtain ⟨u, hu, hub, hue, hut, huh⟩ := (h.setEpoll fd 0).triggerIf (s.table fd).events fd
      .read (show Consumer.cancelAll ≠ .delEvent by simp) (events_bit _).mp
    obtain ⟨v, hv, hvb, hve, hvt, hvh⟩ := hub.triggerIf (u.table fd).events fd .write
      (show Consumer.cancelAll ≠ .delEvent by simp) (events_bit _).mp
    have hnone : (v.table fd).events = 0 := by
      rw [(hvb.sound.ok fd).mask, maskOf_eq_zero]
      intro d
      rw [hvh, huh]
      cases d with
      | read => simp [FdContext.has]
      | write =>
        have hw' := huh .write
        simp only [reduceCtorEq, decide_false, Bool.false_and, Bool.not_false, Bool.and_true] at hw'
        simp only [reduceCtorEq, decide_false, Bool.false_and, Bool.not_false, Bool.and_true,
          decide_true, Bool.true_and]
        rw [← FdContext.has, hw', Bool.and_not_self]
    refine ⟨v, ?_, hvb, ?_, by simp [Op.ctl]⟩
    · simp only [step, cancelAll, hc, Bool.true_eq_false, if_false, he, if_true]
      change Option.map _ (Option.bind _ _) = _
      rw [show ((s.setEpoll fd 0).table fd).events = (s.table fd).events from rfl, hu]
      simp [hv]
    · exact hw.update fd _ (hve.trans hue) hnone (fun i hi => (hvt i hi).trans (hut i hi))
  · refine Settled.same h hw ?_
    simp only [step, cancelAll]
    by_cases he : (s.table fd).events = 0 <;> cases hc' : s.covers fd <;> cases ctl <;> simp_all

theorem dispatch_settled {s : State} (h : Books s) (hw : Watched s) {fd : Nat} {report : BitVec 32}
    {ctl : Bool} (ha : Admissible s (.dispatch fd report ctl)) : Settled s (.dispatch fd report ctl) := by
  by_cases hc : (s.table fd).events &&& realEvent report ≠ 0 ∧ ctl = true
  · obtain ⟨hz, rfl⟩ := hc
    have hbit : ∀ e, realEvent report &&& e.mask ≠ 0 → (s.table fd).has e = true :=
      fun e he => ha e ((realEvent_bit report e) ▸ bne_iff_ne.mpr he)
    obtain ⟨u, hu, hub, hue, hut, huh⟩ := (h.setEpoll fd ((s.table fd).events &&& ~~~realEvent report)).triggerIf
      (realEvent report) fd .read (show Consumer.dispatch ≠ .delEvent by simp) (hbit .read)
    obtain ⟨v, hv, hvb, hve, hvt, hvh⟩ := hub.triggerIf (realEvent report) fd .write
      (show Consumer.dispatch ≠ .delEvent by simp) (fun he => by simpa [huh] using hbit .write he)
    have hleft : (v.table fd).events = (s.table fd).events &&& ~~~realEvent report := by
      rw [(hvb.sound.ok fd).mask, (h.sound.ok fd).mask, realEvent_eq, maskOf_diff]
      congr 1
      funext d
      rw [hvh, huh, realEvent_bit, realEvent_bit]
      cases d <;> simp
    refine ⟨v, ?_, hvb, ?_, by simp [Op.ctl]⟩
    · simp only [step, dispatch, hz, if_false, if_true]
      rw [hu]
      exact hv
    · exact hw.update fd _ (hve.trans hue) hleft (fun i hi => (hvt i hi).trans (hut i hi))
  · refine Settled.same h hw ?_
    simp only [step, dispatch]
    by_cases he : (s.table fd).events &&& realEvent report = 0 <;> cases ctl <;> simp_all

theorem step_settled {s : State} (h : Books s) (hw : Watched s) {op : Op} (ha : Admissible s op)
    (hfit : op.Fits) : Settled s op := by
  cases op with
  | addEvent fd e cb who ctl => exact addEvent_settled h hw ha hfit
  | delEvent fd e ctl => exact delEvent_settled h hw fd e ctl
  | cancelEvent fd e ctl => exact cancelEvent_settled h hw fd e ctl
  | cancelAll fd ctl => exact cancelAll_settled h hw fd ctl
  | dispatch fd report ctl => exact dispatch_settled h hw ha

theorem init_books : Books init where
  sound := init_sound
  size_lt := by decide
  size_ge := by decide
  pending := by rw [init_total]; rfl
  scheduler fd e h := by simp [init, empty_has] at h
  live_iff fd e := empty_has e
  held fd e i h := by simp [init] at h
  closed i r h := by simp [init] at h
  queue := List.Perm.refl _

theorem init_watched : Watched init := fun _ => rfl

/-- What the accounting promises about a state. -/
structure Ledger (s : State) : Prop where
  pending : s.pending = s.total
  beyond : ∀ fd, s.size ≤ fd → s.table fd = .empty
  bits : ∀ fd, (s.table fd).events = maskOf (s.table fd).has
  set_iff : ∀ fd e, (s.table fd).has e = true ↔ ((s.table fd).getContext e).scheduler.isSome = true ∧
    ((s.table fd).getContext e).cb.isSome = !((s.table fd).getContext e).fiber.isSome
  clear_iff : ∀ fd e, (s.table fd).has e = false ↔ (s.table fd).getContext e = .empty
  watched : ∀ fd, s.epoll fd = interest (s.table fd).events
  once : ∀ r ∈ s.history, (r.consumed = [] ∧ r.scheduled = []) ∨ ∃ how, r.consumed = [how] ∧
    r.scheduled = if how = .delEvent then [] else [(r.scheduler, r.task)]
  queued : s.queued.Perm (s.history.flatMap (·.scheduled))

theorem Books.ledger {s : State} (h : Books s) (hw : Watched s) : Ledger s where
  pending := h.pending
  beyond := h.sound.beyond
  bits fd := (h.sound.ok fd).mask
  set_iff fd e := by
    refine ⟨fun he => ⟨h.scheduler fd e he, (h.sound.ok fd).some_task e he⟩, fun hc => ?_⟩
    by_contra he
    rw [(h.sound.ok fd).empty e (by simpa using he)] at hc
    simp [EventContext.empty] at hc
  clear_iff fd e := by
    refine ⟨(h.sound.ok fd).empty e, fun hc => ?_⟩
    by_contra he
    have hs := h.scheduler fd e (by simpa using he)
    simp [hc, EventContext.empty] at hs
  watched := hw
  once r hr := by
    obtain ⟨i, hi⟩ := List.mem_iff_getElem?.mp hr
    rcases h.closed i r hi with hl | hdone
    · obtain ⟨r', hr', -, -, hc, hs, -⟩ := h.held _ _ _ hl
      rw [hi, Option.some.injEq] at hr'
      subst hr'
      exact .inl ⟨hc, hs⟩
    · exact .inr hdone
  queued := h.queue

/-- Event accounting: as long as no table outgrows an `int`, every state that
admissible calls reach has consistent books, the next call passes all
assertions, and a failed `epoll_ctl` leaves everything as it was. -/
theorem accounting_of_run {s : State}
    (h : Run (· = init) step (fun s op => Admissible s op ∧ op.Fits) s) :
    Ledger s ∧ ∀ op, Admissible s op → op.Fits →
      ∃ t, step s op = some t ∧ (op.ctl = false → Unchanged s t) := by
  have hb : Books s ∧ Watched s := by
    refine Run.invariant (I := fun s => Books s ∧ Watched s) ?_ ?_ h
    · rintro s rfl
      exact ⟨init_books, init_watched⟩
    · rintro s op t ⟨hs, hw⟩ ⟨ha, hf⟩ ht
      obtain ⟨t', ht', htb, htw, -⟩ := step_settled hs hw ha hf
      rw [ht, Option.some.injEq] at ht'
      subst ht'
      exact ⟨htb, htw⟩
  refine ⟨hb.1.ledger hb.2, fun op ha hf => ?_⟩
  obtain ⟨t, ht, -, -, hu⟩ := step_settled hb.1 hb.2 ha hf
  exact ⟨t, ht, hu⟩

theorem accounting_three_calls :
    ∃ s, Run (· = init) step (fun s op => Admissible s op ∧ op.Fits) s ∧ s.pending = 1 ∧
      s.queued = [(7, .fiber 3)] ∧ Ledger s := by
  have h : (exec (guarded step (fun s op => Admissible s op ∧ op.Fits)) init
      [.addEvent 40 .read none ⟨some 7, 3, true⟩ true, .addEvent 40 .write (some 5) ⟨some 7, 4, true⟩ true,
        .dispatch 40 Event.read.mask true]).map (fun s => (s.pending, s.queued)) =
      some (1, [(7, .fiber 3)]) := by
    decide +kernel
  obtain ⟨s, hs, he⟩ := Option.map_eq_some_iff.mp h
  obtain ⟨hp, hq⟩ := Prod.mk.inj he
  have hrun : Run (· = init) step (fun s op => Admissible s op ∧ op.Fits) s :=
    Run.exec (.start rfl) _ hs
  exact ⟨s, hrun, hp, hq, (accounting_of_run hrun).1⟩

/-- A descriptor above 1431655765 makes the table larger than an `int` can
say, and the next call then shrinks it and drops a registered context. -/
theorem accounting_drops_context :
    ∃ s, Run (· = init) step Admissible s ∧ s.pending ≠ s.total := by
  have h : (exec (guarded step Admissible) init
      [.addEvent 100 .read none ⟨some 7, 3, true⟩ true,
        .addEvent 1500000000 .read none ⟨some 7, 4, true⟩ false,
        .addEvent 40 .read none ⟨some 7, 5, true⟩ false]).map (fun s => (s.pending, s.total)) =
      some (1, 0) := by
    decide +kernel
  obtain ⟨s, hs, he⟩ := Option.map_eq_some_iff.mp h
  obtain ⟨hp, ht⟩ := Prod.mk.inj he
  refine ⟨s, Run.exec (.start rfl) _ hs, ?_⟩
  rw [hp, ht]
  decide

end Windgent.IOManager
