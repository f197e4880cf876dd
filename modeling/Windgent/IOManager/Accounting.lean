import Windgent.IOManager.Events
import Windgent.Transition

namespace Windgent.IOManager

open MachineInt Transition

def maskOf (f : Event → Bool) : BitVec 32 :=
  (if f .read then Event.read.mask else 0) ||| (if f .write then Event.write.mask else 0)

theorem maskOf_has (f : Event → Bool) (e : Event) : (maskOf f &&& e.mask != 0) = f e := by
  unfold maskOf
  cases e <;> cases f .read <;> cases f .write <;> decide

theorem maskOf_eq_zero (f : Event → Bool) : maskOf f = 0 ↔ ∀ e, f e = false := by
  constructor
  · intro h e
    rw [← maskOf_has f e, h]
    cases e <;> decide
  · intro h
    simp [maskOf, h]

theorem maskOf_or (f : Event → Bool) (e : Event) :
    maskOf f ||| e.mask = maskOf (Function.update f e true) := by
  unfold maskOf
  cases e <;> simp only [Function.update_self, Function.update_of_ne, ne_eq, reduceCtorEq,
    not_false_eq_true] <;> cases f .read <;> cases f .write <;> decide

theorem maskOf_clear (f : Event → Bool) (e : Event) :
    maskOf f &&& ~~~e.mask = maskOf (Function.update f e false) := by
  unfold maskOf
  cases e <;> simp only [Function.update_self, Function.update_of_ne, ne_eq, reduceCtorEq,
    not_false_eq_true] <;> cases f .read <;> cases f .write <;> decide

theorem maskOf_and (f g : Event → Bool) : maskOf f &&& maskOf g = maskOf (fun e => f e && g e) := by
  have h : ∀ a b c d : Bool,
      ((if a then Event.read.mask else 0) ||| (if b then Event.write.mask else 0)) &&&
        ((if c then Event.read.mask else 0) ||| (if d then Event.write.mask else 0)) =
      (if (a && c) then Event.read.mask else 0) ||| (if (b && d) then Event.write.mask else 0) := by
    decide
  exact h _ _ _ _

theorem maskOf_diff (f g : Event → Bool) :
    maskOf f &&& ~~~(maskOf g) = maskOf (fun e => f e && !g e) := by
  have h : ∀ a b c d : Bool,
      ((if a then Event.read.mask else 0) ||| (if b then Event.write.mask else 0)) &&&
        ~~~((if c then Event.read.mask else 0) ||| (if d then Event.write.mask else 0)) =
      (if (a && !c) then Event.read.mask else 0) ||| (if (b && !d) then Event.write.mask else 0) := by
    decide
  exact h _ _ _ _

/-- A direction is reported by its own bit or by an error or hang-up. -/
def reported (report : BitVec 32) (e : Event) : Bool :=
  report &&& e.mask != 0 || report &&& (EPOLLERR ||| EPOLLHUP) != 0

theorem both_directions (report : BitVec 32) (e : Event) :
    (report ||| Event.read.mask ||| Event.write.mask) &&& e.mask ≠ 0 := by
  intro h
  cases e with
  | read => simpa [Event.mask] using congrArg (fun b => b.getLsbD 0) h
  | write => simpa [Event.mask] using congrArg (fun b => b.getLsbD 2) h

theorem realEvent_eq (report : BitVec 32) : realEvent report = maskOf (reported report) := by
  by_cases he : report &&& (EPOLLERR ||| EPOLLHUP) = 0
  · simp only [realEvent, maskOf, reported, he, ne_eq, not_true_eq_false, if_false, bne_self_eq_false,
      Bool.or_false, bne_iff_ne]
  · simp only [realEvent, maskOf, reported, he, ne_eq, not_false_eq_true, if_true, both_directions,
      bne_iff_ne, Bool.or_eq_true, or_true]

theorem realEvent_bit (report : BitVec 32) (e : Event) :
    (realEvent report &&& e.mask != 0) = reported report e := by
  rw [realEvent_eq, maskOf_has]

/-- A context agrees with its event mask: a watched direction holds exactly one
of a callback and a fiber, an unwatched one holds nothing. -/
structure FdContext.Ok (c : FdContext) : Prop where
  mask : c.events = maskOf c.has
  some_task : ∀ e, c.has e = true → ((c.getContext e).cb.isSome = !(c.getContext e).fiber.isSome)
  empty : ∀ e, c.has e = false → c.getContext e = .empty

def FdContext.count (c : FdContext) : Nat := (if c.has .read then 1 else 0) + (if c.has .write then 1 else 0)

theorem empty_has (e : Event) : FdContext.empty.has e = false := by
  cases e <;> decide

theorem count_empty : FdContext.empty.count = 0 := by decide

theorem empty_ok : FdContext.empty.Ok where
  mask := ((maskOf_eq_zero _).mpr empty_has).symm
  some_task e h := by simp [empty_has] at h
  empty e _ := by cases e <;> rfl

def FdContext.put (c : FdContext) (f : Event → Bool) (e : Event) (ctx : EventContext) : FdContext :=
  ({ c with events := maskOf f }).setContext e ctx

@[simp] theorem put_has (c : FdContext) (f : Event → Bool) (e d : Event) (ctx : EventContext) :
    (c.put f e ctx).has d = f d := by
  have h : (c.put f e ctx).events = maskOf f := by cases e <;> rfl
  rw [FdContext.has, h, maskOf_has]

@[simp] theorem put_getContext (c : FdContext) (f : Event → Bool) (e d : Event)
    (ctx : EventContext) : (c.put f e ctx).getContext d = if d = e then ctx else c.getContext d := by
  cases e <;> cases d <;> rfl

@[simp] theorem put_events (c : FdContext) (f : Event → Bool) (e : Event) (ctx : EventContext) :
    (c.put f e ctx).events = maskOf f := by
  cases e <;> rfl

theorem FdContext.Ok.clear {c : FdContext} (h : c.Ok) (e : Event) :
    (c.put (Function.update c.has e false) e .empty).Ok := by
  refine ⟨by rw [put_events]; congr 1; funext d; rw [put_has], ?_, ?_⟩
  · intro d hd
    have hne : d ≠ e := by
      rintro rfl
      simp at hd
    have hd' : c.has d = true := by simpa [hne] using hd
    simpa [hne] using h.some_task d hd'
  · intro d hd
    by_cases hde : d = e
    · simp [hde]
    · have hd' : c.has d = false := by simpa [hde] using hd
      simpa [hde] using h.empty d hd'

theorem FdContext.Ok.set {c : FdContext} (h : c.Ok) (e : Event) {ctx : EventContext}
    (hctx : ctx.cb.isSome = !ctx.fiber.isSome) :
    (c.put (Function.update c.has e true) e ctx).Ok := by
  refine ⟨by rw [put_events]; congr 1; funext d; rw [put_has], ?_, ?_⟩
  · intro d hd
    by_cases hde : d = e
    · simpa [hde] using hctx
    · have hd' : c.has d = true := by simpa [hde] using hd
      simpa [hde] using h.some_task d hd'
  · intro d hd
    have hne : d ≠ e := by
      rintro rfl
      simp at hd
    have hd' : c.has d = false := by simpa [hne] using hd
    simpa [hne] using h.empty d hd'

theorem count_put (c : FdContext) (f : Event → Bool) (e : Event) (ctx : EventContext) :
    (c.put f e ctx).count = (if f .read then 1 else 0) + (if f .write then 1 else 0) := by
  simp only [FdContext.count, put_has]

theorem count_clear (c : FdContext) {e : Event} (h : c.has e = true) :
    (c.put (Function.update c.has e false) e .empty).count + 1 = c.count := by
  rw [count_put]
  unfold FdContext.count
  cases e with
  | read => simp [h]; omega
  | write => simp [h]

theorem count_set (c : FdContext) {e : Event} (h : c.has e = false) (ctx : EventContext) :
    (c.put (Function.update c.has e true) e ctx).count = c.count + 1 := by
  rw [count_put]
  unfold FdContext.count
  cases e with
  | read => simp [h]; omega
  | write => simp [h]

theorem takeTask_spec {ctx : EventContext} (h : ctx.cb.isSome = !ctx.fiber.isSome) :
    ∃ task, ctx.takeTask = (some task, .empty) := by
  obtain ⟨sched, fiber, cb⟩ := ctx
  cases cb with
  | some c =>
    cases fiber with
    | some f => simp at h
    | none => exact ⟨.cb c, rfl⟩
  | none =>
    cases fiber with
    | some f => exact ⟨.fiber f, rfl⟩
    | none => simp at h

theorem triggerEvent_spec {c : FdContext} (h : c.Ok) {e : Event} (he : c.has e = true) {sched : Nat}
    (hs : (c.getContext e).scheduler = some sched) :
    ∃ task, (c.getContext e).takeTask.1 = some task ∧
      c.triggerEvent e = some (c.put (Function.update c.has e false) e .empty, [(sched, task)]) := by
  obtain ⟨task, ht⟩ := takeTask_spec (h.some_task e he)
  refine ⟨task, by rw [ht], ?_⟩
  have hm : c.events &&& ~~~e.mask = maskOf (Function.update c.has e false) := by
    rw [h.mask, maskOf_clear]
  simp only [FdContext.triggerEvent, he, if_true, hs, Option.map_some, ht, hm, FdContext.put,
    Option.toList_some, List.map_cons, List.map_nil]

def State.total (s : State) : Nat := ∑ fd ∈ Finset.range s.size, (s.table fd).count

theorem total_congr {s t : State} (hs : t.size = s.size) (ht : t.table = s.table) :
    t.total = s.total := by
  unfold State.total
  rw [hs, ht]

theorem total_update (s : State) {fd : Nat} (hfd : fd < s.size) (c : FdContext) :
    (s.setFd fd c).total + (s.table fd).count = s.total + c.count := by
  have hm : fd ∈ Finset.range s.size := Finset.mem_range.mpr hfd
  have h1 := Finset.add_sum_erase (Finset.range s.size) (fun i => (s.table i).count) hm
  have h2 := Finset.add_sum_erase (Finset.range s.size) (fun i => ((s.setFd fd c).table i).count) hm
  have h3 : ∑ i ∈ (Finset.range s.size).erase fd, ((s.setFd fd c).table i).count =
      ∑ i ∈ (Finset.range s.size).erase fd, (s.table i).count := by
    apply Finset.sum_congr rfl
    intro i hi
    simp [State.setFd, Finset.ne_of_mem_erase hi]
  have h4 : (s.setFd fd c).table fd = c := by simp [State.setFd]
  simp only [h4, h3] at h2
  change (s.setFd fd c).total + _ = _
  unfold State.total
  simp only [State.setFd] at *
  omega

theorem contextResize_table (s : State) (hs : ∀ fd, s.size ≤ fd → s.table fd = .empty) {n : Nat}
    (hn : s.size ≤ n) : (contextResize s n).table = s.table := by
  funext fd
  by_cases hfd : fd < n
  · simp [contextResize, hfd]
  · simp [contextResize, hfd, hs fd (by omega)]

theorem sum_beyond (s : State) (hs : ∀ fd, s.size ≤ fd → s.table fd = .empty) {n : Nat}
    (hn : s.size ≤ n) : ∑ fd ∈ Finset.range n, (s.table fd).count = s.total := by
  symm
  apply Finset.sum_subset (Finset.range_mono hn)
  intro fd _ hfd
  rw [hs fd (Nat.le_of_not_lt (fun h => hfd (Finset.mem_range.mpr h)))]
  decide

theorem total_resize (s : State) (hs : ∀ fd, s.size ≤ fd → s.table fd = .empty) {n : Nat}
    (hn : s.size ≤ n) : (contextResize s n).total = s.total := by
  rw [← sum_beyond s hs hn]
  change ∑ fd ∈ Finset.range n, ((contextResize s n).table fd).count = _
  rw [contextResize_table s hs hn]

theorem total_resize_le (s : State) (hs : ∀ fd, s.size ≤ fd → s.table fd = .empty) (n : Nat) :
    (contextResize s n).total ≤ s.total := by
  calc (contextResize s n).total
      = ∑ fd ∈ Finset.range n, (s.table fd).count := by
        apply Finset.sum_congr rfl
        intro fd hfd
        have hlt : fd < n := Finset.mem_range.mp hfd
        simp [contextResize, hlt]
    _ ≤ ∑ fd ∈ Finset.range (max n s.size), (s.table fd).count :=
        Finset.sum_le_sum_of_subset (Finset.range_mono (le_max_left _ _))
    _ = s.total := sum_beyond s hs (le_max_right _ _)

/-- What every run keeps, however large the descriptors are. -/
structure Sound (s : State) : Prop where
  ok : ∀ fd, (s.table fd).Ok
  beyond : ∀ fd, s.size ≤ fd → s.table fd = .empty
  total_le : (s.total : Int) ≤ s.pending

def State.release (s : State) (fd : Nat) (e : Event) (how : Consumer) (out : List (Nat × Task)) :
    State :=
  let t := (s.setFd fd ((s.table fd).put (Function.update (s.table fd).has e false) e .empty)).consume
    fd e how out
  { t with queued := t.queued ++ out, pending := t.pending - 1 }

section Consume

variable (s : State) (fd : Nat) (e : Event) (how : Consumer) (out : List (Nat × Task))

@[simp] theorem consume_size : (s.consume fd e how out).size = s.size := by
  unfold State.consume; split <;> rfl

@[simp] theorem consume_table : (s.consume fd e how out).table = s.table := by
  unfold State.consume; split <;> rfl

@[simp] theorem consume_pending : (s.consume fd e how out).pending = s.pending := by
  unfold State.consume; split <;> rfl

@[simp] theorem consume_epoll : (s.consume fd e how out).epoll = s.epoll := by
  unfold State.consume; split <;> rfl

@[simp] theorem consume_queued : (s.consume fd e how out).queued = s.queued := by
  unfold State.consume; split <;> rfl

@[simp] theorem release_size : (s.release fd e how out).size = s.size := by
  simp [State.release, State.setFd]

@[simp] theorem release_table : (s.release fd e how out).table = Function.update s.table fd
    ((s.table fd).put (Function.update (s.table fd).has e false) e .empty) := by
  simp [State.release, State.setFd]

@[simp] theorem release_pending : (s.release fd e how out).pending = s.pending - 1 := by
  simp [State.release, State.setFd]

@[simp] theorem release_epoll : (s.release fd e how out).epoll = s.epoll := by
  simp [State.release, State.setFd]

@[simp] theorem release_queued : (s.release fd e how out).queued = s.queued ++ out := by
  simp [State.release, State.setFd]

theorem release_history {i : Nat} (h : s.live fd e = some i) :
    (s.release fd e how out).history = s.history.modify i
      (fun r => { r with consumed := r.consumed ++ [how], scheduled := r.scheduled ++ out }) ∧
    (s.release fd e how out).live = Function.update s.live fd (Function.update (s.live fd) e none) := by
  simp [State.release, State.setFd, State.consume, h]

end Consume

theorem Sound.lt_size {s : State} (h : Sound s) {fd : Nat} {e : Event}
    (he : (s.table fd).has e = true) : fd < s.size := by
  by_contra hn
  rw [h.beyond fd (Nat.le_of_not_lt hn), empty_has] at he
  simp at he

theorem release_total {s : State} (h : Sound s) {fd : Nat} {e : Event}
    (he : (s.table fd).has e = true) (how : Consumer) (out : List (Nat × Task)) :
    (s.release fd e how out).total + 1 = s.total := by
  have hfd := h.lt_size he
  have ht := total_update s hfd
    ((s.table fd).put (Function.update (s.table fd).has e false) e .empty)
  have hc := count_clear (s.table fd) he
  have hr : (s.release fd e how out).total =
      (s.setFd fd ((s.table fd).put (Function.update (s.table fd).has e false) e .empty)).total :=
    total_congr (by simp [State.setFd]) (by simp [State.setFd])
  omega

theorem Sound.release {s : State} (h : Sound s) {fd : Nat} {e : Event}
    (he : (s.table fd).has e = true) (how : Consumer) (out : List (Nat × Task)) :
    Sound (s.release fd e how out) := by
  have hfd := h.lt_size he
  refine ⟨?_, ?_, ?_⟩
  · intro i
    by_cases hi : i = fd
    · subst hi
      simpa using (h.ok i).clear e
    · simpa [hi] using h.ok i
  · intro i hi
    have hne : i ≠ fd := by simp at hi; omega
    simpa [hne] using h.beyond i (by simpa using hi)
  · have ht := release_total h he how out
    have hl := h.total_le
    rw [release_pending]
    omega

@[simp] theorem setEpoll_table (s : State) (fd : Nat) (m : BitVec 32) :
    (s.setEpoll fd m).table = s.table := rfl

theorem Sound.setEpoll {s : State} (h : Sound s) (fd : Nat) (m : BitVec 32) :
    Sound (s.setEpoll fd m) := ⟨h.ok, h.beyond, h.total_le⟩

theorem trigger_spec {s : State} (h : Sound s) {fd : Nat} {e : Event}
    (he : (s.table fd).has e = true) {sched : Nat}
    (hs : ((s.table fd).getContext e).scheduler = some sched) (how : Consumer) :
    ∃ task, ((s.table fd).getContext e).takeTask.1 = some task ∧
      s.trigger fd e how = some (s.release fd e how [(sched, task)]) := by
  obtain ⟨task, ht, htr⟩ := triggerEvent_spec (h.ok fd) he hs
  exact ⟨task, ht, by simp only [State.trigger, htr, Option.map_some, State.release]⟩

theorem trigger_none {s : State} {fd : Nat} {e : Event} (how : Consumer)
    (h : (s.table fd).has e = false ∨ ((s.table fd).getContext e).scheduler = none) :
    s.trigger fd e how = none := by
  rcases h with h | h <;> simp [State.trigger, FdContext.triggerEvent, h]

theorem triggerIf_spec {s : State} (h : Sound s) {m : BitVec 32} {fd : Nat} {e : Event}
    (hm : m &&& e.mask ≠ 0 → (s.table fd).has e = true ∧
      ((s.table fd).getContext e).scheduler.isSome = true) (how : Consumer) :
    (m &&& e.mask = 0 ∧ s.triggerIf m fd e how = some s) ∨
      (m &&& e.mask ≠ 0 ∧ ∃ sched task, ((s.table fd).getContext e).scheduler = some sched ∧
        ((s.table fd).getContext e).takeTask.1 = some task ∧
        s.triggerIf m fd e how = some (s.release fd e how [(sched, task)])) := by
  unfold State.triggerIf
  by_cases hz : m &&& e.mask = 0
  · exact .inl ⟨hz, by rw [if_pos hz]⟩
  · obtain ⟨he, hs⟩ := hm hz
    obtain ⟨sched, hsched⟩ := Option.isSome_iff_exists.mp hs
    obtain ⟨task, htask, htr⟩ := trigger_spec h he hsched how
    exact .inr ⟨hz, sched, task, hsched, htask, by rw [if_neg hz, htr]⟩

theorem Sound.trigger {s t : State} (h : Sound s) {fd : Nat} {e : Event} {how : Consumer}
    (ht : s.trigger fd e how = some t) : Sound t := by
  cases he : (s.table fd).has e with
  | false => simp [trigger_none how (.inl he)] at ht
  | true =>
    cases hs : ((s.table fd).getContext e).scheduler with
    | none => simp [trigger_none how (.inr hs)] at ht
    | some sched =>
      obtain ⟨task, -, htr⟩ := trigger_spec h he hs how
      rw [htr, Option.some.injEq] at ht
      exact ht ▸ h.release he how _

theorem Sound.triggerIf {s t : State} (h : Sound s) {m : BitVec 32} {fd : Nat} {e : Event}
    {how : Consumer} (ht : s.triggerIf m fd e how = some t) : Sound t := by
  unfold State.triggerIf at ht
  split at ht
  · exact Option.some.inj ht ▸ h
  · exact h.trigger ht

theorem Sound.contextResize {s : State} (h : Sound s) (n : Nat) : Sound (contextResize s n) := by
  refine ⟨?_, ?_, ?_⟩
  · intro fd
    change (if fd < n then s.table fd else .empty).Ok
    split
    · exact h.ok fd
    · exact empty_ok
  · intro fd hfd
    change n ≤ fd at hfd
    simp [IOManager.contextResize, Nat.not_lt.mpr hfd]
  · have hle := total_resize_le s h.beyond n
    have hp := h.total_le
    change ((IOManager.contextResize s n).total : Int) ≤ s.pending
    omega

/-- What a successful registration writes into the table. -/
theorem register_spec {s t : State} (h : Sound s) {fd : Nat} {e : Event} {cb : Option Nat}
    {who : Caller} (he : (s.table fd).has e = false) (hr : register s fd e cb who = some t) :
    ∃ ctx task, ctx.scheduler = who.scheduler ∧ ctx.cb.isSome = !ctx.fiber.isSome ∧
      ctx.takeTask.1 = some task ∧ t.size = s.size ∧ t.epoll = s.epoll ∧ t.queued = s.queued ∧
      t.pending = s.pending + 1 ∧
      t.table = Function.update s.table fd
        ((s.table fd).put (Function.update (s.table fd).has e true) e ctx) ∧
      t.history = s.history ++ [⟨fd, e, who.scheduler.getD 0, task, [], []⟩] ∧
      t.live = Function.update s.live fd (Function.update (s.live fd) e (some s.history.length)) := by
  have hm : (s.table fd).events ||| e.mask = maskOf (Function.update (s.table fd).has e true) := by
    rw [(h.ok fd).mask, maskOf_or]
  unfold register at hr
  rw [if_neg (not_not.mpr ((h.ok fd).empty e he))] at hr
  split at hr
  · simp at hr
  · simp only [Option.some.injEq] at hr
    subst hr
    cases cb with
    | some f =>
      refine ⟨⟨who.scheduler, none, some f⟩, .cb f, rfl, rfl, rfl, rfl, rfl, rfl, rfl, ?_, rfl, rfl⟩
      simp only [State.setFd, hm, FdContext.put]
    | none =>
      refine ⟨⟨who.scheduler, some who.fiber, none⟩, .fiber who.fiber, rfl, rfl, rfl, rfl, rfl, rfl,
        rfl, ?_, rfl, rfl⟩
      simp only [State.setFd, hm, FdContext.put]

theorem register_total {s t : State} {fd : Nat} (hfd : fd < s.size) {e : Event}
    (he : (s.table fd).has e = false) {ctx : EventContext} (hsize : t.size = s.size)
    (ht : t.table = Function.update s.table fd
      ((s.table fd).put (Function.update (s.table fd).has e true) e ctx)) :
    t.total = s.total + 1 := by
  have hu := total_update s hfd ((s.table fd).put (Function.update (s.table fd).has e true) e ctx)
  have hc := count_set (s.table fd) he ctx
  have hr := total_congr (s := s.setFd fd
    ((s.table fd).put (Function.update (s.table fd).has e true) e ctx)) (t := t) hsize ht
  omega

theorem Sound.register {s t : State} (h : Sound s) {fd : Nat} {e : Event} {cb : Option Nat}
    {who : Caller} (hfd : fd < s.size) (he : (s.table fd).has e = false)
    (hr : register s fd e cb who = some t) : Sound t := by
  obtain ⟨ctx, task, -, hone, -, hsize, -, -, hpend, htable, -, -⟩ := register_spec h he hr
  refine ⟨?_, ?_, ?_⟩
  · intro i
    rw [htable]
    by_cases hi : i = fd
    · subst hi
      simpa using (h.ok i).set e hone
    · simpa [hi] using h.ok i
  · intro i hi
    rw [hsize] at hi
    have hne : i ≠ fd := by omega
    rw [htable]
    simpa [hne] using h.beyond i hi
  · have ht := register_total hfd he hsize htable
    have hl := h.total_le
    rw [hpend]
    omega

theorem addEventLocked_cases {s t : State} {fd : Nat} {e : Event} {cb : Option Nat} {who : Caller}
    {ctl : Bool} {r : Int} (h : addEventLocked s fd e cb who ctl = some (t, r)) :
    fd < s.size ∧ (s.table fd).has e = false ∧ ((ctl = false ∧ t = s) ∨ (ctl = true ∧
      register (s.setEpoll fd ((s.table fd).events ||| e.mask)) fd e cb who = some t)) := by
  unfold addEventLocked at h
  split at h
  · simp at h
  · split at h
    · simp at h
    · rename_i hs hh
      refine ⟨Nat.lt_of_not_le hs, by simpa using hh, ?_⟩
      cases ctl with
      | false =>
        simp only [Bool.false_eq_true, if_false, Option.some.injEq, Prod.mk.injEq] at h
        exact .inl ⟨rfl, h.1.symm⟩
      | true =>
        simp only [if_true, Option.map_eq_some_iff, Prod.mk.injEq] at h
        obtain ⟨u, hu, rfl, -⟩ := h
        exact .inr ⟨rfl, hu⟩

theorem delEvent_eq {s : State} (h : Sound s) {fd : Nat} {e : Event} (hc : s.covers fd = true)
    (he : (s.table fd).has e = true) :
    (delEvent s fd e true).1 =
      (s.setEpoll fd ((s.table fd).events &&& ~~~e.mask)).release fd e .delEvent [] := by
  have hm : (s.table fd).events &&& ~~~e.mask = maskOf (Function.update (s.table fd).has e false) := by
    rw [(h.ok fd).mask, maskOf_clear]
  simp only [delEvent, hc, he, Bool.true_eq_false, if_false, if_true, State.release, hm, FdContext.put]
  unfold State.consume
  simp only [State.setFd, State.setEpoll]
  cases s.live fd e <;> simp

theorem delEvent_unchanged {s : State} {fd : Nat} {e : Event} {ctl : Bool}
    (h : ¬ (s.covers fd = true ∧ (s.table fd).has e = true ∧ ctl = true)) :
    (delEvent s fd e ctl).1 = s := by
  unfold delEvent
  cases hc : s.covers fd <;> cases he : (s.table fd).has e <;> cases ctl <;> simp_all

theorem Sound.lookup {s : State} (h : Sound s) (fd : Nat) : Sound (s.lookup fd) := by
  unfold State.lookup
  split
  · exact h
  · exact h.contextResize _

theorem Sound.addEventLocked {s t : State} (h : Sound s) {fd : Nat} {e : Event} {cb : Option Nat}
    {who : Caller} {ctl : Bool} {r : Int} (ha : addEventLocked s fd e cb who ctl = some (t, r)) :
    Sound t := by
  obtain ⟨hfd, he, ⟨-, rfl⟩ | ⟨-, hr⟩⟩ := addEventLocked_cases ha
  · exact h
  · exact (h.setEpoll fd _).register hfd he hr

theorem Sound.step {s t : State} (h : Sound s) {op : Op} (ht : step s op = some t) : Sound t := by
  cases op with
  | addEvent fd e cb who ctl =>
    simp only [IOManager.step, Option.map_eq_some_iff] at ht
    obtain ⟨⟨u, r⟩, hu, rfl⟩ := ht
    exact (h.lookup fd).addEventLocked hu
  | delEvent fd e ctl =>
    simp only [IOManager.step, Option.some.injEq] at ht
    subst ht
    by_cases hc : s.covers fd = true ∧ (s.table fd).has e = true ∧ ctl = true
    · obtain ⟨hc, he, rfl⟩ := hc
      rw [delEvent_eq h hc he]
      exact (h.setEpoll fd _).release he _ _
    · rwa [delEvent_unchanged hc]
  | cancelEvent fd e ctl =>
    simp only [IOManager.step, Option.map_eq_some_iff] at ht
    obtain ⟨⟨u, r⟩, hu, rfl⟩ := ht
    unfold cancelEvent at hu
    split at hu
    · cases hu; exact h
    · split at hu
      · cases hu; exact h
      · split at hu
        · obtain ⟨v, hv, he⟩ := Option.map_eq_some_iff.mp hu
          cases he
          exact (h.setEpoll fd _).trigger hv
        · cases hu; exact h
  | cancelAll fd ctl =>
    simp only [IOManager.step, Option.map_eq_some_iff] at ht
    obtain ⟨⟨u, r⟩, hu, rfl⟩ := ht
    unfold cancelAll at hu
    split at hu
    · cases hu; exact h
    · split at hu
      · cases hu; exact h
      · split at hu
        · simp only [Option.bind_eq_bind, Option.bind_eq_some_iff] at hu
          obtain ⟨v, hv, w, hw, he⟩ := hu
          cases he
          exact ((h.setEpoll fd 0).triggerIf hv).triggerIf hw
        · cases hu; exact h
  | dispatch fd report ctl =>
    simp only [IOManager.step, IOManager.dispatch] at ht
    split at ht
    · cases ht; exact h
    · split at ht
      · simp only [Option.bind_eq_bind, Option.bind_eq_some_iff] at ht
        obtain ⟨v, hv, hw⟩ := ht
        exact ((h.setEpoll fd _).triggerIf hv).triggerIf hw
      · cases ht; exact h

theorem init_total : init.total = 0 := Finset.sum_eq_zero (fun _ _ => count_empty)

theorem init_sound : Sound init where
  ok _ := empty_ok
  beyond _ _ := rfl
  total_le := by
    rw [init_total]
    rfl

end Windgent.IOManager
