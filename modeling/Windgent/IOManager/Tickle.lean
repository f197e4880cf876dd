import Windgent.Scheduler.Shutdown
import Mathlib.Data.Fintype.Option

namespace Windgent.IOManager.Tickle

open Transition Scheduler Scheduler.Worker

variable {W : Type}

/-- Where the loop of `IOManager::idle` is at a worker: before `epoll_wait`, in it, or
behind it. -/
inductive Phase where
  | ahead
  | blocked
  | woken
deriving DecidableEq

/-- The scheduler, the idle loops, the calls of `tickle()` before their test and before
their write, by caller (`none` stands for the threads that are not workers), and the bytes
in the pipe. -/
structure System (W : Type) where
  base : Worker.State W
  phase : W → Phase
  testing : Option W → Nat
  writing : Option W → Nat
  pipe : Nat

inductive Step (W : Type) where
  | base (a : Action W)
  -- a call of `tickle()` by `stop` or by `onTimerInsertedAtFront`
  | tickle (who : Option W)
  -- `hasIdleThreads()`
  | test (who : Option W)
  | write (who : Option W)
  | epollWait (w : W)
  | epollReturn (w : W)
  | readPipe (w : W)

variable [DecidableEq W]

/-- `tickle_me` of the scan at the head of `run`: an entry has been passed over because of
its thread, or there are entries behind the one that has been taken. -/
def tickleMe (self : W) (state : Nat → FiberState) : List (FiberAndThread W) → Bool
  | [] => false
  | ft :: q =>
    if ft.threadId ≠ none ∧ ft.threadId ≠ some self then true
    else if skips self state ft then tickleMe self state q
    else !q.isEmpty

def actor (a : Action W) : Option W := a.worker.or (a.caller.getD none)

namespace System

variable (s : System W)

/-- A worker that is neither in a call of `tickle()` nor in `epoll_wait`. -/
def free (w : W) : Prop := s.testing (some w) = 0 ∧ s.writing (some w) = 0 ∧ s.phase w ≠ .blocked

instance (w : W) : Decidable (s.free w) := inferInstanceAs (Decidable (_ ∧ _ ∧ _))

def ready (who : Option W) : Bool := who.all fun w => decide (s.free w)

/-- Whether a worker can call `schedule()`: in a task, or behind `epoll_wait`. -/
def calls : Option W → Bool
  | none => true
  | some w =>
    match s.base.pc w with
    | .inside _ k => decide (k ≠ .idle ∨ s.phase w = .woken)
    | _ => false

def allows : Action W → Bool
  | .scheduleFiber who _ | .scheduleCb who _ _ | .wake who _ => s.calls who
  | .idleExit w => decide (s.phase w = .ahead)
  | .swapOut w => decide (s.phase w = .woken)
  | .yieldToHold w =>
    match s.base.pc w with
    | .inside _ k => decide (k ≠ .idle)
    | _ => false
  | _ => true

/-- Whether the step is followed by a call of `tickle()`, and by whom. -/
def notifies (a : Action W) : Option (Option W) :=
  match a with
  | .scheduleFiber who _ | .scheduleCb who _ _ | .wake who _ => if s.base.queue = [] then some who else none
  | .switchTo w _ => if s.base.queue = [] then some (some w) else none
  | .advance w =>
    match s.base.pc w with
    | .scan => if tickleMe w (fun n => s.base.state (.sub n)) s.base.queue then some (some w) else none
    | .putBack _ _ => if s.base.queue = [] then some (some w) else none
    | _ => none
  | _ => none

def call (who : Option (Option W)) : System W :=
  match who with
  | none => s
  | some who => { s with testing := Function.update s.testing who (s.testing who + 1) }

def loop (a : Action W) : System W :=
  match a with
  | .swapOut w => { s with phase := Function.update s.phase w .ahead }
  | _ => s

def step : Step W → Option (System W)
  | .base a =>
    if s.ready (actor a) = true ∧ s.allows a = true then
      (Worker.step s.base a).map fun b => { (s.call (s.notifies a)).loop a with base := b }
    else none
  | .tickle who =>
    if s.ready who = true ∧ s.calls who = true then some (s.call (some who)) else none
  | .test who =>
    if 0 < s.testing who then
      let testing := Function.update s.testing who (s.testing who - 1)
      if 0 < s.base.idle then
        some { s with testing := testing, writing := Function.update s.writing who (s.writing who + 1) }
      else some { s with testing := testing }
    else none
  | .write who =>
    if 0 < s.writing who then
      some { s with writing := Function.update s.writing who (s.writing who - 1), pipe := s.pipe + 1 }
    else none
  | .epollWait w =>
    match s.base.pc w with
    | .inside (.idle _) .idle =>
      if s.phase w = .ahead then some { s with phase := Function.update s.phase w .blocked } else none
    | _ => none
  | .epollReturn w =>
    if s.phase w = .blocked then some { s with phase := Function.update s.phase w .woken } else none
  | .readPipe w =>
    match s.base.pc w with
    | .inside (.idle _) .idle => if s.phase w = .woken then some { s with pipe := 0 } else none
    | _ => none

end System

/-- A worker at `p` is going to pass the scan before it blocks. -/
def Watching (p : Pc W) (woken : Bool) : Bool :=
  match p with
  | .left | .testIdle | .beginIdle => false
  | .swapIn _ k | .setExec _ k | .restore _ k => decide (k ≠ .idle)
  | .inside _ k => decide (k ≠ .idle) || woken
  | _ => true

namespace System

def watching (s : System W) (w : W) : Bool := Watching (s.base.pc w) (decide (s.phase w = .woken))

def InProgress (s : System W) : Prop := ∃ who, 0 < s.testing who + s.writing who

/-- A worker is going to scan, or a byte is in the pipe. -/
def Awake (s : System W) : Prop := (∃ w, s.watching w = true) ∨ 0 < s.pipe

def Runnable (s : System W) (ft : FiberAndThread W) : Prop :=
  ft ∈ s.base.queue ∧ ft.threadId = none ∧ ∀ n, ft.task = .fiber n → s.base.state (.sub n) ≠ .exec

/-- Such an entry over blocked workers and an empty pipe: the wake-up is still on its way. -/
def NoLostWakeup (s : System W) : Prop :=
  (∃ ft, s.Runnable ft) → (∀ w, s.phase w = .blocked) → s.pipe = 0 → s.InProgress

end System

def outsidePush : Action W → Bool
  | .scheduleFiber none none | .scheduleCb none _ none | .wake none _ => true
  | _ => false

/-- A wake-up is only left out while it is not needed: a task is added to a non-empty
queue, or no idle thread is found, while a worker is going to scan or a byte is in the
pipe. -/
def Heard (s : System W) : Step W → Prop
  | .base a => outsidePush a = true → s.base.queue ≠ [] → s.Awake ∨ s.InProgress
  | .test _ => s.base.idle ≤ 0 → (∃ ft, s.Runnable ft) → s.Awake
  | _ => True

section Watching

variable {s t : Worker.State W} {w : W} {b : Bool}

theorem watching_takeTask (s : Worker.State W) (w : W) (b : Bool) :
    Watching ((takeTask s w).pc w) b = true ∨
      scan w (fun n => s.state (.sub n)) s.queue = none ∧ (takeTask s w).queue = s.queue := by
  unfold takeTask
  split
  · exact .inr ⟨‹_›, rfl⟩
  · left
    split
    · simp [State.goto, Watching]
    · split <;> simp [State.goto, Watching]

theorem watching_advance (hw : Watching (s.pc w) b = true) (ht : advance s w = some t) (b' : Bool) :
    Watching (t.pc w) b' = true ∨
      s.pc w = .scan ∧ scan w (fun n => s.state (.sub n)) s.queue = none ∧ t.queue = s.queue := by
  cases hp : s.pc w with
  | fresh | inside f k => simp [advance, hp] at ht
  | left | testIdle | beginIdle => simp [hp, Watching] at hw
  | scan =>
    simp only [advance, hp, Option.some.injEq] at ht
    subst ht
    exact (watching_takeTask s w b').imp id fun h => ⟨rfl, h⟩
  | taken f =>
    simp only [advance, hp, Option.some.injEq] at ht
    subst ht
    left
    split <;> simp [State.goto, Watching]
  | resetting f run =>
    simp only [advance, hp, Option.ite_none_right_eq_some, Option.some.injEq] at ht
    obtain ⟨-, rfl⟩ := ht
    simp [State.goto, Watching]
  | setInit f run =>
    simp only [advance, hp, Option.some.injEq] at ht
    subst ht
    left
    split <;> simp [State.goto, Watching]
  | swapIn f k | yielding f k v =>
    simp only [advance, hp, Option.ite_none_right_eq_some, Option.some.injEq] at ht
    obtain ⟨-, rfl⟩ := ht
    simp_all [State.goto, Watching]
  | skip | setExec f k | restore f k | setState f k v | save f k | saved f k | putBack n k | setHold f k =>
    simp only [advance, hp, Option.some.injEq] at ht
    subst ht
    simp_all [State.goto, Watching]
  | decrement f k =>
    simp only [advance, hp, Option.some.injEq] at ht
    subst ht
    left
    split <;> simp [State.goto, Watching]
  | testEnd f k =>
    simp only [advance, hp, Option.some.injEq] at ht
    subst ht
    left
    by_cases he : ended (s.state f) = true
    · by_cases hk : k = .callback <;> simp [he, hk, State.goto, Watching]
    · simp [he, State.goto, Watching]
  | testReady f k =>
    cases f with
    | idle v => simp [advance, hp] at ht
    | sub n =>
      simp only [advance, hp, Option.some.injEq] at ht
      subst ht
      left
      split <;> simp [State.goto, Watching]

omit [DecidableEq W] in
theorem watching_of_kind (b : Bool) {p : Pc W} {f : Fiber W} {k : Kind} (hp : p.run = some (f, k))
    (hk : k ≠ .idle) : Watching p b = true := by
  cases p <;> simp_all [Pc.run, Watching]

omit [DecidableEq W] in
theorem watching_of_sub (hsane : (s.pc w).Sane w) {n : Nat} (hp : (s.pc w).fiber = some (.sub n)) (b : Bool) :
    Watching (s.pc w) b = true := by
  obtain ⟨⟨f, k⟩, hrun, rfl⟩ := Option.map_eq_some_iff.mp hp
  exact watching_of_kind b hrun fun hk => hsane.kind n (hk ▸ hrun)

theorem watching_step (hsane : (s.pc w).Sane w) {a : Action W} (ha : a.worker = some w)
    (hw : Watching (s.pc w) b = true) (ht : Worker.step s a = some t) (b' : Bool) :
    Watching (t.pc w) b' = true ∨ (s.pc w).fiber = none ∧ (s.pc w = .scan ∨ s.queue = []) ∧
      scan w (fun n => s.state (.sub n)) s.queue = none ∧ t.queue = s.queue := by
  cases a with
  | scheduleFiber who thd | scheduleCb who c thd | wake who m | stop => simp [Action.worker] at ha
  | enter v =>
    cases ha
    simp only [Worker.step, Option.ite_none_right_eq_some, Option.some.injEq] at ht
    rw [← ht.2]
    simp [State.goto, Watching]
  | bypass v =>
    cases ha
    simp only [Worker.step, Option.ite_none_right_eq_some, Option.some.injEq] at ht
    obtain ⟨⟨hp, -, hq, -⟩, rfl⟩ := ht
    exact .inr ⟨by rw [hp]; rfl, .inr hq, by rw [hq]; rfl, rfl⟩
  | register v =>
    cases ha
    simp only [Worker.step] at ht
    split at ht
    · rename_i n k hp
      rw [← Option.some.inj ht]
      exact .inl (watching_of_sub hsane (by rw [hp]; rfl) b')
    · simp at ht
  | switchTo v thd | yieldToHold v | yieldToReady v | finish v thrown | swapOut v =>
    cases ha
    simp only [Worker.step] at ht
    split at ht
    · rw [← Option.some.inj ht]
      simp [State.goto, Watching]
    · simp at ht
  | idleExit v =>
    cases ha
    simp only [Worker.step] at ht
    split at ht
    · rw [Option.ite_none_right_eq_some, Option.some.injEq] at ht
      rw [← ht.2]
      simp [State.goto, Watching]
    · simp at ht
  | advance v =>
    cases ha
    refine (watching_advance hw ht b').imp id ?_
    rintro ⟨hp, hscan, hq⟩
    exact ⟨by rw [hp]; rfl, .inl hp, hscan, hq⟩

end Watching

section Invariant

variable {s t : System W}

/-- Each entry that any worker could take is going to be seen. -/
structure Inv (s : System W) : Prop where
  sane : Sane s.base
  executed : Executed s.base
  parked : ∀ w, s.phase w = .blocked → ∃ v, s.base.pc w = .inside (.idle v) .idle
  covered : ∀ ft ∈ s.base.queue, ft.threadId = none → s.Awake ∨ s.InProgress

omit [DecidableEq W] in
theorem Inv.watching_of_exec (h : Inv s) {n : Nat} (hn : s.base.state (.sub n) = .exec) :
    ∃ v, (s.base.pc v).Active (.sub n) ∧ s.watching v = true := by
  obtain ⟨v, hv⟩ := h.executed n hn
  exact ⟨v, hv, watching_of_sub (h.sane.pc v) hv.fiber _⟩

omit [DecidableEq W] in
theorem System.InProgress.mono (h : s.InProgress) (ht : ∀ who, s.testing who ≤ t.testing who)
    (hw : ∀ who, s.writing who ≤ t.writing who) : t.InProgress := by
  obtain ⟨who, hwho⟩ := h
  exact ⟨who, by have := ht who; have := hw who; omega⟩

omit [DecidableEq W] in
theorem covered_mono (hwatch : ∀ v, s.watching v = true → t.Awake) (hpipe : t.pipe = s.pipe)
    (htesting : ∀ who, s.testing who ≤ t.testing who) (hwriting : ∀ who, s.writing who ≤ t.writing who)
    (h : s.Awake ∨ s.InProgress) : t.Awake ∨ t.InProgress := by
  obtain (⟨v, hv⟩ | hp) | hprogress := h
  · exact .inl (hwatch v hv)
  · exact .inl (.inr (hpipe ▸ hp))
  · exact .inr (hprogress.mono htesting hwriting)

theorem call_testing (s : System W) (n : Option (Option W)) (who : Option W) :
    s.testing who ≤ (s.call n).testing who := by
  cases n with
  | none => exact Nat.le_refl _
  | some who' =>
    by_cases he : who = who'
    · subst he
      simp [System.call]
    · simp [System.call, he]

theorem call_phase (s : System W) (n : Option (Option W)) : (s.call n).phase = s.phase := by
  cases n <;> rfl

theorem loop_phase (s : System W) {a : Action W} (h : ∀ w, a ≠ .swapOut w) : (s.loop a).phase = s.phase := by
  cases a with
  | swapOut w => exact absurd rfl (h w)
  | _ => rfl

theorem loop_blocked {s : System W} {a : Action W} {w : W} (h : (s.loop a).phase w = .blocked) :
    s.phase w = .blocked := by
  cases a with
  | swapOut v =>
    by_cases hv : w = v
    · simp [System.loop, hv] at h
    · simpa [System.loop, hv] using h
  | _ => exact h

theorem base_fields (s : System W) (n : Option (Option W)) (a : Action W) :
    ((s.call n).loop a).testing = (s.call n).testing ∧ ((s.call n).loop a).writing = s.writing ∧
      ((s.call n).loop a).pipe = s.pipe ∧
      ∀ v, a.worker ≠ some v → ((s.call n).loop a).phase v = s.phase v := by
  have hphase := call_phase s n
  have hwriting : (s.call n).writing = s.writing := by cases n <;> rfl
  have hpipe : (s.call n).pipe = s.pipe := by cases n <;> rfl
  cases a with
  | swapOut w =>
    refine ⟨rfl, hwriting, hpipe, fun v hv => ?_⟩
    have hne : v ≠ w := fun he => hv (by rw [he]; rfl)
    exact (Function.update_of_ne hne _ _).trans (congrFun hphase v)
  | _ => exact ⟨rfl, hwriting, hpipe, fun v _ => congrFun hphase v⟩

theorem outsidePush_of_step {b c : Worker.State W} {a : Action W} (ha : a.caller = some none)
    (hb : Worker.step b a = some c) : ∀ ft ∈ c.queue, ft.threadId = none → ft ∈ b.queue ∨ outsidePush a = true := by
  intro ft hft hthd
  cases a with
  | scheduleFiber who thd | scheduleCb who c thd =>
    cases ha
    simp only [Worker.step, Option.ite_none_right_eq_some, Option.some.injEq] at hb
    rw [← hb.2] at hft
    rcases List.mem_append.mp hft with hft | hft
    · exact .inl hft
    · obtain rfl := List.mem_singleton.mp hft
      cases hthd
      exact .inr rfl
  | wake who n =>
    cases ha
    exact .inr rfl
  | _ => cases ha

theorem notifies_call (s : System W) {a : Action W} {who : Option W} (ha : a.caller = some who)
    (hq : s.base.queue = []) : s.notifies a = some who := by
  cases a with
  | scheduleFiber who thd | scheduleCb who c thd | wake who n =>
    cases ha
    simp [System.notifies, hq]
  | _ => cases ha

omit [DecidableEq W] in
theorem calls_of_allows (s : System W) {a : Action W} {who : Option W} (ha : a.caller = some who)
    (hallows : s.allows a = true) : s.calls who = true := by
  cases a with
  | scheduleFiber who thd | scheduleCb who c thd | wake who n =>
    cases ha
    exact hallows
  | _ => cases ha

omit [DecidableEq W] in
theorem watching_of_calls (s : System W) {w : W} (h : s.calls (some w) = true) : s.watching w = true := by
  simp only [System.calls] at h
  split at h
  · rename_i f k hp
    rw [System.watching, hp]
    simpa [Watching] using h
  · cases h

/-- A step of a worker: whoever was going to see an entry still is. -/
theorem Inv.work (h : Inv s) {a : Action W} {w : W} (ha : a.worker = some w) (hb : Worker.step s.base a = some t.base)
    (he : Effect s.base t.base w) (hphase : ∀ v, a.worker ≠ some v → t.phase v = s.phase v) (hpipe : t.pipe = s.pipe)
    (htesting : ∀ who, s.testing who ≤ t.testing who) (hwriting : t.writing = s.writing) :
    ∀ ft ∈ t.base.queue, ft.threadId = none → t.Awake ∨ t.InProgress := by
  have hother : ∀ v, v ≠ w → s.watching v = true → t.watching v = true := by
    intro v hv hs
    have hne : a.worker ≠ some v := by simpa [ha] using hv.symm
    rwa [System.watching, he.pc v hv, hphase v hne]
  intro ft hft hthd
  have hself : s.watching w = true → t.Awake := by
    intro hs
    rcases watching_step (h.sane.pc w) ha hs hb (decide (t.phase w = .woken)) with ht | ⟨hfiber, hor, hscan, hq⟩
    · exact .inl ⟨w, ht⟩
    · -- what the scan has passed over for everybody is a running fiber
      have hskip := scan_none hscan ft (hq ▸ hft)
      obtain ⟨n, -, hn⟩ : ∃ n, ft.task = .fiber n ∧ s.base.state (.sub n) = .exec := by
        cases htask : ft.task <;> simp_all [skips]
      obtain ⟨v, hactive, hv⟩ := h.watching_of_exec hn
      refine .inl ⟨v, hother v (fun hvw => ?_) hv⟩
      rw [hvw] at hactive
      rw [hactive.fiber] at hfiber
      cases hfiber
  have hcovered : ft ∈ s.base.queue → t.Awake ∨ t.InProgress := by
    refine fun hmem => covered_mono (fun v hv => ?_) hpipe htesting (fun who => (congrFun hwriting who).ge)
      (h.covered ft hmem hthd)
    by_cases hvw : v = w
    · exact hself (hvw ▸ hv)
    · exact .inl ⟨v, hother v hvw hv⟩
  cases he.queue with
  | take x q hp hscan hq _ _ => exact hcovered (mem_of_scan hscan (hq ▸ hft))
  | none hq _ _ => exact hcovered (hq ▸ hft)
  | put n thd hp hq _ _ => exact .inl (hself (watching_of_sub (h.sane.pc w) hp _))

theorem Inv.base (h : Inv s) {a : Action W} {b : Worker.State W} (hheard : Heard s (.base a))
    (hready : s.ready (actor a) = true) (hallows : s.allows a = true) (hb : Worker.step s.base a = some b) :
    Inv { (s.call (s.notifies a)).loop a with base := b } := by
  have hblocked : ∀ v, ((s.call (s.notifies a)).loop a).phase v = .blocked → s.phase v = .blocked := by
    intro v hv
    rw [← call_phase s (s.notifies a)]
    exact loop_blocked hv
  obtain ⟨htesting, hwriting, hpipe, hphase⟩ := base_fields s (s.notifies a) a
  have hmono : ∀ who, s.testing who ≤ ((s.call (s.notifies a)).loop a).testing who := by
    rw [htesting]
    exact call_testing s _
  cases step_effect h.sane.pc hb with
  | work w ha he =>
    refine ⟨h.sane.step hb, exec_effect h.executed he, fun v hv => ?_, h.work ha hb he hphase hpipe hmono hwriting⟩
    have hne : v ≠ w := by
      rintro rfl
      have hfree : s.free v := by simpa [System.ready, actor, ha] using hready
      exact hfree.2.2 (hblocked v hv)
    rw [show ({ (s.call (s.notifies a)).loop a with base := b } : System W).base.pc v = s.base.pc v from he.pc v hne]
    exact h.parked v (hblocked v hv)
  | call who ha hrun hs =>
    have hworker : ∀ v, a.worker ≠ some v := by
      intro v hv
      cases a <;> simp_all [Action.worker, Action.caller]
    refine ⟨h.sane.step hb, exec_call h.executed hs, fun v hv => ?_, fun ft hft hthd => ?_⟩
    · obtain ⟨u, hu⟩ := h.parked v (hblocked v hv)
      exact ⟨u, (congrFun hs.pc v).trans hu⟩
    have hkeep : s.Awake ∨ s.InProgress →
        System.Awake { (s.call (s.notifies a)).loop a with base := b } ∨
          System.InProgress { (s.call (s.notifies a)).loop a with base := b } := by
      refine covered_mono (fun v hv => .inl ⟨v, ?_⟩) hpipe hmono fun who => (congrFun hwriting who).ge
      rwa [System.watching, hs.pc, hphase v (hworker v)]
    by_cases hq : s.base.queue = []
    · refine .inr ⟨who, ?_⟩
      have hlt : s.testing who < ((s.call (s.notifies a)).loop a).testing who := by
        rw [htesting, notifies_call s ha hq]
        simp [System.call]
      exact Nat.add_pos_left (Nat.zero_lt_of_lt hlt) _
    · by_cases hmem : ft ∈ s.base.queue
      · exact hkeep (h.covered ft hmem hthd)
      · cases who with
        | none =>
          have hpush := (outsidePush_of_step ha hb ft hft hthd).resolve_left hmem
          exact hkeep (hheard hpush hq)
        | some w => exact hkeep (.inl (.inl ⟨w, watching_of_calls s (calls_of_allows s ha hallows)⟩))
  | stop hstop =>
    have hloop : ∀ w, a ≠ .swapOut w := by
      rintro w rfl
      simp only [Worker.step] at hb
      split at hb
      · rename_i v k hp
        have hpc := congrArg (fun b => Worker.State.pc b w) ((Option.some.inj hb).trans hstop)
        simp [State.goto, hp] at hpc
      · cases hb
    have hsame : ∀ v, ((s.call (s.notifies a)).loop a).phase v = s.phase v := by
      intro v
      rw [loop_phase _ hloop, call_phase]
    subst hstop
    refine ⟨h.sane.step hb, h.executed, fun v hv => h.parked v (hblocked v hv), fun ft hft hthd => ?_⟩
    refine covered_mono (fun v hv => .inl ⟨v, ?_⟩) hpipe hmono (fun who => (congrFun hwriting who).ge)
      (h.covered ft hft hthd)
    rwa [System.watching, hsame v]

omit [DecidableEq W] in
theorem Inv.aside (h : Inv s) (hbase : t.base = s.base)
    (hparked : ∀ w, t.phase w = .blocked → s.phase w = .blocked ∨ ∃ v, s.base.pc w = .inside (.idle v) .idle)
    (hcovered : (∃ ft ∈ s.base.queue, ft.threadId = none) → s.Awake ∨ s.InProgress → t.Awake ∨ t.InProgress) :
    Inv t := by
  refine ⟨hbase ▸ h.sane, hbase ▸ h.executed, fun w hw => ?_, fun ft hft hthd => ?_⟩
  · rw [hbase]
    exact (hparked w hw).elim (h.parked w) id
  rw [hbase] at hft
  exact hcovered ⟨ft, hft, hthd⟩ (h.covered ft hft hthd)

theorem Inv.step (h : Inv s) {a : Step W} (hheard : Heard s a) (ht : s.step a = some t) : Inv t := by
  cases a with
  | base a =>
    simp only [System.step, Option.ite_none_right_eq_some, Option.map_eq_some_iff] at ht
    obtain ⟨⟨hready, hallows⟩, b, hb, rfl⟩ := ht
    exact h.base hheard hready hallows hb
  | tickle who =>
    simp only [System.step, Option.ite_none_right_eq_some, Option.some.injEq] at ht
    rw [← ht.2]
    refine h.aside rfl (fun _ => .inl) fun _ _ => .inr ⟨who, ?_⟩
    simp only [System.call, Function.update_self]
    omega
  | test who =>
    simp only [System.step, Option.ite_none_right_eq_some] at ht
    obtain ⟨-, ht⟩ := ht
    split at ht
    · cases ht
      refine h.aside rfl (fun _ => .inl) fun _ _ => .inr ⟨who, ?_⟩
      simp only [Function.update_self]
      omega
    · rename_i hidle
      cases ht
      refine h.aside rfl (fun _ => .inl) fun hany _ => .inl ?_
      obtain ⟨ft, hft, hthd⟩ := hany
      by_cases hrun : s.Runnable ft
      · exact hheard (by omega) ⟨ft, hrun⟩
      · obtain ⟨n, hn⟩ : ∃ n, s.base.state (.sub n) = .exec := by
          by_contra hno
          exact hrun ⟨hft, hthd, fun n _ hexec => hno ⟨n, hexec⟩⟩
        obtain ⟨v, -, hv⟩ := h.watching_of_exec hn
        exact .inl ⟨v, hv⟩
  | write who =>
    simp only [System.step, Option.ite_none_right_eq_some, Option.some.injEq] at ht
    rw [← ht.2]
    exact h.aside rfl (fun _ => .inl) fun _ _ => .inl (.inr (Nat.succ_pos _))
  | epollWait w =>
    simp only [System.step] at ht
    split at ht
    · rename_i v hp
      simp only [Option.ite_none_right_eq_some, Option.some.injEq] at ht
      obtain ⟨hahead, rfl⟩ := ht
      refine h.aside rfl (fun u hu => ?_) fun _ => ?_
      · by_cases huw : u = w
        · exact .inr ⟨v, huw ▸ hp⟩
        · exact .inl (by simpa [huw] using hu)
      refine covered_mono (fun u hu => .inl ⟨u, ?_⟩) rfl (fun _ => le_rfl) fun _ => le_rfl
      by_cases huw : u = w
      · subst huw
        simpa [System.watching, hahead] using hu
      · simpa [System.watching, huw] using hu
    · cases ht
  | epollReturn w =>
    simp only [System.step, Option.ite_none_right_eq_some, Option.some.injEq] at ht
    obtain ⟨hblocked, rfl⟩ := ht
    refine h.aside rfl (fun u hu => ?_) fun _ => ?_
    · by_cases huw : u = w
      · simp [huw] at hu
      · exact .inl (by simpa [huw] using hu)
    refine covered_mono (fun u hu => .inl ⟨u, ?_⟩) rfl (fun _ => le_rfl) fun _ => le_rfl
    by_cases huw : u = w
    · subst huw
      have hmono : ∀ p : Pc W, Watching p false = true → Watching p true = true := by
        intro p hp
        cases p <;> simp_all [Watching]
      simpa [System.watching] using hmono _ (by simpa [System.watching, hblocked] using hu)
    · simpa [System.watching, huw] using hu
  | readPipe w =>
    simp only [System.step] at ht
    split at ht
    · rename_i v hp
      simp only [Option.ite_none_right_eq_some, Option.some.injEq] at ht
      obtain ⟨hwoken, rfl⟩ := ht
      exact h.aside rfl (fun _ => .inl) fun _ _ => .inl (.inl ⟨w, by simp [System.watching, hp, hwoken, Watching]⟩)
    · cases ht

def Init (s : System W) : Prop :=
  Worker.Init s.base ∧ (∀ w, s.phase w = .ahead) ∧ (∀ who, s.testing who = 0) ∧ (∀ who, s.writing who = 0) ∧
    s.pipe = 0

omit [DecidableEq W] in
theorem init_inv (h : Init s) : Inv s := by
  refine ⟨init_sane h.1, fun n hn => ?_, fun w hw => ?_, fun ft hft => ?_⟩
  · simp [h.1.state] at hn
  · simp [h.2.1] at hw
  · simp [h.1.queue] at hft

/-- No task wake-up is lost in a run in which every wake-up that is left out is not needed. -/
theorem no_lost_wakeup_of_heard (h : Run Init System.step Heard s) : s.NoLostWakeup := by
  have hinv : Inv s := Run.invariant (fun _ => init_inv) (fun _ _ _ hi hheard ht => hi.step hheard ht) h
  rintro ⟨ft, hft, hthd, -⟩ hblocked hpipe
  obtain (⟨w, hw⟩ | hp) | hprogress := hinv.covered ft hft hthd
  · obtain ⟨v, hv⟩ := hinv.parked w (hblocked w)
    simp [System.watching, hv, hblocked w, Watching] at hw
  · omega
  · exact hprogress

end Invariant

section Decidable

variable [Fintype W] (s : System W)

instance : Decidable s.Awake := inferInstanceAs (Decidable ((∃ _, _) ∨ _))

instance : Decidable s.InProgress := inferInstanceAs (Decidable (∃ _, _))

instance (ft : FiberAndThread W) :
    Decidable (ft.threadId = none ∧ ∀ n, ft.task = .fiber n → s.base.state (.sub n) ≠ .exec) :=
  match h : ft.task with
  | .fiber n => decidable_of_iff (ft.threadId = none ∧ s.base.state (.sub n) ≠ .exec) (by simp)
  | .cb c => decidable_of_iff (ft.threadId = none) (by simp)

instance : Decidable (∃ ft, s.Runnable ft) :=
  decidable_of_iff (∃ ft ∈ s.base.queue, ft.threadId = none ∧ ∀ n, ft.task = .fiber n → s.base.state (.sub n) ≠ .exec)
    (by simp [System.Runnable])

instance (a : Step W) : Decidable (Heard s a) :=
  match a with
  | .base _ => inferInstanceAs (Decidable (_ → _ → _))
  | .test _ => inferInstanceAs (Decidable (_ → _ → _))
  | .tickle _ | .write _ | .epollWait _ | .epollReturn _ | .readPipe _ => isTrue trivial

end Decidable

def start : System Bool := ⟨Worker.start, fun _ => .ahead, fun _ => 0, fun _ => 0, 0⟩

theorem start_init : Init start := ⟨Worker.start_init, fun _ => rfl, fun _ => rfl, fun _ => rfl, rfl⟩

def toIdle (w : Bool) : List (Step Bool) := List.replicate 6 (.base (.advance w))

theorem no_lost_wakeup_of_sleepers : ∃ s : System Bool, Run Init System.step Heard s ∧
    (∃ ft, s.Runnable ft) ∧ (∀ w, s.phase w = .blocked) ∧ s.pipe = 0 ∧ s.NoLostWakeup := by
  have h : (exec (guarded System.step Heard) start (List.flatten
      [[.base (.enter false), .base (.enter true)], toIdle false, toIdle true,
        [.epollWait false, .epollWait true, .base (.scheduleFiber none none)]])).map
      (fun s => (decide (∃ ft, s.Runnable ft), s.phase false, s.phase true, s.pipe)) =
      some (true, .blocked, .blocked, 0) := by
    decide +kernel
  obtain ⟨s, hs, he⟩ := Option.map_eq_some_iff.mp h
  simp only [Prod.mk.injEq, decide_eq_true_eq] at he
  have hrun : Run Init System.step Heard s := Run.exec (.start start_init) _ hs
  exact ⟨s, hrun, he.1, fun w => by cases w <;> tauto, he.2.2.2, no_lost_wakeup_of_heard hrun⟩

/-- Both workers have scanned and do not count as idle yet when a task is scheduled: the
wake-up is left out, and both block. -/
theorem wakeup_lost_before_idle : ∃ s : System Bool, Reachable Init System.step s ∧
    (∃ ft, s.Runnable ft) ∧ (∀ w, s.phase w = .blocked) ∧ s.pipe = 0 ∧ ¬ s.InProgress := by
  have h : (exec (guarded System.step (fun _ _ => True)) start (List.flatten
      [[.base (.enter false), .base (.enter true), .base (.advance false), .base (.advance true),
        .base (.scheduleFiber none none), .test none], List.replicate 5 (.base (.advance false)),
        List.replicate 5 (.base (.advance true)), [.epollWait false, .epollWait true]])).map
      (fun s => (decide (∃ ft, s.Runnable ft), s.phase false, s.phase true, s.pipe, decide s.InProgress)) =
      some (true, .blocked, .blocked, 0, false) := by
    decide +kernel
  obtain ⟨s, hs, he⟩ := Option.map_eq_some_iff.mp h
  simp only [Prod.mk.injEq, decide_eq_true_eq, decide_eq_false_iff_not] at he
  exact ⟨s, Run.exec (.start start_init) _ hs, he.1, fun w => by cases w <;> tauto, he.2.2.2.1, he.2.2.2.2⟩

end Windgent.IOManager.Tickle
