import Windgent.Scheduler.Shutdown

namespace Windgent.Scheduler.Worker

open Transition

variable {W : Type}

/-- A worker at `p` is going to put a fiber back that is in state `READY`. -/
def Pc.Returns (p : Pc W) (state : Fiber W → FiberState) : Bool :=
  match p with
  | .save (.sub n) _ | .saved (.sub n) _ | .decrement (.sub n) _ | .testReady (.sub n) _ =>
    decide (state (.sub n) = .ready)
  | .putBack _ _ => true
  | _ => false

def Calm (s : State W) (w : W) : Prop := (s.pc w).Between = false ∧ (s.pc w).Returns s.state = false

/-- Nothing is left to do. -/
structure Quiescent (s : State W) : Prop where
  queue : s.queue = []
  calm : ∀ w, Calm s w

def Pc.Finishing : Pc W → Bool
  | .skip => true
  | .decrement _ k => decide (k ≠ .idle)
  | _ => false

/-- A step that makes `stopping()` true: the call of `stop`, or the last decrement. -/
def Completes (s : State W) : Action W → Prop
  | .stop => s.queue = [] ∧ s.active = 0
  | .advance w => (s.pc w).Finishing = true ∧ s.stopped = true ∧ s.queue = [] ∧ s.active = 1
  | _ => False

/-- The active count does not reach zero over an empty queue while a fiber in state
`READY` is still to be put back. -/
def Timely (s : State W) (a : Action W) : Prop := Completes s a → ∀ w, (s.pc w).Returns s.state = false

def State.inTask (s : State W) : Option W → Bool
  | none => false
  | some w =>
    match s.pc w with
    | .inside (.sub _) _ => true
    | _ => false

/-- Once `stopping()` is true, only tasks schedule. -/
def Internal (s : State W) (a : Action W) : Prop :=
  s.stopping → ∀ who, a.caller = some who → s.inTask who = true

theorem Pc.Returns.mono {p : Pc W} {state state' : Fiber W → FiberState}
    (hstate : ∀ n, state' (.sub n) = .ready → state (.sub n) = .ready) (h : p.Returns state = false) :
    p.Returns state' = false := by
  have hsub : ∀ n, decide (state (.sub n) = .ready) = false → decide (state' (.sub n) = .ready) = false := by
    intro n hn
    rw [decide_eq_false_iff_not] at hn ⊢
    exact fun hr => hn (hstate n hr)
  cases p with
  | save f k | saved f k | decrement f k | testReady f k =>
    cases f with
    | idle v => rfl
    | sub n => exact hsub n h
  | putBack n k => exact h
  | _ => rfl

variable [DecidableEq W] {s t : State W} {w : W} {f : Fiber W} {k : Kind} {p : Pc W}

structure Quiet (s t : State W) (w : W) : Prop where
  queue : t.queue = []
  calm : Calm t w
  ready : ∀ n, t.state (.sub n) = .ready → s.state (.sub n) = .ready

theorem quiet_goto (hpc : t.pc = Function.update s.pc w p) (hq : t.queue = []) (hstate : t.state = s.state)
    (hb : p.Between = false) (hr : p.Returns s.state = false) : Quiet s t w := by
  obtain ⟨hw, -⟩ := update_pc hpc
  refine ⟨hq, ?_, fun n hn => hstate ▸ hn⟩
  rw [Calm, hw, hstate]
  exact ⟨hb, hr⟩

theorem quiet_write (hpc : t.pc = Function.update s.pc w p) (hq : t.queue = []) {v : FiberState}
    (hstate : t.state = Function.update s.state f v) (hv : v = .ready → ∃ u, f = .idle u)
    (hb : p.Between = false) (hr : ∀ state, p.Returns state = false) : Quiet s t w := by
  obtain ⟨hw, -⟩ := update_pc hpc
  refine ⟨hq, ?_, fun n hn => ?_⟩
  · rw [Calm, hw]
    exact ⟨hb, hr _⟩
  · rw [hstate] at hn
    by_cases hf : .sub n = f
    · rw [← hf, Function.update_self] at hn
      obtain ⟨u, hu⟩ := hv hn
      cases hf.trans hu
    · rwa [Function.update_of_ne hf] at hn

omit [DecidableEq W] in
theorem Pc.Sane.idle (hsane : p.Sane w) (hrun : p.run = some (f, k)) (hk : decide (k ≠ .idle) = false) :
    k = .idle ∧ ∃ u, f = .idle u := by
  obtain rfl : k = .idle := by simpa using hk
  cases f with
  | idle u => exact ⟨rfl, u, rfl⟩
  | sub n => exact absurd hrun (hsane.kind n)

theorem Calm.advance (hcalm : Calm s w) (hsane : (s.pc w).Sane w) (hq : s.queue = [])
    (ht : advance s w = some t) : Quiet s t w := by
  obtain ⟨hb, hr⟩ := hcalm
  cases hp : s.pc w with
  | fresh | inside f k | left => simp [Worker.advance, hp] at ht
  | taken f | skip => simp [hp, Pc.Between] at hb
  | putBack n k => simp [hp, Pc.Returns] at hr
  | scan =>
    simp only [Worker.advance, hp, Option.some.injEq, takeTask, hq, scan] at ht
    exact ht ▸ quiet_goto rfl hq rfl rfl rfl
  | resetting f run =>
    simp only [hp, Pc.Between] at hb
    subst hb
    simp only [Worker.advance, hp, Option.ite_none_right_eq_some, Option.some.injEq] at ht
    exact ht.2 ▸ quiet_goto rfl hq rfl rfl rfl
  | setInit f run =>
    simp only [hp, Pc.Between] at hb
    subst hb
    simp only [Worker.advance, hp, Option.some.injEq] at ht
    exact ht ▸ quiet_write rfl hq rfl (by simp) rfl (fun _ => rfl)
  | swapIn f k =>
    obtain ⟨rfl, u, rfl⟩ := hsane.idle (by rw [hp]; rfl) (by rw [hp] at hb; exact hb)
    simp only [Worker.advance, hp, Option.ite_none_right_eq_some, Option.some.injEq] at ht
    exact ht.2 ▸ quiet_goto rfl hq rfl rfl rfl
  | yielding f k v =>
    obtain ⟨rfl, u, rfl⟩ := hsane.idle (by rw [hp]; rfl) (by rw [hp] at hb; exact hb)
    simp only [Worker.advance, hp, Option.ite_none_right_eq_some, Option.some.injEq] at ht
    exact ht.2 ▸ quiet_goto rfl hq rfl rfl rfl
  | setExec f k =>
    obtain ⟨rfl, u, rfl⟩ := hsane.idle (by rw [hp]; rfl) (by rw [hp] at hb; exact hb)
    simp only [Worker.advance, hp, Option.some.injEq] at ht
    exact ht ▸ quiet_write rfl hq rfl (by simp) rfl (fun _ => rfl)
  | setState f k v =>
    obtain ⟨rfl, u, rfl⟩ := hsane.idle (by rw [hp]; rfl) (by rw [hp] at hb; exact hb)
    simp only [Worker.advance, hp, Option.some.injEq] at ht
    exact ht ▸ quiet_write rfl hq rfl (fun _ => ⟨u, rfl⟩) rfl (fun _ => rfl)
  | restore f k | save f k | saved f k =>
    obtain ⟨rfl, u, rfl⟩ := hsane.idle (by rw [hp]; rfl) (by rw [hp] at hb; exact hb)
    simp only [Worker.advance, hp, Option.some.injEq] at ht
    exact ht ▸ quiet_goto rfl hq rfl rfl rfl
  | decrement f k =>
    obtain ⟨rfl, u, rfl⟩ := hsane.idle (by rw [hp]; rfl) (by rw [hp] at hb; exact hb)
    simp only [Worker.advance, hp, if_true, Option.some.injEq] at ht
    exact ht ▸ quiet_goto rfl hq rfl rfl rfl
  | testReady f k =>
    cases f with
    | idle v => simp [Worker.advance, hp] at ht
    | sub n =>
      have hne : s.state (.sub n) ≠ .ready := by simpa [hp, Pc.Returns] using hr
      simp only [Worker.advance, hp, hne, if_false, Option.some.injEq] at ht
      exact ht ▸ quiet_goto rfl hq rfl rfl rfl
  | testEnd f k =>
    simp only [Worker.advance, hp, Option.some.injEq] at ht
    subst ht
    split
    · split <;> exact quiet_goto rfl hq rfl rfl rfl
    · exact quiet_goto rfl hq rfl rfl rfl
  | setHold f k =>
    simp only [Worker.advance, hp, Option.some.injEq] at ht
    subst ht
    obtain ⟨h1, -, -, h4, -, -, h7, -, -⟩ := release_fields (s.setState f .hold) w k
    exact quiet_write (p := .scan) (by rw [State.goto, h7]; rfl) (h1.trans hq) h4 (by simp) rfl (fun _ => rfl)
  | testIdle =>
    simp only [Worker.advance, hp, Option.some.injEq] at ht
    subst ht
    split <;> exact quiet_goto rfl hq rfl rfl rfl
  | beginIdle =>
    simp only [Worker.advance, hp, Option.some.injEq] at ht
    exact ht ▸ quiet_goto rfl hq rfl rfl rfl

theorem Calm.step (hcalm : Calm s w) (hsane : (s.pc w).Sane w) (hq : s.queue = []) {a : Action W}
    (ha : a.worker = some w) (ht : step s a = some t) : Quiet s t w := by
  cases a with
  | scheduleFiber who thd | scheduleCb who c thd | wake who m | stop => simp [Action.worker] at ha
  | enter v =>
    cases ha
    simp only [Worker.step, Option.ite_none_right_eq_some, Option.some.injEq] at ht
    exact ht.2 ▸ quiet_goto rfl hq rfl rfl rfl
  | bypass v =>
    cases ha
    simp only [Worker.step, Option.ite_none_right_eq_some, Option.some.injEq] at ht
    exact ht.2 ▸ quiet_goto rfl hq rfl rfl rfl
  | register v | switchTo v thd | yieldToReady v | finish v thrown =>
    cases ha
    simp only [Worker.step] at ht
    split at ht
    · rename_i n k hp
      obtain ⟨-, u, hu⟩ := hsane.idle (by rw [hp]; rfl) (by have hb := hcalm.1; rw [hp] at hb; exact hb)
      cases hu
    · simp at ht
  | yieldToHold v =>
    cases ha
    simp only [Worker.step] at ht
    split at ht
    · rename_i f k hp
      obtain ⟨rfl, u, rfl⟩ := hsane.idle (by rw [hp]; rfl) (by have hb := hcalm.1; rw [hp] at hb; exact hb)
      exact Option.some.inj ht ▸ quiet_goto rfl hq rfl rfl rfl
    · simp at ht
  | idleExit v =>
    cases ha
    simp only [Worker.step] at ht
    split at ht
    · rename_i u k hp
      have hb := hcalm.1
      rw [hp] at hb
      rw [Option.ite_none_right_eq_some, Option.some.injEq] at ht
      exact ht.2 ▸ quiet_goto rfl hq rfl hb rfl
    · simp at ht
  | swapOut v =>
    cases ha
    simp only [Worker.step] at ht
    split at ht
    · rename_i u k hp
      have hb := hcalm.1
      rw [hp] at hb
      exact Option.some.inj ht ▸ quiet_goto rfl hq rfl hb rfl
    · simp at ht
  | advance v =>
    cases ha
    exact hcalm.advance hsane hq ht

theorem advance_finishes (hb : (s.pc w).Between = true) (ht : advance s w = some t)
    (hb' : (t.pc w).Between = false) :
    (s.pc w).Finishing = true ∧ t.state = s.state ∧
      ((s.pc w).Returns s.state = false → (t.pc w).Returns s.state = false) := by
  cases hp : s.pc w with
  | fresh | scan | testReady f k | putBack n k | testEnd f k | setHold f k | testIdle | beginIdle | left =>
    simp [hp, Pc.Between] at hb
  | inside f k => simp [advance, hp] at ht
  | skip =>
    simp only [advance, hp, Option.some.injEq] at ht
    subst ht
    exact ⟨rfl, rfl, fun _ => by simp [State.goto, Pc.Returns]⟩
  | decrement f k =>
    have hk : k ≠ .idle := by simpa [hp, Pc.Between] using hb
    simp only [advance, hp, hk, if_false, Option.some.injEq] at ht
    subst ht
    refine ⟨by simp [Pc.Finishing, hk], rfl, fun hr => ?_⟩
    have hw : ({ s with active := s.active - 1 }.goto w (.testReady f k)).pc w = .testReady f k :=
      Function.update_self ..
    rw [hw]
    cases f with
    | idle v => rfl
    | sub n => exact hr
  | taken f =>
    simp only [advance, hp, Option.some.injEq] at ht
    subst ht
    split at hb' <;> simp [State.goto, Pc.Between] at hb'
  | resetting f run =>
    simp only [advance, hp, Option.ite_none_right_eq_some, Option.some.injEq] at ht
    obtain ⟨-, rfl⟩ := ht
    simp_all [State.goto, Pc.Between]
  | setInit f run =>
    simp only [advance, hp, Option.some.injEq] at ht
    subst ht
    simp_all [State.goto, Pc.Between]
  | swapIn f k | yielding f k v =>
    simp only [advance, hp, Option.ite_none_right_eq_some, Option.some.injEq] at ht
    obtain ⟨-, rfl⟩ := ht
    simp_all [State.goto, Pc.Between]
  | setExec f k | restore f k | setState f k v | save f k | saved f k =>
    simp only [advance, hp, Option.some.injEq] at ht
    subst ht
    simp_all [State.goto, Pc.Between]

theorem step_finishes {a : Action W} (ha : a.worker = some w) (hb : (s.pc w).Between = true)
    (ht : step s a = some t) (hb' : (t.pc w).Between = false) :
    a = .advance w ∧ (s.pc w).Finishing = true ∧ t.state = s.state ∧
      ((s.pc w).Returns s.state = false → (t.pc w).Returns s.state = false) := by
  cases a with
  | scheduleFiber who thd | scheduleCb who c thd | wake who m | stop => simp [Action.worker] at ha
  | enter v =>
    cases ha
    simp only [step, Option.ite_none_right_eq_some] at ht
    simp [ht.1, Pc.Between] at hb
  | bypass v =>
    cases ha
    simp only [step, Option.ite_none_right_eq_some] at ht
    simp [ht.1.1, Pc.Between] at hb
  | register v | switchTo v thd | yieldToHold v | yieldToReady v | finish v thrown | swapOut v =>
    cases ha
    simp only [step] at ht
    split at ht
    · rename_i hp
      rw [← Option.some.inj ht] at hb'
      simp_all [State.goto, Pc.Between]
    · simp at ht
  | idleExit v =>
    cases ha
    simp only [step] at ht
    split at ht
    · rename_i hp
      rw [Option.ite_none_right_eq_some, Option.some.injEq] at ht
      rw [← ht.2] at hb'
      simp_all [State.goto, Pc.Between]
    · simp at ht
  | advance v =>
    cases ha
    exact ⟨rfl, advance_finishes hb ht hb'⟩

theorem step_takes {a : Action W} (ha : a.worker = some w) (hp : s.pc w = .scan) (ht : step s a = some t)
    {ft : FiberAndThread W} {q : List (FiberAndThread W)}
    (hscan : scan w (fun n => s.state (.sub n)) s.queue = some (ft, q)) : (t.pc w).Between = true := by
  cases a with
  | scheduleFiber who thd | scheduleCb who c thd | wake who m | stop => simp [Action.worker] at ha
  | enter v | bypass v | register v | switchTo v thd | yieldToHold v | yieldToReady v | finish v thrown
  | idleExit v | swapOut v =>
    cases ha
    simp [step, hp] at ht
  | advance v =>
    cases ha
    simp only [step, advance, hp, Option.some.injEq, takeTask, hscan] at ht
    subst ht
    split
    · simp [State.goto, Pc.Between]
    · split <;> simp [State.goto, Pc.Between]

theorem step_stopped (hsane : Sane s) {a : Action W} (ht : step s a = some t) (hne : a ≠ .stop) :
    t.stopped = s.stopped := by
  cases a with
  | stop => exact absurd rfl hne
  | scheduleFiber who thd | scheduleCb who c thd | wake who m | enter v | bypass v =>
    simp only [step, Option.ite_none_right_eq_some, Option.some.injEq] at ht
    rw [← ht.2]
    rfl
  | register v | switchTo v thd | yieldToHold v | yieldToReady v | finish v thrown | swapOut v =>
    simp only [step] at ht
    split at ht
    · exact Option.some.inj ht ▸ rfl
    · simp at ht
  | idleExit v =>
    simp only [step] at ht
    split at ht
    · rw [Option.ite_none_right_eq_some, Option.some.injEq] at ht
      exact ht.2 ▸ rfl
    · simp at ht
  | advance v => exact (advance_effect (hsane.pc v) ht).stopped

section Count

variable [Fintype W]

omit [DecidableEq W] in
theorem between_zero (h : between s = 0) (w : W) : (s.pc w).Between = false := by
  rw [between, Finset.card_eq_zero] at h
  have hw := Finset.filter_eq_empty_iff.mp h (Finset.mem_univ w)
  simpa using hw

/-- What holds in every run without a premature end. -/
structure Settled (s : State W) : Prop where
  active : s.active = between s
  quiescent : s.stopping → Quiescent s
  gone : ∀ w, (s.pc w).Leaving ∨ s.state (.idle w) = .term → s.stopping

/-- `stopping()` stays true. -/
theorem Settled.stays (h : Settled s) (hsane : Sane s) {a : Action W} (hint : Internal s a)
    (ht : step s a = some t) (hstop : s.stopping) : t.stopping ∧ Quiescent t := by
  obtain ⟨hstopped, hq, hactive⟩ := hstop
  have hcalm := (h.quiescent ⟨hstopped, hq, hactive⟩).calm
  cases step_effect hsane.pc ht with
  | work w ha he =>
    have hquiet := (hcalm w).step (hsane.pc w) hq ha ht
    have hcount := he.count
    rw [hactive, (hcalm w).1, hquiet.calm.1] at hcount
    refine ⟨⟨he.stopped.trans hstopped, hquiet.queue, by simpa using hcount⟩, hquiet.queue, fun v => ?_⟩
    by_cases hv : v = w
    · exact hv ▸ hquiet.calm
    · rw [Calm, he.pc v hv]
      exact ⟨(hcalm v).1, Pc.Returns.mono hquiet.ready (hcalm v).2⟩
  | call who ha hrun hs =>
    obtain ⟨w, n, k, hp⟩ : ∃ w n k, s.pc w = .inside (.sub n) k := by
      have htask := hint ⟨hstopped, hq, hactive⟩ who ha
      unfold State.inTask at htask
      split at htask
      · cases htask
      · split at htask
        · exact ⟨_, _, _, ‹_›⟩
        · cases htask
    obtain ⟨-, u, hu⟩ := (hsane.pc w).idle (by rw [hp]; rfl) (by have hb := (hcalm w).1; rw [hp] at hb; exact hb)
    cases hu
  | stop ht =>
    subst ht
    exact ⟨⟨rfl, hq, hactive⟩, hq, hcalm⟩

theorem completes_of_step (hactive : t.active = between t) (hsane : Sane s)
    {a : Action W} (ht : step s a = some t) (hnot : ¬ s.stopping) (hstop : t.stopping) :
    Completes s a ∧ ((∀ w, (s.pc w).Returns s.state = false) → ∀ w, (t.pc w).Returns t.state = false) := by
  obtain ⟨hstopped, hq, hzero⟩ := hstop
  have hidle : ∀ w, (t.pc w).Between = false := between_zero (by rw [hzero] at hactive; exact_mod_cast hactive.symm)
  cases step_effect hsane.pc ht with
  | work w ha he =>
    have hcount := he.count
    rw [hzero, hidle w] at hcount
    have hstopped' : s.stopped = true := he.stopped ▸ hstopped
    cases hb : (s.pc w).Between with
    | true =>
      obtain ⟨rfl, hpc, hstate, hreturns⟩ := step_finishes ha hb ht (hidle w)
      have hqueue : s.queue = [] := by
        cases he.queue with
        | take ft q hp hscan hq' _ _ => simp [hp, Pc.Between] at hb
        | put n thd hp hq' _ _ => simp [hq'] at hq
        | none hq' _ _ => exact hq' ▸ hq
      refine ⟨⟨hpc, hstopped', hqueue, by simpa [hb] using hcount.symm⟩, fun hall v => ?_⟩
      rw [hstate]
      by_cases hv : v = w
      · exact hv ▸ hreturns (hall w)
      · rw [he.pc v hv]
        exact hall v
    | false =>
      have hactive' : s.active = 0 := by simpa [hb] using hcount.symm
      cases he.queue with
      | take ft q hp hscan hq' _ _ =>
        have := step_takes ha hp ht hscan
        simp [hidle w] at this
      | put n thd hp hq' _ _ => simp [hq'] at hq
      | none hq' _ _ => exact absurd ⟨hstopped', hq' ▸ hq, hactive'⟩ hnot
  | call who ha hrun hs =>
    obtain ⟨task, thd, hq', -⟩ := hs.queue
    simp [hq'] at hq
  | stop ht' =>
    by_cases ha : a = .stop
    · subst ha ht'
      exact ⟨⟨hq, hzero⟩, id⟩
    · have hstopped' := (step_stopped hsane ht ha).symm.trans hstopped
      subst ht'
      exact absurd ⟨hstopped', hq, hzero⟩ hnot

theorem Settled.step (h : Settled s) (hsane : Sane s) {a : Action W} (hok : Timely s a ∧ Internal s a)
    (ht : step s a = some t) : Settled t := by
  have hactive := active_step hsane ht h.active
  have hstays : s.stopping → t.stopping := fun hstop => (h.stays hsane hok.2 ht hstop).1
  refine ⟨hactive, fun hstop => ?_, fun v hv => hstays ?_⟩
  · by_cases hbefore : s.stopping
    · exact (h.stays hsane hok.2 ht hbefore).2
    · obtain ⟨hcompletes, hreturns⟩ := completes_of_step hactive hsane ht hbefore hstop
      have hidle : between t = 0 := by
        rw [hstop.2.2] at hactive
        exact_mod_cast hactive.symm
      exact ⟨hstop.2.1, fun w => ⟨between_zero hidle w, hreturns (hok.1 hcompletes) w⟩⟩
  · cases step_effect hsane.pc ht with
    | work w ha he =>
      rcases hv with hv | hv
      · by_cases hvw : v = w
        · subst hvw
          exact (step_leaving ha ht hv).elim (h.gone v) id
        · rw [he.pc v hvw] at hv
          exact h.gone v (.inl hv)
      · obtain hv | ⟨k, hp⟩ := he.term v hv
        · exact h.gone v (.inr hv)
        · exact h.gone w (.inl (by rw [hp]; trivial))
    | call who ha hrun hs =>
      rw [hs.pc, hs.state _ (by simp)] at hv
      exact h.gone v hv
    | stop ht' =>
      subst ht'
      exact h.gone v hv

theorem settled_of_run (h : Run Init step (fun s a => Timely s a ∧ Internal s a) s) : Sane s ∧ Settled s := by
  refine Run.invariant (I := fun s => Sane s ∧ Settled s) (fun s h0 => ⟨init_sane h0, ?_, ?_, ?_⟩) ?_ h
  · simp [between, h0.active, h0.pc, Pc.Between]
  · intro hstop
    simp [State.stopping, h0.stopped] at hstop
  · intro w hw
    simp [h0.pc, h0.state, Pc.Leaving] at hw
  · rintro s a t ⟨hsane, hs⟩ hok ht
    exact ⟨hsane.step ht, hs.step hsane hok ht⟩

/-- When `stopping()` is true nothing is left to do, and it stays true; so nothing is
queued for a worker that has left, and nothing when all have. -/
theorem quiescent_of_run [Nonempty W] (h : Run Init step (fun s a => Timely s a ∧ Internal s a) s) :
    (s.stopping → Quiescent s ∧
      ∀ t, Run (fun u => u = s) step (fun s a => Timely s a ∧ Internal s a) t → t.stopping) ∧
    (∀ w, s.pc w = .left → s.queue = []) ∧ ((∀ w, s.pc w = .left) → s.queue = []) := by
  obtain ⟨hsane, hs⟩ := settled_of_run h
  have hleft : ∀ w, s.pc w = .left → s.queue = [] := fun w hw =>
    (hs.gone w (.inl (by rw [hw]; trivial))).2.1
  refine ⟨fun hstop => ⟨hs.quiescent hstop, fun t ht => ?_⟩, hleft, fun hall => ?_⟩
  · have hrun : (Sane t ∧ Settled t) ∧ t.stopping := by
      refine Run.invariant (I := fun t => (Sane t ∧ Settled t) ∧ t.stopping) ?_ ?_ ht
      · rintro u rfl
        exact ⟨⟨hsane, hs⟩, hstop⟩
      · rintro u a v ⟨⟨hsane, hu⟩, hstop⟩ hok hv
        exact ⟨⟨hsane.step hv, hu.step hsane hok hv⟩, (hu.stays hsane hok.2 hv hstop).1⟩
    exact hrun.2
  · obtain ⟨w⟩ := ‹Nonempty W›
    exact hleft w (hall w)

end Count

instance (s : State W) (a : Action W) : Decidable (Completes s a) :=
  match a with
  | .stop => inferInstanceAs (Decidable (_ ∧ _))
  | .advance _ => inferInstanceAs (Decidable (_ ∧ _ ∧ _ ∧ _))
  | .scheduleFiber .. | .scheduleCb .. | .wake .. | .enter .. | .bypass .. | .register .. | .switchTo ..
  | .yieldToHold .. | .yieldToReady .. | .finish .. | .idleExit .. | .swapOut .. => isFalse id

instance [Fintype W] (s : State W) (a : Action W) : Decidable (Timely s a) := inferInstanceAs (Decidable (_ → _))

instance (s : State W) (a : Action W) : Decidable (Internal s a) :=
  match h : a.caller with
  | none => isTrue fun _ _ hwho => nomatch h.symm.trans hwho
  | some who => decidable_of_iff (s.stopping → s.inTask who = true)
      ⟨fun hi hstop _ hwho => Option.some.inj (h.symm.trans hwho) ▸ hi hstop, fun hi hstop => hi hstop who h⟩

theorem quiescent_ready_fiber : ∃ s : State Bool,
    Run Init step (fun s a => Timely s a ∧ Internal s a) s ∧ s.readyYields 0 = 1 ∧ (∀ w, s.pc w = .left) ∧
      s.stopping ∧ Quiescent s := by
  have h : (exec (guarded step (fun s a => Timely s a ∧ Internal s a)) start (List.flatten
      [[.scheduleFiber none none, .enter false], List.replicate 5 (.advance false), [.yieldToReady false],
        List.replicate 12 (.advance false), [.stop, .finish false false], List.replicate 12 (.advance false),
        [.idleExit false], List.replicate 7 (.advance false), [.bypass true]])).map
      (fun s => (s.readyYields 0, s.pc false, s.pc true, decide s.stopping)) = some (1, .left, .left, true) := by
    decide +kernel
  obtain ⟨s, hs, he⟩ := Option.map_eq_some_iff.mp h
  obtain ⟨hy, hf, ht, hstop⟩ : s.readyYields 0 = 1 ∧ s.pc false = .left ∧ s.pc true = .left ∧ s.stopping := by
    simpa using he
  have hrun : Run Init step (fun s a => Timely s a ∧ Internal s a) s := Run.exec (.start start_init) _ hs
  exact ⟨s, hrun, hy, fun w => by cases w <;> assumption, hstop, ((quiescent_of_run hrun).1 hstop).1⟩

/-- Between the decrement and the return of a `READY` fiber to the queue the other worker
leaves `run`; the fiber then asks for its thread. -/
theorem stopped_too_early :
    (∃ s : State Bool, Run Init step Internal s ∧ s.stopping ∧ ¬ Quiescent s) ∧
      ∃ s : State Bool, Run Init step Internal s ∧ s.pc true = .left ∧
        s.queue.map (·.threadId) = [some true] := by
  constructor
  · have h : (exec (guarded step Internal) start (List.flatten
        [[.scheduleFiber none none, .stop, .enter false, .enter true], List.replicate 5 (.advance false),
          [.yieldToReady false], List.replicate 5 (.advance false)])).map
        (fun s => (decide s.stopping, (s.pc false).Returns s.state)) = some (true, true) := by
      decide +kernel
    obtain ⟨s, hs, he⟩ := Option.map_eq_some_iff.mp h
    obtain ⟨hstop, hreturns⟩ : s.stopping ∧ (s.pc false).Returns s.state = true := by simpa using he
    refine ⟨s, Run.exec (.start start_init) _ hs, hstop, fun hq => ?_⟩
    rw [(hq.calm false).2] at hreturns
    cases hreturns
  · have h : (exec (guarded step Internal) start (List.flatten
        [[.scheduleFiber none none, .stop, .enter false, .enter true], List.replicate 5 (.advance false),
          [.yieldToReady false], List.replicate 5 (.advance false), List.replicate 6 (.advance true),
          [.idleExit true], List.replicate 7 (.advance true), List.replicate 7 (.advance false),
          [.switchTo false true]])).map (fun s => (s.pc true, s.queue.map (·.threadId))) =
        some (.left, [some true]) := by
      decide +kernel
    obtain ⟨s, hs, he⟩ := Option.map_eq_some_iff.mp h
    exact ⟨s, Run.exec (.start start_init) _ hs, (Prod.mk.inj he).1, (Prod.mk.inj he).2⟩

end Windgent.Scheduler.Worker
