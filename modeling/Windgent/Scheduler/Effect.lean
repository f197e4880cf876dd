import Windgent.Scheduler.Worker
import Mathlib.Algebra.Order.Ring.Int

namespace Windgent.Scheduler.Worker

variable {W : Type}

/-- The state of `f` is `EXEC` because of this worker. -/
def Pc.Active (p : Pc W) (f : Fiber W) : Prop :=
  match p with
  | .restore g _ | .inside g _ | .yielding g _ _ | .setState g _ _ => g = f
  | _ => False

theorem Pc.Active.fiber {p : Pc W} {f : Fiber W} (h : p.Active f) : p.fiber = some f := by
  cases p <;> simp_all [Pc.Active, Pc.fiber, Pc.run]

def Action.worker : Action W → Option W
  | .scheduleFiber _ _ | .scheduleCb _ _ _ | .wake _ _ | .stop => none
  | .enter w | .bypass w | .register w | .switchTo w _ | .yieldToHold w | .yieldToReady w |
    .finish w _ | .idleExit w | .swapOut w | .advance w => some w

/-- A worker between the removal of an entry and the matching decrement. -/
def Pc.Between : Pc W → Bool
  | .taken _ | .skip => true
  | .resetting _ run | .setInit _ run => run
  | .swapIn _ k | .setExec _ k | .restore _ k | .inside _ k | .yielding _ k _ | .setState _ k _ |
    .save _ k | .saved _ k | .decrement _ k => decide (k ≠ .idle)
  | _ => false

/-- What a program counter says about its own worker: idle fibers are private,
only they are run as such, and no yield writes `EXEC`. -/
structure Pc.Sane (p : Pc W) (w : W) : Prop where
  own : ∀ v, p.fiber = some (.idle v) → v = w
  kind : ∀ n, p.run ≠ some (.sub n, .idle)
  value : ∀ f k v, p = .yielding f k v ∨ p = .setState f k v → v ≠ .exec

variable [DecidableEq W] {s t : State W} {w : W} {f : Fiber W} {k : Kind} {p : Pc W}

/-- The worker is going to pass the scan once more before it leaves. -/
def WillScan (s : State W) (w : W) : Prop :=
  s.pc w ≠ .left ∧ ¬ (s.pc w = .testIdle ∧ s.state (.idle w) = .term)

inductive QueueEffect (s t : State W) (w : W) : Prop
  | take (ft : FiberAndThread W) (q : List (FiberAndThread W)) (hp : s.pc w = .scan)
      (hscan : scan w (fun n => s.state (.sub n)) s.queue = some (ft, q)) (hq : t.queue = q)
      (hserial : t.serial = s.serial) (hremoved : t.removed = (ft, w) :: s.removed)
  | put (n : Nat) (thd : Option W) (hp : (s.pc w).fiber = some (.sub n))
      (hq : t.queue = s.queue ++ [⟨.fiber n, thd, s.serial⟩]) (hserial : t.serial = s.serial + 1)
      (hremoved : t.removed = s.removed)
  | none (hq : t.queue = s.queue) (hserial : t.serial = s.serial) (hremoved : t.removed = s.removed)

/-- What the step of a worker can do. -/
structure Effect (s t : State W) (w : W) : Prop where
  pc : ∀ v, v ≠ w → t.pc v = s.pc v
  stopped : t.stopped = s.stopped
  registered : ∀ n, 0 < t.registered n → 0 < s.registered n ∨ (s.pc w).fiber = some (.sub n)
  next : s.next ≤ t.next
  queue : QueueEffect s t w
  state : ∀ g, (s.pc w).fiber ≠ some g → g ≠ .sub s.next → t.state g = s.state g
  exec : ∀ g, t.state g = .exec → s.state g = .exec ∨ (t.pc w).Active g
  active : ∀ n, (s.pc w).Active (.sub n) → t.state (.sub n) = .exec → (t.pc w).Active (.sub n)
  count : t.active + (s.pc w).Between.toNat = s.active + (t.pc w).Between.toNat
  term : ∀ v, t.state (.idle v) = .term → s.state (.idle v) = .term ∨ ∃ k, s.pc w = .setState (.idle v) k .term
  leave : WillScan s w → ¬ WillScan t w →
    t.queue = s.queue ∧ scan w (fun n => s.state (.sub n)) s.queue = none ∧ t.state = s.state

theorem update_pc (hpc : t.pc = Function.update s.pc w p) :
    t.pc w = p ∧ ∀ v, v ≠ w → t.pc v = s.pc v := by
  refine ⟨by rw [hpc, Function.update_self], fun v hv => ?_⟩
  rw [hpc, Function.update_of_ne hv]

theorem effect_keep (hpc : t.pc = Function.update s.pc w p) (hstopped : t.stopped = s.stopped)
    (hreg : ∀ n, 0 < t.registered n → 0 < s.registered n ∨ (s.pc w).fiber = some (.sub n))
    (hnext : t.next = s.next) (hqueue : QueueEffect s t w)
    (hstate : t.state = s.state) (hactive : ∀ n, (s.pc w).Active (.sub n) → p.Active (.sub n))
    (hcount : t.active + (s.pc w).Between.toNat = s.active + p.Between.toNat)
    (hleave : WillScan s w → p = .left ∨ p = .testIdle ∧ s.state (.idle w) = .term →
      t.queue = s.queue ∧ scan w (fun n => s.state (.sub n)) s.queue = none) : Effect s t w := by
  obtain ⟨hw, hother⟩ := update_pc hpc
  refine ⟨hother, hstopped, hreg, Nat.le_of_eq hnext.symm, hqueue, fun g _ _ => by rw [hstate], ?_, ?_, ?_,
    ?_, ?_⟩
  · intro g hg
    exact .inl (hstate ▸ hg)
  · intro n hn _
    rw [hw]
    exact hactive n hn
  · rw [hw]
    exact hcount
  · intro v hv
    exact .inl (hstate ▸ hv)
  · intro hs ht
    rw [WillScan, hw, hstate] at ht
    obtain ⟨h1, h2⟩ := hleave hs (by tauto)
    exact ⟨h1, h2, hstate⟩

theorem effect_pass {q : Pc W} {saved : Fiber W → Bool} {idle : Int} (hq : s.pc w = q)
    (hactive : ∀ n, q.Active (.sub n) → p.Active (.sub n)) (hbetween : q.Between = p.Between)
    (hleave : p ≠ .left ∧ p ≠ .testIdle) : Effect s ({ s with saved := saved, idle := idle }.goto w p) w := by
  refine effect_keep rfl rfl (fun _ => .inl) rfl (.none rfl rfl rfl) rfl (fun n hn => ?_) ?_ (by simp [hleave])
  · rw [hq] at hn
    exact hactive n hn
  · rw [hq, hbetween]
    rfl

theorem effect_write (hpc : t.pc = Function.update s.pc w p) (hstopped : t.stopped = s.stopped)
    (hreg : ∀ n, 0 < t.registered n → 0 < s.registered n ∨ (s.pc w).fiber = some (.sub n))
    (hnext : t.next = s.next) (hqueue : QueueEffect s t w)
    (hf : (s.pc w).fiber = some f) {v : FiberState} (hstate : t.state = Function.update s.state f v)
    (hexec : v = .exec → p.Active f) (hterm : v = .term → ∃ k, s.pc w = .setState f k .term)
    (hcount : t.active + (s.pc w).Between.toNat = s.active + p.Between.toNat)
    (hleave : p ≠ .left ∧ p ≠ .testIdle) : Effect s t w := by
  obtain ⟨hw, hother⟩ := update_pc hpc
  refine ⟨hother, hstopped, hreg, Nat.le_of_eq hnext.symm, hqueue, ?_, ?_, ?_, ?_, ?_, ?_⟩
  · intro g hg _
    have hne : g ≠ f := fun he => hg (he ▸ hf)
    rw [hstate, Function.update_of_ne hne]
  · intro g hg
    by_cases hgf : g = f
    · subst hgf
      rw [hstate, Function.update_self] at hg
      exact .inr (by rw [hw]; exact hexec hg)
    · rw [hstate, Function.update_of_ne hgf] at hg
      exact .inl hg
  · intro n hn he
    obtain rfl : f = .sub n := by simpa [hf] using hn.fiber
    rw [hstate, Function.update_self] at he
    rw [hw]
    exact hexec he
  · rw [hw]
    exact hcount
  · intro u hu
    by_cases hgf : .idle u = f
    · rw [hstate, ← hgf, Function.update_self] at hu
      exact .inr (hgf ▸ hterm hu)
    · rw [hstate, Function.update_of_ne hgf] at hu
      exact .inl hu
  · intro _ ht
    rw [WillScan, hw] at ht
    exact absurd ⟨hleave.1, fun hc => hleave.2 hc.1⟩ ht

@[simp] theorem release_fields (s : State W) (w : W) (k : Kind) :
    (s.release w k).queue = s.queue ∧ (s.release w k).active = s.active ∧
    (s.release w k).stopped = s.stopped ∧ (s.release w k).state = s.state ∧
    (s.release w k).registered = s.registered ∧ (s.release w k).next = s.next ∧
    (s.release w k).pc = s.pc ∧ (s.release w k).serial = s.serial ∧
    (s.release w k).removed = s.removed := by
  unfold State.release
  split <;> exact ⟨rfl, rfl, rfl, rfl, rfl, rfl, rfl, rfl, rfl⟩

omit [DecidableEq W] in
theorem countYield_eq (s : State W) (f : Fiber W) (v : FiberState) : ∃ y,
    s.countYield f v = { s with readyYields := y } := by
  unfold State.countYield
  split <;> exact ⟨_, rfl⟩

theorem takeTask_effect (hp : s.pc w = .scan) : Effect s (takeTask s w) w := by
  have hs : ∀ n, ¬ (s.pc w).Active (.sub n) := fun n => by simp [hp, Pc.Active]
  unfold takeTask
  split
  · rename_i hq
    exact effect_keep rfl rfl (fun _ => .inl) rfl (.none rfl rfl rfl) rfl (fun n h => absurd h (hs n))
      (by rw [hp]; rfl) (fun _ _ => ⟨rfl, hq⟩)
  · rename_i ft q hq
    split
    · exact effect_keep rfl rfl (fun _ => .inl) rfl (.take ft q hp hq rfl rfl rfl) rfl
        (fun n h => absurd h (hs n)) (by rw [hp]; exact Int.add_zero _) (by simp)
    · split
      · exact effect_keep rfl rfl (fun _ => .inl) rfl (.take ft q hp hq rfl rfl rfl) rfl
          (fun n h => absurd h (hs n)) (by rw [hp]; exact Int.add_zero _) (by simp)
      · have hpc : (((s.remove w ft q).newFiber.setCbFiber w (some (.sub s.next))).goto w
            (.swapIn (.sub s.next) .callback)).pc w = .swapIn (.sub s.next) .callback :=
          Function.update_self _ _ _
        refine ⟨fun v hv => Function.update_of_ne hv _ _, rfl, fun _ => .inl, Nat.le_succ _,
          .take ft q hp hq rfl rfl rfl, ?_, ?_, fun n h => absurd h (hs n), ?_, ?_, ?_⟩
        · intro g _ hg
          exact Function.update_of_ne hg _ _
        · intro g hg
          by_cases hgn : g = .sub s.next
          · subst hgn
            exact absurd ((Function.update_self _ _ _).symm.trans hg) (by simp)
          · exact .inl ((Function.update_of_ne hgn _ _).symm.trans hg)
        · rw [hpc, hp]
          exact Int.add_zero _
        · intro v hv
          have hne : Fiber.idle v ≠ .sub s.next := by simp
          exact .inl ((Function.update_of_ne hne .init s.state).symm.trans hv)
        · intro _ ht
          exact absurd ⟨by simp [hpc], by simp [hpc]⟩ ht

theorem advance_effect (hsane : (s.pc w).Sane w) (ht : advance s w = some t) : Effect s t w := by
  cases hp : s.pc w with
  | fresh => simp [advance, hp] at ht
  | scan =>
    simp only [advance, hp, Option.some.injEq] at ht
    exact ht ▸ takeTask_effect hp
  | taken f =>
    simp only [advance, hp, Option.some.injEq] at ht
    subst ht
    split
    · exact effect_pass hp (fun _ => False.elim) rfl (by simp)
    · exact effect_pass hp (fun _ => False.elim) rfl (by simp)
  | skip =>
    simp only [advance, hp, Option.some.injEq] at ht
    subst ht
    refine effect_keep rfl rfl (fun _ => .inl) rfl (.none rfl rfl rfl) rfl (by simp [hp, Pc.Active]) ?_ (by simp)
    rw [hp]
    simp [Pc.Between, State.goto]
  | resetting f run =>
    simp only [advance, hp, Option.ite_none_right_eq_some, Option.some.injEq] at ht
    exact ht.2 ▸ effect_pass hp (fun _ => False.elim) rfl (by simp)
  | setInit f run =>
    simp only [advance, hp, Option.some.injEq] at ht
    subst ht
    refine effect_write rfl rfl (fun _ => .inl) rfl (.none rfl rfl rfl) (by rw [hp]; rfl) rfl (by simp) (by simp) ?_ ?_
    · rw [hp]
      cases run <;> rfl
    · cases run <;> simp
  | swapIn f k =>
    simp only [advance, hp, Option.ite_none_right_eq_some, Option.some.injEq] at ht
    exact ht.2 ▸ effect_pass hp (fun _ => False.elim) rfl (by simp)
  | setExec f k =>
    simp only [advance, hp, Option.some.injEq] at ht
    subst ht
    exact effect_write rfl rfl (fun _ => .inl) rfl (.none rfl rfl rfl) (by rw [hp]; rfl) rfl (fun _ => rfl) (by simp)
      (by rw [hp]; rfl) (by simp)
  | restore f k =>
    simp only [advance, hp, Option.some.injEq] at ht
    exact ht ▸ effect_pass hp (fun _ => id) rfl (by simp)
  | inside f k => simp [advance, hp] at ht
  | yielding f k v =>
    simp only [advance, hp, Option.ite_none_right_eq_some, Option.some.injEq] at ht
    exact ht.2 ▸ effect_pass hp (fun _ => id) rfl (by simp)
  | setState f k v =>
    simp only [advance, hp, Option.some.injEq] at ht
    obtain ⟨y, hy⟩ := countYield_eq s f v
    rw [hy] at ht
    subst ht
    refine effect_write rfl rfl (fun _ => .inl) rfl (.none rfl rfl rfl) (by rw [hp]; rfl) rfl (fun he => ?_)
      (fun he => ⟨k, by rw [hp, he]⟩) (by rw [hp]; rfl) (by simp)
    exact absurd he (hsane.value f k v (.inr hp))
  | save f k | saved f k =>
    simp only [advance, hp, Option.some.injEq] at ht
    exact ht ▸ effect_pass hp (fun _ => False.elim) rfl (by simp)
  | decrement f k =>
    simp only [advance, hp, Option.some.injEq] at ht
    subst ht
    split
    · rename_i hk
      exact effect_pass hp (fun _ => False.elim) (by simp [Pc.Between, hk]) (by simp)
    · rename_i hk
      exact effect_keep rfl rfl (fun _ => .inl) rfl (.none rfl rfl rfl) rfl (by simp [hp, Pc.Active])
        (by rw [hp]; simp [Pc.Between, hk, State.goto]) (by simp)
  | testReady f k =>
    cases f with
    | idle v => simp [advance, hp] at ht
    | sub n =>
      simp only [advance, hp, Option.some.injEq] at ht
      subst ht
      split
      · exact effect_pass hp (fun _ => False.elim) rfl (by simp)
      · exact effect_pass hp (fun _ => False.elim) rfl (by simp)
  | putBack n k =>
    simp only [advance, hp, Option.some.injEq] at ht
    subst ht
    have hr := release_fields ((s.countPutBack n).scheduleNoLock (.fiber n) none) w k
    obtain ⟨h1, h2, h3, h4, h5, h6, h7, h8, h9⟩ := hr
    refine effect_keep (p := .scan) (by rw [State.goto, h7]; rfl) h3
      (fun _ => by rw [State.goto, h5]; exact .inl) h6 (.put n none (by rw [hp]; rfl) h1 h8 h9) h4
      (by simp [hp, Pc.Active]) ?_ (by simp)
    rw [hp]
    exact congrArg (· + 0) h2
  | testEnd f k =>
    simp only [advance, hp, Option.some.injEq] at ht
    subst ht
    split
    · split
      · exact effect_pass hp (fun _ => False.elim) rfl (by simp)
      · exact effect_pass hp (fun _ => False.elim) rfl (by simp)
    · exact effect_pass hp (fun _ => False.elim) rfl (by simp)
  | setHold f k =>
    simp only [advance, hp, Option.some.injEq] at ht
    subst ht
    obtain ⟨h1, h2, h3, h4, h5, h6, h7, h8, h9⟩ := release_fields (s.setState f .hold) w k
    refine effect_write (p := .scan) (by rw [State.goto, h7]; rfl) h3
      (fun _ => by rw [State.goto, h5]; exact .inl) h6 (.none h1 h8 h9) (by rw [hp]; rfl) h4 (by simp)
      (by simp) ?_ (by simp)
    rw [hp]
    exact congrArg (· + 0) h2
  | testIdle =>
    simp only [advance, hp, Option.some.injEq] at ht
    subst ht
    refine effect_keep rfl rfl (fun _ => .inl) rfl (.none rfl rfl rfl) rfl (by simp [hp, Pc.Active]) ?_ ?_
    · rw [hp]
      split <;> rfl
    · intro hs hl
      exfalso
      by_cases hterm : s.state (.idle w) = .term
      · exact hs.2 ⟨hp, hterm⟩
      · simp [hterm] at hl
  | beginIdle =>
    simp only [advance, hp, Option.some.injEq] at ht
    exact ht ▸ effect_pass hp (fun _ => False.elim) rfl (by simp)
  | left => simp [advance, hp] at ht

def Action.caller : Action W → Option (Option W)
  | .scheduleFiber who _ | .scheduleCb who _ _ | .wake who _ => some who
  | _ => none

structure Scheduled (s t : State W) : Prop where
  pc : t.pc = s.pc
  cbFiber : t.cbFiber = s.cbFiber
  saved : ∀ g, g ≠ .sub s.next → t.saved g = s.saved g
  state : ∀ g, g ≠ .sub s.next → t.state g = s.state g
  fresh : t.state (.sub s.next) = s.state (.sub s.next) ∧ t.saved (.sub s.next) = s.saved (.sub s.next) ∨
    t.state (.sub s.next) = .init ∧ t.saved (.sub s.next) = true
  stopped : t.stopped = s.stopped
  active : t.active = s.active
  next : s.next ≤ t.next
  registered : ∀ n, 0 < t.registered n → 0 < s.registered n
  queue : ∃ task thd, t.queue = s.queue ++ [⟨task, thd, s.serial⟩] ∧
    ∀ n, task = .fiber n → n = s.next ∧ n < t.next ∨ 0 < s.registered n
  serial : t.serial = s.serial + 1
  removed : t.removed = s.removed
  readyYields : t.readyYields = s.readyYields
  putBacks : t.putBacks = s.putBacks

inductive StepEffect (s t : State W) (a : Action W) : Prop
  | work (w : W) (ha : a.worker = some w) (he : Effect s t w)
  | call (who : Option W) (ha : a.caller = some who) (hrun : s.running who = true) (hs : Scheduled s t)
  | stop (ht : t = { s with stopped := true })

theorem scheduleFiber_spec (s : State W) (thd : Option W) :
    Scheduled s (s.newFiber.scheduleNoLock (.fiber s.next) thd) where
  pc := rfl
  cbFiber := rfl
  saved _ hg := Function.update_of_ne hg _ _
  state _ hg := Function.update_of_ne hg _ _
  fresh := .inr ⟨Function.update_self _ _ _, Function.update_self _ _ _⟩
  stopped := rfl
  active := rfl
  next := Nat.le_succ _
  registered _ := id
  queue := ⟨_, _, rfl, fun _ hn => .inl (Task.fiber.inj hn ▸ ⟨rfl, Nat.lt_succ_self _⟩)⟩
  serial := rfl
  removed := rfl
  readyYields := rfl
  putBacks := rfl

omit [DecidableEq W] in
theorem scheduleCb_spec (s : State W) (c : Nat) (thd : Option W) : Scheduled s (s.scheduleNoLock (.cb c) thd) where
  pc := rfl
  cbFiber := rfl
  saved _ _ := rfl
  state _ _ := rfl
  fresh := .inl ⟨rfl, rfl⟩
  stopped := rfl
  active := rfl
  next := Nat.le_refl _
  registered _ := id
  queue := ⟨_, _, rfl, by simp⟩
  serial := rfl
  removed := rfl
  readyYields := rfl
  putBacks := rfl

omit [DecidableEq W] in
theorem wake_spec {n : Nat} (hn : 0 < s.registered n) :
    Scheduled s ({ s with registered := Function.update s.registered n (s.registered n - 1) }.scheduleNoLock
      (.fiber n) none) where
  pc := rfl
  cbFiber := rfl
  saved _ _ := rfl
  state _ _ := rfl
  fresh := .inl ⟨rfl, rfl⟩
  stopped := rfl
  active := rfl
  next := Nat.le_refl _
  registered m hm := by
    by_cases hmn : m = n
    · exact hmn ▸ hn
    · exact (Function.update_of_ne hmn (s.registered n - 1) s.registered) ▸ hm
  queue := ⟨_, _, rfl, fun _ hm => .inr (Task.fiber.inj hm ▸ hn)⟩
  serial := rfl
  removed := rfl
  readyYields := rfl
  putBacks := rfl

theorem register_effect {n : Nat} (hp : s.pc w = .inside (.sub n) k) :
    Effect s { s with registered := Function.update s.registered n (s.registered n + 1) } w := by
  refine effect_keep (Function.update_eq_self w s.pc).symm rfl (fun m hm => ?_) rfl (.none rfl rfl rfl) rfl
    (fun _ => id) rfl (by simp [hp])
  by_cases hmn : m = n
  · exact .inr (by rw [hp, hmn]; rfl)
  · exact .inl ((Function.update_of_ne hmn (s.registered n + 1) s.registered) ▸ hm)

theorem switchTo_effect {n : Nat} (hp : s.pc w = .inside (.sub n) k) (thd : W) :
    Effect s ((s.scheduleNoLock (.fiber n) (some thd)).goto w (.yielding (.sub n) k .hold)) w :=
  effect_keep rfl rfl (fun _ => .inl) rfl (.put n (some thd) (by rw [hp]; rfl) rfl rfl rfl) rfl
    (fun m hm => by rw [hp] at hm; exact hm) (by rw [hp]; rfl) (by simp)

theorem step_effect (hsane : ∀ w, (s.pc w).Sane w) {a : Action W} (ht : step s a = some t) :
    StepEffect s t a := by
  cases a with
  | scheduleFiber who thd =>
    simp only [step, Option.ite_none_right_eq_some, Option.some.injEq] at ht
    exact .call who rfl ht.1 (ht.2 ▸ scheduleFiber_spec s thd)
  | scheduleCb who c thd =>
    simp only [step, Option.ite_none_right_eq_some, Option.some.injEq] at ht
    exact .call who rfl ht.1 (ht.2 ▸ scheduleCb_spec s c thd)
  | wake who n =>
    simp only [step, Option.ite_none_right_eq_some, Option.some.injEq] at ht
    exact .call who rfl ht.1.1 (ht.2 ▸ wake_spec ht.1.2)
  | stop =>
    simp only [step, Option.some.injEq] at ht
    exact .stop ht.symm
  | enter w =>
    simp only [step, Option.ite_none_right_eq_some, Option.some.injEq] at ht
    refine .work w rfl (ht.2 ▸ ?_)
    exact effect_pass ht.1 (fun _ => False.elim) rfl (by simp)
  | bypass w =>
    simp only [step, Option.ite_none_right_eq_some, Option.some.injEq] at ht
    obtain ⟨⟨hp, -, hq, -⟩, rfl⟩ := ht
    refine .work w rfl ?_
    exact effect_keep rfl rfl (fun _ => .inl) rfl (.none rfl rfl rfl) rfl (by simp [hp, Pc.Active])
      (by rw [hp]; rfl) (fun _ _ => ⟨rfl, by rw [hq]; rfl⟩)
  | register w =>
    simp only [step] at ht
    split at ht
    · exact .work w rfl (Option.some.inj ht ▸ register_effect ‹_›)
    · simp at ht
  | switchTo w thd =>
    simp only [step] at ht
    split at ht
    · exact .work w rfl (Option.some.inj ht ▸ switchTo_effect ‹_› thd)
    · simp at ht
  | yieldToHold w | yieldToReady w | finish w thrown =>
    simp only [step] at ht
    split at ht
    · rename_i hp
      exact .work w rfl (Option.some.inj ht ▸ effect_pass hp (fun _ => id) rfl (by simp))
    · simp at ht
  | idleExit w =>
    simp only [step] at ht
    split at ht
    · rename_i hp
      rw [Option.ite_none_right_eq_some, Option.some.injEq] at ht
      exact .work w rfl (ht.2 ▸ effect_pass hp (fun _ => id) rfl (by simp))
    · simp at ht
  | swapOut w =>
    simp only [step] at ht
    split at ht
    · rename_i hp
      exact .work w rfl (Option.some.inj ht ▸ effect_pass hp (by simp [Pc.Active]) rfl (by simp))
    · simp at ht
  | advance w => exact .work w rfl (advance_effect (hsane w) ht)

structure Sane (s : State W) : Prop where
  pc : ∀ w, (s.pc w).Sane w
  cbFiber : ∀ w v, s.cbFiber w ≠ some (.idle v)

omit [DecidableEq W] in
theorem Pc.Sane.of_run (h : p.run = none) : p.Sane w := by
  refine ⟨fun v hv => by simp [Pc.fiber, h] at hv, by simp [h], ?_⟩
  rintro f k v (rfl | rfl) <;> simp [Pc.run] at h

omit [DecidableEq W] in
theorem Pc.Sane.stay {q : Pc W} (h : q.Sane w) (hq : q.run = some (f, k)) {l : Kind}
    (hp : p.run = some (f, l)) (hl : l = .idle → k = .idle)
    (hv : ∀ g m v, p = .yielding g m v ∨ p = .setState g m v → v ≠ .exec) : p.Sane w := by
  refine ⟨fun v hf => h.own v ?_, fun n hn => h.kind n ?_, hv⟩
  · rw [Pc.fiber, hp] at hf
    rw [Pc.fiber, hq]
    exact hf
  · rw [hp, Option.some.injEq, Prod.mk.injEq] at hn
    rw [hq, hn.1, hl hn.2]

theorem Sane.goto (h : Sane s) (hpc : t.pc = Function.update s.pc w p) (hp : p.Sane w)
    (hcb : ∀ v u, t.cbFiber v ≠ some (.idle u)) : Sane t := by
  refine ⟨fun v => ?_, hcb⟩
  obtain ⟨hw, hother⟩ := update_pc hpc
  by_cases hv : v = w
  · rw [hv, hw]
    exact hp
  · rw [hother v hv]
    exact h.pc v

theorem release_cbFiber (h : ∀ v u, s.cbFiber v ≠ some (.idle u)) (w : W) (k : Kind) (v u : W) :
    (s.release w k).cbFiber v ≠ some (.idle u) := by
  unfold State.release
  split
  · by_cases hv : v = w
    · simp [State.setCbFiber, hv]
    · simpa [State.setCbFiber, hv] using h v u
  · exact h v u

theorem Sane.takeTask (h : Sane s) : Sane (takeTask s w) := by
  unfold Worker.takeTask
  split
  · exact h.goto rfl (.of_run rfl) h.cbFiber
  · split
    · exact h.goto rfl ⟨by simp [Pc.fiber, Pc.run], by simp [Pc.run], by simp⟩ h.cbFiber
    · split
      · rename_i f hf
        refine h.goto rfl ⟨fun v hv => ?_, by simp [Pc.run], by simp⟩ h.cbFiber
        obtain rfl : f = .idle v := by simpa [Pc.fiber, Pc.run] using hv
        exact absurd hf (h.cbFiber w v)
      · refine h.goto rfl ⟨by simp [Pc.fiber, Pc.run], by simp [Pc.run], by simp⟩ (fun v u => ?_)
        by_cases hv : v = w
        · simp [State.goto, State.setCbFiber, hv]
        · simpa [State.goto, State.setCbFiber, State.newFiber, State.setSaved, State.setState,
            State.remove, hv] using h.cbFiber v u

theorem Sane.advance (h : Sane s) (ht : advance s w = some t) : Sane t := by
  have hw := h.pc w
  cases hp : s.pc w with
  | fresh => simp [Worker.advance, hp] at ht
  | scan =>
    simp only [Worker.advance, hp, Option.some.injEq] at ht
    exact ht ▸ h.takeTask
  | inside f k => simp [Worker.advance, hp] at ht
  | left => simp [Worker.advance, hp] at ht
  | taken f =>
    simp only [Worker.advance, hp, Option.some.injEq] at ht
    rw [hp] at hw
    subst ht
    split
    · exact h.goto rfl (.of_run rfl) h.cbFiber
    · exact h.goto rfl (hw.stay rfl rfl id (by simp)) h.cbFiber
  | skip =>
    simp only [Worker.advance, hp, Option.some.injEq] at ht
    exact ht ▸ h.goto rfl (.of_run rfl) h.cbFiber
  | resetting f run =>
    simp only [Worker.advance, hp, Option.ite_none_right_eq_some, Option.some.injEq] at ht
    rw [hp] at hw
    exact ht.2 ▸ h.goto rfl (hw.stay rfl rfl id (by simp)) h.cbFiber
  | setInit f run =>
    simp only [Worker.advance, hp, Option.some.injEq] at ht
    rw [hp] at hw
    subst ht
    cases run with
    | true => exact h.goto rfl (hw.stay rfl rfl id (by simp)) h.cbFiber
    | false => exact h.goto rfl (.of_run rfl) h.cbFiber
  | swapIn f k =>
    simp only [Worker.advance, hp, Option.ite_none_right_eq_some, Option.some.injEq] at ht
    rw [hp] at hw
    exact ht.2 ▸ h.goto rfl (hw.stay rfl rfl id (by simp)) h.cbFiber
  | setExec f k | restore f k | save f k | saved f k =>
    simp only [Worker.advance, hp, Option.some.injEq] at ht
    rw [hp] at hw
    exact ht ▸ h.goto rfl (hw.stay rfl rfl id (by simp)) h.cbFiber
  | yielding f k v =>
    simp only [Worker.advance, hp, Option.ite_none_right_eq_some, Option.some.injEq] at ht
    rw [hp] at hw
    refine ht.2 ▸ h.goto rfl (hw.stay rfl rfl id ?_) h.cbFiber
    rintro g m u (hu | hu)
    · simp at hu
    · cases hu
      exact hw.value f k v (.inl rfl)
  | setState f k v =>
    simp only [Worker.advance, hp, Option.some.injEq] at ht
    obtain ⟨y, hy⟩ := countYield_eq s f v
    rw [hy] at ht
    rw [hp] at hw
    exact ht ▸ h.goto rfl (hw.stay rfl rfl id (by simp)) h.cbFiber
  | decrement f k =>
    simp only [Worker.advance, hp, Option.some.injEq] at ht
    rw [hp] at hw
    subst ht
    split <;> exact h.goto rfl (hw.stay rfl rfl id (by simp)) h.cbFiber
  | testReady f k =>
    cases f with
    | idle v => simp [Worker.advance, hp] at ht
    | sub n =>
      simp only [Worker.advance, hp, Option.some.injEq] at ht
      rw [hp] at hw
      subst ht
      split <;> exact h.goto rfl (hw.stay rfl rfl id (by simp)) h.cbFiber
  | putBack n k =>
    simp only [Worker.advance, hp, Option.some.injEq] at ht
    subst ht
    have h7 := (release_fields ((s.countPutBack n).scheduleNoLock (.fiber n) none) w k).2.2.2.2.2.2.1
    exact h.goto (p := .scan) (by rw [State.goto, h7]; rfl) (.of_run rfl)
      (release_cbFiber (s := (s.countPutBack n).scheduleNoLock (.fiber n) none) h.cbFiber w k)
  | testEnd f k =>
    simp only [Worker.advance, hp, Option.some.injEq] at ht
    rw [hp] at hw
    subst ht
    split
    · split
      · exact h.goto rfl (hw.stay rfl rfl (by simp) (by simp)) h.cbFiber
      · exact h.goto rfl (.of_run rfl) h.cbFiber
    · exact h.goto rfl (hw.stay rfl rfl id (by simp)) h.cbFiber
  | setHold f k =>
    simp only [Worker.advance, hp, Option.some.injEq] at ht
    subst ht
    have h7 := (release_fields (s.setState f .hold) w k).2.2.2.2.2.2.1
    exact h.goto (p := .scan) (by rw [State.goto, h7]; rfl) (.of_run rfl)
      (release_cbFiber (s := s.setState f .hold) h.cbFiber w k)
  | testIdle =>
    simp only [Worker.advance, hp, Option.some.injEq] at ht
    subst ht
    split <;> exact h.goto rfl (.of_run rfl) h.cbFiber
  | beginIdle =>
    simp only [Worker.advance, hp, Option.some.injEq] at ht
    refine ht ▸ h.goto rfl ⟨fun v hv => ?_, by simp [Pc.run], by simp⟩ h.cbFiber
    have hvw : w = v := by simpa [Pc.fiber, Pc.run] using hv
    exact hvw.symm

theorem Sane.step (h : Sane s) {a : Action W} (ht : step s a = some t) : Sane t := by
  cases a with
  | scheduleFiber who thd =>
    simp only [Worker.step, Option.ite_none_right_eq_some, Option.some.injEq] at ht
    exact ht.2 ▸ ⟨h.pc, h.cbFiber⟩
  | scheduleCb who c thd =>
    simp only [Worker.step, Option.ite_none_right_eq_some, Option.some.injEq] at ht
    exact ht.2 ▸ ⟨h.pc, h.cbFiber⟩
  | wake who n =>
    simp only [Worker.step, Option.ite_none_right_eq_some, Option.some.injEq] at ht
    exact ht.2 ▸ ⟨h.pc, h.cbFiber⟩
  | stop =>
    simp only [Worker.step, Option.some.injEq] at ht
    exact ht ▸ ⟨h.pc, h.cbFiber⟩
  | enter w =>
    simp only [Worker.step, Option.ite_none_right_eq_some, Option.some.injEq] at ht
    exact ht.2 ▸ h.goto rfl (.of_run rfl) h.cbFiber
  | bypass w =>
    simp only [Worker.step, Option.ite_none_right_eq_some, Option.some.injEq] at ht
    exact ht.2 ▸ h.goto rfl (.of_run rfl) h.cbFiber
  | register w =>
    simp only [Worker.step] at ht
    split at ht
    · exact Option.some.inj ht ▸ ⟨h.pc, h.cbFiber⟩
    · simp at ht
  | switchTo w thd | yieldToHold w | yieldToReady w | swapOut w =>
    have hw := h.pc w
    simp only [Worker.step] at ht
    split at ht
    · rename_i hp
      rw [hp] at hw
      refine Option.some.inj ht ▸ h.goto rfl (hw.stay rfl rfl id ?_) h.cbFiber
      rintro g m u (hu | hu) <;> cases hu <;> simp
    · simp at ht
  | finish w thrown =>
    have hw := h.pc w
    simp only [Worker.step] at ht
    split at ht
    · rename_i hp
      rw [hp] at hw
      refine Option.some.inj ht ▸ h.goto rfl (hw.stay rfl rfl id ?_) h.cbFiber
      rintro g m u (hu | hu) <;> cases hu
      cases thrown <;> simp
    · simp at ht
  | idleExit w =>
    have hw := h.pc w
    simp only [Worker.step] at ht
    split at ht
    · rename_i hp
      rw [Option.ite_none_right_eq_some, Option.some.injEq] at ht
      rw [hp] at hw
      refine ht.2 ▸ h.goto rfl (hw.stay rfl rfl id ?_) h.cbFiber
      rintro g m u (hu | hu) <;> cases hu
      simp
    · simp at ht
  | advance w => exact h.advance ht

omit [DecidableEq W] in
theorem init_sane (h : Init s) : Sane s :=
  ⟨fun w => .of_run (by rw [h.pc]; rfl), fun w v => by simp [h.cbFiber]⟩

end Windgent.Scheduler.Worker
