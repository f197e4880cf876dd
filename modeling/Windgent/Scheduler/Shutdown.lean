import Windgent.Scheduler.Exclusive
import Mathlib.Algebra.BigOperators.Group.Finset.Piecewise

namespace Windgent.Scheduler.Worker

open Transition

variable {W : Type}

def Pc.Leaving : Pc W → Prop
  | .left | .yielding (.idle _) _ .term | .setState (.idle _) _ .term => True
  | _ => False

/-- A worker at `p` is going to put the fiber `n`, whose state is `v`, back. -/
def Pc.Pending (p : Pc W) (v : FiberState) (n : Nat) : Prop :=
  match p with
  | .save f _ | .saved f _ | .decrement f _ | .testReady f _ => f = .sub n ∧ v = .ready
  | .putBack m _ => m = n
  | _ => False

def Pending (s : State W) (w : W) (n : Nat) : Prop := (s.pc w).Pending (s.state (.sub n)) n

inductive ReadyEffect (s t : State W) (w : W) (n : Nat) : Prop
  | keep (hy : t.readyYields n = s.readyYields n) (hb : t.putBacks n = s.putBacks n)
      (hp : Pending t w n ↔ Pending s w n)
  | yield (hy : t.readyYields n = s.readyYields n + 1) (hb : t.putBacks n = s.putBacks n)
      (hf : (s.pc w).fiber = some (.sub n)) (hs : ¬ Pending s w n) (ht : Pending t w n)
  | putBack (hy : t.readyYields n = s.readyYields n) (hb : t.putBacks n = s.putBacks n + 1)
      (hs : Pending s w n) (ht : ¬ Pending t w n)

theorem Pc.Pending.fiber {p : Pc W} {v : FiberState} {n : Nat} (h : p.Pending v n) :
    p.fiber = some (.sub n) := by
  cases p <;> simp_all [Pc.Pending, Pc.fiber, Pc.run]

variable [DecidableEq W] {s t : State W} {w : W} {p : Pc W} {n : Nat}

theorem advance_leaving (ht : advance s w = some t) (hl : (t.pc w).Leaving) :
    (s.pc w).Leaving ∨ s.state (.idle w) = .term := by
  cases hp : s.pc w with
  | scan =>
    simp only [advance, hp, Option.some.injEq] at ht
    subst ht
    unfold takeTask at hl
    split at hl
    · simp [State.goto, Pc.Leaving] at hl
    · split at hl
      · simp [State.goto, Pc.Leaving] at hl
      · split at hl <;> simp [State.goto, Pc.Leaving] at hl
  | yielding f k v =>
    simp only [advance, hp, Option.ite_none_right_eq_some, Option.some.injEq] at ht
    obtain ⟨-, rfl⟩ := ht
    cases f <;> cases v <;> simp_all [State.goto, Pc.Leaving]
  | testIdle =>
    simp only [advance, hp, Option.some.injEq] at ht
    subst ht
    by_cases he : s.state (.idle w) = .term
    · exact .inr he
    · simp [he, State.goto, Pc.Leaving] at hl
  | resetting f run | swapIn f k =>
    simp only [advance, hp, Option.ite_none_right_eq_some, Option.some.injEq] at ht
    obtain ⟨-, rfl⟩ := ht
    simp [State.goto, Pc.Leaving] at hl
  | testReady f k =>
    cases f with
    | idle v => simp [advance, hp] at ht
    | sub m =>
      simp only [advance, hp, Option.some.injEq] at ht
      subst ht
      split at hl <;> simp [State.goto, Pc.Leaving] at hl
  | fresh | inside f k | left => simp [advance, hp] at ht
  | skip | setExec f k | restore f k | setState f k v | save f k | saved f k | putBack m k | setHold f k |
    beginIdle =>
    simp only [advance, hp, Option.some.injEq] at ht
    subst ht
    simp [State.goto, Pc.Leaving] at hl
  | taken f | setInit f run | decrement f k =>
    simp only [advance, hp, Option.some.injEq] at ht
    subst ht
    split at hl <;> simp [State.goto, Pc.Leaving] at hl
  | testEnd f k =>
    simp only [advance, hp, Option.some.injEq] at ht
    subst ht
    split at hl
    · split at hl <;> simp [State.goto, Pc.Leaving] at hl
    · simp [State.goto, Pc.Leaving] at hl

theorem ready_out (hpc : t.pc = Function.update s.pc w p) (hy : t.readyYields = s.readyYields)
    (hb : t.putBacks = s.putBacks) (hs : ∀ v, ¬ (s.pc w).Pending v n) (ht : ∀ v, ¬ p.Pending v n) :
    ReadyEffect s t w n := by
  refine .keep (by rw [hy]) (by rw [hb]) ?_
  rw [Pending, Pending, hpc, Function.update_self]
  exact iff_of_false (ht _) (hs _)

theorem ready_keep (hpc : t.pc = Function.update s.pc w p) (hy : t.readyYields = s.readyYields)
    (hb : t.putBacks = s.putBacks) (hstate : t.state = s.state)
    (hp : p.Pending (s.state (.sub n)) n ↔ (s.pc w).Pending (s.state (.sub n)) n) : ReadyEffect s t w n := by
  refine .keep (by rw [hy]) (by rw [hb]) ?_
  rwa [Pending, Pending, hpc, Function.update_self, hstate]

theorem takeTask_ready (hp : s.pc w = .scan) (n : Nat) : ReadyEffect s (takeTask s w) w n := by
  have hs : ∀ v, ¬ (s.pc w).Pending v n := fun v => by simp [hp, Pc.Pending]
  unfold takeTask
  split
  · exact ready_out rfl rfl rfl hs (fun _ => id)
  · split
    · exact ready_out rfl rfl rfl hs (fun _ => id)
    · split
      · exact ready_out rfl rfl rfl hs (fun _ => id)
      · exact ready_out rfl rfl rfl hs (fun _ => id)

theorem setState_ready {f : Fiber W} {k : Kind} {v : FiberState} (hp : s.pc w = .setState f k v) (n : Nat) :
    ReadyEffect s (((s.countYield f v).setState f v).goto w (.save f k)) w n := by
  by_cases hf : f = .sub n ∧ v = .ready
  · obtain ⟨rfl, rfl⟩ := hf
    refine .yield ?_ rfl (by rw [hp]; rfl) ?_ ?_
    · exact Function.update_self _ _ _
    · simp [Pending, hp, Pc.Pending]
    · simp [Pending, State.goto, State.setState, Pc.Pending]
  · refine .keep ?_ ?_ ?_
    · cases f with
      | idle v' => rfl
      | sub m =>
        cases v with
        | ready =>
          have hne : n ≠ m := fun he => hf ⟨by rw [he], rfl⟩
          exact Function.update_of_ne hne _ _
        | _ => rfl
    · obtain ⟨y, hy⟩ := countYield_eq s f v
      rw [hy]
      rfl
    · refine iff_of_false ?_ (by simp [Pending, hp, Pc.Pending])
      rw [Pending, show (((s.countYield f v).setState f v).goto w (.save f k)).pc w = .save f k from
        Function.update_self _ _ _]
      rintro ⟨rfl, h2⟩
      exact hf ⟨rfl, (Function.update_self _ _ _).symm.trans h2⟩

theorem release_accounts (s : State W) (w : W) (k : Kind) :
    (s.release w k).readyYields = s.readyYields ∧ (s.release w k).putBacks = s.putBacks := by
  unfold State.release
  split <;> exact ⟨rfl, rfl⟩

theorem not_pending_scan (s : State W) (w : W) (n : Nat) : ¬ Pending (s.goto w .scan) w n := by
  simp [Pending, State.goto, Pc.Pending]

theorem putBack_ready {m : Nat} {k : Kind} (hp : s.pc w = .putBack m k) (n : Nat) :
    ReadyEffect s ((((s.countPutBack m).scheduleNoLock (.fiber m) none).release w k).goto w .scan) w n := by
  have hr := release_accounts ((s.countPutBack m).scheduleNoLock (.fiber m) none) w k
  have hout := not_pending_scan (((s.countPutBack m).scheduleNoLock (.fiber m) none).release w k) w n
  by_cases hm : m = n
  · subst hm
    refine .putBack (congrFun hr.1 m) ?_ (by simp [Pending, hp, Pc.Pending]) hout
    exact (congrFun hr.2 m).trans (Function.update_self _ _ _)
  · refine .keep (congrFun hr.1 n) ?_ (iff_of_false hout (by simp [Pending, hp, Pc.Pending, hm]))
    exact (congrFun hr.2 n).trans (Function.update_of_ne (Ne.symm hm) _ _)

theorem advance_ready (hsane : (s.pc w).Sane w) (ht : advance s w = some t) (n : Nat) :
    ReadyEffect s t w n := by
  cases hp : s.pc w with
  | fresh | inside f k | left => simp [advance, hp] at ht
  | scan =>
    simp only [advance, hp, Option.some.injEq] at ht
    exact ht ▸ takeTask_ready hp n
  | setState f k v =>
    simp only [advance, hp, Option.some.injEq] at ht
    exact ht ▸ setState_ready hp n
  | putBack m k =>
    simp only [advance, hp, Option.some.injEq] at ht
    exact ht ▸ putBack_ready hp n
  | taken f =>
    simp only [advance, hp, Option.some.injEq] at ht
    subst ht
    refine ready_out rfl rfl rfl (fun _ => by rw [hp]; exact id) (fun _ => ?_)
    split <;> exact id
  | setInit f run =>
    simp only [advance, hp, Option.some.injEq] at ht
    subst ht
    refine ready_out rfl rfl rfl (fun _ => by rw [hp]; exact id) (fun _ => ?_)
    split <;> exact id
  | resetting f run | swapIn f k | yielding f k v =>
    simp only [advance, hp, Option.ite_none_right_eq_some, Option.some.injEq] at ht
    exact ht.2 ▸ ready_out rfl rfl rfl (fun _ => by rw [hp]; exact id) (fun _ => id)
  | skip | setExec f k | restore f k | beginIdle =>
    simp only [advance, hp, Option.some.injEq] at ht
    exact ht ▸ ready_out rfl rfl rfl (fun _ => by rw [hp]; exact id) (fun _ => id)
  | save f k | saved f k =>
    simp only [advance, hp, Option.some.injEq] at ht
    exact ht ▸ ready_keep rfl rfl rfl rfl (by rw [hp]; rfl)
  | decrement f k =>
    simp only [advance, hp, Option.some.injEq] at ht
    subst ht
    split
    · rename_i hk
      refine ready_keep rfl rfl rfl rfl (iff_of_false id ?_)
      rw [hp]
      rintro ⟨rfl, -⟩
      exact hsane.kind n (by rw [hp, hk]; rfl)
    · exact ready_keep rfl rfl rfl rfl (by rw [hp]; rfl)
  | testReady f k =>
    cases f with
    | idle v => simp [advance, hp] at ht
    | sub m =>
      simp only [advance, hp, Option.some.injEq] at ht
      subst ht
      refine ready_keep rfl rfl rfl rfl ?_
      rw [hp]
      by_cases hm : m = n
      · subst hm
        by_cases hr : s.state (.sub m) = .ready <;> simp [hr, Pc.Pending]
      · split <;> simp [Pc.Pending, hm]
  | testEnd f k =>
    simp only [advance, hp, Option.some.injEq] at ht
    subst ht
    refine ready_out rfl rfl rfl (fun _ => by rw [hp]; exact id) (fun _ => ?_)
    split
    · split <;> exact id
    · exact id
  | setHold f k =>
    simp only [advance, hp, Option.some.injEq] at ht
    subst ht
    have hpc := (release_fields (s.setState f .hold) w k).2.2.2.2.2.2.1
    obtain ⟨hy, hb⟩ := release_accounts (s.setState f .hold) w k
    exact ready_out (p := .scan) (by rw [State.goto, hpc]; rfl) hy hb (fun _ => by rw [hp]; exact id)
      (fun _ => id)
  | testIdle =>
    simp only [advance, hp, Option.some.injEq] at ht
    subst ht
    refine ready_out rfl rfl rfl (fun _ => by rw [hp]; exact id) (fun _ => ?_)
    split <;> exact id

theorem step_leaving {a : Action W} (ha : a.worker = some w) (ht : step s a = some t)
    (hl : (t.pc w).Leaving) : ((s.pc w).Leaving ∨ s.state (.idle w) = .term) ∨ s.stopping := by
  cases a with
  | scheduleFiber who thd | scheduleCb who c thd | wake who m | stop => simp [Action.worker] at ha
  | enter v =>
    cases ha
    simp only [step, Option.ite_none_right_eq_some, Option.some.injEq] at ht
    rw [← ht.2] at hl
    simp [State.goto, Pc.Leaving] at hl
  | bypass v =>
    simp only [step, Option.ite_none_right_eq_some, Option.some.injEq] at ht
    exact .inr ht.1.2
  | register v =>
    simp only [step] at ht
    split at ht
    · rw [← Option.some.inj ht] at hl
      exact .inl (.inl hl)
    · simp at ht
  | switchTo v thd | yieldToReady v | finish v thrown | swapOut v =>
    cases ha
    simp only [step] at ht
    split at ht
    · rw [← Option.some.inj ht] at hl
      simp [State.goto, Pc.Leaving] at hl
    · simp at ht
  | yieldToHold v =>
    cases ha
    simp only [step] at ht
    split at ht
    · rename_i f k hp
      rw [← Option.some.inj ht] at hl
      cases f <;> simp [State.goto, Pc.Leaving] at hl
    · simp at ht
  | idleExit v =>
    simp only [step] at ht
    split at ht
    · rw [Option.ite_none_right_eq_some] at ht
      exact .inr ht.1
    · simp at ht
  | advance v =>
    cases ha
    exact .inl (advance_leaving ht hl)

theorem step_ready (hsane : ∀ w, (s.pc w).Sane w) {a : Action W} (ha : a.worker = some w)
    (ht : step s a = some t) (n : Nat) : ReadyEffect s t w n := by
  cases a with
  | scheduleFiber who thd | scheduleCb who c thd | wake who m | stop => simp [Action.worker] at ha
  | enter v =>
    cases ha
    simp only [step, Option.ite_none_right_eq_some, Option.some.injEq] at ht
    exact ht.2 ▸ ready_out rfl rfl rfl (fun _ => by rw [ht.1]; exact id) (fun _ => id)
  | bypass v =>
    cases ha
    simp only [step, Option.ite_none_right_eq_some, Option.some.injEq] at ht
    exact ht.2 ▸ ready_out rfl rfl rfl (fun _ => by rw [ht.1.1]; exact id) (fun _ => id)
  | register v =>
    simp only [step] at ht
    split at ht
    · exact Option.some.inj ht ▸ .keep rfl rfl Iff.rfl
    · simp at ht
  | switchTo v thd | yieldToHold v | yieldToReady v | finish v thrown =>
    cases ha
    simp only [step] at ht
    split at ht
    · rename_i hp
      exact Option.some.inj ht ▸ ready_out rfl rfl rfl (fun _ => by rw [hp]; exact id) (fun _ => id)
    · simp at ht
  | idleExit v =>
    cases ha
    simp only [step] at ht
    split at ht
    · rename_i hp
      rw [Option.ite_none_right_eq_some, Option.some.injEq] at ht
      exact ht.2 ▸ ready_out rfl rfl rfl (fun _ => by rw [hp]; exact id) (fun _ => id)
    · simp at ht
  | swapOut v =>
    cases ha
    simp only [step] at ht
    split at ht
    · rename_i hp
      exact Option.some.inj ht ▸ ready_out rfl rfl rfl (fun _ => by rw [hp]; exact id)
        (fun _ h => by simp [Pc.Pending] at h)
    · simp at ht
  | advance v =>
    cases ha
    exact advance_ready (hsane w) ht n

/-- No scheduling from outside the workers once `stop` has been called. -/
def Closed (s : State W) (a : Action W) : Prop := a.caller = some none → s.stopped = false

def serials (s : State W) : List Nat := s.queue.map (·.serial) ++ s.removed.map (·.1.serial)

/-- What the scheduler keeps in order in every run, also in the unsafe ones. -/
structure Orderly (s : State W) : Prop where
  exec : ∀ n, s.state (.sub n) = .exec → ∃ v, (s.pc v).Active (.sub n)
  early : s.stopped = false → ∀ v, ¬ (s.pc v).Leaving ∧ s.state (.idle v) ≠ .term
  served : ∀ ft ∈ s.queue, ft.threadId = none → ∃ v, WillScan s v
  nodup : (serials s).Nodup
  fresh : ∀ i ∈ serials s, i < s.serial
  pinned : ∀ e ∈ s.removed, e.1.threadId = none ∨ e.1.threadId = some e.2

omit [DecidableEq W] in
theorem willScan_of_active {f : Fiber W} (h : (s.pc w).Active f) : WillScan s w := by
  refine ⟨fun hp => ?_, fun hp => ?_⟩
  · simp [hp, Pc.Active] at h
  · simp [hp.1, Pc.Active] at h

omit [DecidableEq W] in
theorem willScan_of_fiber {f : Fiber W} (h : (s.pc w).fiber = some f) : WillScan s w := by
  refine ⟨fun hp => ?_, fun hp => ?_⟩
  · simp [hp, Pc.fiber, Pc.run] at h
  · simp [hp.1, Pc.fiber, Pc.run] at h

/-- A worker never keeps another one from its next scan. -/
theorem WillScan.other (hsane : Sane s) (he : Effect s t w) {v : W} (hv : v ≠ w) (h : WillScan s v) :
    WillScan t v := by
  rw [WillScan, he.pc v hv]
  refine ⟨h.1, fun hterm => h.2 ⟨hterm.1, ?_⟩⟩
  obtain hs | ⟨k, hp⟩ := he.term v hterm.2
  · exact hs
  · exact absurd ((hsane.pc w).own v (by rw [hp]; rfl)) hv

def Executed (s : State W) : Prop := ∀ n, s.state (.sub n) = .exec → ∃ v, (s.pc v).Active (.sub n)

theorem exec_effect (h : Executed s) (he : Effect s t w) : Executed t := by
  intro n hn
  obtain hs | hw := he.exec _ hn
  · obtain ⟨v, hv⟩ := h n hs
    by_cases hvw : v = w
    · subst hvw
      exact ⟨v, he.active n hv hn⟩
    · exact ⟨v, by rwa [he.pc v hvw]⟩
  · exact ⟨w, hw⟩

omit [DecidableEq W] in
theorem exec_call (h : Executed s) (hs : Scheduled s t) : Executed t := by
  intro n hn
  rw [hs.pc]
  refine h n ?_
  by_cases hne : n = s.next
  · subst hne
    obtain hf | hf := hs.fresh
    · exact hf.1 ▸ hn
    · simp [hf.1] at hn
  · exact (hs.state (.sub n) (by simpa using hne)).symm.trans hn

/-- When a worker gives up scanning, each entry it leaves behind for everybody is
that of a running fiber, whose worker is going to scan again. -/
theorem served_effect (h : Orderly s) (hsane : Sane s) (he : Effect s t w) (ft : FiberAndThread W)
    (hft : ft ∈ t.queue) (hthd : ft.threadId = none) : ∃ v, WillScan t v := by
  have hbefore : ∃ v, WillScan s v := by
    cases he.queue with
    | take x q hp hscan hq _ _ => exact h.served ft (mem_of_scan hscan (hq ▸ hft)) hthd
    | put m thd hp hq _ _ => exact ⟨w, willScan_of_fiber hp⟩
    | none hq _ _ => exact h.served ft (hq ▸ hft) hthd
  obtain ⟨v, hv⟩ := hbefore
  by_cases hvw : v = w
  · subst hvw
    by_cases htv : WillScan t v
    · exact ⟨v, htv⟩
    · obtain ⟨hq, hscan, hstate⟩ := he.leave hv htv
      have hskip := scan_none hscan ft (hq ▸ hft)
      obtain ⟨n, -, hn⟩ : ∃ n, ft.task = .fiber n ∧ s.state (.sub n) = .exec := by
        cases htask : ft.task <;> simp_all [skips]
      obtain ⟨u, hu⟩ := exec_effect h.exec he n (hstate ▸ hn)
      exact ⟨u, willScan_of_active hu⟩
  · exact ⟨v, hv.other hsane he hvw⟩

omit [DecidableEq W] in
theorem serials_take {front back : List (FiberAndThread W)} {ft : FiberAndThread W}
    (hs : s.queue = front ++ ft :: back) (hq : t.queue = front ++ back)
    (hr : t.removed = (ft, w) :: s.removed) : (serials t).Perm (serials s) := by
  rw [serials, serials, hs, hq, hr]
  simp only [List.map_append, List.map_cons, List.append_assoc, List.cons_append]
  exact List.perm_middle.append_left _

omit [DecidableEq W] in
theorem serials_put {ft : FiberAndThread W} (hq : t.queue = s.queue ++ [ft]) (hr : t.removed = s.removed) :
    (serials t).Perm (ft.serial :: serials s) := by
  rw [serials, serials, hq, hr]
  simp

omit [DecidableEq W] in
theorem nodup_put (h : Orderly s) {l : List Nat} (hl : l.Perm (s.serial :: serials s)) :
    l.Nodup ∧ ∀ i ∈ l, i < s.serial + 1 := by
  refine ⟨hl.nodup_iff.mpr (List.nodup_cons.mpr ⟨fun hm => ?_, h.nodup⟩), fun i hi => ?_⟩
  · exact absurd (h.fresh _ hm) (Nat.lt_irrefl _)
  · obtain rfl | hi := List.mem_cons.mp (hl.mem_iff.mp hi)
    · exact Nat.lt_succ_self _
    · exact Nat.lt_succ_of_lt (h.fresh i hi)

theorem serials_effect (h : Orderly s) (he : Effect s t w) :
    (serials t).Nodup ∧ ∀ i ∈ serials t, i < t.serial := by
  cases he.queue with
  | take x q hp hscan hq hserial hr =>
    obtain ⟨front, back, hs, rfl, -⟩ := scan_some hscan
    have hperm := serials_take hs hq hr
    refine ⟨hperm.nodup_iff.mpr h.nodup, fun i hi => ?_⟩
    rw [hserial]
    exact h.fresh i (hperm.mem_iff.mp hi)
  | put m thd hp hq hserial hr =>
    rw [hserial]
    exact nodup_put h (serials_put hq hr)
  | none hq hserial hr =>
    rw [serials, hq, hserial, hr]
    exact ⟨h.nodup, h.fresh⟩

theorem pinned_effect (h : Orderly s) (he : Effect s t w) :
    ∀ e ∈ t.removed, e.1.threadId = none ∨ e.1.threadId = some e.2 := by
  cases he.queue with
  | take x q hp hscan hq hserial hr =>
    intro e hmem
    rw [hr] at hmem
    obtain rfl | hmem := List.mem_cons.mp hmem
    · obtain ⟨front, back, -, -, hskip⟩ := scan_some hscan
      simp only [skips, Bool.or_eq_false_iff, decide_eq_false_iff_not] at hskip
      tauto
    · exact h.pinned e hmem
  | put m thd hp hq hserial hr => rw [hr]; exact h.pinned
  | none hq hserial hr => rw [hr]; exact h.pinned

theorem early_effect (h : Orderly s) (he : Effect s t w)
    (hl : (t.pc w).Leaving → ((s.pc w).Leaving ∨ s.state (.idle w) = .term) ∨ s.stopped = true)
    (hstop : t.stopped = false) (v : W) : ¬ (t.pc v).Leaving ∧ t.state (.idle v) ≠ .term := by
  have hs : s.stopped = false := he.stopped ▸ hstop
  refine ⟨fun hlv => ?_, fun hterm => ?_⟩
  · by_cases hv : v = w
    · subst hv
      obtain (h1 | h1) | h1 := hl hlv
      · exact (h.early hs v).1 h1
      · exact (h.early hs v).2 h1
      · simp [hs] at h1
    · rw [he.pc v hv] at hlv
      exact (h.early hs v).1 hlv
  · obtain h1 | ⟨k, hp⟩ := he.term v hterm
    · exact (h.early hs v).2 h1
    · exact (h.early hs w).1 (by rw [hp]; trivial)

omit [DecidableEq W] in
theorem Orderly.call [Nonempty W] (h : Orderly s) (hs : Scheduled s t)
    (hcaller : s.stopped = false ∨ ∃ v f k, s.pc v = .inside f k) : Orderly t := by
  have hidle : ∀ v, t.state (.idle v) = s.state (.idle v) := fun v => hs.state _ (by simp)
  have hscan : ∀ v, WillScan s v → WillScan t v := fun v hv => by rwa [WillScan, hs.pc, hidle]
  obtain ⟨task, thd, hq, -⟩ := hs.queue
  obtain ⟨hnodup, hfresh⟩ := nodup_put h (serials_put hq hs.removed)
  refine ⟨exec_call h.exec hs, fun hstop v => ?_, fun ft _ _ => ?_, hnodup, ?_, by rw [hs.removed]; exact h.pinned⟩
  · rw [hs.pc, hidle]
    exact h.early (hs.stopped ▸ hstop) v
  · obtain hstop | ⟨v, f, k, hp⟩ := hcaller
    · obtain ⟨v⟩ := ‹Nonempty W›
      obtain ⟨h1, h2⟩ := h.early hstop v
      exact ⟨v, hscan v ⟨fun hp => h1 (by rw [hp]; trivial), fun hp => h2 hp.2⟩⟩
    · exact ⟨v, hscan v (willScan_of_fiber (by rw [hp]; rfl))⟩
  · rw [hs.serial]
    exact hfresh

theorem Orderly.step [Nonempty W] (h : Orderly s) (hsane : Sane s) {a : Action W} (hc : Closed s a)
    (ht : step s a = some t) : Orderly t := by
  cases step_effect hsane.pc ht with
  | work w ha he =>
    obtain ⟨hnodup, hfresh⟩ := serials_effect h he
    exact ⟨exec_effect h.exec he, early_effect h he (fun hl => (step_leaving ha ht hl).imp id And.left),
    served_effect h hsane he, hnodup,
      hfresh, pinned_effect h he⟩
  | call who ha hrun hs =>
    refine h.call hs ?_
    cases who with
    | none => exact .inl (hc ha)
    | some v =>
      simp only [State.running] at hrun
      split at hrun
      · rename_i f k hp
        exact .inr ⟨v, f, k, hp⟩
      · simp at hrun
  | stop ht =>
    subst ht
    exact ⟨h.exec, by simp, h.served, h.nodup, h.fresh, h.pinned⟩

omit [DecidableEq W] in
theorem init_orderly (h : Init s) : Orderly s := by
  refine ⟨?_, fun _ v => ?_, ?_, ?_, ?_, ?_⟩
  all_goals simp [h.state, h.pc, h.queue, h.removed, serials, Pc.Leaving]

section Count

variable [Fintype W]

def between (s : State W) : Nat := (Finset.univ.filter (fun w => (s.pc w).Between = true)).card

omit [DecidableEq W] in
theorem between_eq (s : State W) : between s = ∑ w, (s.pc w).Between.toNat := by
  rw [between, Finset.card_filter]
  refine Finset.sum_congr rfl (fun w _ => ?_)
  cases (s.pc w).Between <;> rfl

theorem between_effect (he : Effect s t w) :
    between t + (s.pc w).Between.toNat = between s + (t.pc w).Between.toNat := by
  rw [between_eq, between_eq, ← Finset.add_sum_erase _ _ (Finset.mem_univ w),
    ← Finset.add_sum_erase Finset.univ (fun v => (s.pc v).Between.toNat) (Finset.mem_univ w)]
  have hrest : ∑ v ∈ Finset.univ.erase w, (t.pc v).Between.toNat =
      ∑ v ∈ Finset.univ.erase w, (s.pc v).Between.toNat :=
    Finset.sum_congr rfl (fun v hv => by rw [he.pc v (Finset.ne_of_mem_erase hv)])
  rw [hrest]
  omega

theorem active_step (hsane : Sane s) {a : Action W} (ht : step s a = some t) (h : s.active = between s) :
    t.active = between t := by
  cases step_effect hsane.pc ht with
  | work w ha he =>
    have hb := between_effect he
    have hc := he.count
    omega
  | call who ha hrun hs => rw [hs.active, h, between, between, hs.pc]
  | stop ht => rw [ht]; exact h

/-- Each `READY` yield of a fiber is still pending at one worker, or has led to
one return to the queue. -/
structure Balanced (s : State W) : Prop where
  settled : ∀ n, (∀ w, ¬ Pending s w n) → s.readyYields n = s.putBacks n
  pending : ∀ n w, Pending s w n → s.readyYields n = s.putBacks n + 1

omit [Fintype W] in
theorem pending_other (h : Inv s) (he : Effect s t w) {v : W} (hv : v ≠ w) (n : Nat) :
    Pending t v n ↔ Pending s v n := by
  rw [Pending, Pending, he.pc v hv]
  by_cases hf : (s.pc v).fiber = some (.sub n)
  · have hw : (s.pc w).fiber ≠ some (.sub n) := fun hw => hv (h.alone v w _ (.inl hf) (.inl hw))
    have hnext : n ≠ s.next := fun hn => h.not_holds_next v (.inl (hn ▸ hf))
    rw [he.state _ hw (by simpa using hnext)]
  · exact iff_of_false (fun hp => hf hp.fiber) (fun hp => hf hp.fiber)

omit [Fintype W] in
theorem Balanced.work (hb : Balanced s) (h : Inv s) (he : Effect s t w)
    (hr : ∀ n, ReadyEffect s t w n) : Balanced t := by
  have hother : ∀ v n, v ≠ w → (Pending t v n ↔ Pending s v n) := fun v n hv => pending_other h he hv n
  have hsole : ∀ v n, (s.pc w).fiber = some (.sub n) → Pending s v n → v = w :=
    fun v n hw hv => h.alone v w _ (.inl hv.fiber) (.inl hw)
  refine ⟨fun n hno => ?_, fun n v hv => ?_⟩
  · cases hr n with
    | keep hy hp hiff =>
      rw [hy, hp]
      refine hb.settled n (fun v => ?_)
      by_cases hvw : v = w
      · exact hvw ▸ fun hs => hno w (hiff.mpr hs)
      · exact fun hs => hno v ((hother v n hvw).mpr hs)
    | yield hy hp hf hs ht => exact absurd ht (hno w)
    | putBack hy hp hs ht => rw [hy, hp, hb.pending n w hs]
  · cases hr n with
    | keep hy hp hiff =>
      rw [hy, hp]
      by_cases hvw : v = w
      · exact hb.pending n w (hiff.mp (hvw ▸ hv))
      · exact hb.pending n v ((hother v n hvw).mp hv)
    | yield hy hp hf hs ht =>
      rw [hy, hp, hb.settled n (fun u hu => hs (hsole u n hf hu ▸ hu))]
    | putBack hy hp hs ht =>
      have hvw : v ≠ w := fun hvw => ht (hvw ▸ hv)
      exact absurd (hsole v n hs.fiber ((hother v n hvw).mp hv)) hvw

omit [Fintype W] [DecidableEq W] in
theorem Balanced.call (hb : Balanced s) (h : Inv s) (hs : Scheduled s t) : Balanced t := by
  have hpending : ∀ v n, Pending t v n ↔ Pending s v n := by
    intro v n
    rw [Pending, Pending, hs.pc]
    by_cases hn : n = s.next
    · have hf : (s.pc v).fiber ≠ some (.sub n) := fun hf => h.not_holds_next v (.inl (hn ▸ hf))
      exact iff_of_false (fun hp => hf hp.fiber) (fun hp => hf hp.fiber)
    · rw [hs.state _ (by simpa using hn)]
  refine ⟨fun n hno => ?_, fun n v hv => ?_⟩
  · rw [hs.readyYields, hs.putBacks]
    exact hb.settled n (fun v hv => hno v ((hpending v n).mpr hv))
  · rw [hs.readyYields, hs.putBacks]
    exact hb.pending n v ((hpending v n).mp hv)

omit [Fintype W] in
theorem Balanced.step (hb : Balanced s) (h : Inv s) (hsane : Sane s) {a : Action W}
    (ht : step s a = some t) : Balanced t := by
  cases step_effect hsane.pc ht with
  | work w ha he => exact hb.work h he (step_ready hsane.pc ha ht)
  | call who ha hrun hs => exact hb.call h hs
  | stop ht => exact ht ▸ ⟨hb.settled, hb.pending⟩

/-- No work is lost or duplicated: an entry is removed once, and by the thread it
asks for; the active count is the number of workers with a removed entry; a `READY`
yield leads to one return to the queue; and workers that have all left leave
nothing behind that any of them could have run. -/
structure NothingLost (s : State W) : Prop where
  once : (serials s).Nodup
  pinned : ∀ e ∈ s.removed, e.1.threadId = none ∨ e.1.threadId = some e.2
  active : s.active = between s
  ready : ∀ n, s.putBacks n ≤ s.readyYields n ∧ s.readyYields n ≤ s.putBacks n + 1 ∧
    ((∀ w, (s.pc w).fiber ≠ some (.sub n)) → s.readyYields n = s.putBacks n)
  final : (∀ w, s.pc w = .left) → s.active = 0 ∧ ∀ ft ∈ s.queue, ft.threadId ≠ none

theorem orderly_of_run [Nonempty W] {ok : State W → Action W → Prop} (hok : ∀ s a, ok s a → Closed s a)
    (h : Run Init step ok s) : Orderly s ∧ s.active = between s := by
  have hi : Sane s ∧ Orderly s ∧ s.active = between s := by
    refine Run.invariant (I := fun s => Sane s ∧ Orderly s ∧ s.active = between s)
      (fun s h0 => ⟨init_sane h0, init_orderly h0, ?_⟩) ?_ h
    · simp [between, h0.active, h0.pc, Pc.Between]
    · rintro s a t ⟨hsane, ho, ha⟩ hc ht
      exact ⟨hsane.step ht, ho.step hsane (hok s a hc) ht, active_step hsane ht ha⟩
  exact hi.2

omit [Fintype W] in
theorem balanced_of_run {ok : State W → Action W → Prop} (hok : ∀ s a, ok s a → Safe s a)
    (h : Run Init step ok s) : Balanced s := by
  have hi : ((Inv s ∧ Known s) ∧ Sane s) ∧ Balanced s := by
    refine Run.invariant (I := fun s => ((Inv s ∧ Known s) ∧ Sane s) ∧ Balanced s)
      (fun s h0 => ⟨⟨init_inv h0, init_sane h0⟩, ?_⟩) ?_ h
    · refine ⟨fun n _ => by rw [h0.readyYields, h0.putBacks], fun n w hw => ?_⟩
      simp [Pending, h0.pc, Pc.Pending] at hw
    · rintro s a t ⟨⟨⟨hi, hk⟩, hsane⟩, hb⟩ hsafe ht
      exact ⟨⟨⟨hi.step hk (hok s a hsafe) ht, hk.step hi hsane ht⟩, hsane.step ht⟩, hb.step hi hsane ht⟩
  exact hi.2

omit [Fintype W] [DecidableEq W] in
theorem Balanced.ready (h : Balanced s) (n : Nat) : s.putBacks n ≤ s.readyYields n ∧
    s.readyYields n ≤ s.putBacks n + 1 ∧
    ((∀ w, (s.pc w).fiber ≠ some (.sub n)) → s.readyYields n = s.putBacks n) := by
  refine ⟨?_, ?_, fun hno => h.settled n (fun w hw => hno w hw.fiber)⟩
  all_goals
    by_cases hp : ∃ w, Pending s w n
    · obtain ⟨w, hw⟩ := hp
      have := h.pending n w hw
      omega
    · have := h.settled n (fun w hw => hp ⟨w, hw⟩)
      omega

/-- Nothing is lost in every run without scheduling from outside after `stop`
whose queue scans never take a fiber that a worker still has in its hands. -/
theorem nothing_lost_of_run [Nonempty W] (h : Run Init step (fun s a => Closed s a ∧ Safe s a) s) :
    NothingLost s := by
  obtain ⟨ho, hactive⟩ := orderly_of_run (fun _ _ h => h.1) h
  refine ⟨ho.nodup, ho.pinned, hactive, (balanced_of_run (fun _ _ h => h.2) h).ready, fun hleft => ⟨?_, ?_⟩⟩
  · rw [hactive, between_eq]
    simp [hleft, Pc.Between]
  · intro ft hft hthd
    obtain ⟨v, hv⟩ := ho.served ft hft hthd
    exact hv.1 (hleft v)

end Count

instance (s : State W) (a : Action W) : Decidable (Closed s a) := inferInstanceAs (Decidable (_ → _))

theorem nothing_lost_ready_fiber : ∃ s : State Bool, Run Init step (fun s a => Closed s a ∧ Safe s a) s ∧
    s.readyYields 0 = 1 ∧ (∀ w, s.pc w = .left) ∧ NothingLost s := by
  have h : (exec (guarded step (fun s a => Closed s a ∧ Safe s a)) start (List.flatten
      [[.scheduleFiber none none, .stop, .enter false], List.replicate 5 (.advance false),
        [.yieldToReady false], List.replicate 12 (.advance false), [.finish false false],
        List.replicate 12 (.advance false), [.idleExit false], List.replicate 7 (.advance false),
        [.bypass true]])).map (fun s => (s.readyYields 0, s.pc false, s.pc true)) =
      some (1, .left, .left) := by
    decide +kernel
  obtain ⟨s, hs, he⟩ := Option.map_eq_some_iff.mp h
  obtain ⟨hy, hf, ht⟩ : s.readyYields 0 = 1 ∧ s.pc false = .left ∧ s.pc true = .left := by simpa using he
  have hrun : Run Init step (fun s a => Closed s a ∧ Safe s a) s := Run.exec (.start start_init) _ hs
  exact ⟨s, hrun, hy, fun w => by cases w <;> assumption, nothing_lost_of_run hrun⟩

/-- A fiber changes threads, and yields `READY` there before the worker it has left
has looked at its state: both workers put it back. -/
theorem fiber_put_back_twice : ∃ s : State Bool, Run Init step Closed s ∧
    s.readyYields 0 = 1 ∧ s.putBacks 0 = 2 ∧ ¬ NothingLost s := by
  have h : (exec (guarded step Closed) start (List.flatten
      [[.scheduleFiber none none, .stop, .enter false, .enter true], List.replicate 5 (.advance false),
        [.switchTo false true], List.replicate 4 (.advance false), List.replicate 5 (.advance true),
        [.yieldToReady true], List.replicate 4 (.advance true), List.replicate 3 (.advance false),
        List.replicate 3 (.advance true)])).map (fun s => (s.readyYields 0, s.putBacks 0)) =
      some (1, 2) := by
    decide +kernel
  obtain ⟨s, hs, he⟩ := Option.map_eq_some_iff.mp h
  obtain ⟨hy, hb⟩ := Prod.mk.inj he
  refine ⟨s, Run.exec (.start start_init) _ hs, hy, hb, fun hn => ?_⟩
  have hle := (hn.ready 0).1
  omega

end Windgent.Scheduler.Worker
