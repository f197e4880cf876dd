import Windgent.TimerManager.Armed

namespace Windgent.TimerManager

open MachineInt OrderedSet Transition

inductive Call where
  | cancel
  | refresh (now : Nat)
  | reset (ms : Nat) (from_now : Bool) (now : Nat)

def Call.perform (s : State) (a : Nat) : Call → Option (State × Bool)
  | .cancel => TimerManager.cancel s a
  | .refresh now => TimerManager.refresh s a now
  | .reset ms from_now now => (TimerManager.reset s a ms from_now now).map fun r => (r.1.1, r.2)

def Call.changed (t : Timer) : Call → Timer
  | .cancel => { t with cb := none }
  | .refresh now => { t with next := addU64 now t.ms }
  | .reset ms from_now now =>
    { t with ms := ms, next := addU64 (if from_now then now else subU64 t.next t.ms) ms }

/-- What a successful call does to the timer at `a`. -/
structure Call.Done (c : Call) (s : State) (a : Nat) (t : Timer) (s' : State) : Prop where
  self : s'.heap a = some (c.changed t)
  pending : a ∈ s'.timers ↔ c ≠ .cancel
  heap : ∀ b, b ≠ a → s'.heap b = s.heap b
  timers : ∀ b, b ≠ a → (b ∈ s'.timers ↔ b ∈ s.timers)

/-- The call reports whether the timer was pending, and changes nothing if it was not. -/
def Call.Reports (c : Call) (s : State) (a : Nat) (t : Timer) : Prop :=
  ∃ s' r, c.perform s a = some (s', r) ∧ (r = true ↔ a ∈ s.timers) ∧ (r = false → s' = s) ∧
    (r = true → c.Done s a t s')

/-- The early exit of `reset` is not taken for a timer outside of the set. -/
def Call.Regular (s : State) (a : Nat) (t : Timer) : Call → Prop
  | .reset ms from_now _ => a ∈ s.timers ∨ ms ≠ t.ms ∨ from_now = true
  | _ => True

def Bounded (s : State) : Prop := ∀ a t, s.heap a = some t → t.next < modulus

def Write.Bounded : Write → Prop
  | .construct _ t => t.next < modulus
  | .setNext _ next => next < modulus
  | _ => True

theorem addU64_lt (a b : Nat) : addU64 a b < modulus := Nat.mod_lt _ (by decide)

theorem addU64_subU64 {a : Nat} (h : a < modulus) (b : Nat) : addU64 (subU64 a b) b = a := by
  unfold addU64 subU64 modulus at *
  omega

theorem Bounded.modify {s : State} (h : Bounded s) (a : Nat) {f : Timer → Timer}
    (hf : ∀ t, t.next < modulus → (f t).next < modulus) : Bounded (s.modify a f) := by
  intro b t hb
  by_cases hba : b = a
  · subst hba
    simp only [State.modify, Function.update_self, Option.map_eq_some_iff] at hb
    obtain ⟨u, hu, rfl⟩ := hb
    exact hf u (h b u hu)
  · simp only [State.modify, Function.update_of_ne hba] at hb
    exact h b t hb

theorem Bounded.write {s : State} (h : Bounded s) {w : Write} (hw : w.Bounded) : Bounded (w.apply s) := by
  cases w with
  | construct a t =>
    intro b u hb
    by_cases hba : b = a
    · subst hba
      simp only [Write.apply, set_heap, Function.update_self, Option.some.injEq] at hb
      exact hb ▸ hw
    · simp only [Write.apply, set_heap, Function.update_of_ne hba] at hb
      exact h b u hb
  | clearCb a => exact h.modify a fun _ ht => ht
  | setMs a ms => exact h.modify a fun _ ht => ht
  | setNext a next => exact h.modify a fun _ _ => hw
  | insert a => exact h
  | erase a => exact h
  | setTickled v => exact h
  | setPreviouseTime now => exact h

theorem Bounded.writes {s : State} (h : Bounded s) {ws : List Write} (hws : ∀ w ∈ ws, w.Bounded) :
    Bounded (applyWrites s ws) := by
  induction ws generalizing s with
  | nil => exact h
  | cons w ws ih => exact ih (h.write (hws w List.mem_cons_self)) fun v hv => hws v (List.mem_cons_of_mem w hv)

theorem requeueWrites_bounded (now : Nat) (expired : List Nat) (s : State) :
    ∀ w ∈ requeueWrites now expired s, w.Bounded := by
  induction expired generalizing s with
  | nil => simp [requeueWrites]
  | cons a expired ih =>
    intro w hw
    rw [requeueWrites] at hw
    split at hw
    · exact ih s w hw
    · rcases List.mem_append.mp hw with hw | hw
      · split at hw
        · simp only [List.mem_cons, List.not_mem_nil, or_false] at hw
          rcases hw with rfl | rfl
          · exact addU64_lt _ _
          · trivial
        · obtain rfl := List.mem_singleton.mp hw
          trivial
      · exact ih _ w hw

theorem addTimerWrites_bounded (s : State) (a : Nat) : ∀ w ∈ addTimerWrites s a, w.Bounded := by
  intro w hw
  unfold addTimerWrites at hw
  rcases List.mem_cons.mp hw with rfl | hw
  · trivial
  · split at hw
    · obtain rfl := List.mem_singleton.mp hw
      trivial
    · simp at hw

theorem writes_bounded (s : State) (op : Operation) : ∀ w ∈ writes s op, w.Bounded := by
  intro w hw
  cases op with
  | addTimer a ms cb recur now =>
    rcases List.mem_cons.mp hw with rfl | hw
    · exact addU64_lt _ _
    · exact addTimerWrites_bounded _ a w hw
  | cancel a =>
    simp only [writes] at hw
    split at hw
    · simp at hw
    · split at hw
      · simp at hw
      · simp only [List.mem_cons, List.not_mem_nil, or_false] at hw
        rcases hw with rfl | rfl <;> trivial
  | refresh a now =>
    simp only [writes] at hw
    split at hw
    · simp at hw
    · split at hw
      · simp at hw
      · simp only [List.mem_cons, List.not_mem_nil, or_false] at hw
        rcases hw with rfl | rfl | rfl
        · trivial
        · exact addU64_lt _ _
        · trivial
  | reset a ms from_now now =>
    simp only [writes] at hw
    split at hw
    · simp at hw
    · split at hw
      · simp at hw
      · rcases List.mem_append.mp hw with hw | hw
        · simp only [List.mem_cons, List.not_mem_nil, or_false] at hw
          rcases hw with rfl | rfl | rfl
          · trivial
          · trivial
          · exact addU64_lt _ _
        · exact addTimerWrites_bounded _ a w hw
  | getTimeOfNextTimer now =>
    simp only [writes] at hw
    split at hw
    · simp at hw
    · obtain rfl := List.mem_singleton.mp hw
      trivial
  | listExpiredCbs now tmp =>
    simp only [writes] at hw
    split at hw
    · simp at hw
    · split at hw
      · obtain rfl := List.mem_singleton.mp hw
        trivial
      · rcases List.mem_append.mp hw with hw | hw
        · rcases List.mem_cons.mp hw with rfl | hw
          · trivial
          · obtain ⟨b, -, rfl⟩ := List.mem_map.mp hw
            trivial
        · exact requeueWrites_bounded now _ _ w hw

theorem bounded_of_run {s : State} (h : Reachable Empty operate s) : Bounded s := by
  refine Reachable.invariant (I := Bounded) ?_ ?_ h
  · rintro s ⟨hheap, -, -⟩ a t ha
    simp [hheap] at ha
  · intro s op t hb ht
    rw [← applyWrites_writes ht]
    exact hb.writes (writes_bounded s op)

section Calls

variable {s : State} {a : Nat} {t : Timer}

theorem withdraw_heap_of_ne (u : Timer) {b : Nat} (h : b ≠ a) : (s.withdraw a u).heap b = s.heap b :=
  Function.update_of_ne h _ _

theorem mem_withdraw_of_ne (u : Timer) {b : Nat} (h : b ≠ a) : b ∈ (s.withdraw a u).timers ↔ b ∈ s.timers :=
  List.mem_erase_of_ne h

theorem mem_reinsert (u : Timer) {b : Nat} (h : b ≠ a) :
    b ∈ OrderedSet.insert (Comparator (s.withdraw a u).next) a (s.withdraw a u).timers ↔ b ∈ s.timers :=
  ⟨fun hm => (mem_withdraw_of_ne u h).mp ((mem_of_mem_insert hm).resolve_left h),
    fun hm => mem_insert_of_mem a ((mem_withdraw_of_ne u h).mpr hm)⟩

/-- The calls find a timer with a callback exactly when it is pending. -/
theorem perform_pending (hs : Sound s) (ht : s.heap a = some t) (ha : a ∈ s.timers) (c : Call)
    (hearly : ∀ ms now, c = .reset ms false now → ms ≠ t.ms) :
    ∃ s', c.perform s a = some (s', true) ∧ c.Done s a t s' := by
  obtain ⟨u, hu, hcb⟩ := (hs.armed a).mp ha
  obtain rfl := Option.some.inj (hu.symm.trans ht)
  have hf := hs.found a ha
  cases c with
  | cancel =>
    have hnext := set_next_same s (u := { u with cb := none }) ht rfl
    refine ⟨s.withdraw a { u with cb := none }, ?_, Function.update_self .., ?_, ?_, ?_⟩
    · simp only [Call.perform, cancel, ht, Option.bind_some, hcb, if_false]
      rw [hnext, set_timers, hf]
      rfl
    · exact iff_of_false hs.nodup.not_mem_erase (not_not_intro rfl)
    · exact fun b hb => withdraw_heap_of_ne _ hb
    · exact fun b hb => mem_withdraw_of_ne _ hb
  | refresh now =>
    let v := s.withdraw a { u with next := addU64 now u.ms }
    refine ⟨{ v with timers := OrderedSet.insert (Comparator v.next) a v.timers }, ?_, ?_⟩
    · simp only [Call.perform, refresh, ht, Option.map_some, hcb, if_false, hf]
      rfl
    · exact ⟨Function.update_self .., iff_of_true (mem_insert_self comparator_tri _ _) (fun hc => by cases hc),
        fun b hb => withdraw_heap_of_ne _ hb, fun b hb => mem_reinsert _ hb⟩
  | reset ms from_now now =>
    have hne : ¬ (ms = u.ms ∧ from_now = false) := fun h => hearly ms now (h.2 ▸ rfl) h.1
    refine ⟨(addTimer (s.withdraw a ((Call.reset ms from_now now).changed u)) a).1, ?_, ?_⟩
    · simp only [Call.perform, reset, ht, Option.map_some, hcb, if_false, hf, if_neg hne]
      rfl
    · exact ⟨Function.update_self .., iff_of_true (mem_insert_self comparator_tri _ _) (fun hc => by cases hc),
        fun b hb => withdraw_heap_of_ne _ hb, fun b hb => mem_reinsert _ hb⟩

theorem perform_not_pending (hs : Sound s) (ht : s.heap a = some t) (ha : a ∉ s.timers) (c : Call)
    (hearly : ∀ ms now, c = .reset ms false now → ms ≠ t.ms) : c.perform s a = some (s, false) := by
  have hcb : t.cb = none := by
    by_contra hcb
    exact ha ((hs.armed a).mpr ⟨t, ht, hcb⟩)
  cases c with
  | cancel => simp [Call.perform, cancel, ht, hcb]
  | refresh now => simp [Call.perform, refresh, ht, hcb]
  | reset ms from_now now =>
    have hne : ¬ (ms = t.ms ∧ from_now = false) := fun h => hearly ms now (h.2 ▸ rfl) h.1
    simp [Call.perform, reset, ht, hcb, hne]

theorem perform_early (ht : s.heap a = some t) (now : Nat) :
    (Call.reset t.ms false now).perform s a = some (s, true) := by
  simp [Call.perform, reset, ht]

theorem done_early (hb : Bounded s) (ht : s.heap a = some t) (ha : a ∈ s.timers) (now : Nat) :
    (Call.reset t.ms false now).Done s a t s := by
  refine ⟨?_, by simpa using ha, fun _ _ => rfl, fun _ _ => Iff.rfl⟩
  simp [Call.changed, addU64_subU64 (hb a t ht), ht]

end Calls

/-- A call on a timer reports whether it was pending, except that `reset` with the
interval of the timer and without `from_now` does not look. -/
theorem reports_iff {s : State} (h : Reachable Empty operate s) {a : Nat} {t : Timer}
    (ht : s.heap a = some t) (c : Call) : c.Reports s a t ↔ c.Regular s a t := by
  obtain ⟨hw, harmed⟩ := invariant_of_run h
  have hs := sound_of_armed hw harmed
  by_cases hearly : ∃ now, c = .reset t.ms false now
  · obtain ⟨now, rfl⟩ := hearly
    refine ⟨?_, fun hreg => ?_⟩
    · rintro ⟨s', r, hp, hr, -, -⟩
      rw [perform_early ht, Option.some.injEq, Prod.mk.injEq] at hp
      exact .inl (hr.mp hp.2.symm)
    · have ha : a ∈ s.timers := by simpa [Call.Regular] using hreg
      exact ⟨s, true, perform_early ht now, by simp [ha], by simp, fun _ => done_early (bounded_of_run h) ht ha now⟩
  · have hne : ∀ ms now, c = .reset ms false now → ms ≠ t.ms := by
      rintro ms now rfl rfl
      exact hearly ⟨now, rfl⟩
    have hreg : c.Regular s a t := by
      cases c with
      | cancel => trivial
      | refresh now => trivial
      | reset ms from_now now =>
        cases from_now with
        | false => exact .inr (.inl (hne ms now rfl))
        | true => exact .inr (.inr rfl)
    refine iff_of_true ?_ hreg
    by_cases ha : a ∈ s.timers
    · obtain ⟨s', hp, hd⟩ := perform_pending hs ht ha c hne
      exact ⟨s', true, hp, by simp [ha], by simp, fun _ => hd⟩
    · exact ⟨s, false, perform_not_pending hs ht ha c hne, by simp [ha], by simp, by simp⟩

theorem exists_fired : ∃ s, Reachable Empty operate s ∧ s.heap 8 = some ⟨false, 500, 1500, none⟩ ∧ s.timers = [] := by
  have h : (exec (guarded operate (fun _ _ => True)) ⟨fun _ => none, [], false, 1000⟩
      [.addTimer 8 500 1 false 1000, .listExpiredCbs 1600 9]).map (fun s => (s.heap 8, s.timers)) =
      some (some ⟨false, 500, 1500, none⟩, []) := by
    decide +kernel
  obtain ⟨s, hs, he⟩ := Option.map_eq_some_iff.mp h
  obtain ⟨hheap, htimers⟩ := Prod.mk.inj he
  exact ⟨s, Run.exec (.start ⟨rfl, rfl, rfl⟩) _ hs, hheap, htimers⟩

theorem reports_fired : ∃ s, Reachable Empty operate s ∧ s.heap 8 = some ⟨false, 500, 1500, none⟩ ∧
    (Call.reset 700 false 1650).Reports s 8 ⟨false, 500, 1500, none⟩ := by
  obtain ⟨s, hs, ht, -⟩ := exists_fired
  exact ⟨s, hs, ht, (reports_iff hs ht _).mpr (.inr (.inl (by decide)))⟩

/-- After the timer has fired, `reset` to the interval that it had returns true. -/
theorem reset_fired_true : ∃ s, Reachable Empty operate s ∧ s.heap 8 = some ⟨false, 500, 1500, none⟩ ∧
    8 ∉ s.timers ∧ (Call.reset 500 false 1650).perform s 8 = some (s, true) := by
  obtain ⟨s, hs, ht, htimers⟩ := exists_fired
  exact ⟨s, hs, ht, by simp [htimers], perform_early ht 1650⟩

end Windgent.TimerManager
