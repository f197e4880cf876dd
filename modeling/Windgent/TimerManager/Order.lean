import Windgent.TimerManager.Basic

namespace Windgent.TimerManager

open MachineInt OrderedSet

section Comparator

variable {next : Nat → Nat}

theorem comparator_irrefl (a : Nat) : ¬ Comparator next a a := by
  simp [Comparator]

theorem comparator_trans (a b c : Nat) (hab : Comparator next a b) (hbc : Comparator next b c) :
    Comparator next a c := by
  unfold Comparator at *
  omega

theorem comparator_tri (a b : Nat) (hab : ¬ Comparator next a b) (hba : ¬ Comparator next b a) :
    a = b := by
  unfold Comparator at *
  omega

theorem comparator_le {a b : Nat} (h : Comparator next a b) : next a ≤ next b := by
  unfold Comparator at h
  omega

end Comparator

@[simp] theorem set_timers (s : State) (a : Nat) (t : Timer) : (s.set a t).timers = s.timers := rfl

@[simp] theorem set_heap (s : State) (a : Nat) (t : Timer) :
    (s.set a t).heap = Function.update s.heap a (some t) := rfl

@[simp] theorem set_next_self (s : State) (a : Nat) (t : Timer) : (s.set a t).next a = t.next := by
  simp [State.next, State.set]

theorem set_next_of_ne (s : State) {a b : Nat} (t : Timer) (h : b ≠ a) :
    (s.set a t).next b = s.next b := by
  simp [State.next, State.set, h]

theorem set_next_same (s : State) {a : Nat} {t u : Timer} (h : s.heap a = some t)
    (hu : u.next = t.next) : (s.set a u).next = s.next := by
  funext b
  by_cases hb : b = a
  · subst hb
    simp [State.next, State.set, h, hu]
  · exact set_next_of_ne s u hb

/-- The set is strictly ordered by its comparator and holds live objects. -/
structure WellFormed (s : State) : Prop where
  ascending : Ascending (Comparator s.next) s.timers
  alive : ∀ a ∈ s.timers, (s.heap a).isSome = true

theorem WellFormed.nodup {s : State} (h : WellFormed s) : s.timers.Nodup :=
  h.ascending.nodup comparator_irrefl

theorem WellFormed.head_le {s : State} (h : WellFormed s) {a : Nat} {l : List Nat}
    (hs : s.timers = a :: l) : ∀ b ∈ s.timers, s.next a ≤ s.next b := by
  have ha := h.ascending
  rw [hs] at ha ⊢
  intro b hb
  rcases List.mem_cons.mp hb with rfl | hb
  · exact Nat.le_refl _
  · exact comparator_le ((List.pairwise_cons.mp ha).1 b hb)

theorem WellFormed.set {s : State} (h : WellFormed s) {a : Nat} (ha : a ∉ s.timers) (t : Timer) :
    WellFormed (s.set a t) := by
  have hne : ∀ b ∈ s.timers, b ≠ a := fun b hb he => ha (he ▸ hb)
  refine ⟨h.ascending.congr (fun b hb c hc hbc => ?_), fun b hb => ?_⟩
  · unfold Comparator at hbc ⊢
    rwa [set_next_of_ne s t (hne b hb), set_next_of_ne s t (hne c hc)]
  · simpa [hne b hb] using h.alive b hb

theorem WellFormed.setCb {s : State} (h : WellFormed s) {a : Nat} {t u : Timer}
    (ht : s.heap a = some t) (hu : u.next = t.next) : WellFormed (s.set a u) := by
  refine ⟨?_, fun b hb => ?_⟩
  · rw [set_next_same s ht hu]
    exact h.ascending
  · by_cases hba : b = a
    · simp [hba]
    · simpa [hba] using h.alive b hb

theorem WellFormed.erase {s : State} (h : WellFormed s) (a : Nat) :
    WellFormed { s with timers := s.timers.erase a } :=
  ⟨h.ascending.sublist List.erase_sublist, fun b hb => h.alive b (List.mem_of_mem_erase hb)⟩

theorem WellFormed.insert {s : State} (h : WellFormed s) {a : Nat} (ha : (s.heap a).isSome = true) :
    WellFormed { s with timers := OrderedSet.insert (Comparator s.next) a s.timers } := by
  refine ⟨h.ascending.insert comparator_trans a, fun b hb => ?_⟩
  rcases mem_of_mem_insert hb with rfl | hb
  · exact ha
  · exact h.alive b hb

theorem WellFormed.drop {s : State} (h : WellFormed s) (n : Nat) :
    WellFormed { s with timers := s.timers.drop n } :=
  ⟨h.ascending.sublist (List.drop_sublist n _), fun b hb => h.alive b (List.mem_of_mem_drop hb)⟩

theorem WellFormed.addTimer {s : State} (h : WellFormed s) {a : Nat}
    (ha : (s.heap a).isSome = true) : WellFormed (addTimer s a).1 :=
  ⟨(h.insert ha).ascending, (h.insert ha).alive⟩

theorem WellFormed.requeue {s : State} (h : WellFormed s) (now : Nat) (expired : List Nat)
    (hd : expired.Nodup) (hout : ∀ a ∈ expired, a ∉ s.timers) :
    WellFormed (requeue now expired s) := by
  induction expired generalizing s with
  | nil => exact h
  | cons a expired ih =>
    obtain ⟨had, hd⟩ := List.nodup_cons.mp hd
    have ha := hout a List.mem_cons_self
    have hrest : ∀ b ∈ expired, b ∉ s.timers := fun b hb => hout b (List.mem_cons_of_mem a hb)
    simp only [TimerManager.requeue]
    split
    · exact ih h hd hrest
    · split
      · refine ih ((h.set ha _).insert (by simp)) hd (fun b hb hm => ?_)
        rcases mem_of_mem_insert hm with rfl | hm
        · exact had hb
        · exact hrest b hb hm
      · exact ih (h.set ha _) hd hrest

def State.withdraw (s : State) (a : Nat) (t : Timer) : State :=
  ({ s with timers := s.timers.erase a }).set a t

theorem WellFormed.withdraw {s : State} (h : WellFormed s) (a : Nat) (t : Timer) :
    WellFormed (s.withdraw a t) :=
  (h.erase a).set h.nodup.not_mem_erase t

theorem cancel_cases {s t : State} {a : Nat} {r : Bool}
    (hc : cancel s a = some (t, r)) :
    t = s ∨ ∃ u, s.heap a = some u ∧ t = s.withdraw a { u with cb := none } := by
  obtain ⟨u, hu, hc⟩ := Option.bind_eq_some_iff.mp hc
  split at hc
  · cases hc
    exact .inl rfl
  · obtain ⟨it, hf, hit⟩ := Option.map_eq_some_iff.mp hc
    obtain ⟨rfl, -⟩ := find_eq comparator_tri hf
    cases hit
    exact .inr ⟨u, hu, rfl⟩

theorem refresh_cases {s t : State} {a now : Nat} {r : Bool}
    (hc : refresh s a now = some (t, r)) :
    t = s ∨ ∃ u v, s.heap a = some u ∧ a ∈ s.timers ∧
      v = s.withdraw a { u with next := addU64 now u.ms } ∧
      t = { v with timers := OrderedSet.insert (Comparator v.next) a v.timers } := by
  obtain ⟨u, hu, hc⟩ := Option.map_eq_some_iff.mp hc
  split at hc
  · cases hc
    exact .inl rfl
  · split at hc
    · cases hc
      exact .inl rfl
    · rename_i it hf
      obtain ⟨rfl, hm⟩ := find_eq comparator_tri hf
      cases hc
      exact .inr ⟨u, _, hu, hm, rfl, rfl⟩

theorem reset_cases {s t : State} {a ms now : Nat} {from_now r n : Bool}
    (hc : reset s a ms from_now now = some ((t, n), r)) :
    (t = s ∧ n = false) ∨ ∃ u, s.heap a = some u ∧ a ∈ s.timers ∧
      (t, n) = addTimer (s.withdraw a { u with
        ms := ms, next := addU64 (if from_now then now else subU64 u.next u.ms) ms }) a := by
  obtain ⟨u, hu, hc⟩ := Option.map_eq_some_iff.mp hc
  split at hc
  · cases hc
    exact .inl ⟨rfl, rfl⟩
  · split at hc
    · cases hc
      exact .inl ⟨rfl, rfl⟩
    · split at hc
      · cases hc
        exact .inl ⟨rfl, rfl⟩
      · rename_i it hf
        obtain ⟨rfl, hm⟩ := find_eq comparator_tri hf
        exact .inr ⟨u, hu, hm, (Prod.mk.inj hc).1.symm⟩

theorem WellFormed.cancel {s t : State} (h : WellFormed s) {a : Nat} {r : Bool}
    (hc : cancel s a = some (t, r)) : WellFormed t := by
  obtain rfl | ⟨u, -, rfl⟩ := cancel_cases hc
  · exact h
  · exact h.withdraw a _

theorem WellFormed.refresh {s t : State} (h : WellFormed s) {a now : Nat} {r : Bool}
    (hc : refresh s a now = some (t, r)) : WellFormed t := by
  obtain rfl | ⟨u, v, -, -, rfl, rfl⟩ := refresh_cases hc
  · exact h
  · exact (h.withdraw a _).insert (by simp [State.withdraw])

theorem WellFormed.reset {s t : State} (h : WellFormed s) {a ms now : Nat} {from_now r n : Bool}
    (hc : reset s a ms from_now now = some ((t, n), r)) : WellFormed t := by
  obtain ⟨rfl, -⟩ | ⟨u, -, -, ht⟩ := reset_cases hc
  · exact h
  · have hw : WellFormed (t, n).1 := by
      rw [ht]
      exact (h.withdraw a _).addTimer (by simp [State.withdraw])
    exact hw

theorem WellFormed.getTimeOfNextTimer {s : State} (h : WellFormed s) (now : Nat) :
    WellFormed (getTimeOfNextTimer s now).1 := by
  unfold TimerManager.getTimeOfNextTimer
  split
  · exact h
  · exact ⟨h.ascending, h.alive⟩

theorem WellFormed.listExpiredCbs {s : State} (h : WellFormed s) (now tmp : Nat) :
    WellFormed (listExpiredCbs s now tmp).1 := by
  have hp : WellFormed (detectClockRollover s now).1 := ⟨h.ascending, h.alive⟩
  unfold TimerManager.listExpiredCbs
  split
  · exact h
  · dsimp only
    split
    · exact hp
    · refine WellFormed.requeue (s := { (detectClockRollover s now).1 with timers := _ }) (hp.drop _) now _
        (hp.nodup.sublist (List.take_sublist _ _)) (fun a ha hm => ?_)
      exact List.disjoint_take_drop hp.nodup (Nat.le_refl _) ha hm

theorem requeue_other (now : Nat) (expired : List Nat) (s : State) {a : Nat} (ha : a ∉ expired) :
    (requeue now expired s).heap a = s.heap a ∧
      (a ∈ s.timers → a ∈ (requeue now expired s).timers) := by
  induction expired generalizing s with
  | nil => exact ⟨rfl, id⟩
  | cons b expired ih =>
    obtain ⟨hab, ha⟩ : a ≠ b ∧ a ∉ expired := by simpa using ha
    simp only [TimerManager.requeue]
    split
    · exact ih s ha
    · split
      · obtain ⟨h1, h2⟩ := ih _ ha
        exact ⟨h1.trans (Function.update_of_ne hab _ _), fun hm => h2 (mem_insert_of_mem b hm)⟩
      · obtain ⟨h1, h2⟩ := ih _ ha
        exact ⟨h1.trans (Function.update_of_ne hab _ _), h2⟩

theorem listExpiredCbs_cases {s : State} (h : WellFormed s) (now tmp : Nat) {a : Nat} {t : Timer}
    (ha : a ∈ s.timers) (ht : s.heap a = some t) :
    (a ∈ (listExpiredCbs s now tmp).1.timers ∧ (listExpiredCbs s now tmp).1.heap a = some t) ∨
      t.cb ∈ (listExpiredCbs s now tmp).2 := by
  unfold TimerManager.listExpiredCbs
  split
  · exact .inl ⟨ha, ht⟩
  · dsimp only
    split
    · exact .inl ⟨ha, ht⟩
    · generalize (if (detectClockRollover s now).2 = true then _ else _) = n
      have hsplit : a ∈ s.timers.take n ∨ a ∈ s.timers.drop n :=
        List.mem_append.mp ((List.take_append_drop n s.timers).symm ▸ ha)
      obtain hm | hm := hsplit
      · refine .inr (List.mem_map.mpr ⟨a, hm, ?_⟩)
        exact (congrArg (Option.bind · Timer.cb) ht).trans rfl
      · have hout : a ∉ s.timers.take n :=
          fun hx => List.disjoint_take_drop h.nodup (Nat.le_refl _) hx hm
        obtain ⟨h1, h2⟩ := requeue_other now (s.timers.take n)
          { (detectClockRollover s now).1 with timers := s.timers.drop n } hout
        exact .inl ⟨h2 hm, h1.trans ht⟩

end Windgent.TimerManager
