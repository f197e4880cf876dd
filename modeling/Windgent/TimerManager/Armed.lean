import Windgent.TimerManager.Order
import Windgent.Transition

namespace Windgent.TimerManager

open MachineInt OrderedSet Transition

/-- The operations, each with its clock reading; the state is that of its locked section.
`cb` is not empty: `addCondTimer` calls `addTimer` with what `std::bind` makes of `Ontimer`. -/
inductive Operation where
  | addTimer (a ms cb : Nat) (recur : Bool) (now : Nat)
  | cancel (a : Nat)
  | refresh (a now : Nat)
  | reset (a ms : Nat) (from_now : Bool) (now : Nat)
  | getTimeOfNextTimer (now : Nat)
  | listExpiredCbs (now tmp : Nat)

def operate (s : State) : Operation → Option State
  | .addTimer a ms cb recur now =>
    if s.heap a = none then some (addTimer (s.set a (newTimer ms (some cb) recur now)) a).1 else none
  | .cancel a => (cancel s a).map Prod.fst
  | .refresh a now => (refresh s a now).map Prod.fst
  | .reset a ms from_now now => (reset s a ms from_now now).map fun r => r.1.1
  | .getTimeOfNextTimer now => some (getTimeOfNextTimer s now).1
  | .listExpiredCbs now tmp => if s.heap tmp = none then some (listExpiredCbs s now tmp).1 else none

def Empty (s : State) : Prop := s.heap = (fun _ => none) ∧ s.timers = [] ∧ s.tickled = false

/-- The single assignments that operations are made of. -/
inductive Write where
  | construct (a : Nat) (t : Timer)
  | clearCb (a : Nat)
  | setMs (a ms : Nat)
  | setNext (a next : Nat)
  | insert (a : Nat)
  | erase (a : Nat)
  | setTickled (v : Bool)
  | setPreviouseTime (now : Nat)

def State.modify (s : State) (a : Nat) (f : Timer → Timer) : State :=
  { s with heap := Function.update s.heap a ((s.heap a).map f) }

def Write.apply (s : State) : Write → State
  | .construct a t => s.set a t
  | .clearCb a => s.modify a fun t => { t with cb := none }
  | .setMs a ms => s.modify a fun t => { t with ms := ms }
  | .setNext a next => s.modify a fun t => { t with next := next }
  | .insert a => { s with timers := OrderedSet.insert (Comparator s.next) a s.timers }
  | .erase a => { s with timers := s.timers.erase a }
  | .setTickled v => { s with tickled := v }
  | .setPreviouseTime now => { s with previouseTime := now }

def applyWrites (s : State) (ws : List Write) : State := ws.foldl Write.apply s

def addTimerWrites (s : State) (a : Nat) : List Write :=
  .insert a ::
    if (OrderedSet.insert (Comparator s.next) a s.timers).head? = some a ∧ s.tickled = false then
      [.setTickled true]
    else []

def requeueWrites (now : Nat) : List Nat → State → List Write
  | [], _ => []
  | a :: expired, s =>
    match s.heap a with
    | none => requeueWrites now expired s
    | some t =>
      let ws := if t.recur then [Write.setNext a (addU64 now t.ms), .insert a] else [.clearCb a]
      ws ++ requeueWrites now expired (applyWrites s ws)

/-- The assignments of an operation in the order of the source. -/
def writes (s : State) : Operation → List Write
  | .addTimer a ms cb recur now =>
    let t := newTimer ms (some cb) recur now
    .construct a t :: addTimerWrites (s.set a t) a
  | .cancel a =>
    match s.heap a with
    | none => []
    | some t => if t.cb = none then [] else [.clearCb a, .erase a]
  | .refresh a now =>
    match s.heap a with
    | none => []
    | some t =>
      if t.cb = none ∨ OrderedSet.find (Comparator s.next) a s.timers = none then []
      else [.erase a, .setNext a (addU64 now t.ms), .insert a]
  | .reset a ms from_now now =>
    match s.heap a with
    | none => []
    | some t =>
      if (ms = t.ms ∧ from_now = false) ∨ t.cb = none ∨
          OrderedSet.find (Comparator s.next) a s.timers = none then []
      else
        let ws := [.erase a, .setMs a ms, .setNext a (addU64 (if from_now then now else subU64 t.next t.ms) ms)]
        ws ++ addTimerWrites (applyWrites s ws) a
  | .getTimeOfNextTimer _ => if s.timers = [] then [] else [.setTickled false]
  | .listExpiredCbs now tmp =>
    match s.timers with
    | [] => []
    | first :: _ =>
      let rollover := (detectClockRollover s now).2
      if rollover = false ∧ now < s.next first then [.setPreviouseTime now]
      else
        let n := if rollover then s.timers.length else expiredCount (s.set tmp ⟨false, 0, now, none⟩) now tmp
        let ws := .setPreviouseTime now :: (s.timers.take n).map .erase
        ws ++ requeueWrites now (s.timers.take n) (applyWrites s ws)

theorem modify_eq_set {s : State} {a : Nat} {t : Timer} (h : s.heap a = some t) (f : Timer → Timer) :
    s.modify a f = s.set a (f t) := by
  simp [State.modify, State.set, h]

theorem applyWrites_append (s : State) (us vs : List Write) :
    applyWrites s (us ++ vs) = applyWrites (applyWrites s us) vs := List.foldl_append

theorem applyWrites_requeue (now : Nat) (expired : List Nat) (s : State) :
    applyWrites s (requeueWrites now expired s) = requeue now expired s := by
  induction expired generalizing s with
  | nil => rfl
  | cons a expired ih =>
    rw [requeueWrites, requeue]
    cases hs : s.heap a with
    | none => exact ih s
    | some t =>
      dsimp only
      rw [applyWrites_append, ih]
      by_cases hr : t.recur = true
      · rw [if_pos hr, if_pos hr]
        simp only [applyWrites, List.foldl_cons, List.foldl_nil, Write.apply, modify_eq_set hs]
      · rw [if_neg hr, if_neg hr]
        simp only [applyWrites, List.foldl_cons, List.foldl_nil, Write.apply, modify_eq_set hs]

theorem applyWrites_erase (s : State) (n : Nat) :
    applyWrites s ((s.timers.take n).map .erase) = { s with timers := s.timers.drop n } := by
  obtain ⟨heap, timers, tickled, previouse⟩ := s
  induction timers generalizing n with
  | nil => simp [applyWrites]
  | cons a timers ih =>
    cases n with
    | zero => rfl
    | succ n => simpa [applyWrites, Write.apply] using ih n

theorem applyWrites_addTimer (s : State) (a : Nat) : applyWrites s (addTimerWrites s a) = (addTimer s a).1 := by
  simp only [addTimerWrites, addTimer, applyWrites, List.foldl_cons, Write.apply]
  split
  · rename_i h
    simp [h, Write.apply]
  · simp

theorem find_some {s : State} {a : Nat} (h : OrderedSet.find (Comparator s.next) a s.timers ≠ none) :
    OrderedSet.find (Comparator s.next) a s.timers = some a := by
  obtain ⟨it, hit⟩ := Option.ne_none_iff_exists'.mp h
  obtain ⟨rfl, -⟩ := find_eq comparator_tri hit
  exact hit

theorem modify_modify (s : State) (a : Nat) (f g : Timer → Timer) :
    (s.modify a f).modify a g = s.modify a (g ∘ f) := by
  simp [State.modify]

/-- The assignments of an operation lead to the state that the operation returns. -/
theorem applyWrites_writes {s t : State} {op : Operation} (h : operate s op = some t) :
    applyWrites s (writes s op) = t := by
  cases op with
  | addTimer a ms cb recur now =>
    simp only [operate] at h
    split at h
    · cases h
      exact applyWrites_addTimer _ a
    · cases h
  | cancel a =>
    simp only [operate, cancel] at h
    cases hs : s.heap a with
    | none => simp [hs] at h
    | some u =>
      simp only [hs, Option.bind_some] at h
      by_cases hcb : u.cb = none
      · simp only [hcb, if_true, Option.map_some, Option.some.injEq] at h
        subst h
        simp [writes, hs, hcb, applyWrites]
      · simp only [hcb, if_false, Option.map_map, Option.map_eq_some_iff] at h
        obtain ⟨it, hit, rfl⟩ := h
        obtain ⟨rfl, -⟩ := find_eq comparator_tri hit
        simp [writes, hs, hcb, applyWrites, Write.apply, modify_eq_set hs]
  | refresh a now =>
    simp only [operate, refresh] at h
    cases hs : s.heap a with
    | none => simp [hs] at h
    | some u =>
      simp only [hs, Option.map_some, Option.some.injEq] at h
      subst h
      by_cases hcb : u.cb = none
      · simp [writes, hs, hcb, applyWrites]
      · by_cases hf : OrderedSet.find (Comparator s.next) a s.timers = none
        · simp [writes, hs, hcb, hf, applyWrites]
        · have hheap : ({ s with timers := s.timers.erase a } : State).heap a = some u := hs
          simp [writes, hs, hcb, find_some hf, applyWrites, Write.apply, modify_eq_set hheap]
  | reset a ms from_now now =>
    simp only [operate, reset] at h
    cases hs : s.heap a with
    | none => simp [hs] at h
    | some u =>
      simp only [hs, Option.map_some, Option.some.injEq] at h
      subst h
      by_cases hms : ms = u.ms ∧ from_now = false
      · simp [writes, hs, hms, applyWrites]
      · by_cases hcb : u.cb = none
        · simp [writes, hs, hms, hcb, applyWrites]
        · by_cases hf : OrderedSet.find (Comparator s.next) a s.timers = none
          · simp [writes, hs, hms, hcb, hf, applyWrites]
          · have hheap : ({ s with timers := s.timers.erase a } : State).heap a = some u := hs
            simp only [writes, hs, hms, hcb, find_some hf, reduceCtorEq, or_self, if_false, applyWrites_append,
              applyWrites_addTimer]
            simp only [applyWrites, List.foldl_cons, List.foldl_nil, Write.apply, modify_modify]
            rw [modify_eq_set hheap]
            rfl
  | getTimeOfNextTimer now =>
    simp only [operate, Option.some.injEq] at h
    subst h
    cases hs : s.timers <;> simp [writes, getTimeOfNextTimer, hs, applyWrites, Write.apply]
  | listExpiredCbs now tmp =>
    simp only [operate] at h
    split at h
    · cases h
      cases ht : s.timers with
      | nil => simp [writes, listExpiredCbs, ht, applyWrites]
      | cons first rest =>
        simp only [writes, listExpiredCbs, ht]
        have hnext : (detectClockRollover s now).1.next first = s.next first := rfl
        rw [hnext]
        by_cases hnone : (detectClockRollover s now).2 = false ∧ now < s.next first
        · rw [if_pos hnone, if_pos hnone]
          rfl
        · rw [if_neg hnone, if_neg hnone, ← ht, applyWrites_append, applyWrites_requeue]
          exact congrArg (requeue now _) (applyWrites_erase (detectClockRollover s now).1 _)
    · cases h

/-- An assignment that leaves the order of the set alone: `m_next` is written outside the set. -/
def Write.Safe (s : State) : Write → Prop
  | .construct a _ => s.heap a = none
  | .setNext a _ => a ∉ s.timers
  | .insert a => (s.heap a).isSome = true
  | _ => True

theorem WellFormed.modify {s : State} (h : WellFormed s) {a : Nat} {f : Timer → Timer}
    (hf : a ∉ s.timers ∨ ∀ t, (f t).next = t.next) : WellFormed (s.modify a f) := by
  cases hs : s.heap a with
  | none =>
    rw [State.modify, hs, Option.map_none, ← hs, Function.update_eq_self]
    exact h
  | some t =>
    rw [modify_eq_set hs]
    rcases hf with hout | hnext
    · exact h.set hout _
    · exact h.setCb hs (hnext t)

theorem WellFormed.write {s : State} (h : WellFormed s) {w : Write} (hw : w.Safe s) : WellFormed (w.apply s) := by
  cases w with
  | construct a t =>
    refine h.set (fun ha => ?_) t
    have halive := h.alive a ha
    rw [show s.heap a = none from hw] at halive
    simp at halive
  | clearCb a => exact h.modify (.inr fun _ => rfl)
  | setMs a ms => exact h.modify (.inr fun _ => rfl)
  | setNext a next => exact h.modify (.inl hw)
  | insert a => exact h.insert hw
  | erase a => exact h.erase a
  | setTickled v => exact ⟨h.ascending, h.alive⟩
  | setPreviouseTime now => exact ⟨h.ascending, h.alive⟩

def SafeWrites : State → List Write → Prop
  | _, [] => True
  | s, w :: ws => w.Safe s ∧ SafeWrites (w.apply s) ws

theorem safeWrites_append {s : State} {us vs : List Write} :
    SafeWrites s (us ++ vs) ↔ SafeWrites s us ∧ SafeWrites (applyWrites s us) vs := by
  induction us generalizing s with
  | nil => simp [SafeWrites, applyWrites]
  | cons w us ih =>
    simp only [List.cons_append, SafeWrites, ih, and_assoc]
    rfl

theorem WellFormed.writes {s : State} (h : WellFormed s) {ws : List Write} (hws : SafeWrites s ws) :
    WellFormed (applyWrites s ws) := by
  induction ws generalizing s with
  | nil => exact h
  | cons w ws ih => exact ih (h.write hws.1) hws.2

theorem safeWrites_erase (s : State) (l : List Nat) : SafeWrites s (l.map .erase) := by
  induction l generalizing s with
  | nil => trivial
  | cons a l ih => exact ⟨trivial, ih _⟩

theorem safeWrites_requeue (now : Nat) {expired : List Nat} (s : State) (hd : expired.Nodup)
    (hout : ∀ a ∈ expired, a ∉ s.timers) : SafeWrites s (requeueWrites now expired s) := by
  induction expired generalizing s with
  | nil => trivial
  | cons a expired ih =>
    obtain ⟨had, hd⟩ := List.nodup_cons.mp hd
    have ha := hout a List.mem_cons_self
    have hrest : ∀ b ∈ expired, b ∉ s.timers := fun b hb => hout b (List.mem_cons_of_mem a hb)
    rw [requeueWrites]
    cases hs : s.heap a with
    | none => exact ih s hd hrest
    | some t =>
      dsimp only
      rw [safeWrites_append]
      split
      · refine ⟨⟨ha, ?_, trivial⟩, ih _ hd fun b hb hm => ?_⟩
        · simp [Write.Safe, Write.apply, State.modify, hs]
        · rcases mem_of_mem_insert hm with rfl | hm
          · exact had hb
          · exact hrest b hb hm
      · exact ⟨⟨trivial, trivial⟩, ih _ hd hrest⟩

theorem safeWrites_addTimer {s : State} {a : Nat} (h : (s.heap a).isSome = true) :
    SafeWrites s (addTimerWrites s a) := by
  unfold addTimerWrites
  split
  · exact ⟨h, trivial, trivial⟩
  · exact ⟨h, trivial⟩

theorem WellFormed.safeWrites {s t : State} (h : WellFormed s) {op : Operation} (ht : operate s op = some t) :
    SafeWrites s (TimerManager.writes s op) := by
  cases op with
  | addTimer a ms cb recur now =>
    simp only [operate] at ht
    split at ht
    · rename_i hfree
      exact ⟨hfree, safeWrites_addTimer (s := s.set a _) (by simp)⟩
    · cases ht
  | cancel a =>
    simp only [TimerManager.writes]
    split
    · trivial
    · split
      · trivial
      · exact ⟨trivial, trivial, trivial⟩
  | refresh a now =>
    simp only [TimerManager.writes]
    split
    · trivial
    · rename_i u hu
      split
      · trivial
      · refine ⟨trivial, h.nodup.not_mem_erase, ?_, trivial⟩
        simp [Write.Safe, Write.apply, State.modify, hu]
  | reset a ms from_now now =>
    simp only [TimerManager.writes]
    split
    · trivial
    · rename_i u hu
      split
      · trivial
      · rw [safeWrites_append]
        refine ⟨⟨trivial, trivial, h.nodup.not_mem_erase, trivial⟩, safeWrites_addTimer ?_⟩
        simp [applyWrites, Write.apply, State.modify, hu]
  | getTimeOfNextTimer now =>
    simp only [TimerManager.writes]
    split
    · trivial
    · exact ⟨trivial, trivial⟩
  | listExpiredCbs now tmp =>
    simp only [TimerManager.writes]
    split
    · trivial
    · rename_i first rest hs
      split
      · exact ⟨trivial, trivial⟩
      · rw [safeWrites_append]
        refine ⟨⟨trivial, safeWrites_erase _ _⟩, safeWrites_requeue now _ ?_ fun a ha hm => ?_⟩
        · exact h.nodup.sublist (List.take_sublist _ _)
        · generalize (if (detectClockRollover s now).2 = true then _ else _) = n at ha hm
          have herase := congrArg State.timers (applyWrites_erase ((Write.setPreviouseTime now).apply s) n)
          exact List.disjoint_take_drop h.nodup le_rfl ha ((congrArg (a ∈ ·) herase).mp hm)

/-- Outside of `out`, the timers of the set are those with a callback. -/
def ArmedBut (out : List Nat) (s : State) : Prop :=
  ∀ a, a ∉ out → (a ∈ s.timers ↔ ∃ t, s.heap a = some t ∧ t.cb ≠ none)

section ArmedBut

variable {s : State} {out : List Nat} {a : Nat}

theorem ArmedBut.set (h : ArmedBut (a :: out) s) (t : Timer) : ArmedBut (a :: out) (s.set a t) := by
  intro b hb
  have hne : b ≠ a := fun he => hb (he ▸ List.mem_cons_self)
  simpa [hne] using h b hb

theorem ArmedBut.erase (h : ArmedBut out s) (a : Nat) :
    ArmedBut (a :: out) { s with timers := s.timers.erase a } := by
  intro b hb
  rw [List.mem_cons, not_or] at hb
  exact (List.mem_erase_of_ne hb.1).trans (h b hb.2)

theorem ArmedBut.discard (h : ArmedBut (a :: out) s) (ha : a ∉ s.timers) {t : Timer} (hs : s.heap a = some t)
    (ht : t.cb = none) : ArmedBut out s := by
  intro b hb
  by_cases hba : b = a
  · subst hba
    refine iff_of_false ha ?_
    rintro ⟨u, hu, hcb⟩
    rw [hs, Option.some.injEq] at hu
    exact hcb (hu ▸ ht)
  · exact h b (by simp [hba, hb])

theorem ArmedBut.insert (h : ArmedBut (a :: out) s) {t : Timer} (hs : s.heap a = some t) (ht : t.cb ≠ none) :
    ArmedBut out { s with timers := OrderedSet.insert (Comparator s.next) a s.timers } := by
  intro b hb
  by_cases hba : b = a
  · subst hba
    exact iff_of_true (mem_insert_self comparator_tri _ _) ⟨t, hs, ht⟩
  · refine Iff.trans ⟨fun hm => ?_, mem_insert_of_mem a⟩ (h b (by simp [hba, hb]))
    exact (mem_of_mem_insert hm).resolve_left hba

theorem ArmedBut.addTimer (h : ArmedBut (a :: out) s) {t : Timer} (hs : s.heap a = some t) (ht : t.cb ≠ none) :
    ArmedBut out (addTimer s a).1 := h.insert hs ht

end ArmedBut

theorem ArmedBut.requeue {s : State} {expired : List Nat} (h : ArmedBut expired s) (now : Nat)
    (hd : expired.Nodup) (hout : ∀ a ∈ expired, a ∉ s.timers)
    (hcb : ∀ a ∈ expired, ∃ t, s.heap a = some t ∧ t.cb ≠ none) : ArmedBut [] (requeue now expired s) := by
  induction expired generalizing s with
  | nil => exact h
  | cons a expired ih =>
    obtain ⟨had, hd⟩ := List.nodup_cons.mp hd
    have ha := hout a List.mem_cons_self
    obtain ⟨t, hs, ht⟩ := hcb a List.mem_cons_self
    have hrest : ∀ b ∈ expired, b ≠ a ∧ b ∉ s.timers ∧ ∃ t, s.heap b = some t ∧ t.cb ≠ none := fun b hb =>
      ⟨fun he => had (he ▸ hb), hout b (List.mem_cons_of_mem a hb), hcb b (List.mem_cons_of_mem a hb)⟩
    have hheap : ∀ u, ∀ b ∈ expired, ∃ t, (s.set a u).heap b = some t ∧ t.cb ≠ none := by
      intro u b hb
      simpa [(hrest b hb).1] using (hrest b hb).2.2
    simp only [TimerManager.requeue, hs]
    split
    · refine ih ((h.set _).insert (Function.update_self ..) ht) hd (fun b hb hm => ?_) (hheap _)
      rcases mem_of_mem_insert hm with rfl | hm
      · exact had hb
      · exact (hrest b hb).2.1 hm
    · exact ih ((h.set _).discard ha (Function.update_self ..) rfl) hd (fun b hb => (hrest b hb).2.1) (hheap _)

theorem ArmedBut.withdraw {s : State} (h : ArmedBut [] s) (a : Nat) (t : Timer) :
    ArmedBut [a] (s.withdraw a t) := (h.erase a).set t

theorem ArmedBut.armed {s : State} (h : ArmedBut [] s) {a : Nat} {t : Timer} (ha : a ∈ s.timers)
    (hs : s.heap a = some t) : t.cb ≠ none := by
  obtain ⟨u, hu, hcb⟩ := (h a List.not_mem_nil).mp ha
  rw [hs, Option.some.injEq] at hu
  exact hu ▸ hcb

theorem ArmedBut.listExpiredCbs {s : State} (h : ArmedBut [] s) (hw : WellFormed s) (now tmp : Nat) :
    ArmedBut [] (listExpiredCbs s now tmp).1 := by
  unfold TimerManager.listExpiredCbs
  split
  · exact h
  · dsimp only
    split
    · exact h
    · generalize (if (detectClockRollover s now).2 = true then _ else _) = n
      have hsplit : ∀ a, a ∈ s.timers ↔ a ∈ s.timers.take n ∨ a ∈ s.timers.drop n := by
        intro a
        rw [← List.mem_append, List.take_append_drop]
      refine ArmedBut.requeue (s := { (detectClockRollover s now).1 with timers := s.timers.drop n })
        (fun a ha => ?_) now (hw.nodup.sublist (List.take_sublist _ _))
        (fun a ha hm => List.disjoint_take_drop hw.nodup le_rfl ha hm)
        fun a ha => (h a List.not_mem_nil).mp (List.mem_of_mem_take ha)
      refine Iff.trans ?_ (h a List.not_mem_nil)
      rw [hsplit a]
      exact (or_iff_right ha).symm

theorem ArmedBut.operate {s t : State} (h : ArmedBut [] s) (hw : WellFormed s) {op : Operation}
    (ht : operate s op = some t) : ArmedBut [] t := by
  cases op with
  | addTimer a ms cb recur now =>
    simp only [TimerManager.operate] at ht
    split at ht
    · cases ht
      have hnew : ArmedBut [a] s := fun b _ => h b List.not_mem_nil
      exact (hnew.set _).addTimer (Function.update_self ..) (by simp [newTimer])
    · cases ht
  | cancel a =>
    obtain ⟨⟨u, r⟩, hc, rfl⟩ := Option.map_eq_some_iff.mp ht
    obtain rfl | ⟨v, -, rfl⟩ := cancel_cases hc
    · exact h
    · exact (h.withdraw a _).discard hw.nodup.not_mem_erase (Function.update_self ..) rfl
  | refresh a now =>
    obtain ⟨⟨u, r⟩, hc, rfl⟩ := Option.map_eq_some_iff.mp ht
    obtain rfl | ⟨v, w, hv, ha, rfl, rfl⟩ := refresh_cases hc
    · exact h
    · have hcb := h.armed ha hv
      exact (h.withdraw a _).insert (Function.update_self ..) hcb
  | reset a ms from_now now =>
    obtain ⟨⟨⟨u, n⟩, r⟩, hc, rfl⟩ := Option.map_eq_some_iff.mp ht
    obtain ⟨rfl, -⟩ | ⟨v, hv, ha, heq⟩ := reset_cases hc
    · exact h
    · rw [show u = (u, n).1 from rfl, heq]
      have hcb := h.armed ha hv
      exact (h.withdraw a _).addTimer (Function.update_self ..) hcb
  | getTimeOfNextTimer now =>
    cases ht
    unfold TimerManager.getTimeOfNextTimer
    split
    · exact h
    · exact h
  | listExpiredCbs now tmp =>
    simp only [TimerManager.operate] at ht
    split at ht
    · cases ht
      exact h.listExpiredCbs hw now tmp
    · cases ht

/-- The set is strictly ordered, it consists of the timers with a callback, and each of
them is found in it. -/
structure Sound (s : State) : Prop where
  ascending : Ascending (Comparator s.next) s.timers
  nodup : s.timers.Nodup
  armed : ∀ a, a ∈ s.timers ↔ ∃ t, s.heap a = some t ∧ t.cb ≠ none
  found : ∀ a ∈ s.timers, OrderedSet.find (Comparator s.next) a s.timers = some a
  cancel : ∀ a t, s.heap a = some t → (cancel s a).isSome = true

theorem sound_of_armed {s : State} (hw : WellFormed s) (h : ArmedBut [] s) : Sound s := by
  have hfound : ∀ a ∈ s.timers, OrderedSet.find (Comparator s.next) a s.timers = some a :=
    fun a ha => find_of_mem comparator_irrefl hw.ascending ha
  refine ⟨hw.ascending, hw.nodup, fun a => h a List.not_mem_nil, hfound, fun a t ht => ?_⟩
  rw [TimerManager.cancel, ht, Option.bind_some]
  split
  · rfl
  · rename_i hcb
    have hin := (h a List.not_mem_nil).mpr ⟨t, ht, hcb⟩
    have hnext := set_next_same s (u := { t with cb := none }) ht rfl
    simp [hnext, hfound a hin]

theorem invariant_of_run {s : State} (h : Reachable Empty operate s) : WellFormed s ∧ ArmedBut [] s := by
  refine Reachable.invariant (I := fun s => WellFormed s ∧ ArmedBut [] s) ?_ ?_ h
  · rintro s ⟨hheap, htimers, -⟩
    refine ⟨⟨?_, ?_⟩, fun a _ => ?_⟩
    · simp [htimers]
    · simp [htimers]
    · simp [htimers, hheap]
  · rintro s op t ⟨hw, ha⟩ ht
    refine ⟨?_, ha.operate hw ht⟩
    rw [← applyWrites_writes ht]
    exact hw.writes (hw.safeWrites ht)

/-- Between operations `m_timers` is sound, and at each assignment that an operation makes
it is strictly ordered and `m_next` is not written to a timer that is in it. -/
theorem sound_of_run {s : State} (h : Reachable Empty operate s) :
    Sound s ∧ ∀ op t, operate s op = some t →
      applyWrites s (writes s op) = t ∧
      ∀ p w, p ++ [w] <+: writes s op →
        Ascending (Comparator (applyWrites s p).next) (applyWrites s p).timers ∧
        (applyWrites s p).timers.Nodup ∧
        ∀ a next, w = .setNext a next → a ∉ (applyWrites s p).timers := by
  obtain ⟨hw, ha⟩ := invariant_of_run h
  refine ⟨sound_of_armed hw ha, fun op t ht => ⟨applyWrites_writes ht, ?_⟩⟩
  rintro p w ⟨rest, hrest⟩
  have hsafe := hw.safeWrites ht
  rw [← hrest, safeWrites_append, safeWrites_append] at hsafe
  obtain ⟨⟨hp, hlast⟩, -⟩ := hsafe
  refine ⟨(hw.writes hp).ascending, (hw.writes hp).nodup, ?_⟩
  rintro a next rfl
  exact hlast.1

theorem sound_after_expiry : ∃ s, Reachable Empty operate s ∧ s.timers = [9, 8] ∧ Sound s := by
  have h : (exec (guarded operate (fun _ _ => True)) ⟨fun _ => none, [], false, 1000⟩
      [.addTimer 7 500 1 false 1000, .addTimer 8 300 2 true 1000, .addTimer 9 400 3 false 1000,
        .listExpiredCbs 1300 5, .reset 9 50 true 1350, .cancel 7]).map State.timers = some [9, 8] := by
    decide +kernel
  obtain ⟨s, hs, he⟩ := Option.map_eq_some_iff.mp h
  have hrun : Reachable Empty operate s := Run.exec (.start ⟨rfl, rfl, rfl⟩) _ hs
  exact ⟨s, hrun, he, (sound_of_run hrun).1⟩

end Windgent.TimerManager
