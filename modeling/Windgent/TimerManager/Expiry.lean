import Windgent.TimerManager.Order

namespace Windgent.TimerManager

open MachineInt OrderedSet

/-- The timers that are due at `now`, in the order of the set: all of them when the clock
has gone back by more than an hour. -/
def due (s : State) (now : Nat) : List Nat :=
  if now + 60 * 60 * 1000 < s.previouseTime then s.timers else s.timers.filter fun a => s.next a ≤ now

def expired (s : State) (now tmp : Nat) : List Nat :=
  match s.timers with
  | [] => []
  | first :: _ =>
    if (detectClockRollover s now).2 = false ∧ now < s.next first then []
    else s.timers.take (if (detectClockRollover s now).2 then s.timers.length
      else expiredCount ((detectClockRollover s now).1.set tmp ⟨false, 0, now, none⟩) now tmp)

def expire (now : Nat) (t : Timer) : Timer :=
  if t.recur then { t with next := addU64 now t.ms } else { t with cb := none }

section Cut

variable {next : Nat → Nat} {tmp : Nat} {l : List Nat} (now : Nat)

theorem cut_eq_filter (h : Ascending (Comparator next) l) (ht : tmp ∉ l) (hn : next tmp = now) :
    l.takeWhile (fun a => Comparator next a tmp) ++
      (l.dropWhile fun a => Comparator next a tmp).takeWhile (fun a => next a = now) =
      l.filter fun a => next a ≤ now := by
  induction l with
  | nil => rfl
  | cons a l ih =>
    obtain ⟨ha, hl⟩ := List.pairwise_cons.mp h
    obtain ⟨hne, htl⟩ : tmp ≠ a ∧ tmp ∉ l := by simpa using ht
    by_cases hc : Comparator next a tmp
    · have hle : next a ≤ now := hn ▸ comparator_le hc
      simp only [hc, decide_true, List.takeWhile_cons_of_pos, List.dropWhile_cons_of_pos, List.cons_append, ih hl htl,
        List.filter_cons_of_pos, hle]
    · have hlow : ∀ b ∈ a :: l, now ≤ next b := by
        have hge : now ≤ next a := by
          unfold Comparator at hc
          omega
        intro b hb
        obtain rfl | hb := List.mem_cons.mp hb
        · exact hge
        · exact hge.trans (comparator_le (ha b hb))
      have hsame : ∀ b ∈ a :: l, decide (next b = now) = decide (next b ≤ now) := by
        intro b hb
        have := hlow b hb
        simp only [decide_eq_decide]
        omega
      rw [List.takeWhile_cons_of_neg (by simpa using hc), List.dropWhile_cons_of_neg (by simpa using hc),
        List.nil_append, h.takeWhile_eq_filter]
      · exact List.filter_congr hsame
      · intro b hb c hc hbc hcn
        have := comparator_le hbc
        have := hlow b hb
        simp only [decide_eq_true_eq] at hcn ⊢
        omega

end Cut

theorem take_scan {α : Type} (p q : α → Bool) (l : List α) :
    l.take ((l.takeWhile p).length + ((l.drop (l.takeWhile p).length).takeWhile q).length) =
      l.takeWhile p ++ (l.dropWhile p).takeWhile q := by
  induction l with
  | nil => rfl
  | cons a l ih =>
    by_cases ha : p a = true
    · simp only [List.takeWhile_cons_of_pos ha, List.dropWhile_cons_of_pos ha, List.length_cons, List.drop_succ_cons,
        Nat.succ_add, List.take_succ_cons, List.cons_append]
      rw [ih]
    · rw [List.takeWhile_cons_of_neg ha, List.dropWhile_cons_of_neg ha, List.length_nil, List.drop_zero, Nat.zero_add,
        List.nil_append]
      exact (List.prefix_iff_eq_take.mp (List.takeWhile_prefix q)).symm

section Requeue

variable {now : Nat}

theorem requeue_not_mem {expired : List Nat} (s : State) {a : Nat} (ha : a ∉ expired) (hs : a ∉ s.timers) :
    a ∉ (requeue now expired s).timers := by
  induction expired generalizing s with
  | nil => exact hs
  | cons b expired ih =>
    obtain ⟨hab, ha⟩ : a ≠ b ∧ a ∉ expired := by simpa using ha
    simp only [requeue]
    split
    · exact ih s ha hs
    · split
      · refine ih _ ha fun hm => ?_
        obtain h | h := mem_of_mem_insert hm
        · exact hab h
        · exact hs h
      · exact ih _ ha hs

/-- Each expired timer is rewritten once, and is in the set again if it recurs. -/
theorem requeue_expired {expired : List Nat} (s : State) (hd : expired.Nodup) (hout : ∀ a ∈ expired, a ∉ s.timers)
    {a : Nat} {t : Timer} (ha : a ∈ expired) (ht : s.heap a = some t) :
    (requeue now expired s).heap a = some (expire now t) ∧
      (a ∈ (requeue now expired s).timers ↔ t.recur = true) := by
  induction expired generalizing s with
  | nil => cases ha
  | cons b expired ih =>
    obtain ⟨hbd, hd⟩ := List.nodup_cons.mp hd
    obtain ⟨hb, hout⟩ := List.forall_mem_cons.mp hout
    simp only [requeue]
    by_cases hab : a = b
    · subst hab
      simp only [ht]
      by_cases hr : t.recur = true
      · obtain ⟨h1, h2⟩ := requeue_other now expired _ hbd
        rw [if_pos hr]
        refine ⟨h1.trans ?_, iff_of_true (h2 (mem_insert_self comparator_tri _ _)) hr⟩
        simp [expire, hr]
      · obtain ⟨h1, -⟩ := requeue_other now expired (s.set a { t with cb := none }) hbd
        rw [if_neg hr]
        refine ⟨h1.trans ?_, iff_of_false (requeue_not_mem _ hbd hb) hr⟩
        simp [expire, hr]
    · have ha : a ∈ expired := (List.mem_cons.mp ha).resolve_left hab
      split
      · exact ih s hd hout ha ht
      · split
        · refine ih _ hd (fun c hc hm => ?_) ha (by simpa [hab] using ht)
          obtain rfl | hm := mem_of_mem_insert hm
          · exact hbd hc
          · exact hout c hc hm
        · exact ih _ hd hout ha (by simpa [hab] using ht)

end Requeue

section Exact

variable {s : State} {tmp : Nat} (now : Nat)

theorem expired_sublist (s : State) (now tmp : Nat) : (expired s now tmp).Sublist s.timers := by
  unfold expired
  split
  · exact List.nil_sublist _
  · split
    · exact List.nil_sublist _
    · exact List.take_sublist _ _

theorem requeue_front (h : WellFormed s) (n : Nat) (u : State) (hheap : u.heap = s.heap)
    (hdrop : u.timers = s.timers.drop n) :
    (∀ a ∈ s.timers.take n, ∀ t, s.heap a = some t →
      (requeue now (s.timers.take n) u).heap a = some (expire now t) ∧
        (a ∈ (requeue now (s.timers.take n) u).timers ↔ t.recur = true)) ∧
      ∀ a ∉ s.timers.take n, (requeue now (s.timers.take n) u).heap a = s.heap a ∧
        (a ∈ (requeue now (s.timers.take n) u).timers ↔ a ∈ s.timers) := by
  have hnodup := h.nodup.sublist (List.take_sublist n s.timers)
  have hout : ∀ a ∈ s.timers.take n, a ∉ u.timers := by
    intro a ha hm
    rw [hdrop] at hm
    exact List.disjoint_take_drop h.nodup (Nat.le_refl n) ha hm
  refine ⟨fun a ha t ht => requeue_expired u hnodup hout ha (by rw [hheap, ht]), fun a ha => ?_⟩
  obtain ⟨h1, h2⟩ := requeue_other now (s.timers.take n) u ha
  refine ⟨h1.trans (congrFun hheap a), fun hm => ?_, fun hm => ?_⟩
  · by_contra hno
    refine requeue_not_mem u ha (fun hu => hno ?_) hm
    rw [hdrop] at hu
    exact List.mem_of_mem_drop hu
  · apply h2
    rw [hdrop]
    rw [← List.take_append_drop n s.timers] at hm
    exact (List.mem_append.mp hm).resolve_left ha

/-- What `listExpiredCbs` does to the timers and the callbacks, given which timers are expired. -/
theorem listExpiredCbs_expired (h : WellFormed s) (tmp : Nat) :
    (listExpiredCbs s now tmp).2 = (expired s now tmp).map (fun a => (s.heap a).bind Timer.cb) ∧
      (∀ a ∈ expired s now tmp, ∀ t, s.heap a = some t →
        (listExpiredCbs s now tmp).1.heap a = some (expire now t) ∧
          (a ∈ (listExpiredCbs s now tmp).1.timers ↔ t.recur = true)) ∧
      ∀ a ∉ expired s now tmp, (listExpiredCbs s now tmp).1.heap a = s.heap a ∧
        (a ∈ (listExpiredCbs s now tmp).1.timers ↔ a ∈ s.timers) := by
  unfold listExpiredCbs expired
  cases hcons : s.timers with
  | nil =>
    refine ⟨rfl, fun a ha => (nomatch ha), fun a _ => ⟨rfl, ?_⟩⟩
    rw [hcons]
  | cons first rest =>
    dsimp only
    by_cases hearly : (detectClockRollover s now).2 = false ∧ now < s.next first
    · rw [if_pos hearly]
      have hearly' : (detectClockRollover s now).2 = false ∧ now < (detectClockRollover s now).1.next first := hearly
      rw [if_pos hearly']
      refine ⟨rfl, fun a ha => (nomatch ha), fun a _ => ⟨rfl, ?_⟩⟩
      rw [← hcons]
      rfl
    · rw [if_neg hearly]
      have hearly' : ¬ ((detectClockRollover s now).2 = false ∧ now < (detectClockRollover s now).1.next first) :=
      hearly
      rw [if_neg hearly', ← hcons]
      refine ⟨rfl, ?_⟩
      exact requeue_front now h _ _ rfl rfl

theorem rollover_iff (hprev : 60 * 60 * 1000 ≤ s.previouseTime ∧ s.previouseTime < modulus) :
    (detectClockRollover s now).2 = true ↔ now + 60 * 60 * 1000 < s.previouseTime := by
  simp only [detectClockRollover, subU64_of_le hprev.2 hprev.1, decide_eq_true_eq]
  omega

theorem expiredCount_due (h : WellFormed s) (ht : tmp ∉ s.timers) :
    s.timers.take (expiredCount (s.set tmp ⟨false, 0, now, none⟩) now tmp) =
      s.timers.filter fun a => s.next a ≤ now := by
  have hw := h.set ht ⟨false, 0, now, none⟩
  have hnext : ∀ a ∈ s.timers, (s.set tmp ⟨false, 0, now, none⟩).next a = s.next a :=
    fun a ha => set_next_of_ne s _ fun he => ht (he ▸ ha)
  have hcut := cut_eq_filter now hw.ascending ht (set_next_self s tmp _)
  rw [List.filter_congr fun a ha => by rw [hnext a ha]] at hcut
  rw [set_timers] at hcut
  rw [← hcut, expiredCount, set_timers, take_scan]

theorem expired_eq_filter (h : WellFormed s) (ht : tmp ∉ s.timers) (hr : (detectClockRollover s now).2 = false) :
    expired s now tmp = s.timers.filter fun a => s.next a ≤ now := by
  have hw : WellFormed (detectClockRollover s now).1 := ⟨h.ascending, h.alive⟩
  have hcount := expiredCount_due now hw ht
  unfold expired
  cases hcons : s.timers with
  | nil => simp
  | cons first rest =>
    dsimp only
    rw [← hcons]
    split
    · rename_i hearly
      symm
      rw [List.filter_eq_nil_iff]
      intro a ha hle
      have hfirst := h.head_le hcons a ha
      have hlt := hearly.2
      simp only [decide_eq_true_eq] at hle
      omega
    · rw [if_neg (by rw [hr]; exact Bool.false_ne_true)]
      exact hcount

/-- The timers that are expired are those that are due, whatever the addresses are. -/
theorem expired_eq_due (h : WellFormed s) (ht : tmp ∉ s.timers)
    (hprev : 60 * 60 * 1000 ≤ s.previouseTime ∧ s.previouseTime < modulus) : expired s now tmp = due s now := by
  have hr := rollover_iff now hprev
  unfold due
  by_cases hback : now + 60 * 60 * 1000 < s.previouseTime
  · have htrue := hr.mpr hback
    rw [if_pos hback]
    unfold expired
    cases hcons : s.timers with
    | nil => rfl
    | cons first rest =>
      dsimp only
      have hlate : ¬ ((detectClockRollover s now).2 = false ∧ now < s.next first) := by
        rw [htrue]
        exact fun hc => Bool.noConfusion hc.1
      rw [if_neg hlate, if_pos htrue, List.take_length]
  · have hfalse : (detectClockRollover s now).2 = false := by
      rw [Bool.eq_false_iff]
      exact fun hc => hback (hr.mp hc)
    rw [if_neg hback, expired_eq_filter now h ht hfalse]

/-- What `listExpiredCbs` does: it hands out the callbacks of the timers that are due, each
once and in the order of their times, and rewrites these timers only. -/
theorem listExpiredCbs_exact (h : WellFormed s) (ht : tmp ∉ s.timers)
    (hprev : 60 * 60 * 1000 ≤ s.previouseTime ∧ s.previouseTime < modulus) :
    (listExpiredCbs s now tmp).2 = (due s now).map (fun a => (s.heap a).bind Timer.cb) ∧
      (due s now).Nodup ∧ ((due s now).map s.next).Pairwise (· ≤ ·) ∧
      (∀ a ∈ due s now, ∀ t, s.heap a = some t →
        (listExpiredCbs s now tmp).1.heap a = some (expire now t) ∧
          (a ∈ (listExpiredCbs s now tmp).1.timers ↔ t.recur = true)) ∧
      ∀ a ∉ due s now, (listExpiredCbs s now tmp).1.heap a = s.heap a ∧
        (a ∈ (listExpiredCbs s now tmp).1.timers ↔ a ∈ s.timers) := by
  rw [← expired_eq_due now h ht hprev]
  obtain ⟨hcbs, hexpired, hother⟩ := listExpiredCbs_expired now h tmp
  have hasc : Ascending (Comparator s.next) (expired s now tmp) := h.ascending.sublist (expired_sublist s now tmp)
  refine ⟨hcbs, Ascending.nodup comparator_irrefl hasc, ?_, hexpired, hother⟩
  exact List.pairwise_map.mpr (List.Pairwise.imp (fun hab => comparator_le hab) hasc)

end Exact

def threeTimers : State where
  heap := fun a =>
    if a = 5 then some ⟨false, 10, 4000000, some 1⟩
    else if a = 9 then some ⟨true, 30, 4000000, some 2⟩
    else if a = 2 then some ⟨false, 500, 4000500, some 3⟩
    else none
  timers := [5, 9, 2]
  tickled := false
  previouseTime := 3999990

theorem threeTimers_wellFormed : WellFormed threeTimers := by
  refine ⟨?_, by decide⟩
  unfold Ascending
  decide

theorem listExpiredCbs_exact_three :
    due threeTimers 4000000 = [5, 9] ∧
      (listExpiredCbs threeTimers 4000000 7).2 = (due threeTimers 4000000).map
        (fun a => (threeTimers.heap a).bind Timer.cb) ∧
      (2 ∈ (listExpiredCbs threeTimers 4000000 7).1.timers ↔ 2 ∈ threeTimers.timers) := by
  obtain ⟨hcbs, -, -, -, hother⟩ := listExpiredCbs_exact 4000000 threeTimers_wellFormed (by decide : 7 ∉ [5, 9, 2])
    (by decide)
  exact ⟨by decide, hcbs, (hother 2 (by decide)).2⟩

end Windgent.TimerManager
