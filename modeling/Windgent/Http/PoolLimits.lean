import Windgent.Http.ConnectionPool

namespace Windgent.Http.Pool

open MachineInt Transition Custody

variable {C : Type} [DecidableEq C]

/-- The limits of the pool: the list is not longer than `m_maxSize`, and no connection
is handed out more often than `m_maxRequest` times. -/
structure Limited (l : Limits) (s : State C) : Prop where
  size : s.conns.length ≤ l.maxSize.toNat
  requests : ∀ n, s.handouts n ≤ l.maxRequest.toNat

/-- A connection is put back only to a list that is not full, and only if it has not
served all of its requests. -/
def Room (l : Limits) (s : State C) : Action C → Prop
  | .push c => ∀ n, s.pc c = .pushing n →
      s.conns.length < l.maxSize.toNat ∧ (s.heap n).request < l.maxRequest.toNat
  | _ => True

def Pc.Counted (l : Limits) (heap : Nat → Connection) (handouts : Nat → Nat) : Pc → Prop
  | .dropping _ _ (some k) =>
    handouts k.conn = (heap k.conn).request ∧ (heap k.conn).request < l.maxRequest.toNat
  | .created n => handouts n = 0 ∧ (heap n).request = 0
  | .holding n => handouts n = (heap n).request + 1 ∧ (heap n).request < l.maxRequest.toNat
  | .checking n | .pushing n => handouts n = (heap n).request
  | _ => True

structure LimitInv (l : Limits) (s : State C) : Prop where
  kept : Kept s.held s.next
  limited : Limited l s
  pooled : ∀ n ∈ s.conns, s.handouts n = (s.heap n).request ∧ (s.heap n).request < l.maxRequest.toNat
  clients : ∀ c, (s.pc c).Counted l s.heap s.handouts
  unborn : ∀ n, s.next ≤ n → s.handouts n = 0

theorem Pc.Counted.congr {l : Limits} {heap heap' : Nat → Connection} {handouts handouts' : Nat → Nat} {p : Pc}
    (h : p.Counted l heap handouts) (he : ∀ n ∈ p.owned, heap' n = heap n ∧ handouts' n = handouts n) :
    p.Counted l heap' handouts' := by
  cases p with
  | dropping invalid size ptr =>
    cases ptr with
    | none => trivial
    | some k =>
      obtain ⟨h1, h2⟩ := he k.conn (by simp [Pc.owned])
      simp only [Pc.Counted, h1, h2] at h ⊢
      exact h
  | idle => trivial
  | started now => trivial
  | creating => trivial
  | deleting n => trivial
  | deleted => trivial
  | created n =>
    obtain ⟨h1, h2⟩ := he n (by simp [Pc.owned])
    simp only [Pc.Counted, h1, h2] at h ⊢
    exact h
  | holding n =>
    obtain ⟨h1, h2⟩ := he n (by simp [Pc.owned])
    simp only [Pc.Counted, h1, h2] at h ⊢
    exact h
  | checking n =>
    obtain ⟨h1, h2⟩ := he n (by simp [Pc.owned])
    simp only [Pc.Counted, h1, h2] at h ⊢
    exact h
  | pushing n =>
    obtain ⟨h1, h2⟩ := he n (by simp [Pc.owned])
    simp only [Pc.Counted, h1, h2] at h ⊢
    exact h

structure Local (l : Limits) (s t : State C) (c : C) : Prop where
  counted : (t.pc c).Counted l t.heap t.handouts
  requests : ∀ n ∈ (s.pc c).owned, t.handouts n ≤ l.maxRequest.toNat
  pooled : ∀ n ∈ t.conns, n ∈ s.conns ∨
    (t.handouts n = (t.heap n).request ∧ (t.heap n).request < l.maxRequest.toNat)
  size : t.conns.length ≤ l.maxSize.toNat
  unborn : ∀ n, s.next ≤ n → t.handouts n = 0

section Step

variable {l : Limits} {s t : State C} {c : C}

theorem LimitInv.local_goto (hi : LimitInv l s) {p : Pc} (hp : p.Counted l s.heap s.handouts) :
    Local l s (s.goto c p) c where
  counted := by rwa [goto_self]
  requests n _ := hi.limited.requests n
  pooled _ hn := .inl hn
  size := hi.limited.size
  unborn := hi.unborn

theorem LimitInv.local_handOut (hi : LimitInv l s) {n : Nat} {p : Pc} (hn : n ∈ (s.pc c).owned)
    (hlt : s.handouts n < l.maxRequest.toNat)
    (hp : p.Counted l s.heap (Function.update s.handouts n (s.handouts n + 1))) :
    Local l s ((s.handOut n).goto c p) c where
  counted := by rwa [goto_self]
  requests m _ := by
    change Function.update s.handouts n _ m ≤ _
    by_cases hm : m = n
    · subst hm
      rw [Function.update_self]
      omega
    · rw [Function.update_of_ne hm]
      exact hi.limited.requests m
  pooled _ hm := .inl hm
  size := hi.limited.size
  unborn m hm := by
    change Function.update s.handouts n _ m = 0
    have hlt' : n < s.next := hi.kept.lt (h := .client c) hn
    rw [Function.update_of_ne (by omega)]
    exact hi.unborn m hm

theorem LimitInv.local_step (hi : LimitInv l s) (h1 : 1 ≤ l.maxRequest.toNat) {a : Action C} (hok : Room l s a)
    (h : step l s a = some t) : Local l s t a.client := by
  cases step_does h with
  | begin hp => exact hi.local_goto trivial
  | @pop c connected now hp =>
    obtain ⟨hsplit, -⟩ := popLoop_spec l.maxAliveTime.toNat now connected s.heap s.conns
    refine ⟨?_, fun n _ => hi.limited.requests n, fun n hn => .inl (popLoop_mem (.inr hn)), ?_, hi.unborn⟩
    · change Pc.Counted l s.heap s.handouts (Function.update s.pc c _ c)
      rw [Function.update_self]
      cases hr : (popLoop l.maxAliveTime.toNat now connected s.heap s.conns).2.1 with
      | none => trivial
      | some n => exact hi.pooled n (popLoop_mem (.inl hr))
    · have hlen := congrArg List.length hsplit
      have hsize := hi.limited.size
      simp only [List.length_append] at hlen
      change (popLoop l.maxAliveTime.toNat now connected s.heap s.conns).2.2.length ≤ _
      omega
  | @drop c conn invalid size ptr hp =>
    refine ⟨?_, fun n _ => hi.limited.requests n, fun n hn => .inl hn, hi.limited.size, hi.unborn⟩
    change Pc.Counted l s.heap s.handouts (Function.update s.pc c _ c)
    rw [Function.update_self]
    have hc := hi.clients c
    rw [hp] at hc
    cases ptr with
    | none => trivial
    | some k => exact hc
  | @take c size k hp =>
    have hc := hi.clients c
    rw [hp] at hc
    have hlocal := hi.local_handOut (c := c) (n := k.conn) (p := .holding k.conn) (by simp [hp, Pc.owned])
      (by rw [hc.1]; exact hc.2) ⟨by rw [Function.update_self, hc.1], hc.2⟩
    exact ⟨hlocal.counted, hlocal.requests, hlocal.pooled, hlocal.size, hlocal.unborn⟩
  | @miss c size hp =>
    have hlocal := hi.local_goto (c := c) (p := .creating) trivial
    exact ⟨hlocal.counted, hlocal.requests, hlocal.pooled, hlocal.size, hlocal.unborn⟩
  | fail hp => exact hi.local_goto trivial
  | @create c now hp =>
    refine ⟨?_, fun n _ => hi.limited.requests n, fun n hn => .inl hn, hi.limited.size, hi.unborn⟩
    change Pc.Counted l (Function.update s.heap s.next _) s.handouts (Function.update s.pc c _ c)
    rw [Function.update_self]
    exact ⟨hi.unborn _ le_rfl, by rw [Function.update_self]⟩
  | @increment c n hp =>
    have hc := hi.clients c
    rw [hp] at hc
    have hlocal := hi.local_handOut (c := c) (n := n) (p := .holding n) (by simp [hp, Pc.owned])
      (by rw [hc.1]; exact h1) ⟨by rw [Function.update_self, hc.1, hc.2], by rw [hc.2]; exact h1⟩
    exact ⟨hlocal.counted, hlocal.requests, hlocal.pooled, hlocal.size, hlocal.unborn⟩
  | @release c n hp =>
    have hc := hi.clients c
    rw [hp] at hc
    refine ⟨?_, fun n _ => hi.limited.requests n, fun n hn => .inl hn, hi.limited.size, hi.unborn⟩
    change Pc.Counted l (Function.update s.heap n _) s.handouts (Function.update s.pc c _ c)
    have hlt := l.maxRequest.toNat_lt
    have hreq := hc.2
    rw [Function.update_self]
    change s.handouts n = (Function.update s.heap n _ n).request
    rw [Function.update_self, hc.1, addU64_of_lt (by unfold modulus; omega)]
  | refuse hp _ => exact hi.local_goto trivial
  | @accept c n connected now hp _ =>
    have hc := hi.clients c
    rw [hp] at hc
    exact hi.local_goto hc
  | @delete c n hp =>
    have hlocal := hi.local_goto (c := c) (p := .deleted) trivial
    exact ⟨hlocal.counted, hlocal.requests, hlocal.pooled, hlocal.size, hlocal.unborn⟩
  | @decrement c hp =>
    have hlocal := hi.local_goto (c := c) (p := .idle) trivial
    exact ⟨hlocal.counted, hlocal.requests, hlocal.pooled, hlocal.size, hlocal.unborn⟩
  | @push c n hp =>
    obtain ⟨hsize, hreq⟩ := hok n hp
    have hc := hi.clients c
    rw [hp] at hc
    refine ⟨?_, fun n _ => hi.limited.requests n, fun m hm => ?_, ?_, hi.unborn⟩
    · change Pc.Counted l s.heap s.handouts (Function.update s.pc c _ c)
      rw [Function.update_self]
      trivial
    · obtain hm | hm := List.mem_append.mp hm
      · exact .inl hm
      · obtain rfl : m = n := by simpa using hm
        exact .inr ⟨hc, hreq⟩
    · change (s.conns ++ [n]).length ≤ _
      rw [List.length_append, List.length_singleton]
      omega

theorem LimitInv.step (hi : LimitInv l s) (h1 : 1 ≤ l.maxRequest.toNat) {a : Action C} (hok : Room l s a)
    (h : step l s a = some t) : LimitInv l t := by
  have he := step_effect h
  have hlocal := hi.local_step h1 hok h
  -- what is in other hands keeps its counts
  have hframe : ∀ k n, n ∈ s.held k → k ≠ .client a.client → t.heap n = s.heap n ∧ t.handouts n = s.handouts n := by
    intro k n hn hk
    refine he.frame n (fun hm => hk ?_) (Nat.ne_of_lt (hi.kept.lt hn))
    exact hi.kept.unique hn (show n ∈ s.held (.client a.client) from hm)
  have hnext := he.moved.next_le
  refine ⟨he.moved.kept he.others hi.kept, ⟨hlocal.size, fun n => ?_⟩, fun n hn => ?_, fun d => ?_,
    fun n hn => hlocal.unborn n (hnext.trans hn)⟩
  · by_cases hn : s.next ≤ n
    · rw [hlocal.unborn n hn]
      omega
    · by_cases hm : n ∈ (s.pc a.client).owned
      · exact hlocal.requests n hm
      · rw [(he.frame n hm (by omega)).2]
        exact hi.limited.requests n
  · obtain hm | hm := hlocal.pooled n hn
    · obtain ⟨h2, h3⟩ := hframe .pool n hm (by simp)
      rw [h2, h3]
      exact hi.pooled n hm
    · exact hm
  · by_cases hd : d = a.client
    · rw [hd]
      exact hlocal.counted
    · rw [he.others d hd]
      exact (hi.clients d).congr (fun n hn => hframe (.client d) n hn (by simpa using hd))

theorem init_limitInv (h : Init s) : LimitInv l s := by
  refine ⟨?_, ⟨by simp [h.conns], fun n => by simp [h.handouts]⟩, fun n hn => by simp [h.conns] at hn,
    fun c => by rw [h.pc]; trivial, fun n _ => h.handouts n⟩
  rw [h.next]
  refine (kept_empty.mpr ⟨.pool⟩).congr (fun k n => ?_)
  cases k with
  | pool => simp [State.held, h.conns]
  | grave => simp [State.held, h.freed]
  | client c => simp [State.held, h.pc, Pc.owned]

end Step

/-- The limits hold in every run in which connections are put back only while there is
room for them and for another request. -/
theorem limited_of_run (l : Limits) (h1 : 1 ≤ l.maxSize.toNat ∧ 1 ≤ l.maxRequest.toNat) (s : State C)
    (h : Run Init (step l) (Room l) s) : Limited l s :=
  (Run.invariant (I := LimitInv l) (fun _ => init_limitInv) (fun _ _ _ hi hok hs => hi.step h1.2 hok hs) h).limited

instance (l : Limits) (s : State C) (a : Action C) : Decidable (Room l s a) :=
  match a with
  | .push c =>
    match h : s.pc c with
    | .pushing n => decidable_of_iff (s.conns.length < l.maxSize.toNat ∧ (s.heap n).request < l.maxRequest.toNat)
        ⟨fun hr m hm => by rw [h, Pc.pushing.injEq] at hm; exact hm ▸ hr, fun hr => hr n h⟩
    | .idle | .started _ | .dropping .. | .creating | .created _ | .holding _ | .checking _ | .deleting _
    | .deleted => isTrue (fun n hn => by rw [h] at hn; cases hn)
  | .begin .. | .pop .. | .drop _ | .subtract _ | .fail _ | .create .. | .increment _ | .release _
  | .check .. | .delete _ | .decrement _ => isTrue trivial

theorem limited_two_requests :
    ∃ s : State (Fin 2), s.conns = [] ∧ s.handouts 0 = 2 ∧ s.pc 1 = .holding 0 ∧ Limited ⟨1, 100, 2⟩ s := by
  have h : (exec (guarded (step ⟨1, 100, 2⟩) (Room ⟨1, 100, 2⟩)) emptyPool
      [.begin 0 5, .pop 0 (fun _ => true), .subtract 0, .create 0 6, .increment 0, .release 0, .check 0 true 7, .push 0,
        .begin 1 8, .pop 1 (fun _ => true), .subtract 1]).map
        (fun s => (s.conns, s.handouts 0, s.pc 1)) = some ([], 2, .holding 0) := by
    decide +kernel
  obtain ⟨s, hs, he⟩ := Option.map_eq_some_iff.mp h
  simp only [Prod.mk.injEq] at he
  exact ⟨s, he.1, he.2.1, he.2.2, limited_of_run _ (by decide) s (Run.exec (.start emptyPool_init) _ hs)⟩

/-- A pool for one connection with one request each: two clients put back two
connections, and one of these is handed out again. -/
theorem limits_exceeded :
    (∃ s : State (Fin 2), Reachable Init (step ⟨1, 100, 1⟩) s ∧ s.conns.length = 2) ∧
    ∃ s : State (Fin 2), Reachable Init (step ⟨1, 100, 1⟩) s ∧ s.handouts 0 = 2 := by
  have h : (exec (guarded (step ⟨1, 100, 1⟩) (fun _ _ => True)) emptyPool
      [.begin 0 5, .pop 0 (fun _ => true), .subtract 0, .create 0 6, .increment 0,
        .begin 1 5, .pop 1 (fun _ => true), .subtract 1, .create 1 6, .increment 1,
        .release 0, .check 0 true 7, .push 0, .release 1, .check 1 true 7, .push 1]).map
        (fun s => s.conns.length) = some 2 := by
    decide +kernel
  have h' : (exec (guarded (step ⟨1, 100, 1⟩) (fun _ _ => True)) emptyPool
      [.begin 0 5, .pop 0 (fun _ => true), .subtract 0, .create 0 6, .increment 0, .release 0, .check 0 true 7, .push 0,
        .begin 1 8, .pop 1 (fun _ => true), .subtract 1]).map (fun s => s.handouts 0) = some 2 := by
    decide +kernel
  obtain ⟨s, hs, he⟩ := Option.map_eq_some_iff.mp h
  obtain ⟨s', hs', he'⟩ := Option.map_eq_some_iff.mp h'
  exact ⟨⟨s, Run.exec (.start emptyPool_init) _ hs, he⟩, s', Run.exec (.start emptyPool_init) _ hs', he'⟩

end Windgent.Http.Pool
