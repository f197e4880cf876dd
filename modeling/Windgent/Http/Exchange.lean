import Windgent.Http.ConnectionPool
import Windgent.Http.Recv

namespace Windgent.Http.Exchange

open MachineInt Transition Custody

inductive Error where
  | ok | closedByPeer | sendSocketError | timeout
deriving DecidableEq

/-- How far `doRequest` is with the connection that the client holds. -/
inductive Phase where
  | ready | sent
  | done (result : Error)
deriving DecidableEq

/-- The pool, `m_isConnected` of the socket of each connection, where the calls of `doRequest`
are, and the results of those that are over, the last one first. -/
structure State (C : Type) where
  pool : Pool.State C
  connected : Nat → Bool
  phase : C → Phase
  log : List (Nat × Error)

inductive Action (C : Type) where
  | pool (a : Pool.Action C)
  | sendRequest (c : C) (length : Nat) (rs : List Int)
  | recvResponse (c : C) (memory : List UInt8) (source : Source)

section Model

variable {C σ : Type} [DecidableEq C]

def State.observe (s : State C) : Pool.Action C → Pool.Action C
  | .pop c _ => .pop c s.connected
  | .check c connected now =>
    match s.pool.pc c with
    | .checking n => .check c (s.connected n) now
    | _ => .check c connected now
  | a => a

def State.finish (s : State C) (c : C) (n : Nat) (r : Error) : State C :=
  { s with phase := Function.update s.phase c (.done r), log := (n, r) :: s.log }

def State.close (s : State C) (n : Nat) : State C := { s with connected := Function.update s.connected n false }

/-- A step of the pool: a new connection is connected, and a connection is released when
`doRequest` returns. -/
def poolStep (l : Pool.Limits) (s : State C) : Pool.Action C → Option (State C)
  | .create c now => (Pool.step l s.pool (.create c now)).map fun p =>
      { s with pool := p, connected := Function.update s.connected s.pool.next true }
  | .release c =>
    match s.phase c with
    | .done _ => (Pool.step l s.pool (.release c)).map fun p =>
        { s with pool := p, phase := Function.update s.phase c .ready }
    | _ => none
  | a => (Pool.step l s.pool (s.observe a)).map fun p => { s with pool := p }

/-- `sendRequest`, and the tests of its result. On a closed socket every `write` returns -1. -/
def sendRequest (s : State C) (c : C) (n length : Nat) (rs : List Int) : Option (State C) :=
  (Stream.writeFixedSize length (if s.connected n then rs else rs.map fun _ => -1)).ret.map fun ret =>
    if ret = 0 then s.finish c n .closedByPeer
    else if ret < 0 then s.finish c n .sendSocketError
    else { s with phase := Function.update s.phase c .sent }

/-- `recvResponse`, and the test of its result. On a closed socket every `read` returns -1. -/
def recvResponse (M : ResponseMachine σ) (lexicalCast : List UInt8 → Option UInt64) (s : State C) (c : C) (n : Nat)
    (memory : List UInt8) (source : Source) : Option (State C) :=
  match Http.recvResponse M lexicalCast memory (if s.connected n then source else [[]]) with
  | .waiting | .crashed => none
  | .closed => some ((s.close n).finish c n .timeout)
  | .done _ => some (s.finish c n .ok)

def step (M : ResponseMachine σ) (lexicalCast : List UInt8 → Option UInt64) (l : Pool.Limits) (s : State C) :
    Action C → Option (State C)
  | .pool a => poolStep l s a
  | .sendRequest c length rs =>
    match s.pool.pc c, s.phase c with
    | .holding n, .ready => sendRequest s c n length rs
    | _, _ => none
  | .recvResponse c memory source =>
    match s.pool.pc c, s.phase c with
    | .holding n, .sent => recvResponse M lexicalCast s c n memory source
    | _, _ => none

structure Init (s : State C) : Prop where
  pool : Pool.Init s.pool
  phase : ∀ c, s.phase c = .ready
  log : s.log = []

def last (log : List (Nat × Error)) (n : Nat) : Option Error := (log.find? fun x => x.1 = n).map Prod.snd

/-- Failed exchanges stay out of the pool: what is in the list has served its last request, a
connection that is being used has not failed before, and no connection has served a request
after a failure. -/
structure Clean (s : State C) : Prop where
  pooled : ∀ n ∈ s.pool.conns, last s.log n = some .ok
  inUse : ∀ c n, s.pool.pc c = .holding n → (s.phase c = .ready ∨ s.phase c = .sent) →
    ∀ r, last s.log n = some r → r = .ok
  served : s.log.Pairwise fun later earlier => later.1 = earlier.1 → earlier.2 = .ok

/-- When `releasePtr` looks at a connection whose request could not be sent, it finds it too old
or used up. -/
def Spent (l : Pool.Limits) (s : State C) : Action C → Prop
  | .pool (.check c _ now) => ∀ n, s.pool.pc c = .checking n →
      (last s.log n = some .closedByPeer ∨ last s.log n = some .sendSocketError) →
      addU64 (s.pool.heap n).createTime l.maxAliveTime.toNat < now ∨ l.maxRequest.toNat < (s.pool.heap n).request
  | _ => True

end Model

section Log

variable {log : List (Nat × Error)} {m n : Nat} {r : Error}

@[simp] theorem last_cons_self : last ((n, r) :: log) n = some r := by
  simp [last]

theorem last_cons_of_ne (h : m ≠ n) : last ((n, r) :: log) m = last log m := by
  simp [last, Ne.symm h]

theorem last_eq_none (h : ∀ x ∈ log, x.1 ≠ n) : last log n = none := by
  simpa [last] using h

theorem served_cons (h : log.Pairwise fun later earlier => later.1 = earlier.1 → earlier.2 = .ok)
    (hlast : ∀ q, last log n = some q → q = .ok) :
    ((n, r) :: log).Pairwise fun later earlier => later.1 = earlier.1 → earlier.2 = .ok := by
  refine List.pairwise_cons.mpr ⟨?_, h⟩
  induction log with
  | nil => exact fun x hx => nomatch hx
  | cons y log ih =>
    obtain ⟨hy, hlog⟩ := List.pairwise_cons.mp h
    intro x hx hn
    dsimp only at hn
    obtain rfl | hx := List.mem_cons.mp hx
    · apply hlast
      rw [hn]
      exact last_cons_self
    · by_cases hyn : y.1 = n
      · exact hy x hx (hyn.trans hn)
      · refine ih hlog (fun q hq => hlast q ?_) x hx hn
        rw [← hq]
        exact last_cons_of_ne (Ne.symm hyn)

end Log

section Invariant

variable {C σ : Type} [DecidableEq C] {M : ResponseMachine σ} {lexicalCast : List UInt8 → Option UInt64}
variable {l : Pool.Limits} {s t : State C}

def Known (log : List (Nat × Error)) (connected : Nat → Bool) (phase : Phase) : Pool.Pc → Prop
  | .dropping _ _ (some k) => phase = .ready ∧ last log k.conn = some .ok
  | .created n => phase = .ready ∧ last log n = none
  | .holding n => (∀ r, phase = .done r → last log n = some r ∧ (r = .timeout → connected n = false)) ∧
      (phase = .ready ∨ phase = .sent → ∀ r, last log n = some r → r = .ok)
  | .checking n => phase = .ready ∧ ∃ r, last log n = some r ∧ (r = .timeout → connected n = false)
  | .pushing n => phase = .ready ∧ last log n = some .ok
  | _ => phase = .ready

theorem Known.congr {log log' : List (Nat × Error)} {connected connected' : Nat → Bool} {phase : Phase} {p : Pool.Pc}
    (h : Known log connected phase p)
    (he : ∀ n ∈ p.owned, last log' n = last log n ∧ connected' n = connected n) : Known log' connected' phase p := by
  have hpair : ∀ n, p.owned = [n] → last log' n = last log n ∧ connected' n = connected n :=
    fun n hn => he n (hn ▸ List.mem_singleton_self n)
  cases p with
  | dropping invalid size ptr =>
    cases ptr with
    | none => exact h
    | some k =>
      obtain ⟨h1, -⟩ := he k.conn (by simp [Pool.Pc.owned])
      exact ⟨h.1, h1.trans h.2⟩
  | created n => exact ⟨h.1, (hpair n rfl).1.trans h.2⟩
  | holding n =>
    obtain ⟨h1, h2⟩ := hpair n rfl
    simp only [Known, h1, h2] at h ⊢
    exact h
  | checking n =>
    obtain ⟨h1, h2⟩ := hpair n rfl
    simp only [Known, h1, h2] at h ⊢
    exact h
  | pushing n => exact ⟨h.1, (hpair n rfl).1.trans h.2⟩
  | idle => exact h
  | started now => exact h
  | creating => exact h
  | deleting n => exact h
  | deleted => exact h

theorem known_holding {log : List (Nat × Error)} {connected : Nat → Bool} {phase : Phase} {n : Nat}
    (hready : phase = .ready) (hlast : ∀ r, last log n = some r → r = .ok) :
    Known log connected phase (.holding n) := by
  refine ⟨fun r hr => ?_, fun _ => hlast⟩
  cases hready.symm.trans hr

structure Inv (s : State C) : Prop where
  kept : Kept s.pool.held s.pool.next
  pooled : ∀ n ∈ s.pool.conns, last s.log n = some .ok
  clients : ∀ c, Known s.log s.connected (s.phase c) (s.pool.pc c)
  served : s.log.Pairwise fun later earlier => later.1 = earlier.1 → earlier.2 = .ok
  born : ∀ x ∈ s.log, x.1 < s.pool.next

theorem Inv.clean (h : Inv s) : Clean s := by
  refine ⟨h.pooled, fun c n hn hphase => ?_, h.served⟩
  have hc := h.clients c
  rw [hn] at hc
  exact hc.2 hphase

theorem init_inv (h : Init s) : Inv s := by
  have hheld : s.pool.held = fun _ => [] := by
    funext k
    cases k with
    | pool => exact h.pool.conns
    | grave => exact h.pool.freed
    | client c =>
      simp only [Pool.State.held, h.pool.pc]
      rfl
  constructor
  · rw [hheld, h.pool.next]
    exact kept_empty.mpr ⟨.pool⟩
  · rw [h.pool.conns]
    exact fun n hn => absurd hn List.not_mem_nil
  · intro c
    rw [h.pool.pc, h.phase]
    rfl
  · rw [h.log]
    exact List.Pairwise.nil
  · rw [h.log]
    exact fun x hx => absurd hx List.not_mem_nil

theorem Inv.pool (h : Inv s) {a : Pool.Action C} (hp : Pool.step l s.pool a = some t.pool) (hlog : t.log = s.log)
    (hphase : ∀ d, d ≠ a.client → t.phase d = s.phase d)
    (hconn : ∀ n < s.pool.next, t.connected n = s.connected n)
    (hclient : Known s.log t.connected (t.phase a.client) (t.pool.pc a.client))
    (hpooled : ∀ n ∈ t.pool.conns, last s.log n = some .ok) : Inv t := by
  have he := Pool.step_effect hp
  have hnext := he.moved.next_le
  constructor
  · exact he.moved.kept he.others h.kept
  · rw [hlog]
    exact hpooled
  · intro d
    rw [hlog]
    by_cases hd : d = a.client
    · rw [hd]
      exact hclient
    · rw [he.others d hd, hphase d hd]
      refine (h.clients d).congr fun n hn => ⟨rfl, hconn n ?_⟩
      exact h.kept.lt (h := .client d) hn
  · rw [hlog]
    exact h.served
  · rw [hlog]
    exact fun x hx => (h.born x hx).trans_le hnext

theorem Inv.quiet (h : Inv s) {a : Pool.Action C} {p : Pool.State C} {c : C} {pc : Pool.Pc}
    (hp : Pool.step l s.pool a = some (p.goto c pc)) (hc : a.client = c)
    (hclient : Known s.log s.connected (s.phase c) pc) (hpooled : ∀ n ∈ p.conns, last s.log n = some .ok) :
    Inv { s with pool := p.goto c pc } := by
  refine h.pool (t := { s with pool := p.goto c pc }) hp rfl (fun _ _ => rfl) (fun _ _ => rfl) ?_ hpooled
  rw [hc, Pool.goto_self]
  exact hclient

omit [DecidableEq C] in
/-- The release looks at the socket itself. -/
theorem observe_check (s : State C) (c : C) (connected : Bool) (now : Nat) :
    ∃ b, s.observe (.check c connected now) = .check c b now ∧ ∀ n, s.pool.pc c = .checking n → b = s.connected n := by
  cases hc : s.pool.pc c with
  | checking n => exact ⟨s.connected n, by simp [State.observe, hc], fun n' hn => by cases hn; rfl⟩
  | _ => exact ⟨connected, by simp [State.observe, hc], nofun⟩

theorem Inv.poolStep (h : Inv s) {a : Pool.Action C} (hok : Spent l s (.pool a)) (ht : poolStep l s a = some t) :
    Inv t := by
  have hknown : ∀ c p, s.pool.pc c = p → Known s.log s.connected (s.phase c) p := fun c p hc => hc ▸ h.clients c
  cases a with
  | begin c now =>
    obtain ⟨p, hp, rfl⟩ := Option.map_eq_some_iff.mp ht
    cases Pool.step_does hp with
    | begin hc =>
      have hready : s.phase c = .ready := hknown c _ hc
      exact h.quiet hp rfl hready h.pooled
  | pop c connected =>
    obtain ⟨p, hp, rfl⟩ := Option.map_eq_some_iff.mp ht
    cases Pool.step_does hp with
    | @pop _ _ now hc =>
      refine h.quiet hp rfl ?_ fun n hn => h.pooled n (Pool.popLoop_mem (Or.inr hn))
      have hready : s.phase c = .ready := hknown c _ hc
      cases hr : (Pool.popLoop l.maxAliveTime.toNat now s.connected s.pool.heap s.pool.conns).2.1 with
      | none => exact hready
      | some n => exact ⟨hready, h.pooled n (Pool.popLoop_mem (Or.inl hr))⟩
  | drop c =>
    obtain ⟨p, hp, rfl⟩ := Option.map_eq_some_iff.mp ht
    cases Pool.step_does hp with
    | @drop _ conn invalid size ptr hc =>
      refine h.quiet hp rfl ?_ h.pooled
      have hk := hknown c _ hc
      cases ptr with
      | none => exact hk
      | some k => exact hk
  | subtract c =>
    obtain ⟨p, hp, rfl⟩ := Option.map_eq_some_iff.mp ht
    cases Pool.step_does hp with
    | take hc =>
      obtain ⟨hready, hlast⟩ := hknown c _ hc
      exact h.quiet hp rfl (known_holding hready fun r hr => (Option.some.inj (hlast.symm.trans hr)).symm) h.pooled
    | miss hc =>
      have hready : s.phase c = .ready := hknown c _ hc
      exact h.quiet hp rfl hready h.pooled
  | fail c =>
    obtain ⟨p, hp, rfl⟩ := Option.map_eq_some_iff.mp ht
    cases Pool.step_does hp with
    | fail hc =>
      have hready : s.phase c = .ready := hknown c _ hc
      exact h.quiet hp rfl hready h.pooled
  | create c now =>
    obtain ⟨p, hp, rfl⟩ := Option.map_eq_some_iff.mp ht
    cases Pool.step_does hp with
    | create hc =>
      refine h.pool hp rfl (fun _ _ => rfl) (fun n hn => Function.update_of_ne hn.ne _ _) ?_ h.pooled
      change Known s.log _ (s.phase c) (Pool.State.pc _ c)
      rw [Pool.goto_self]
      exact ⟨hknown c _ hc, last_eq_none fun x hx => (h.born x hx).ne⟩
  | increment c =>
    obtain ⟨p, hp, rfl⟩ := Option.map_eq_some_iff.mp ht
    cases Pool.step_does hp with
    | increment hc =>
      obtain ⟨hready, hlast⟩ := hknown c _ hc
      refine h.quiet hp rfl (known_holding hready fun r hr => ?_) h.pooled
      cases hlast.symm.trans hr
  | release c =>
    simp only [Exchange.poolStep] at ht
    split at ht
    · rename_i r hr
      obtain ⟨p, hp, rfl⟩ := Option.map_eq_some_iff.mp ht
      cases Pool.step_does hp with
      | release hc =>
        refine h.pool hp rfl (fun d hd => Function.update_of_ne hd _ _) (fun _ _ => rfl) ?_ h.pooled
        change Known s.log s.connected (Function.update s.phase c .ready c) (Pool.State.pc _ c)
        rw [Pool.goto_self, Function.update_self]
        exact ⟨rfl, r, (hknown c _ hc).1 r hr⟩
    · cases ht
  | check c connected now =>
    obtain ⟨p, hp, rfl⟩ := Option.map_eq_some_iff.mp ht
    obtain ⟨connected, ho, hseen⟩ := observe_check s c connected now
    rw [ho] at hp
    cases Pool.step_does hp with
    | refuse hc _ =>
      obtain ⟨hready, -⟩ := hknown c _ hc
      exact h.quiet hp rfl hready h.pooled
    | @accept _ n _ _ hc hgood =>
      obtain ⟨hready, r, hlast, htimeout⟩ := hknown c _ hc
      refine h.quiet hp rfl ⟨hready, hlast.trans ?_⟩ h.pooled
      rw [hseen n hc] at hgood
      simp only [Bool.or_eq_true, Bool.not_eq_true', decide_eq_true_eq, not_or] at hgood
      obtain ⟨⟨hconnected, hyoung⟩, hfew⟩ := hgood
      have hspent : last s.log n = some .closedByPeer ∨ last s.log n = some .sendSocketError → False := by
        intro hsend
        obtain hold | hmany := hok n hc hsend
        · exact hyoung hold
        · exact hfew hmany
      cases r with
      | ok => rfl
      | closedByPeer => exact (hspent (Or.inl hlast)).elim
      | sendSocketError => exact (hspent (Or.inr hlast)).elim
      | timeout => exact (hconnected (htimeout rfl)).elim
  | delete c =>
    obtain ⟨p, hp, rfl⟩ := Option.map_eq_some_iff.mp ht
    cases Pool.step_does hp with
    | delete hc =>
      have hready : s.phase c = .ready := hknown c _ hc
      exact h.quiet hp rfl hready h.pooled
  | decrement c =>
    obtain ⟨p, hp, rfl⟩ := Option.map_eq_some_iff.mp ht
    cases Pool.step_does hp with
    | decrement hc =>
      have hready : s.phase c = .ready := hknown c _ hc
      exact h.quiet hp rfl hready h.pooled
  | push c =>
    obtain ⟨p, hp, rfl⟩ := Option.map_eq_some_iff.mp ht
    cases Pool.step_does hp with
    | push hc =>
      obtain ⟨hready, hlast⟩ := hknown c _ hc
      refine h.quiet hp rfl hready fun m hm => ?_
      obtain hm | hm := List.mem_append.mp hm
      · exact h.pooled m hm
      · rw [List.mem_singleton.mp hm]
        exact hlast

/-- The client that holds a connection gets the result of its exchange. -/
theorem Inv.finish (h : Inv s) {c : C} {n : Nat} {r : Error} (hc : s.pool.pc c = .holding n)
    (hphase : s.phase c = .ready ∨ s.phase c = .sent) {connected : Nat → Bool}
    (hconn : ∀ m, m ≠ n → connected m = s.connected m) (hr : r = .timeout → connected n = false) :
    Inv (State.finish { s with connected := connected } c n r) := by
  have hmine : n ∈ s.pool.held (.client c) := by
    simp only [Pool.State.held, hc, Pool.Pc.owned, List.mem_singleton]
  have hnext : n < s.pool.next := h.kept.lt hmine
  have hlast : ∀ q, last s.log n = some q → q = .ok := by
    have hk := h.clients c
    rw [hc] at hk
    exact hk.2 hphase
  constructor
  · exact h.kept
  · intro m hm
    have hne : m ≠ n := by
      rintro rfl
      cases h.kept.unique (h := .pool) hm hmine
    exact (last_cons_of_ne hne).trans (h.pooled m hm)
  · intro d
    by_cases hd : d = c
    · subst hd
      change Known ((n, r) :: s.log) connected (Function.update s.phase d (.done r) d) (s.pool.pc d)
      rw [hc, Function.update_self]
      refine ⟨fun q hq => ?_, fun hq => ?_⟩
      · obtain rfl := Phase.done.inj hq
        exact ⟨last_cons_self, hr⟩
      · obtain hq | hq := hq
        · cases hq
        · cases hq
    · change Known ((n, r) :: s.log) connected (Function.update s.phase c (.done r) d) (s.pool.pc d)
      rw [Function.update_of_ne hd]
      refine (h.clients d).congr fun m hm => ?_
      have hne : m ≠ n := by
        rintro rfl
        exact hd (Pool.Holder.client.inj (h.kept.unique (h := .client d) hm hmine))
      exact ⟨last_cons_of_ne hne, hconn m hne⟩
  · exact served_cons h.served hlast
  · intro x hx
    obtain rfl | hx := List.mem_cons.mp hx
    · exact hnext
    · exact h.born x hx

theorem Inv.sendRequest (h : Inv s) {c : C} {n length : Nat} {rs : List Int} (hc : s.pool.pc c = .holding n)
    (hphase : s.phase c = .ready) (ht : sendRequest s c n length rs = some t) : Inv t := by
  obtain ⟨ret, -, rfl⟩ := Option.map_eq_some_iff.mp ht
  split
  · exact h.finish hc (Or.inl hphase) (fun _ _ => rfl) (by simp)
  · split
    · exact h.finish hc (Or.inl hphase) (fun _ _ => rfl) (by simp)
    · refine ⟨h.kept, h.pooled, fun d => ?_, h.served, h.born⟩
      by_cases hd : d = c
      · subst hd
        have hk := h.clients d
        change Known s.log s.connected (Function.update s.phase d .sent d) (s.pool.pc d)
        rw [hc] at hk ⊢
        rw [Function.update_self]
        exact ⟨fun r hr => (nomatch hr), fun _ => hk.2 (Or.inl hphase)⟩
      · change Known s.log s.connected (Function.update s.phase c .sent d) (s.pool.pc d)
        rw [Function.update_of_ne hd]
        exact h.clients d

theorem Inv.recvResponse (h : Inv s) {c : C} {n : Nat} {memory : List UInt8} {source : Source}
    (hc : s.pool.pc c = .holding n) (hphase : s.phase c = .sent)
    (ht : recvResponse M lexicalCast s c n memory source = some t) : Inv t := by
  unfold Exchange.recvResponse at ht
  split at ht
  · cases ht
  · cases ht
  · obtain rfl := Option.some.inj ht
    exact h.finish hc (Or.inr hphase) (fun m hm => Function.update_of_ne hm _ _) fun _ => Function.update_self _ _ _
  · obtain rfl := Option.some.inj ht
    exact h.finish hc (Or.inr hphase) (fun _ _ => rfl) (by simp)

theorem Inv.step (h : Inv s) {a : Action C} (hok : Spent l s a) (ht : step M lexicalCast l s a = some t) : Inv t := by
  cases a with
  | pool a => exact h.poolStep hok ht
  | sendRequest c length rs =>
    simp only [Exchange.step] at ht
    split at ht
    · rename_i n hc hphase
      exact h.sendRequest hc hphase ht
    · cases ht
  | recvResponse c memory source =>
    simp only [Exchange.step] at ht
    split at ht
    · rename_i n hc hphase
      exact h.recvResponse hc hphase ht
    · cases ht

/-- A failed exchange does not come back to the pool, in every run in which `releasePtr` finds the
connections whose request could not be sent too old or used up. -/
theorem clean_of_run (M : ResponseMachine σ) (lexicalCast : List UInt8 → Option UInt64) (l : Pool.Limits) (s : State C)
    (h : Run Init (Exchange.step M lexicalCast l) (Spent l) s) : Clean s :=
  (h.invariant (fun _ => init_inv) fun _ _ _ hi hok ht => hi.step hok ht).clean

end Invariant

section Instances

variable {C : Type} [DecidableEq C]

instance (l : Pool.Limits) (s : State C) : DecidablePred (Spent l s)
  | .pool (.check c _ now) =>
    match h : s.pool.pc c with
    | .checking n =>
      decidable_of_iff ((last s.log n = some .closedByPeer ∨ last s.log n = some .sendSocketError) →
          addU64 (s.pool.heap n).createTime l.maxAliveTime.toNat < now ∨ l.maxRequest.toNat < (s.pool.heap n).request)
        ⟨fun hp m hm => by rw [h] at hm; cases hm; exact hp, fun hp => hp n h⟩
    | .idle | .started _ | .dropping .. | .creating | .created _ | .holding _ | .deleting _ | .deleted | .pushing _ =>
      isTrue fun m hm => by rw [h] at hm; cases hm
  | .pool (.begin ..) | .pool (.pop ..) | .pool (.drop _) | .pool (.subtract _) | .pool (.fail _) | .pool (.create ..)
  | .pool (.increment _) | .pool (.release _) | .pool (.delete _) | .pool (.decrement _) | .pool (.push _)
  | .sendRequest .. | .recvResponse .. => isTrue trivial

end Instances

def noExchange : State (Fin 2) := ⟨Pool.emptyPool, fun _ => false, fun _ => .ready, []⟩

theorem noExchange_init : Init noExchange := ⟨Pool.emptyPool_init, fun _ => rfl, rfl⟩

def unread : ResponseMachine Unit := ⟨(), fun _ _ => none, fun _ => false, by simp⟩

def connect (c : Fin 2) : List (Action (Fin 2)) :=
  [.pool (.begin c 5), .pool (.pop c fun _ => false), .pool (.subtract c), .pool (.create c 6), .pool (.increment c)]

theorem clean_after_timeout :
    ∃ s : State (Fin 2), s.log = [(0, .timeout)] ∧ s.pool.freed = [0] ∧ Clean s := by
  have h : (exec (guarded (Exchange.step unread (fun _ => none) ⟨1, 100, 5⟩) (Spent ⟨1, 100, 5⟩)) noExchange
      (connect 0 ++ [.sendRequest 0 9 [4, 5], .recvResponse 0 (List.replicate 4 0) [[]], .pool (.release 0),
        .pool (.check 0 true 7), .pool (.delete 0), .pool (.decrement 0)])).map
        (fun s => (s.log, s.pool.freed)) = some ([(0, .timeout)], [0]) := by
    decide +kernel
  obtain ⟨s, hs, he⟩ := Option.map_eq_some_iff.mp h
  simp only [Prod.mk.injEq] at he
  exact ⟨s, he.1, he.2, clean_of_run _ _ _ s (Run.exec (.start noExchange_init) _ hs)⟩

/-- The request of the first client could not be sent; its connection goes back to the list and
serves the second client. -/
theorem failed_exchange_reused :
    ∃ s : State (Fin 2), Reachable Init (Exchange.step unread (fun _ => none) ⟨1, 100, 5⟩) s ∧
      s.pool.pc 1 = .holding 0 ∧ s.log = [(0, .closedByPeer)] ∧ ¬ Clean s := by
  have h : (exec (guarded (Exchange.step unread (fun _ => none) ⟨1, 100, 5⟩) (fun _ _ => True)) noExchange
      (connect 0 ++ [.sendRequest 0 9 [4, 0], .pool (.release 0), .pool (.check 0 true 7), .pool (.push 0),
        .pool (.begin 1 8), .pool (.pop 1 fun _ => true), .pool (.subtract 1)])).map
        (fun s => (s.pool.pc 1, s.phase 1, s.log)) = some (.holding 0, .ready, [(0, .closedByPeer)]) := by
    decide +kernel
  obtain ⟨s, hs, he⟩ := Option.map_eq_some_iff.mp h
  simp only [Prod.mk.injEq] at he
  obtain ⟨hpc, hphase, hlog⟩ := he
  refine ⟨s, Run.exec (.start noExchange_init) _ hs, hpc, hlog, fun hclean => ?_⟩
  have hok := hclean.inUse 1 0 hpc (Or.inl hphase) .closedByPeer (by rw [hlog]; rfl)
  cases hok

end Windgent.Http.Exchange
