import Mathlib.Data.List.Basic
import Mathlib.Tactic.Common

namespace Windgent.TcpServer

variable {Addr Sock : Type}

structure Attempt (Addr Sock : Type) where
  addr : Addr
  sock : Sock
  bind : Bool
  listen : Bool
deriving DecidableEq

def Attempt.succeeds (a : Attempt Addr Sock) : Bool := a.bind && a.listen

/-- `m_socks` and the vector that the caller passes for `fails`. -/
structure State (Addr Sock : Type) where
  socks : List Sock
  fails : List Addr
deriving DecidableEq

def bindLoop : List (Attempt Addr Sock) → List Sock → List Addr → List Sock × List Addr
  | [], socks, fails => (socks, fails)
  | a :: as, socks, fails =>
    if a.bind = false then bindLoop as socks (fails ++ [a.addr])
    else if a.listen = false then bindLoop as socks (fails ++ [a.addr])
    else bindLoop as (socks ++ [a.sock]) fails

/-- `bind(addrs, fails)`, whose `fails` is a copy. -/
def bind (s : State Addr Sock) (addrs : List (Attempt Addr Sock)) : Bool × State Addr Sock :=
  match bindLoop addrs s.socks s.fails with
  | (socks, []) => (true, { s with socks := socks })
  | (_, _ :: _) => (false, { s with socks := [] })

def bindAddr (socks : List Sock) (addr : Attempt Addr Sock) : Bool × List Sock :=
  let r := bind ⟨socks, []⟩ [addr]
  (r.1, r.2.socks)

/-- `while(!bind(addrs, fails))`, with what happens in each round. -/
def retry (s : State Addr Sock) : List (List (Attempt Addr Sock)) → Option (State Addr Sock)
  | [] => none
  | addrs :: rounds =>
    match bind s addrs with
    | (true, t) => some t
    | (false, t) => retry t rounds

def succeeding (addrs : List (Attempt Addr Sock)) : List Sock := (addrs.filter Attempt.succeeds).map Attempt.sock

def failing (addrs : List (Attempt Addr Sock)) : List Addr := (addrs.filter fun a => !a.succeeds).map Attempt.addr

theorem bindLoop_eq (addrs : List (Attempt Addr Sock)) (socks : List Sock) (fails : List Addr) :
    bindLoop addrs socks fails = (socks ++ succeeding addrs, fails ++ failing addrs) := by
  induction addrs generalizing socks fails with
  | nil => simp [bindLoop, succeeding, failing]
  | cons a as ih =>
    have hs : succeeding (a :: as) = (if a.succeeds then [a.sock] else []) ++ succeeding as := by
      unfold succeeding
      split <;> simp [*]
    have hf : failing (a :: as) = (if a.succeeds then [] else [a.addr]) ++ failing as := by
      unfold failing
      split <;> simp [*]
    cases hb : a.bind <;> cases hl : a.listen <;> simp [bindLoop, ih, hs, hf, Attempt.succeeds, hb, hl]

theorem failing_eq_nil_iff {addrs : List (Attempt Addr Sock)} :
    failing addrs = [] ↔ ∀ a ∈ addrs, a.succeeds = true := by
  simp [failing, List.filter_eq_nil_iff]

theorem succeeding_eq {addrs : List (Attempt Addr Sock)} (h : ∀ a ∈ addrs, a.succeeds = true) :
    succeeding addrs = addrs.map Attempt.sock := by
  rw [succeeding, List.filter_eq_self.mpr h]

theorem bind_eq (s : State Addr Sock) (addrs : List (Attempt Addr Sock)) :
    bind s addrs =
      if s.fails ++ failing addrs = [] then (true, { s with socks := s.socks ++ succeeding addrs })
      else (false, { s with socks := [] }) := by
  unfold bind
  rw [bindLoop_eq]
  cases s.fails ++ failing addrs <;> rfl

/-- What is expected of one call. -/
structure AllOrNothing (s : State Addr Sock) (addrs : List (Attempt Addr Sock)) : Prop where
  result : (bind s addrs).1 = true ↔ ∀ a ∈ addrs, a.succeeds = true
  success : (bind s addrs).1 = true → (bind s addrs).2.socks = s.socks ++ addrs.map Attempt.sock
  failure : (bind s addrs).1 = false →
    (bind s addrs).2.socks = s.socks ∧ (bind s addrs).2.fails = s.fails ++ failing addrs

theorem allOrNothing_iff (s : State Addr Sock) (addrs : List (Attempt Addr Sock)) :
    AllOrNothing s addrs ↔ (∀ a ∈ addrs, a.succeeds = true) ∧ s.fails = [] := by
  have heq := bind_eq s addrs
  constructor
  · intro h
    by_cases hnil : s.fails ++ failing addrs = []
    · obtain ⟨hf, hg⟩ := List.append_eq_nil_iff.mp hnil
      exact ⟨failing_eq_nil_iff.mp hg, hf⟩
    · rw [if_neg hnil] at heq
      have hfails := (h.failure (congrArg Prod.fst heq)).2
      rw [heq] at hfails
      -- the caller's vector stays, so no address may have failed, and then the result is wrong
      have hg : failing addrs = [] := List.self_eq_append_right.mp hfails
      have htrue := h.result.mpr (failing_eq_nil_iff.mp hg)
      rw [heq] at htrue
      cases htrue
  · rintro ⟨hall, hf⟩
    rw [hf, failing_eq_nil_iff.mpr hall, List.append_nil, if_pos rfl, succeeding_eq hall] at heq
    refine ⟨iff_of_true (congrArg Prod.fst heq) hall, fun _ => by rw [heq], fun hfalse => ?_⟩
    rw [heq] at hfalse
    cases hfalse

/-- The second address is in use: the caller does not learn which one failed, and the socket of
an earlier call is gone. -/
theorem not_allOrNothing :
    bind (⟨[7], []⟩ : State Nat Nat) [⟨0, 8, true, true⟩, ⟨1, 9, false, false⟩] = (false, ⟨[], []⟩) ∧
      ¬ AllOrNothing (⟨[7], []⟩ : State Nat Nat) [⟨0, 8, true, true⟩, ⟨1, 9, false, false⟩] := by
  refine ⟨by decide, fun h => ?_⟩
  have hfail := h.failure (by decide)
  exact absurd hfail.2 (by decide)

theorem bindAddr_eq (socks : List Sock) (addr : Attempt Addr Sock) :
    bindAddr socks addr = if addr.succeeds then (true, socks ++ [addr.sock]) else (false, []) := by
  unfold bindAddr
  rw [bind_eq]
  cases h : addr.succeeds <;> simp [succeeding, failing, h]

theorem retry_cons (socks : List Sock) (addrs : List (Attempt Addr Sock)) (rounds : List (List (Attempt Addr Sock))) :
    retry ⟨socks, []⟩ (addrs :: rounds) =
      if failing addrs = [] then some ⟨socks ++ succeeding addrs, []⟩ else retry ⟨[], []⟩ rounds := by
  rw [retry, bind_eq, List.nil_append]
  by_cases h : failing addrs = []
  · rw [if_pos h, if_pos h]
  · rw [if_neg h, if_neg h]

theorem retry_nil_eq (rounds : List (List (Attempt Addr Sock))) :
    retry (⟨[], []⟩ : State Addr Sock) rounds =
      (rounds.find? fun addrs => (failing addrs).isEmpty).map fun addrs => ⟨succeeding addrs, []⟩ := by
  induction rounds with
  | nil => rfl
  | cons addrs rounds ih =>
    rw [retry_cons, ih, List.nil_append]
    cases h : failing addrs <;> simp [h]

/-- With nothing in its vector the loop ends in the first round without a failure. The sockets
of an earlier call survive it only if that is the first round of all. -/
theorem retry_eq (socks : List Sock) (addrs : List (Attempt Addr Sock)) (rounds : List (List (Attempt Addr Sock))) :
    retry ⟨socks, []⟩ (addrs :: rounds) =
      if failing addrs = [] then some ⟨socks ++ succeeding addrs, []⟩
      else (rounds.find? fun addrs => (failing addrs).isEmpty).map fun addrs => ⟨succeeding addrs, []⟩ := by
  rw [retry_cons, retry_nil_eq]

end Windgent.TcpServer
