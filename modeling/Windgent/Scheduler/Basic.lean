import Mathlib.Tactic.Common

namespace Windgent.Scheduler

inductive FiberState where
  | init
  | hold
  | exec
  | term
  | ready
  | except
deriving DecidableEq

inductive Task where
  | fiber (id : Nat)
  | cb (id : Nat)
deriving DecidableEq

variable {W : Type} [DecidableEq W]

/-- An entry of `m_fibers`; no thread is the thread id -1. The serial number is a
history variable that tells entries apart. -/
structure FiberAndThread (W : Type) where
  task : Task
  threadId : Option W
  serial : Nat
deriving DecidableEq

/-- Whether the scan of the worker `self` passes over an entry: it is pinned to
another thread, or its fiber is in state `EXEC`. -/
def skips (self : W) (state : Nat → FiberState) (ft : FiberAndThread W) : Bool :=
  (ft.threadId ≠ none ∧ ft.threadId ≠ some self) ||
    match ft.task with
    | .fiber f => decide (state f = .exec)
    | .cb _ => false

/-- The scan at the head of `run`: the first entry that is not skipped, and the
queue without it. -/
def scan (self : W) (state : Nat → FiberState) :
    List (FiberAndThread W) → Option (FiberAndThread W × List (FiberAndThread W))
  | [] => none
  | ft :: q =>
    if skips self state ft then (scan self state q).map (fun p => (p.1, ft :: p.2))
    else some (ft, q)

theorem scan_some {self : W} {state : Nat → FiberState} {q r : List (FiberAndThread W)}
    {ft : FiberAndThread W} (h : scan self state q = some (ft, r)) :
    ∃ front back, q = front ++ ft :: back ∧ r = front ++ back ∧ skips self state ft = false := by
  induction q generalizing r with
  | nil => simp [scan] at h
  | cons x q ih =>
    simp only [scan] at h
    split at h
    · obtain ⟨⟨y, r'⟩, hr, he⟩ := Option.map_eq_some_iff.mp h
      obtain ⟨rfl, rfl⟩ := Prod.mk.inj he
      obtain ⟨front, back, rfl, rfl, hs⟩ := ih hr
      exact ⟨x :: front, back, rfl, rfl, hs⟩
    · rename_i hs
      obtain ⟨rfl, rfl⟩ := Prod.mk.inj (Option.some.inj h)
      exact ⟨[], q, rfl, rfl, by simpa using hs⟩

theorem mem_of_scan {self : W} {state : Nat → FiberState} {q r : List (FiberAndThread W)}
    {ft x : FiberAndThread W} (h : scan self state q = some (ft, r)) (hx : x ∈ r) : x ∈ q := by
  obtain ⟨front, back, rfl, rfl, -⟩ := scan_some h
  exact List.mem_append.mpr ((List.mem_append.mp hx).imp id (List.mem_cons_of_mem _))

theorem scan_mem {self : W} {state : Nat → FiberState} {q r : List (FiberAndThread W)}
    {ft : FiberAndThread W} (h : scan self state q = some (ft, r)) : ft ∈ q := by
  obtain ⟨front, back, rfl, -⟩ := scan_some h
  simp

theorem scan_none {self : W} {state : Nat → FiberState} {q : List (FiberAndThread W)}
    (h : scan self state q = none) : ∀ ft ∈ q, skips self state ft = true := by
  induction q with
  | nil => simp
  | cons x q ih =>
    simp only [scan] at h
    split at h
    · rename_i hs
      intro ft hft
      rcases List.mem_cons.mp hft with rfl | hft
      · exact hs
      · exact ih (by simpa using h) ft hft
    · simp at h

end Windgent.Scheduler
