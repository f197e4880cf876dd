import Mathlib.Tactic.Common

namespace Windgent.Transition

variable {σ α : Type}

/-- Fold a partial step function over a list of labels. -/
def exec (step : σ → α → Option σ) (s : σ) : List α → Option σ
  | [] => some s
  | a :: as => (step s a).bind (fun t => exec step t as)

/-- The states that a run reaches from an initial state when each of its steps
satisfies `ok` in the state before it. -/
inductive Run (init : σ → Prop) (step : σ → α → Option σ) (ok : σ → α → Prop) : σ → Prop
  | start {s : σ} (h : init s) : Run init step ok s
  | next {s t : σ} {a : α} (h : Run init step ok s) (hok : ok s a) (hs : step s a = some t) :
      Run init step ok t

def Reachable (init : σ → Prop) (step : σ → α → Option σ) : σ → Prop :=
  Run init step (fun _ _ => True)

variable {init : σ → Prop} {step : σ → α → Option σ} {ok : σ → α → Prop}

theorem Run.invariant {I : σ → Prop} (h0 : ∀ s, init s → I s)
    (hstep : ∀ s a t, I s → ok s a → step s a = some t → I t) {s : σ}
    (h : Run init step ok s) : I s := by
  induction h with
  | start h => exact h0 _ h
  | next _ hok hs ih => exact hstep _ _ _ ih hok hs

theorem Reachable.invariant {I : σ → Prop} (h0 : ∀ s, init s → I s)
    (hstep : ∀ s a t, I s → step s a = some t → I t) {s : σ}
    (h : Reachable init step s) : I s :=
  Run.invariant h0 (fun s a t hi _ hs => hstep s a t hi hs) h

theorem Run.mono {ok' : σ → α → Prop} (hok : ∀ s a, ok s a → ok' s a) {s : σ} (h : Run init step ok s) :
    Run init step ok' s := by
  induction h with
  | start h => exact .start h
  | next _ hs ht ih => exact ih.next (hok _ _ hs) ht

/-- The step function cut down to the labels that satisfy `ok`. -/
def guarded (step : σ → α → Option σ) (ok : σ → α → Prop) [∀ s a, Decidable (ok s a)] (s : σ) (a : α) :
    Option σ := if ok s a then step s a else none

theorem Run.exec [∀ s a, Decidable (ok s a)] {s t : σ} (h : Run init step ok s) (as : List α)
    (he : exec (guarded step ok) s as = some t) : Run init step ok t := by
  induction as generalizing s with
  | nil =>
    simp only [Transition.exec, Option.some.injEq] at he
    exact he ▸ h
  | cons a as ih =>
    obtain ⟨u, hu, ht⟩ := Option.bind_eq_some_iff.mp he
    unfold guarded at hu
    split at hu
    · rename_i hok
      exact ih (Run.next h hok hu) ht
    · simp at hu

section Scripts

theorem exec_append (s : σ) (as bs : List α) :
    exec step s (as ++ bs) = (exec step s as).bind fun t => exec step t bs := by
  induction as generalizing s with
  | nil => rfl
  | cons a as ih => cases hs : step s a <;> simp [exec, hs, ih]

def Along (step : σ → α → Option σ) (ok : σ → α → Prop) (s : σ) : List α → Prop
  | [] => True
  | a :: as => ∀ t, step s a = some t → ok s a ∧ Along step ok t as

def Throughout (step : σ → α → Option σ) (P : σ → Prop) (s : σ) : List α → Prop
  | [] => P s
  | a :: as => P s ∧ ∀ t, step s a = some t → Throughout step P t as

variable {I P : σ → Prop}

theorem Throughout.head {s : σ} {as : List α} (h : Throughout step P s as) : P s := by
  cases as with
  | nil => exact h
  | cons a as => exact h.1

/-- A condition that is exact for one step is exact for scripts. -/
theorem throughout_iff_along (hI : ∀ s a t, I s → step s a = some t → I t)
    (hstep : ∀ s a t, I s → P s → step s a = some t → (P t ↔ ok s a)) {s : σ} (hi : I s) (hp : P s)
    (as : List α) : Throughout step P s as ↔ Along step ok s as := by
  induction as generalizing s with
  | nil => exact iff_of_true hp trivial
  | cons a as ih =>
    constructor
    · intro h t hs
      have ht := h.2 t hs
      exact ⟨(hstep s a t hi hp hs).mp ht.head, (ih (hI s a t hi hs) ht.head).mp ht⟩
    · intro h
      refine ⟨hp, fun t hs => ?_⟩
      obtain ⟨hok, hrest⟩ := h t hs
      exact (ih (hI s a t hi hs) ((hstep s a t hi hp hs).mpr hok)).mpr hrest

end Scripts

end Windgent.Transition
