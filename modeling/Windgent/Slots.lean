import Mathlib.Logic.Function.Basic
import Mathlib.Tactic.Common

/-- A vector of pointers that may be null: `slot` is null from `size` on. -/
structure Windgent.Slots (α : Type) where
  size : Nat
  slot : Nat → Option α
  bounded : ∀ i, size ≤ i → slot i = none

namespace Windgent.Slots

variable {α : Type}

def null (n : Nat) : Slots α := ⟨n, fun _ => none, fun _ _ => rfl⟩

def resize (v : Slots α) (n : Nat) : Slots α where
  size := n
  slot i := if i < n then v.slot i else none
  bounded i hi := if_neg (by omega)

/-- Put `f i` into each slot `i` that is null. -/
def fill (v : Slots α) (f : Nat → α) : Slots α where
  size := v.size
  slot i := if i < v.size then some ((v.slot i).getD (f i)) else none
  bounded i hi := if_neg (by omega)

def assign (v : Slots α) (i : Nat) (a : Option α) : Slots α where
  size := v.size
  slot j := if j < v.size then Function.update v.slot i a j else none
  bounded j hj := if_neg (by omega)

theorem lt_of_slot {v : Slots α} {i : Nat} {a : α} (h : v.slot i = some a) : i < v.size := by
  by_contra hi
  rw [v.bounded i (by omega)] at h
  cases h

theorem resize_slot {v : Slots α} {n : Nat} (hn : v.size ≤ n) (i : Nat) : (v.resize n).slot i = v.slot i := by
  by_cases hi : i < n
  · exact if_pos hi
  · rw [v.bounded i (by omega)]
    exact if_neg hi

theorem fill_slot {v : Slots α} (f : Nat → α) {i : Nat} {a : α} (h : v.slot i = some a) :
    (v.fill f).slot i = some a := by
  simp [fill, lt_of_slot h, h]

theorem slot_of_fill {v : Slots α} {f : Nat → α} {i : Nat} {a : α} (h : (v.fill f).slot i = some a) :
    v.slot i = some a ∨ a = f i := by
  simp only [fill] at h
  split at h
  · cases hv : v.slot i with
    | none => exact .inr (by simpa [hv] using h.symm)
    | some b => exact .inl (by simpa [hv] using h)
  · cases h

theorem assign_slot_self {v : Slots α} {i : Nat} (hi : i < v.size) (a : Option α) :
    (v.assign i a).slot i = a := by
  simp [assign, hi]

theorem assign_slot_of_ne (v : Slots α) {i j : Nat} (h : j ≠ i) (a : Option α) :
    (v.assign i a).slot j = v.slot j := by
  by_cases hj : j < v.size
  · simp [assign, hj, h]
  · rw [v.bounded j (by omega)]
    exact if_neg hj

end Windgent.Slots
