import Mathlib.Tactic.Common
import Mathlib.Tactic.Ring

namespace Windgent.MachineInt

/-- The value range of `uint64_t` and `size_t`. -/
abbrev modulus : Nat := 2 ^ 64

/-- An `int` assigned to an unsigned 64-bit variable. -/
def toUInt64 (r : Int) : Nat := (r % modulus).toNat

/-- An unsigned 64-bit value returned or stored as an `int`. -/
def toInt (n : Nat) : Int := Int.bmod n (2 ^ 32)

def addU64 (a b : Nat) : Nat := (a + b) % modulus

def subU64 (a b : Nat) : Nat := (a + (modulus - b % modulus)) % modulus

def IsInt (r : Int) : Prop := -2 ^ 31 ≤ r ∧ r < 2 ^ 31

instance (r : Int) : Decidable (IsInt r) := inferInstanceAs (Decidable (_ ∧ _))

theorem toUInt64_of_nonneg {r : Int} (h : IsInt r) (h0 : 0 ≤ r) : toUInt64 r = r.toNat := by
  obtain ⟨_, hr⟩ := h
  unfold toUInt64 modulus
  omega

theorem toUInt64_of_neg {r : Int} (h : IsInt r) (h0 : r < 0) :
    toUInt64 r = modulus - (-r).toNat := by
  obtain ⟨hr, _⟩ := h
  unfold toUInt64 modulus
  omega

theorem toUInt64_eq_zero {r : Int} (h : IsInt r) : toUInt64 r = 0 ↔ r = 0 := by
  obtain ⟨_, _⟩ := h
  unfold toUInt64 modulus
  omega

theorem toInt_eq_mod (n : Nat) :
    toInt n = if n % 2 ^ 32 < 2 ^ 31 then ((n % 2 ^ 32 : Nat) : Int) else ((n % 2 ^ 32 : Nat) : Int) - 2 ^ 32 := by
  unfold toInt
  rw [Int.bmod_def]
  split <;> split <;> omega

theorem toInt_of_lt {n : Nat} (h : n < 2 ^ 31) : toInt n = n := by
  rw [toInt_eq_mod]
  split <;> omega

theorem isInt_toInt (n : Nat) : IsInt (toInt n) := by
  rw [toInt_eq_mod]
  unfold IsInt
  split <;> omega

theorem toInt_le {n : Nat} (h : 0 ≤ toInt n) : (toInt n).toNat ≤ n := by
  rw [toInt_eq_mod] at h ⊢
  split at h <;> split <;> omega

theorem le_of_toInt_neg {n : Nat} (h : toInt n < 0) : 2 ^ 31 ≤ n := by
  rw [toInt_eq_mod] at h
  split at h <;> omega

theorem addU64_of_lt {a b : Nat} (h : a + b < modulus) : addU64 a b = a + b :=
  Nat.mod_eq_of_lt h

theorem subU64_of_le {a b : Nat} (ha : a < modulus) (h : b ≤ a) : subU64 a b = a - b := by
  unfold subU64 modulus at *
  omega

theorem subU64_of_lt {a b : Nat} (hb : b < modulus) (h : a < b) :
    subU64 a b = modulus - (b - a) := by
  unfold subU64 modulus at *
  omega

end Windgent.MachineInt
