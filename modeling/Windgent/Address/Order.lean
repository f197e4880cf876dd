import Windgent.Address.Basic

namespace Windgent

open Wire

/-- The difference of the first two bytes that differ within the first `n`. -/
def memcmp : List UInt8 → List UInt8 → Nat → Int
  | x :: xs, y :: ys, n + 1 => if x = y then memcmp xs ys n else (x.toNat : Int) - y.toNat
  | _, _, _ => 0

theorem memcmp_cons_self (x : UInt8) (xs ys : List UInt8) (n : Nat) :
    memcmp (x :: xs) (x :: ys) (n + 1) = memcmp xs ys n := by
  rw [memcmp, if_pos rfl]

theorem memcmp_cons_of_ne {x y : UInt8} (h : x ≠ y) (xs ys : List UInt8) (n : Nat) :
    memcmp (x :: xs) (y :: ys) (n + 1) = (x.toNat : Int) - y.toNat := by
  rw [memcmp, if_neg h]

theorem memcmp_take (xs ys : List UInt8) {i j n : Nat} (hi : n ≤ i) (hj : n ≤ j) :
    memcmp (xs.take i) (ys.take j) n = memcmp xs ys n := by
  induction xs, ys, n using memcmp.induct generalizing i j with
  | case1 x xs ys n ih =>
    obtain ⟨i, rfl⟩ := Nat.exists_eq_add_one_of_ne_zero (show i ≠ 0 by omega)
    obtain ⟨j, rfl⟩ := Nat.exists_eq_add_one_of_ne_zero (show j ≠ 0 by omega)
    rw [List.take_succ_cons, List.take_succ_cons, memcmp_cons_self, memcmp_cons_self, ih (by omega) (by omega)]
  | case2 x xs y ys n hne =>
    obtain ⟨i, rfl⟩ := Nat.exists_eq_add_one_of_ne_zero (show i ≠ 0 by omega)
    obtain ⟨j, rfl⟩ := Nat.exists_eq_add_one_of_ne_zero (show j ≠ 0 by omega)
    rw [List.take_succ_cons, List.take_succ_cons, memcmp_cons_of_ne hne, memcmp_cons_of_ne hne]
  | case3 xs ys n h =>
    cases n with
    | zero => cases xs.take i <;> cases ys.take j <;> cases xs <;> cases ys <;> rfl
    | succ n =>
      cases xs with
      | nil => cases ys <;> simp [memcmp]
      | cons x xs =>
        cases ys with
        | nil => simp [memcmp]
        | cons y ys => exact absurd rfl (h x xs y ys n rfl rfl)

/-- The first difference decides, and without one the shorter list comes first. -/
theorem memcmp_le_iff (xs ys : List UInt8) :
    (memcmp xs ys (min xs.length ys.length) < 0 ∨
      memcmp xs ys (min xs.length ys.length) = 0 ∧ min xs.length ys.length = xs.length) ↔ xs ≤ ys := by
  induction xs generalizing ys with
  | nil => simp [memcmp]
  | cons x xs ih =>
    cases ys with
    | nil => simp [memcmp]
    | cons y ys =>
      rw [List.length_cons, List.length_cons, Nat.add_min_add_right, List.cons_le_cons_iff]
      by_cases hxy : x = y
      · subst hxy
        simp only [memcmp_cons_self, Nat.add_right_cancel_iff, ih, UInt8.lt_irrefl, true_and, false_or]
      · have hne : x.toNat ≠ y.toNat := fun h => hxy (UInt8.toNat_inj.mp h)
        simp only [memcmp_cons_of_ne hxy, hxy, false_and, or_false, UInt8.lt_iff_toNat_lt]
        omega

theorem memcmp_eq_zero_iff {xs ys : List UInt8} (h : xs.length = ys.length) :
    memcmp xs ys xs.length = 0 ↔ xs = ys := by
  induction xs generalizing ys with
  | nil => simp [memcmp, List.eq_nil_of_length_eq_zero h.symm]
  | cons x xs ih =>
    cases ys with
    | nil => cases h
    | cons y ys =>
      rw [List.length_cons]
      by_cases hxy : x = y
      · subst hxy
        rw [memcmp_cons_self, ih (Nat.succ.inj h), List.cons.injEq, eq_self, true_and]
      · have hne : x.toNat ≠ y.toNat := fun h => hxy (UInt8.toNat_inj.mp h)
        simp only [memcmp_cons_of_ne hxy, List.cons.injEq, hxy, false_and, iff_false]
        omega

namespace Address

variable (host : Endian)

/-- The memory that `getAddr` points at. -/
def getAddr : Address → List UInt8
  | ipv4 a => store host 2 a.sinFamily.toNat ++ store host 2 a.sinPort.toNat ++ store host 4 a.sAddr.toNat ++
      a.sinZero.toList
  | ipv6 a => store host 2 a.sin6Family.toNat ++ store host 2 a.sin6Port.toNat ++
      store host 4 a.sin6Flowinfo.toNat ++ a.s6Addr.toList ++ store host 4 a.sin6ScopeId.toNat
  | unix a => a.memory
  | unknown a => store host 2 a.saFamily.toNat ++ a.saData.toList

def getAddrLen : Address → Nat
  | ipv4 _ => 16
  | ipv6 _ => 28
  | unix a => a.len
  | unknown _ => 16

def operatorLt (a b : Address) : Bool :=
  let minLen := min a.getAddrLen b.getAddrLen
  let res := memcmp (a.getAddr host) (b.getAddr host) minLen
  if res < 0 then true
  else if res > 0 then false
  else minLen = a.getAddrLen

def operatorEq (a b : Address) : Bool :=
  a.getAddrLen = b.getAddrLen ∧ memcmp (a.getAddr host) (b.getAddr host) a.getAddrLen = 0

def bytes (a : Address) : List UInt8 := (a.getAddr host).take a.getAddrLen

variable {host} {a b c : Address}

theorem getAddrLen_le (a : Address) : a.getAddrLen ≤ (a.getAddr host).length := by
  cases a with
  | ipv4 a => simp [getAddrLen, getAddr, length_store]
  | ipv6 a => simp [getAddrLen, getAddr, length_store]
  | unix a => exact a.readable
  | unknown a => simp [getAddrLen, getAddr, length_store]

theorem length_bytes (a : Address) : (a.bytes host).length = a.getAddrLen := by
  rw [bytes, List.length_take, Nat.min_eq_left a.getAddrLen_le]

theorem operatorLt_iff : a.operatorLt host b ↔ a.bytes host ≤ b.bytes host := by
  rw [← memcmp_le_iff, length_bytes, length_bytes, bytes, bytes,
    memcmp_take _ _ (Nat.min_le_left ..) (Nat.min_le_right ..), operatorLt]
  split
  · simp [*]
  · split
    · simp only [Bool.false_eq_true, false_iff]
      omega
    · simp only [decide_eq_true_eq]
      omega

theorem operatorEq_iff : a.operatorEq host b ↔ a.bytes host = b.bytes host := by
  rw [operatorEq, decide_eq_true_eq]
  constructor
  · rintro ⟨hlen, hcmp⟩
    rw [← memcmp_eq_zero_iff (by rw [length_bytes, length_bytes, hlen]), length_bytes, bytes, bytes,
      memcmp_take _ _ le_rfl (by omega), hcmp]
  · intro h
    have hlen : a.getAddrLen = b.getAddrLen := by simpa only [length_bytes] using congrArg List.length h
    have hcmp := (memcmp_eq_zero_iff (congrArg List.length h)).mpr h
    rw [length_bytes, bytes, bytes, memcmp_take _ _ le_rfl (by omega)] at hcmp
    exact ⟨hlen, hcmp⟩

def ExactlyOne (p q r : Prop) : Prop := (p ∧ ¬q ∧ ¬r) ∨ (¬p ∧ q ∧ ¬r) ∨ (¬p ∧ ¬q ∧ r)

/-- What a strict total order promises of three addresses. -/
structure Ordered (host : Endian) (a b c : Address) : Prop where
  one : ExactlyOne (a.operatorLt host b) (a.operatorEq host b) (b.operatorLt host a)
  trans : a.operatorLt host b → b.operatorLt host c → a.operatorLt host c

theorem operatorLt_trans (hab : a.operatorLt host b) (hbc : b.operatorLt host c) : a.operatorLt host c := by
  rw [operatorLt_iff] at hab hbc ⊢
  exact List.le_trans hab hbc

/-- An address comes before itself, and that is the only exception. -/
theorem ordered_iff (host : Endian) (a b c : Address) : Ordered host a b c ↔ a.bytes host ≠ b.bytes host := by
  constructor
  · rintro ⟨hone, -⟩ heq
    have hlt : a.operatorLt host b := operatorLt_iff.mpr (heq ▸ List.le_refl _)
    have hgt : b.operatorLt host a := operatorLt_iff.mpr (heq ▸ List.le_refl _)
    obtain ⟨-, -, h⟩ | ⟨h, -, -⟩ | ⟨h, -, -⟩ := hone
    · exact h hgt
    · exact h hlt
    · exact h hlt
  · intro hne
    refine ⟨?_, operatorLt_trans⟩
    simp only [ExactlyOne, operatorLt_iff, operatorEq_iff]
    obtain hle | hle := List.le_total (a.bytes host) (b.bytes host)
    · exact .inl ⟨hle, hne, fun hge => hne (List.le_antisymm hle hge)⟩
    · exact .inr (.inr ⟨fun hge => hne (List.le_antisymm hge hle), hne, hle⟩)

/-- 0.0.0.0 comes before itself. -/
theorem any_before_itself : let a : Address := ipv4 ⟨afInet, 0, 0, Vector.replicate 8 0⟩
    a.operatorLt .little a = true ∧ a.operatorEq .little a = true ∧ ¬∀ b c, Ordered .little a b c := by
  refine ⟨by decide, by decide, fun h => ?_⟩
  obtain ⟨-, -, h⟩ | ⟨h, -, -⟩ | ⟨h, -, -⟩ :=
    (h (ipv4 ⟨afInet, 0, 0, Vector.replicate 8 0⟩) (unknown ⟨0, Vector.replicate 14 0⟩)).one
  all_goals exact absurd (by decide) h

end Address

end Windgent
