import Windgent.ByteArray.Codec

namespace Windgent.ByteArray

/-- The code on exact numbers. -/
def zigzag (x : Int) : Int := if 0 ≤ x then 2 * x else -2 * x - 1

/-- A signed operation of `w` bits with the exact result `x`; none if that leaves the type. -/
def signed (w : Nat) (x : Int) : Option (BitVec w) :=
  if -2 ^ (w - 1) ≤ x ∧ x < 2 ^ (w - 1) then some (BitVec.ofInt w x) else none

/-- The zigzag code without wrapping in the signed type: the negation of a negative number and
the doubling of any other are operations on it. -/
def encodeZigzagChecked {w : Nat} (val : BitVec w) : Option (BitVec w) :=
  if val.slt 0 then (signed w (-val.toInt)).map fun n => n * 2 - 1 else signed w (val.toInt * 2)

def encodeZigzag32Checked (val : Int32) : Option UInt32 := (encodeZigzagChecked val.toBitVec).map UInt32.ofBitVec

def encodeZigzag64Checked (val : Int64) : Option UInt64 := (encodeZigzagChecked val.toBitVec).map UInt64.ofBitVec

section Words

variable {w : Nat}

theorem slt_zero_iff (v : BitVec w) : v.slt 0 = true ↔ v.toInt < 0 := by
  rw [BitVec.ofNat_eq_ofNat, BitVec.slt_zero_iff_msb_cond, ← BitVec.slt_zero_eq_msb, BitVec.slt_eq_decide]
  simp

theorem encodeZigzagChecked_eq (v : BitVec w) :
    encodeZigzagChecked v =
      if -2 ^ (w - 1) < v.toInt ∧ v.toInt * 2 < 2 ^ (w - 1) then some (encodeZigzag v) else none := by
  have hpos : (0 : Int) < 2 ^ (w - 1) := Int.pow_pos (by decide)
  generalize hp : (2 : Int) ^ (w - 1) = p at hpos
  unfold encodeZigzagChecked encodeZigzag signed
  rw [hp]
  by_cases hneg : v.slt 0 = true
  · have hlt := (slt_zero_iff v).mp hneg
    have hiff : (-p ≤ -v.toInt ∧ -v.toInt < p) ↔ (-p < v.toInt ∧ v.toInt * 2 < p) := by omega
    rw [if_pos hneg, if_pos hneg, if_congr hiff rfl rfl, BitVec.ofInt_neg, BitVec.ofInt_toInt]
    split <;> rfl
  · have hge := (slt_zero_iff v).not.mp hneg
    have hiff : (-p ≤ v.toInt * 2 ∧ v.toInt * 2 < p) ↔ (-p < v.toInt ∧ v.toInt * 2 < p) := by omega
    rw [if_neg hneg, if_neg hneg, if_congr hiff rfl rfl, BitVec.ofInt_mul, BitVec.ofInt_toInt]
    rfl

theorem toNat_encodeZigzag (v : BitVec w) : ((encodeZigzag v).toNat : Int) = zigzag v.toInt := by
  have hint := BitVec.toInt_eq_toNat_cond v
  have hlt := v.isLt
  cases hm : v.msb with
  | false =>
    have hsmall := BitVec.msb_eq_false_iff_two_mul_lt.mp hm
    rw [if_pos hsmall] at hint
    rw [encodeZigzag_nonneg hm, zigzag, hint, if_pos (Int.natCast_nonneg _), Int.natCast_mul]
    rfl
  | true =>
    have hlarge := BitVec.msb_eq_true_iff_two_mul_ge.mp hm
    rw [if_neg (by omega)] at hint
    rw [encodeZigzag_neg hm, BitVec.toNat_not, zigzag, hint, if_neg (by omega)]
    omega

theorem encodeZigzag_decodeZigzag (hw : 0 < w) (u : BitVec w) : encodeZigzag (decodeZigzag u) = u := by
  have hlt := u.isLt
  apply BitVec.eq_of_toNat_eq
  obtain ⟨k, hk | hk⟩ := Nat.even_or_odd' u.toNat
  · have hd := decodeZigzag_even hw hk
    rw [encodeZigzag_nonneg (BitVec.msb_eq_false_iff_two_mul_lt.mpr (by omega)), hd, hk]
  · have hd := decodeZigzag_odd hw hk
    rw [encodeZigzag_neg (BitVec.msb_eq_true_iff_two_mul_ge.mpr (by omega)), BitVec.toNat_not, hd, hk]
    omega

/-- No signed operation leaves its type, the code is the exact number, and it leads back to `v`. -/
def Encodes (v : BitVec w) : Prop :=
  ∃ c, encodeZigzagChecked v = some c ∧ (c.toNat : Int) = zigzag v.toInt ∧ decodeZigzag c = v

theorem encodes_iff (hw : 0 < w) (v : BitVec w) :
    Encodes v ↔ -2 ^ (w - 1) < v.toInt ∧ v.toInt * 2 < 2 ^ (w - 1) := by
  unfold Encodes
  rw [encodeZigzagChecked_eq]
  constructor
  · rintro ⟨c, hc, -⟩
    by_contra hout
    rw [if_neg hout] at hc
    cases hc
  · intro h
    exact ⟨encodeZigzag v, if_pos h, toNat_encodeZigzag v, decodeZigzag_encodeZigzag hw v⟩

theorem reencodes_iff (hw : 1 < w) (u : BitVec w) :
    encodeZigzagChecked (decodeZigzag u) = some u ↔
      (u.toNat % 2 = 0 → u.toNat < 2 ^ (w - 1)) ∧ u.toNat ≠ 2 ^ w - 1 := by
  have hback := encodeZigzag_decodeZigzag (by omega) u
  have hlt := u.isLt
  have hpow : 2 * 2 ^ (w - 1) = 2 ^ w := by
    rw [← Nat.pow_succ', Nat.succ_eq_add_one, Nat.sub_add_cancel hw.le]
  have heven : 2 * 2 ^ (w - 2) = 2 ^ (w - 1) := by
    rw [← Nat.pow_succ', Nat.succ_eq_add_one, show w - 2 + 1 = w - 1 by omega]
  have hcast : (2 : Int) ^ (w - 1) = (2 ^ (w - 1) : Nat) := by push_cast; rfl
  have hint := BitVec.toInt_eq_toNat_cond (decodeZigzag u)
  rw [encodeZigzagChecked_eq, hback, hcast]
  generalize hp : 2 ^ (w - 1) = p at hpow heven
  generalize hq : 2 ^ (w - 2) = q at heven
  -- an even code comes from its half, an odd one from a negative number
  have hiff : (-(p : Int) < (decodeZigzag u).toInt ∧ (decodeZigzag u).toInt * 2 < p) ↔
      (u.toNat % 2 = 0 → u.toNat < p) ∧ u.toNat ≠ 2 ^ w - 1 := by
    obtain ⟨k, hk | hk⟩ := Nat.even_or_odd' u.toNat
    · rw [decodeZigzag_even (by omega) hk, if_pos (by omega)] at hint
      omega
    · rw [decodeZigzag_odd (by omega) hk, if_neg (by omega)] at hint
      omega
  rw [← hiff]
  by_cases hin : -(p : Int) < (decodeZigzag u).toInt ∧ (decodeZigzag u).toInt * 2 < p
  · exact iff_of_true (if_pos hin) hin
  · rw [if_neg hin]
    exact iff_of_false nofun hin

end Words

theorem encodeZigzag32Checked_eq_some {v : Int32} {c : UInt32} :
    encodeZigzag32Checked v = some c ↔ encodeZigzagChecked v.toBitVec = some c.toBitVec := by
  rw [encodeZigzag32Checked, Option.map_eq_some_iff]
  constructor
  · rintro ⟨b, hb, rfl⟩
    exact hb
  · intro h
    exact ⟨c.toBitVec, h, rfl⟩

theorem encodeZigzag64Checked_eq_some {v : Int64} {c : UInt64} :
    encodeZigzag64Checked v = some c ↔ encodeZigzagChecked v.toBitVec = some c.toBitVec := by
  rw [encodeZigzag64Checked, Option.map_eq_some_iff]
  constructor
  · rintro ⟨b, hb, rfl⟩
    exact hb
  · intro h
    exact ⟨c.toBitVec, h, rfl⟩

theorem encodes32_iff (v : Int32) :
    (∃ c, encodeZigzag32Checked v = some c ∧ (c.toNat : Int) = zigzag v.toInt ∧ decodeZigzag32 c = v) ↔
      Encodes v.toBitVec := by
  constructor
  · rintro ⟨c, hc, hnum, hback⟩
    exact ⟨c.toBitVec, encodeZigzag32Checked_eq_some.mp hc, hnum, congrArg Int32.toBitVec hback⟩
  · rintro ⟨c, hc, hnum, hback⟩
    exact ⟨⟨c⟩, encodeZigzag32Checked_eq_some.mpr hc, hnum, Int32.toBitVec_inj.mp hback⟩

theorem encodes64_iff (v : Int64) :
    (∃ c, encodeZigzag64Checked v = some c ∧ (c.toNat : Int) = zigzag v.toInt ∧ decodeZigzag64 c = v) ↔
      Encodes v.toBitVec := by
  constructor
  · rintro ⟨c, hc, hnum, hback⟩
    exact ⟨c.toBitVec, encodeZigzag64Checked_eq_some.mp hc, hnum, congrArg Int64.toBitVec hback⟩
  · rintro ⟨c, hc, hnum, hback⟩
    exact ⟨⟨c⟩, encodeZigzag64Checked_eq_some.mpr hc, hnum, Int64.toBitVec_inj.mp hback⟩

theorem zigzag_exact (v : Int32) (u : UInt32) (x : Int64) (y : UInt64) :
    ((∃ c, encodeZigzag32Checked v = some c ∧ (c.toNat : Int) = zigzag v.toInt ∧ decodeZigzag32 c = v) ↔
        -2 ^ 31 < v.toInt ∧ v.toInt < 2 ^ 30) ∧
      (encodeZigzag32Checked (decodeZigzag32 u) = some u ↔
        (u.toNat % 2 = 0 → u.toNat < 2 ^ 31) ∧ u.toNat ≠ 2 ^ 32 - 1) ∧
      ((∃ c, encodeZigzag64Checked x = some c ∧ (c.toNat : Int) = zigzag x.toInt ∧ decodeZigzag64 c = x) ↔
        -2 ^ 63 < x.toInt ∧ x.toInt < 2 ^ 62) ∧
      (encodeZigzag64Checked (decodeZigzag64 y) = some y ↔
        (y.toNat % 2 = 0 → y.toNat < 2 ^ 63) ∧ y.toNat ≠ 2 ^ 64 - 1) := by
  refine ⟨?_, ?_, ?_, ?_⟩
  · rw [encodes32_iff, encodes_iff (by decide), ← Int32.toInt]
    omega
  · rw [encodeZigzag32Checked_eq_some]
    exact reencodes_iff (by decide) u.toBitVec
  · rw [encodes64_iff, encodes_iff (by decide), ← Int64.toInt]
    omega
  · rw [encodeZigzag64Checked_eq_some]
    exact reencodes_iff (by decide) y.toBitVec

/-- Each extreme leaves the type in one of the two operations. -/
theorem zigzag_overflows :
    encodeZigzag32Checked 1073741824 = none ∧ encodeZigzag32Checked Int32.minValue = none ∧
      encodeZigzag64Checked 4611686018427387904 = none ∧ encodeZigzag64Checked Int64.minValue = none := by
  decide

end Windgent.ByteArray
