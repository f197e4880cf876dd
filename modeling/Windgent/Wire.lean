import Mathlib.Tactic.Common
import Mathlib.Tactic.Ring
import Mathlib.Data.Nat.Bitwise

namespace Windgent.Wire

def digits : Nat → Nat → List UInt8
  | 0, _ => []
  | n + 1, v => UInt8.ofNat v :: digits n (v / 256)

def value : List UInt8 → Nat
  | [] => 0
  | b :: bs => b.toNat + 256 * value bs

theorem length_digits (n v : Nat) : (digits n v).length = n := by
  induction n generalizing v with
  | zero => rfl
  | succ n ih => simp [digits, ih]

theorem value_digits (n v : Nat) : value (digits n v) = v % 256 ^ n := by
  induction n generalizing v with
  | zero => simp [digits, value, Nat.mod_one]
  | succ n ih =>
    have hb : (UInt8.ofNat v).toNat = v % 256 := by simp
    rw [digits, value, ih, hb, Nat.pow_succ', Nat.mod_mul]

theorem value_lt (bs : List UInt8) : value bs < 256 ^ bs.length := by
  induction bs with
  | nil => simp [value]
  | cons b bs ih =>
    have hb := b.toNat_lt
    simp only [value, List.length_cons, Nat.pow_succ']
    omega

theorem digits_value (bs : List UInt8) : digits bs.length (value bs) = bs := by
  induction bs with
  | nil => rfl
  | cons b bs ih =>
    have hb := b.toNat_lt
    have hdiv : (b.toNat + 256 * value bs) / 256 = value bs := by omega
    have hmod : UInt8.ofNat (b.toNat + 256 * value bs) = b := by
      apply UInt8.toNat_inj.mp
      simp only [UInt8.toNat_ofNat']
      omega
    simp only [value, List.length_cons, digits, hdiv, hmod, ih]

/-- The order of the bytes of a number in memory. -/
inductive Endian where
  | little
  | big
deriving DecidableEq

def store (o : Endian) (n v : Nat) : List UInt8 :=
  match o with
  | .little => digits n v
  | .big => (digits n v).reverse

def load (o : Endian) (bs : List UInt8) : Nat :=
  match o with
  | .little => value bs
  | .big => value bs.reverse

/-- A number of `n` bytes with its bytes in the opposite order. -/
def byteswap (n v : Nat) : Nat := value (digits n v).reverse

theorem length_store (o : Endian) (n v : Nat) : (store o n v).length = n := by
  cases o <;> simp [store, length_digits]

theorem load_store (o : Endian) (n v : Nat) : load o (store o n v) = v % 256 ^ n := by
  cases o <;> simp [load, store, value_digits]

theorem digits_byteswap (n v : Nat) : digits n (byteswap n v) = (digits n v).reverse := by
  have h := digits_value (digits n v).reverse
  rwa [List.length_reverse, length_digits] at h

theorem byteswap_value {n : Nat} {bs : List UInt8} (h : bs.length = n) :
    byteswap n (value bs) = value bs.reverse := by
  subst h
  rw [byteswap, digits_value]

theorem testBit_value (bs : List UInt8) {i j : Nat} (hi : i < bs.length) (hj : j < 8) :
    (value bs).testBit (8 * i + j) = bs[i].toNat.testBit j := by
  induction bs generalizing i with
  | nil => simp at hi
  | cons b bs ih =>
    have hvalue : value (b :: bs) = 2 ^ 8 * value bs + b.toNat := by
      rw [value]
      omega
    rw [hvalue, Nat.testBit_two_pow_mul_add _ b.toNat_lt]
    cases i with
    | zero =>
      rw [if_pos (by omega), Nat.mul_zero, Nat.zero_add]
      rfl
    | succ i =>
      rw [if_neg (by omega), show 8 * (i + 1) + j - 8 = 8 * i + j by omega, ih (by simpa using hi)]
      rfl

theorem testBit_byteswap {n k : Nat} (v : Nat) (hk : k < 8 * n) :
    (byteswap n v).testBit k = v.testBit (8 * (n - 1 - k / 8) + k % 8) := by
  have hlen := length_digits n v
  have hbits : 8 * (n - 1 - k / 8) + k % 8 < 8 * n := by omega
  have hv : (value (digits n v)).testBit (8 * (n - 1 - k / 8) + k % 8) =
      v.testBit (8 * (n - 1 - k / 8) + k % 8) := by
    rw [value_digits, show 256 ^ n = 2 ^ (8 * n) by rw [Nat.pow_mul], Nat.testBit_mod_two_pow, decide_eq_true hbits,
      Bool.true_and]
  have hk' : k = 8 * (k / 8) + k % 8 := (Nat.div_add_mod k 8).symm
  rw [← hv, testBit_value _ (by omega) (Nat.mod_lt _ (by decide))]
  conv_lhs => rw [hk']
  rw [byteswap, testBit_value _ (by rw [List.length_reverse]; omega) (Nat.mod_lt _ (by decide)), List.getElem_reverse]
  simp only [hlen]

theorem store_swapped (e host : Endian) (n v : Nat) :
    store host n (if e ≠ host then byteswap n v else v) = store e n v := by
  cases e <;> cases host <;> simp [store, digits_byteswap]

theorem load_swapped (e host : Endian) {n : Nat} {bs : List UInt8} (h : bs.length = n) :
    (if e = host then load host bs else byteswap n (load host bs)) = load e bs := by
  have hr : bs.reverse.length = n := by simpa using h
  cases e <;> cases host <;> simp [load, byteswap_value h, byteswap_value hr]

/-- Base 128 digits, the least significant one first, with the high bit set on
all but the last. -/
def varint (v : Nat) : List UInt8 :=
  if v < 0x80 then [UInt8.ofNat v]
  else UInt8.ofNat (v &&& 0x7F ||| 0x80) :: varint (v >>> 7)
termination_by v
decreasing_by
  rw [Nat.shiftRight_eq_div_pow]
  omega

theorem varint_ne_nil (v : Nat) : varint v ≠ [] := by
  rw [varint]
  split <;> simp

theorem and_mask (v : Nat) : v &&& 0x7F = v % 2 ^ 7 := Nat.and_two_pow_sub_one_eq_mod v 7

theorem toNat_continued (v : Nat) : (UInt8.ofNat (v &&& 0x7F ||| 0x80)).toNat = 0x80 + v % 2 ^ 7 := by
  have hlt : v % 2 ^ 7 < 2 ^ 7 := Nat.mod_lt _ (by decide)
  have hor : v % 2 ^ 7 ||| 0x80 = 0x80 + v % 2 ^ 7 := by
    rw [Nat.lor_comm]
    exact (Nat.two_pow_add_eq_or_of_lt hlt 1).symm
  rw [and_mask, hor, UInt8.toNat_ofNat']
  omega

theorem payload_continued (v : Nat) :
    (UInt8.ofNat (v &&& 0x7F ||| 0x80)).toNat &&& 0x7F = v % 2 ^ 7 := by
  rw [toNat_continued, and_mask]
  omega

theorem or_shift {r d i w : Nat} (hr : r < 2 ^ i) (hd : r + d * 2 ^ i < 2 ^ w) :
    r ||| (d <<< i) % 2 ^ w = r + d * 2 ^ i := by
  have hs : d <<< i = d * 2 ^ i := Nat.shiftLeft_eq d i
  have hlt : d * 2 ^ i < 2 ^ w := by omega
  rw [hs, Nat.mod_eq_of_lt hlt, Nat.lor_comm, Nat.mul_comm, ← Nat.two_pow_add_eq_or_of_lt hr,
    Nat.add_comm]

section Varint

def payload : List UInt8 → Nat
  | [] => 0
  | c :: u => (c.toNat &&& 0x7F) + payload u * 2 ^ 7

/-- The high bit is set on all but the last byte, and not on that. -/
def Terminated : List UInt8 → Prop
  | [] => False
  | [c] => c.toNat < 0x80
  | c :: d :: u => 0x80 ≤ c.toNat ∧ Terminated (d :: u)

theorem payload_lt (u : List UInt8) : payload u < 2 ^ (7 * u.length) := by
  induction u with
  | nil => exact Nat.one_pos
  | cons c u ih =>
    have hdigit : c.toNat % 2 ^ 7 < 2 ^ 7 := Nat.mod_lt _ (by decide)
    rw [payload, and_mask, List.length_cons, Nat.mul_add, Nat.pow_add]
    omega

theorem terminated_varint (v : Nat) : Terminated (varint v) := by
  induction v using varint.induct with
  | case1 v h =>
    rw [varint, if_pos h, Terminated, UInt8.toNat_ofNat']
    omega
  | case2 v h ih =>
    rw [varint, if_neg h]
    obtain ⟨d, u, hu⟩ := List.exists_cons_of_ne_nil (varint_ne_nil (v >>> 7))
    rw [hu] at ih ⊢
    exact ⟨by rw [toNat_continued]; omega, ih⟩

theorem payload_varint (v : Nat) : payload (varint v) = v := by
  induction v using varint.induct with
  | case1 v h =>
    rw [varint, if_pos h, payload, payload, and_mask, UInt8.toNat_ofNat']
    omega
  | case2 v h ih =>
    rw [varint, if_neg h, payload, payload_continued, ih, Nat.shiftRight_eq_div_pow]
    omega

theorem payload_lt_of_getLast? {u : List UInt8} (h : u.getLast? = some 0) : payload u < 2 ^ (7 * (u.length - 1)) := by
  induction u with
  | nil => cases h
  | cons c u ih =>
    cases u with
    | nil =>
      obtain rfl := Option.some.inj h
      decide
    | cons d u =>
      have hrest := ih (by simpa using h)
      have hdigit : c.toNat % 2 ^ 7 < 2 ^ 7 := Nat.mod_lt _ (by decide)
      have hlen : 7 * ((c :: d :: u).length - 1) = 7 * ((d :: u).length - 1) + 7 := by simp; omega
      rw [payload, and_mask, hlen, Nat.pow_add]
      omega

theorem payload_pos {u : List UInt8} (h : Terminated u) (hlast : u.getLast? ≠ some 0) : 0 < payload u := by
  induction u with
  | nil => cases h
  | cons c u ih =>
    cases u with
    | nil =>
      replace h : c.toNat < 0x80 := h
      have hc : c.toNat ≠ 0 := fun hz => hlast (congrArg some (UInt8.toNat_inj.mp hz))
      rw [payload, payload, and_mask]
      omega
    | cons d u =>
      have hpos := ih h.2 (by simpa using hlast)
      rw [payload]
      omega

/-- Digits that end in one that is not zero are the digits of their number. -/
theorem varint_payload {u : List UInt8} (h : Terminated u) (hlast : u.length = 1 ∨ u.getLast? ≠ some 0) :
    varint (payload u) = u := by
  induction u with
  | nil => cases h
  | cons c u ih =>
    have hc := c.toNat_lt
    cases u with
    | nil =>
      replace h : c.toNat < 0x80 := h
      have hv : payload [c] = c.toNat := by
        rw [payload, payload, and_mask]
        omega
      rw [hv, varint, if_pos h, UInt8.ofNat_toNat]
    | cons d u =>
      have hne : (d :: u).getLast? ≠ some 0 := by simpa using hlast
      have hpos := payload_pos h.2 hne
      have hge := h.1
      have hv : payload (c :: d :: u) = c.toNat % 2 ^ 7 + payload (d :: u) * 2 ^ 7 := by rw [payload, and_mask]
      have hdigit : UInt8.ofNat (payload (c :: d :: u) &&& 0x7F ||| 0x80) = c := by
        apply UInt8.toNat_inj.mp
        rw [toNat_continued, hv]
        omega
      have hshift : payload (c :: d :: u) >>> 7 = payload (d :: u) := by
        rw [hv, Nat.shiftRight_eq_div_pow]
        omega
      rw [varint, if_neg (by omega), hdigit, hshift, ih h.2 (.inr hne)]

theorem length_varint_le {v n : Nat} (hn : 0 < n) (hv : v < 2 ^ (7 * n)) : (varint v).length ≤ n := by
  induction v using varint.induct generalizing n with
  | case1 v h =>
    rw [varint, if_pos h]
    exact hn
  | case2 v h ih =>
    obtain _ | _ | n := n
    · omega
    · omega
    · have hshift : v >>> 7 < 2 ^ (7 * (n + 1)) := by
        rw [Nat.shiftRight_eq_div_pow, Nat.div_lt_iff_lt_mul (by decide), ← Nat.pow_add]
        exact hv
      have hle := ih n.succ_pos hshift
      rw [varint, if_neg h, List.length_cons]
      omega

end Varint

end Windgent.Wire
