import Windgent.MachineInt

namespace Windgent.Stream

open MachineInt

/-- The progress of a fixed-size transfer: the position in the caller's buffer
(or in its `ByteArray`), the bytes the peer has moved, and for every moved
byte its source and destination index. -/
structure Transfer where
  offset : Nat
  stream : Nat
  moved : List (Nat × Nat)
deriving DecidableEq

/-- What a caller observes: the loop variables at each test of `left > 0`, the
sizes passed to the underlying call, and the returned value. The value is
absent while a call is still waiting for its result. -/
structure Outcome where
  heads : List (Nat × Nat)
  asks : List Nat
  ret : Option Int
  final : Transfer
deriving DecidableEq

/-- The loop of the four fixed-size functions. The comparison `len <= 0` is
between unsigned values, hence a test for zero. -/
def loop (call : Transfer → Int → Transfer) (length : Nat) :
    List Int → Transfer → Nat → Outcome
  | [], s, left =>
      if left = 0 then ⟨[(s.offset, left)], [], some (toInt length), s⟩
      else ⟨[(s.offset, left)], [left], none, s⟩
  | r :: rs, s, left =>
      if left = 0 then ⟨[(s.offset, left)], [], some (toInt length), s⟩
      else if toUInt64 r = 0 then ⟨[(s.offset, left)], [left], some (toInt (toUInt64 r)), s⟩
      else
        let o := loop call length rs (call s r) (subU64 left (toUInt64 r))
        ⟨(s.offset, left) :: o.heads, left :: o.asks, o.ret, o.final⟩

/-- `read((char*)buffer + offset, left)` followed by `offset += len`. -/
def readBuffer (s : Transfer) (r : Int) : Transfer :=
  ⟨addU64 s.offset (toUInt64 r), s.stream + r.toNat,
    s.moved ++ (List.range r.toNat).map (fun i => (s.stream + i, addU64 s.offset i))⟩

def writeBuffer (s : Transfer) (r : Int) : Transfer :=
  ⟨addU64 s.offset (toUInt64 r), s.stream + r.toNat,
    s.moved ++ (List.range r.toNat).map (fun i => (addU64 s.offset i, s.stream + i))⟩

/-- `read(ba, left)`, which moves the position of the array itself. -/
def readByteArray (s : Transfer) (r : Int) : Transfer :=
  ⟨s.offset + r.toNat, s.stream + r.toNat,
    s.moved ++ (List.range r.toNat).map (fun i => (s.stream + i, s.offset + i))⟩

def writeByteArray (s : Transfer) (r : Int) : Transfer :=
  ⟨s.offset + r.toNat, s.stream + r.toNat,
    s.moved ++ (List.range r.toNat).map (fun i => (s.offset + i, s.stream + i))⟩

def readFixedSize (length : Nat) (rs : List Int) : Outcome :=
  loop readBuffer length rs ⟨0, 0, []⟩ length

def readFixedSizeByteArray (length : Nat) (rs : List Int) : Outcome :=
  loop readByteArray length rs ⟨0, 0, []⟩ length

def writeFixedSize (length : Nat) (rs : List Int) : Outcome :=
  loop writeBuffer length rs ⟨0, 0, []⟩ length

def writeFixedSizeByteArray (length : Nat) (rs : List Int) : Outcome :=
  loop writeByteArray length rs ⟨0, 0, []⟩ length

def diagonal (n : Nat) : List (Nat × Nat) := (List.range n).map (fun i => (i, i))

theorem diagonal_injective {m n : Nat} (h : diagonal m = diagonal n) : m = n := by
  simpa [diagonal] using congrArg List.length h

theorem diagonal_add (m n : Nat) :
    diagonal (m + n) = diagonal m ++ (List.range n).map (fun i => (m + i, m + i)) := by
  simp [diagonal, List.range_add, Function.comp_def]

/-- The underlying call returns an `int`, at most the number of bytes asked for. -/
def Admissible (rs : List Int) (o : Outcome) : Prop :=
  ∀ p ∈ o.asks.zip rs, IsInt p.2 ∧ p.2 ≤ p.1

/-- A fixed-size transfer of `length` bytes as its callers understand it, when
`t` of the bytes have been moved before. -/
structure Faithful (t length : Nat) (rs : List Int) (o : Outcome) : Prop where
  balance : ∀ h ∈ o.heads, h.1 + h.2 = length
  asks_missing : ∀ k a, o.asks[k]? = some a → t + ((rs.take k).map Int.toNat).sum + a ≤ length
  stops : ∀ k r, rs[k]? = some r → r ≤ 0 → k < o.asks.length →
    o.asks.length = k + 1 ∧ ∃ v, o.ret = some v ∧ v ≤ 0
  positive_iff : (∃ v, o.ret = some v ∧ 0 < v) ↔ o.final.moved = diagonal length

/-- The results for which a transfer with `left` bytes missing is faithful:
none is negative, and if all bytes arrive `length` is positive as an `int`.
When the buffer position is itself unsigned (`wrap`), a negative result that
brings `left` to exactly zero is harmless. -/
def Clean (wrap : Bool) (length : Nat) : List Int → Nat → Prop
  | [], left => left = 0 → 0 < toInt length
  | r :: rs, left =>
      if left = 0 then 0 < toInt length
      else r = 0 ∨ (0 < r ∧ Clean wrap length rs (left - r.toNat)) ∨
        (r < 0 ∧ wrap = true ∧ left + (-r).toNat = modulus)

instance instDecidableClean (wrap : Bool) (length : Nat) :
    (rs : List Int) → (left : Nat) → Decidable (Clean wrap length rs left)
  | [], left => inferInstanceAs (Decidable (left = 0 → 0 < toInt length))
  | r :: rs, left =>
      have := instDecidableClean wrap length rs (left - r.toNat)
      inferInstanceAs (Decidable (if left = 0 then 0 < toInt length
        else r = 0 ∨ (0 < r ∧ Clean wrap length rs (left - r.toNat)) ∨
          (r < 0 ∧ wrap = true ∧ left + (-r).toNat = modulus)))

def moved (t : Nat) : Transfer := ⟨t, t, diagonal t⟩

/-- What the loop needs to know about the underlying call. -/
structure Mover (wrap : Bool) (call : Transfer → Int → Transfer) : Prop where
  advance : ∀ t r, IsInt r → 0 < r → t + r.toNat < modulus → call (moved t) r = moved (t + r.toNat)
  negative : ∀ t r, IsInt r → r < 0 → (call (moved t) r).moved = diagonal t ∧
    (call (moved t) r).offset = if wrap then addU64 t (toUInt64 r) else t

theorem range_addU64 (t n : Nat) (f : Nat → Nat → Nat × Nat) (h : t + n < modulus) :
    (List.range n).map (fun i => f i (addU64 t i)) = (List.range n).map (fun i => f i (t + i)) := by
  apply List.map_congr_left
  intro i hi
  rw [addU64_of_lt (by have := List.mem_range.mp hi; omega)]

theorem readBuffer_mover : Mover true readBuffer := by
  constructor
  · intro t r hr h0 ht
    simp only [readBuffer, moved, diagonal_add, toUInt64_of_nonneg hr h0.le, addU64_of_lt ht]
    rw [range_addU64 t r.toNat (fun i a => (t + i, a)) ht]
  · intro t r hr h0
    have hn : r.toNat = 0 := by omega
    simp [readBuffer, moved, hn]

theorem writeBuffer_mover : Mover true writeBuffer := by
  constructor
  · intro t r hr h0 ht
    simp only [writeBuffer, moved, diagonal_add, toUInt64_of_nonneg hr h0.le, addU64_of_lt ht]
    rw [range_addU64 t r.toNat (fun i a => (a, t + i)) ht]
  · intro t r hr h0
    have hn : r.toNat = 0 := by omega
    simp [writeBuffer, moved, hn]

theorem readByteArray_mover : Mover false readByteArray := by
  constructor
  · intro t r _ _ _
    simp only [readByteArray, moved, diagonal_add]
  · intro t r hr h0
    have hn : r.toNat = 0 := by omega
    simp [readByteArray, moved, hn]

theorem writeByteArray_mover : Mover false writeByteArray := by
  constructor
  · intro t r _ _ _
    simp only [writeByteArray, moved, diagonal_add]
  · intro t r hr h0
    have hn : r.toNat = 0 := by omega
    simp [writeByteArray, moved, hn]

variable {call : Transfer → Int → Transfer} {length : Nat}

theorem loop_done (rs : List Int) (s : Transfer) :
    loop call length rs s 0 = ⟨[(s.offset, 0)], [], some (toInt length), s⟩ := by
  cases rs <;> simp [loop]

theorem loop_asks_ne_nil (rs : List Int) (s : Transfer) {left : Nat} (h : left ≠ 0) :
    (loop call length rs s left).asks ≠ [] := by
  cases rs with
  | nil => simp [loop, h]
  | cons r rs =>
    simp only [loop, h, if_false]
    split <;> simp

theorem loop_cons {r : Int} (rs : List Int) (s : Transfer) {left : Nat} (hl : left ≠ 0)
    (hr : toUInt64 r ≠ 0) :
    loop call length (r :: rs) s left =
      ⟨(s.offset, left) :: (loop call length rs (call s r) (subU64 left (toUInt64 r))).heads,
        left :: (loop call length rs (call s r) (subU64 left (toUInt64 r))).asks,
        (loop call length rs (call s r) (subU64 left (toUInt64 r))).ret,
        (loop call length rs (call s r) (subU64 left (toUInt64 r))).final⟩ := by
  simp only [loop, hl, hr, if_false]

theorem faithful_done (rs : List Int) :
    Faithful length length rs (loop call length rs (moved length) 0) ↔ 0 < toInt length := by
  rw [loop_done]
  constructor
  · intro h
    obtain ⟨v, hv, hp⟩ := h.positive_iff.mpr rfl
    simp only [Option.some.injEq] at hv
    exact hv ▸ hp
  · intro h
    constructor
    · simp [moved]
    · simp
    · simp
    · simp [moved, h]

theorem faithful_waiting {t left : Nat} (hl : left ≠ 0) (ht : t + left = length) :
    Faithful t length [] (loop call length [] (moved t) left) := by
  simp only [loop, hl, if_false]
  constructor
  · simpa [moved] using ht
  · intro k a hk
    cases k with
    | zero => simp only [List.getElem?_cons_zero, Option.some.injEq] at hk; simp; omega
    | succ k => simp at hk
  · simp
  · simp only [reduceCtorEq, false_and, exists_false, false_iff]
    intro h
    have := diagonal_injective h
    omega

theorem faithful_closed {t left : Nat} (rs : List Int) (hl : left ≠ 0) (ht : t + left = length) :
    Faithful t length (0 :: rs) (loop call length (0 :: rs) (moved t) left) := by
  have h0 : toUInt64 0 = 0 := rfl
  simp only [loop, hl, h0, if_false, if_true]
  constructor
  · simpa [moved] using ht
  · intro k a hk
    cases k with
    | zero => simp only [List.getElem?_cons_zero, Option.some.injEq] at hk; simp; omega
    | succ k => simp at hk
  · intro k r _ _ hk
    have hk0 : k = 0 := by simpa using hk
    exact ⟨by simp [hk0], 0, rfl, le_rfl⟩
  · constructor
    · rintro ⟨v, hv, hp⟩
      simp only [Option.some.injEq] at hv
      exact absurd hp (by rw [← hv]; decide)
    · intro h
      have := diagonal_injective h
      omega

theorem faithful_advance {wrap : Bool} (hc : Mover wrap call) {t left : Nat} {r : Int}
    (rs : List Int) (hr : IsInt r) (h0 : 0 < r) (hle : r ≤ left) (ht : t + left = length)
    (hlen : length < modulus) :
    Faithful t length (r :: rs) (loop call length (r :: rs) (moved t) left) ↔
      Faithful (t + r.toNat) length rs
        (loop call length rs (moved (t + r.toNat)) (left - r.toNat)) := by
  have hl : left ≠ 0 := by omega
  have hu : toUInt64 r = r.toNat := toUInt64_of_nonneg hr h0.le
  rw [loop_cons rs _ hl (by omega), hc.advance t r hr h0 (by omega), hu,
    subU64_of_le (by omega) (by omega)]
  constructor
  · intro h
    constructor
    · exact fun p hp => h.balance p (List.mem_cons_of_mem _ hp)
    · intro k a hk
      have := h.asks_missing (k + 1) a (by simpa using hk)
      simp only [List.take_succ_cons, List.map_cons, List.sum_cons] at this
      omega
    · intro k v hv hneg hk
      obtain ⟨he, hret⟩ := h.stops (k + 1) v (by simpa using hv) hneg (by simpa using hk)
      exact ⟨by simpa using he, hret⟩
    · exact h.positive_iff
  · intro h
    constructor
    · intro p hp
      rcases List.mem_cons.mp hp with rfl | hp
      · exact ht
      · exact h.balance p hp
    · intro k a hk
      cases k with
      | zero => simp only [List.getElem?_cons_zero, Option.some.injEq] at hk; simp; omega
      | succ k =>
        have := h.asks_missing k a (by simpa using hk)
        simp only [List.take_succ_cons, List.map_cons, List.sum_cons]
        omega
    · intro k v hv hneg hk
      cases k with
      | zero => simp only [List.getElem?_cons_zero, Option.some.injEq] at hv; omega
      | succ k =>
        obtain ⟨he, hret⟩ := h.stops k v (by simpa using hv) hneg (by simpa using hk)
        exact ⟨by simpa using he, hret⟩
    · exact h.positive_iff

theorem toInt_neg_of_wrap {n : Nat} (h : modulus - 2 ^ 31 ≤ n) (hn : n < modulus) : toInt n ≤ 0 := by
  unfold toInt
  rw [Int.bmod_def]
  unfold modulus at *
  omega

theorem faithful_negative {wrap : Bool} (hc : Mover wrap call) {t left : Nat} {r : Int}
    (rs : List Int) (hr : IsInt r) (h0 : r < 0) (hl : left ≠ 0) (ht : t + left = length)
    (hlen : length < modulus) :
    Faithful t length (r :: rs) (loop call length (r :: rs) (moved t) left) ↔
      wrap = true ∧ left + (-r).toNat = modulus := by
  have hu : toUInt64 r = modulus - (-r).toNat := toUInt64_of_neg hr h0
  have hne : toUInt64 r ≠ 0 := fun h => h0.ne ((toUInt64_eq_zero hr).mp h)
  obtain ⟨hmoved, hoff⟩ := hc.negative t r hr h0
  rw [loop_cons rs _ hl hne]
  by_cases hz : subU64 left (toUInt64 r) = 0
  · have hsum : left + (-r).toNat = modulus := by
      unfold subU64 at hz
      have := hr.1
      unfold modulus at *
      omega
    rw [hz, loop_done]
    constructor
    · intro h
      have hb := h.balance ((call (moved t) r).offset, 0) (by simp)
      cases wrap with
      | true => exact ⟨rfl, hsum⟩
      | false => simp only [hoff, Bool.false_eq_true, if_false] at hb; omega
    · rintro ⟨rfl, -⟩
      have hint : toInt length ≤ 0 := toInt_neg_of_wrap (by have := hr.1; omega) hlen
      constructor
      · intro p hp
        simp only [List.mem_cons, List.not_mem_nil, or_false] at hp
        rcases hp with rfl | rfl
        · exact ht
        · simp only [hoff, if_true, addU64, hu]
          unfold modulus at *
          omega
      · intro k a hk
        cases k with
        | zero => simp only [List.getElem?_cons_zero, Option.some.injEq] at hk; simp; omega
        | succ k => simp at hk
      · intro k v _ _ hk
        have hk0 : k = 0 := by simpa using hk
        exact ⟨by simp [hk0], toInt length, rfl, hint⟩
      · constructor
        · rintro ⟨v, hv, hp⟩
          simp only [Option.some.injEq] at hv
          exact absurd (hv ▸ hp) hint.not_gt
        · intro h
          have := diagonal_injective (hmoved.symm.trans h)
          omega
  · constructor
    · intro h
      have hs := (h.stops 0 r (by simp) h0.le (by simp)).1
      have hn : (loop call length rs (call (moved t) r) _).asks ≠ [] := loop_asks_ne_nil rs _ hz
      simp only [List.length_cons, Nat.add_eq_right, List.length_eq_zero_iff] at hs
      exact absurd hs hn
    · rintro ⟨-, hsum⟩
      exfalso
      apply hz
      unfold subU64
      rw [hu]
      unfold modulus at *
      omega

/-- The loop is faithful exactly on clean results, by induction on the results. -/
theorem loop_faithful_iff {wrap : Bool} (hc : Mover wrap call) (hlen : length < modulus)
    (rs : List Int) (t left : Nat) (ht : t + left = length)
    (ha : Admissible rs (loop call length rs (moved t) left)) :
    Faithful t length rs (loop call length rs (moved t) left) ↔ Clean wrap length rs left := by
  induction rs generalizing t left with
  | nil =>
    by_cases hl : left = 0
    · subst hl
      rw [Nat.add_zero] at ht
      subst ht
      simpa [Clean] using faithful_done []
    · simpa [Clean, hl] using faithful_waiting hl ht
  | cons r rs ih =>
    by_cases hl : left = 0
    · subst hl
      rw [Nat.add_zero] at ht
      subst ht
      simpa [Clean] using faithful_done (r :: rs)
    · simp only [Clean, hl, if_false]
      have hhead : IsInt r ∧ r ≤ left := by
        by_cases hu : toUInt64 r = 0
        · exact ha (left, r) (by simp [loop, hl, hu])
        · exact ha (left, r) (by simp [loop_cons rs _ hl hu])
      obtain ⟨hr, hle⟩ := hhead
      rcases lt_trichotomy r 0 with h0 | h0 | h0
      · rw [faithful_negative hc rs hr h0 hl ht hlen]
        have h1 : r ≠ 0 := h0.ne
        have h2 : ¬ 0 < r := by omega
        simp [h0, h1, h2]
      · subst h0
        simpa using faithful_closed rs hl ht
      · have ha' : Admissible rs (loop call length rs (moved (t + r.toNat)) (left - r.toNat)) := by
          intro p hp
          apply ha p
          have hu : toUInt64 r = r.toNat := toUInt64_of_nonneg hr h0.le
          rw [loop_cons rs _ hl (by omega), hc.advance t r hr h0 (by omega), hu,
            subU64_of_le (by omega) (by omega)]
          exact List.mem_cons_of_mem _ hp
        rw [faithful_advance hc rs hr h0 hle ht hlen, ih _ _ (by omega) ha']
        have h1 : r ≠ 0 := h0.ne'
        have h2 : ¬ r < 0 := by omega
        simp [h0, h1, h2]

/-- Each of the four functions transfers faithfully exactly on clean results. -/
theorem fixedSize_faithful_iff (length : Nat) (hlen : length < modulus) (rs : List Int) :
    (Admissible rs (readFixedSize length rs) →
      (Faithful 0 length rs (readFixedSize length rs) ↔ Clean true length rs length)) ∧
    (Admissible rs (readFixedSizeByteArray length rs) →
      (Faithful 0 length rs (readFixedSizeByteArray length rs) ↔ Clean false length rs length)) ∧
    (Admissible rs (writeFixedSize length rs) →
      (Faithful 0 length rs (writeFixedSize length rs) ↔ Clean true length rs length)) ∧
    (Admissible rs (writeFixedSizeByteArray length rs) →
      (Faithful 0 length rs (writeFixedSizeByteArray length rs) ↔ Clean false length rs length)) := by
  have h0 : 0 + length = length := Nat.zero_add length
  exact ⟨loop_faithful_iff readBuffer_mover hlen rs 0 length h0,
    loop_faithful_iff readByteArray_mover hlen rs 0 length h0,
    loop_faithful_iff writeBuffer_mover hlen rs 0 length h0,
    loop_faithful_iff writeByteArray_mover hlen rs 0 length h0⟩

instance instDecidableAdmissible (rs : List Int) (o : Outcome) : Decidable (Admissible rs o) :=
  inferInstanceAs (Decidable (∀ p ∈ o.asks.zip rs, IsInt p.2 ∧ p.2 ≤ p.1))

theorem fixedSize_two_results :
    Faithful 0 3 [1, 2] (readFixedSize 3 [1, 2]) ∧
    Faithful 0 3 [1, 2] (readFixedSizeByteArray 3 [1, 2]) ∧
    Faithful 0 3 [1, 2] (writeFixedSize 3 [1, 2]) ∧
    Faithful 0 3 [1, 2] (writeFixedSizeByteArray 3 [1, 2]) := by
  obtain ⟨hr, hrb, hw, hwb⟩ := fixedSize_faithful_iff 3 (by decide) [1, 2]
  exact ⟨(hr (by decide)).mpr (by decide), (hrb (by decide)).mpr (by decide),
    (hw (by decide)).mpr (by decide), (hwb (by decide)).mpr (by decide)⟩

/-- An error result does not stop the transfer: after a first result of -1 for
two bytes, each function calls again and asks for three. -/
theorem fixedSize_continues_after_error :
    (Admissible [-1] (readFixedSize 2 [-1]) ∧ ¬ Faithful 0 2 [-1] (readFixedSize 2 [-1])) ∧
    (Admissible [-1] (readFixedSizeByteArray 2 [-1]) ∧
      ¬ Faithful 0 2 [-1] (readFixedSizeByteArray 2 [-1])) ∧
    (Admissible [-1] (writeFixedSize 2 [-1]) ∧ ¬ Faithful 0 2 [-1] (writeFixedSize 2 [-1])) ∧
    (Admissible [-1] (writeFixedSizeByteArray 2 [-1]) ∧
      ¬ Faithful 0 2 [-1] (writeFixedSizeByteArray 2 [-1])) := by
  have hstop (o : Outcome) (ho : o.asks = [2, 3]) : ¬ Faithful 0 2 [-1] o := by
    intro h
    have hs := (h.stops 0 (-1) rfl (by decide) (by simp [ho])).1
    simp [ho] at hs
  exact ⟨⟨by decide, hstop _ (by decide)⟩, ⟨by decide, hstop _ (by decide)⟩,
    ⟨by decide, hstop _ (by decide)⟩, ⟨by decide, hstop _ (by decide)⟩⟩

end Windgent.Stream
