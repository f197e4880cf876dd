import Windgent.Stream

namespace Windgent.Http

open MachineInt Windgent.Stream

/-- What the body phase does: the sizes it asks the stream for, the index in the stream
and in the body of each byte it stores there, how many bytes of the stream it consumes,
and what it returns, absent while it waits and `nullptr` when it fails. -/
structure Reply where
  asks : List Nat
  writes : List (Nat × Nat)
  consumed : Nat
  ret : Option (Option (List UInt8))
deriving DecidableEq

/-- The bytes of the stream go to their places in the body. -/
def store (stream : List UInt8) (writes : List (Nat × Nat)) (body : List UInt8) : List UInt8 :=
  writes.foldl (fun b p => b.set p.2 (stream.getD p.1 0)) body

/-- The part of `recvRequest` and `recvResponse` behind the header block, with a content
length, the bytes left in the buffer, the bytes that the peer sends, and the results of
the reads. -/
def recvBody (length : Nat) (data stream : List UInt8) (rs : List Int) : Reply :=
  if length = 0 then ⟨[], [], 0, some (some [])⟩
  else
    let len := if data.length ≤ length then data.length else length
    let body := data.take len ++ List.replicate (length - len) 0
    let left := subU64 length data.length
    if left = 0 then ⟨[], [], 0, some (some body)⟩
    else
      let o := readFixedSize left rs
      let writes := o.final.moved.map (fun p => (p.1, addU64 len p.2))
      ⟨o.asks, writes, o.final.stream,
        o.ret.map fun v => if v ≤ 0 then none else some (store stream writes body)⟩

def recvRequestBody := recvBody

def recvResponseBody := recvBody

/-- What the next `recvRequest` of the session has to parse: its buffer is a new one. -/
def Reply.next (o : Reply) (stream : List UInt8) : List UInt8 := stream.drop o.consumed

/-- Exact consumption of a message with `length` bytes of body: each read asks for what
is missing, no byte is stored outside the body, a returned body is the first `length`
bytes behind the header block, and the next message of a session that is kept alive
begins with the next byte. The phase waits for read results only. -/
structure Exact (alive : Bool) (length : Nat) (data stream : List UInt8) (rs : List Int) (o : Reply) :
    Prop where
  asks : ∀ k a, o.asks[k]? = some a → data.length + ((rs.take k).map Int.toNat).sum + a = length
  inside : ∀ p ∈ o.writes, p.2 < length
  body : ∀ b, o.ret = some (some b) →
    b = (data ++ stream).take length ∧ o.consumed = length - data.length
  surplus : alive = true → ∀ b, o.ret = some (some b) → o.next stream = (data ++ stream).drop length
  waits : o.ret = none → o.asks.length = rs.length + 1

/-- No read fails while bytes are missing; a result that brings `left` to zero by
wrapping is harmless. -/
def Sound : List Int → Nat → Prop
  | [], _ => True
  | r :: rs, left =>
    if left = 0 then True
    else r = 0 ∨ (0 < r ∧ Sound rs (left - r.toNat)) ∨ (r < 0 ∧ left + (-r).toNat = modulus)

/-- When a message is consumed exactly. -/
def Consumable (alive : Bool) (length : Nat) (data : List UInt8) (rs : List Int) : Prop :=
  (length = 0 ∧ (alive = true → data = [])) ∨ length = data.length ∨
    (data.length < length ∧ Sound rs (length - data.length))

def Missing (t m : Nat) (rs : List Int) (asks : List Nat) : Prop :=
  ∀ k a, asks[k]? = some a → t + ((rs.take k).map Int.toNat).sum + a = m

theorem missing_nil (t m : Nat) (rs : List Int) : Missing t m rs [] := fun k a hk => by simp at hk

theorem missing_cons {t m a : Nat} {r : Int} {rs : List Int} {asks : List Nat} :
    Missing t m (r :: rs) (a :: asks) ↔ t + a = m ∧ Missing (t + r.toNat) m rs asks := by
  constructor
  · intro h
    refine ⟨by simpa using h 0 a rfl, fun k b hk => ?_⟩
    have hb := h (k + 1) b (by simpa using hk)
    simp only [List.take_succ_cons, List.map_cons, List.sum_cons] at hb
    omega
  · rintro ⟨h0, h⟩ k b hk
    cases k with
    | zero =>
      obtain rfl : a = b := by simpa using hk
      simpa using h0
    | succ k =>
      have hb := h k b (by simpa using hk)
      simp only [List.take_succ_cons, List.map_cons, List.sum_cons]
      omega

section Loop

variable {m t left : Nat} {r : Int} {rs : List Int}

theorem loop_positive (hm : m < modulus) (ht : t + left = m) (hr : IsInt r) (h0 : 0 < r) (hle : r ≤ left) :
    loop readBuffer m (r :: rs) (moved t) left =
      ⟨(t, left) :: (loop readBuffer m rs (moved (t + r.toNat)) (left - r.toNat)).heads,
        left :: (loop readBuffer m rs (moved (t + r.toNat)) (left - r.toNat)).asks,
        (loop readBuffer m rs (moved (t + r.toNat)) (left - r.toNat)).ret,
        (loop readBuffer m rs (moved (t + r.toNat)) (left - r.toNat)).final⟩ := by
  have hu : toUInt64 r = r.toNat := toUInt64_of_nonneg hr h0.le
  rw [loop_cons rs _ (by omega) (by omega), readBuffer_mover.advance t r hr h0 (by omega), hu,
    subU64_of_le (by omega) (by omega)]
  rfl

theorem admissible_head (hl : left ≠ 0) (ha : Admissible (r :: rs) (loop readBuffer m (r :: rs) (moved t) left)) :
    IsInt r ∧ r ≤ left := by
  by_cases hu : toUInt64 r = 0
  · exact ha (left, r) (by simp [loop, hl, hu])
  · exact ha (left, r) (by simp [loop_cons rs _ hl hu])

theorem admissible_tail (hm : m < modulus) (ht : t + left = m) (hr : IsInt r) (h0 : 0 < r) (hle : r ≤ left)
    (ha : Admissible (r :: rs) (loop readBuffer m (r :: rs) (moved t) left)) :
    Admissible rs (loop readBuffer m rs (moved (t + r.toNat)) (left - r.toNat)) := by
  intro p hp
  apply ha p
  rw [loop_positive hm ht hr h0 hle]
  exact List.mem_cons_of_mem _ hp

theorem subU64_negative (hleft : left < modulus) (hr : IsInt r) (h0 : r < 0) :
    (subU64 left (toUInt64 r) = 0 ↔ left + (-r).toNat = modulus) ∧ subU64 left (toUInt64 r) ≠ left := by
  have hlow := hr.1
  rw [toUInt64_of_neg hr h0]
  unfold subU64 modulus at *
  constructor
  · constructor <;> intro h <;> omega
  · omega

theorem loop_first (s : Transfer) (hl : left ≠ 0) : (loop readBuffer m rs s left).asks[0]? = some left := by
  cases rs with
  | nil => simp [loop, hl]
  | cons r rs =>
    simp only [loop, hl, if_false]
    split <;> rfl

theorem loop_negative (hm : m < modulus) (ht : t + left = m) (hl : left ≠ 0) (hr : IsInt r) (h0 : r < 0) :
    Missing t m (r :: rs) (loop readBuffer m (r :: rs) (moved t) left).asks ↔
      left + (-r).toNat = modulus := by
  have hlt : left < modulus := by omega
  obtain ⟨hz, hne⟩ := subU64_negative hlt hr h0
  have hu : toUInt64 r ≠ 0 := fun h => h0.ne ((toUInt64_eq_zero hr).mp h)
  rw [loop_cons rs _ hl hu, missing_cons, ← hz]
  constructor
  · rintro ⟨-, h⟩
    by_contra hleft
    have hfirst := h 0 _ (loop_first _ hleft)
    simp only [List.take_zero, List.map_nil, List.sum_nil] at hfirst
    omega
  · intro hleft
    rw [hleft, loop_done]
    exact ⟨ht, missing_nil _ _ _⟩

/-- A transfer asks for what is missing exactly on sound results, by induction on them. -/
theorem loop_missing_iff (hm : m < modulus) (rs : List Int) (t left : Nat) (ht : t + left = m)
    (ha : Admissible rs (loop readBuffer m rs (moved t) left)) :
    Missing t m rs (loop readBuffer m rs (moved t) left).asks ↔ Sound rs left := by
  induction rs generalizing t left with
  | nil =>
    refine iff_of_true ?_ trivial
    by_cases hl : left = 0
    · rw [hl, loop_done]
      exact missing_nil _ _ _
    · intro k a hk
      cases k with
      | zero =>
        obtain rfl : left = a := by simpa [loop, hl] using hk
        simpa using ht
      | succ k => simp [loop, hl] at hk
  | cons r rs ih =>
    by_cases hl : left = 0
    · refine iff_of_true ?_ (by simp [Sound, hl])
      rw [hl, loop_done]
      exact missing_nil _ _ _
    · obtain ⟨hr, hle⟩ := admissible_head hl ha
      simp only [Sound, hl, if_false]
      obtain h0 | rfl | h0 := lt_trichotomy r 0
      · rw [loop_negative hm ht hl hr h0]
        have h1 : r ≠ 0 := h0.ne
        have h2 : ¬ 0 < r := by omega
        simp [h0, h1, h2]
      · have hz : toUInt64 0 = 0 := rfl
        refine iff_of_true ?_ (.inl rfl)
        simp only [loop, hl, hz, if_false, if_true]
        exact missing_cons.mpr ⟨ht, missing_nil _ _ _⟩
      · rw [loop_positive hm ht hr h0 hle, missing_cons,
          ih _ _ (by omega) (admissible_tail hm ht hr h0 hle ha)]
        have h1 : r ≠ 0 := h0.ne'
        have h2 : ¬ r < 0 := by omega
        simp [h0, h1, h2, ht]

/-- On sound results the bytes arrive in order, and all of them when the returned value
is positive. -/
theorem loop_moved (hm : m < modulus) (rs : List Int) (t left : Nat) (ht : t + left = m)
    (ha : Admissible rs (loop readBuffer m rs (moved t) left)) (hs : Sound rs left) :
    ∃ n ≤ m, (loop readBuffer m rs (moved t) left).final.moved = diagonal n ∧
      (loop readBuffer m rs (moved t) left).final.stream = n ∧
      ∀ v, (loop readBuffer m rs (moved t) left).ret = some v → 0 < v → n = m := by
  induction rs generalizing t left with
  | nil =>
    refine ⟨t, by omega, ?_⟩
    by_cases hl : left = 0
    · rw [hl, loop_done]
      exact ⟨rfl, rfl, fun _ _ _ => by omega⟩
    · simp only [loop, hl, if_false]
      exact ⟨rfl, rfl, by simp⟩
  | cons r rs ih =>
    by_cases hl : left = 0
    · refine ⟨t, by omega, ?_⟩
      rw [hl, loop_done]
      exact ⟨rfl, rfl, fun _ _ _ => by omega⟩
    · obtain ⟨hr, hle⟩ := admissible_head hl ha
      simp only [Sound, hl, if_false] at hs
      obtain rfl | ⟨h0, hs⟩ | ⟨h0, hwrap⟩ := hs
      · have hz : toUInt64 0 = 0 := rfl
        refine ⟨t, by omega, ?_⟩
        simp only [loop, hl, hz, if_false, if_true]
        refine ⟨rfl, rfl, fun v hv hpos => ?_⟩
        obtain rfl : toInt 0 = v := by simpa using hv
        exact absurd hpos (by decide)
      · rw [loop_positive hm ht hr h0 hle]
        exact ih _ _ (by omega) (admissible_tail hm ht hr h0 hle ha) hs
      · have hlt : left < modulus := by omega
        have hz := (subU64_negative hlt hr h0).1.mpr hwrap
        have hu : toUInt64 r ≠ 0 := fun h => h0.ne ((toUInt64_eq_zero hr).mp h)
        have hlow := hr.1
        refine ⟨t, by omega, ?_⟩
        rw [loop_cons rs _ hl hu, hz, loop_done]
        refine ⟨(readBuffer_mover.negative t r hr h0).1, ?_, fun v hv hpos => ?_⟩
        · have hn : r.toNat = 0 := by omega
          simp [readBuffer, moved, hn]
        · obtain rfl : toInt m = v := by simpa using hv
          exact absurd hpos (toInt_neg_of_wrap (by omega) hm).not_gt

theorem loop_waits (rs : List Int) (s : Transfer) (left : Nat) (h : (loop readBuffer m rs s left).ret = none) :
    (loop readBuffer m rs s left).asks.length = rs.length + 1 := by
  induction rs generalizing s left with
  | nil =>
    by_cases hl : left = 0
    · simp [loop, hl] at h
    · simp [loop, hl]
  | cons r rs ih =>
    by_cases hl : left = 0
    · simp [loop, hl] at h
    · by_cases hu : toUInt64 r = 0
      · simp [loop, hl, hu] at h
      · rw [loop_cons rs _ hl hu] at h ⊢
        simpa using ih _ _ h

end Loop

/-- The underlying reads return an `int`, at most what they were asked for, and the
bytes that they deliver are those of the stream. -/
structure Plausible (stream : List UInt8) (rs : List Int) (o : Reply) : Prop where
  results : ∀ p ∈ o.asks.zip rs, IsInt p.2 ∧ p.2 ≤ p.1
  delivered : o.consumed ≤ stream.length

instance (stream : List UInt8) (rs : List Int) (o : Reply) : Decidable (Plausible stream rs o) :=
  decidable_of_iff ((∀ p ∈ o.asks.zip rs, IsInt p.2 ∧ p.2 ≤ p.1) ∧ o.consumed ≤ stream.length)
    ⟨fun h => ⟨h.1, h.2⟩, fun h => ⟨h.1, h.2⟩⟩

theorem store_diagonal (data stream : List UInt8) (n k : Nat) (hk : n ≤ k) (hs : n ≤ stream.length) :
    store stream ((diagonal n).map (fun p => (p.1, data.length + p.2))) (data ++ List.replicate k 0) =
      data ++ stream.take n ++ List.replicate (k - n) 0 := by
  induction n with
  | zero => simp [store, diagonal]
  | succ n ih =>
    have hn : n < stream.length := by omega
    have hd : diagonal (n + 1) = diagonal n ++ [(n, n)] := by simp [diagonal, List.range_succ]
    have hrep : List.replicate (k - n) (0 : UInt8) = 0 :: List.replicate (k - (n + 1)) 0 := by
      rw [← List.replicate_succ]
      congr 1
      omega
    have hlen : (data ++ stream.take n).length = data.length + n := by
      rw [List.length_append, List.length_take]
      omega
    rw [hd, List.map_append, store, List.foldl_append]
    have ih' := ih (by omega) (by omega)
    rw [store] at ih'
    rw [ih', List.map_singleton, List.foldl_cons, List.foldl_nil, hrep, List.set_append,
      if_neg (by omega), hlen, Nat.sub_self, List.set_cons_zero, List.take_succ_eq_append_getElem hn]
    simp only [List.getD_eq_getElem?_getD, List.getElem?_eq_getElem hn, Option.getD_some, List.append_assoc,
      List.singleton_append]

section Body

variable {alive : Bool} {length : Nat} {data stream : List UInt8} {rs : List Int}

theorem exact_empty : Exact alive 0 data stream rs (recvBody 0 data stream rs) ↔ (alive = true → data = []) := by
  simp only [recvBody, if_true]
  constructor
  · intro h ha
    have hs := h.surplus ha [] rfl
    simpa [Reply.next] using congrArg List.length hs
  · intro h
    refine ⟨by simp, by simp, by simp, fun ha b _ => ?_, by simp⟩
    simp [Reply.next, h ha]

theorem exact_full (hlen : length < modulus) (h0 : length ≠ 0) (h : length = data.length) :
    Exact alive length data stream rs (recvBody length data stream rs) := by
  have hleft : subU64 length data.length = 0 := by rw [subU64_of_le hlen (by omega)]; omega
  simp only [recvBody, h0, hleft, h.ge, if_true, if_false]
  refine ⟨by simp, by simp, fun b hb => ?_, fun _ b _ => ?_, by simp⟩
  · obtain rfl := Option.some.inj (Option.some.inj hb)
    simp [h]
  · simp [Reply.next, h]

/-- More in the buffer than the body: the wrapped difference is asked for. -/
theorem not_exact_over (hdata : data.length < modulus) (h0 : length ≠ 0)
    (h : length < data.length) : ¬ Exact alive length data stream rs (recvBody length data stream rs) := by
  have hleft : subU64 length data.length ≠ 0 := by rw [subU64_of_lt hdata h]; omega
  intro he
  have hfirst := he.asks 0 (subU64 length data.length) (by
    simp only [recvBody, h0, hleft, if_false]
    exact loop_first _ hleft)
  omega

theorem exact_under_iff (hlen : length < modulus) (h : data.length < length)
    (hp : Plausible stream rs (recvBody length data stream rs)) :
    Exact alive length data stream rs (recvBody length data stream rs) ↔ Sound rs (length - data.length) := by
  have h0 : length ≠ 0 := by omega
  have hleft : subU64 length data.length = length - data.length := subU64_of_le hlen (by omega)
  have hpos : length - data.length ≠ 0 := by omega
  have hm : length - data.length < modulus := by omega
  have heq : recvBody length data stream rs =
      ⟨(readFixedSize (length - data.length) rs).asks,
        (readFixedSize (length - data.length) rs).final.moved.map (fun p => (p.1, addU64 data.length p.2)),
        (readFixedSize (length - data.length) rs).final.stream,
        (readFixedSize (length - data.length) rs).ret.map fun v => if v ≤ 0 then none else
          some (store stream ((readFixedSize (length - data.length) rs).final.moved.map
            (fun p => (p.1, addU64 data.length p.2))) (data ++ List.replicate (length - data.length) 0))⟩ := by
    simp only [recvBody, h0, hleft, hpos, h.le, if_true, if_false, List.take_length]
  rw [heq] at hp ⊢
  have hread : readFixedSize (length - data.length) rs =
      loop readBuffer (length - data.length) rs (moved 0) (length - data.length) := rfl
  have ht : 0 + (length - data.length) = length - data.length := Nat.zero_add _
  have hmissing := loop_missing_iff hm rs 0 _ ht (hread ▸ hp.results)
  rw [← hread] at hmissing
  constructor
  · intro he
    refine hmissing.mp (fun k a hk => ?_)
    have := he.asks k a hk
    omega
  · intro hs
    obtain ⟨n, hn, hmoved, hstream, hall⟩ := loop_moved hm rs 0 _ ht (hread ▸ hp.results) hs
    rw [← hread] at hmoved hstream hall
    have hdelivered := hp.delivered
    have hshift : (diagonal n).map (fun p => (p.1, addU64 data.length p.2)) =
        (diagonal n).map (fun p => (p.1, data.length + p.2)) := by
      refine List.map_congr_left (fun p hp => ?_)
      obtain ⟨i, hi, rfl⟩ := List.mem_map.mp hp
      have hin := List.mem_range.mp hi
      rw [addU64_of_lt (by omega)]
    simp only [hmoved, hshift, hstream] at hdelivered ⊢
    -- a returned body has a positive result behind it, so all bytes have arrived
    have hret : ∀ b : List UInt8, ((readFixedSize (length - data.length) rs).ret.map fun v =>
        if v ≤ 0 then none else some (store stream ((diagonal n).map (fun p => (p.1, data.length + p.2)))
          (data ++ List.replicate (length - data.length) 0))) = some (some b) →
        n = length - data.length ∧ b = data ++ stream.take n := by
      intro b hb
      obtain ⟨v, hv, hb⟩ := Option.map_eq_some_iff.mp hb
      split at hb
      · simp at hb
      · rename_i hvpos
        have hnall := hall v hv (by omega)
        rw [store_diagonal data stream n _ hn hdelivered] at hb
        refine ⟨hnall, ?_⟩
        rw [← Option.some.inj hb, hnall, Nat.sub_self]
        simp
    refine ⟨fun k a hk => ?_, fun p hp => ?_, fun b hb => ?_, fun _ b hb => ?_, fun hnone => ?_⟩
    · have := hmissing.mpr hs k a hk
      omega
    · obtain ⟨q, hq, rfl⟩ := List.mem_map.mp hp
      obtain ⟨i, hi, rfl⟩ := List.mem_map.mp hq
      have hin := List.mem_range.mp hi
      change data.length + i < length
      omega
    · obtain ⟨hnall, rfl⟩ := hret b hb
      refine ⟨?_, hnall⟩
      rw [List.take_append, List.take_of_length_le h.le, hnall]
    · obtain ⟨hnall, -⟩ := hret b hb
      rw [Reply.next, List.drop_append, List.drop_of_length_le h.le, hnall, List.nil_append]
    · refine loop_waits rs (moved 0) (length - data.length) ?_
      rw [← hread]
      simpa using hnone

end Body

/-- Messages are consumed exactly if and only if they are consumable; a connection
makes no promise about what follows its response. -/
theorem message_exact_iff (length : Nat) (hlen : length < modulus) (data stream : List UInt8)
    (hdata : data.length < 2 ^ 31) (rs : List Int) :
    (∀ alive, Plausible stream rs (recvRequestBody length data stream rs) →
      (Exact alive length data stream rs (recvRequestBody length data stream rs) ↔
        Consumable alive length data rs)) ∧
    (Plausible stream rs (recvResponseBody length data stream rs) →
      (Exact false length data stream rs (recvResponseBody length data stream rs) ↔
        Consumable false length data rs)) := by
  have h : ∀ alive, Plausible stream rs (recvBody length data stream rs) →
      (Exact alive length data stream rs (recvBody length data stream rs) ↔
        Consumable alive length data rs) := by
    intro alive hp
    by_cases h0 : length = 0
    · subst h0
      rw [exact_empty]
      constructor
      · intro h
        exact .inl ⟨rfl, h⟩
      · rintro (hc | hc | hc)
        · exact hc.2
        · exact fun _ => List.length_eq_zero_iff.mp hc.symm
        · omega
    · obtain hlt | heq | hgt := lt_trichotomy length data.length
      · refine iff_of_false (not_exact_over (by unfold modulus; omega) h0 hlt) ?_
        rintro (hc | hc | hc) <;> omega
      · exact iff_of_true (exact_full hlen h0 heq) (.inr (.inl heq))
      · rw [exact_under_iff hlen hgt hp]
        constructor
        · intro hs
          exact .inr (.inr ⟨hgt, hs⟩)
        · rintro (hc | hc | hc)
          · omega
          · omega
          · exact hc.2
  exact ⟨h, h false⟩

theorem message_exact_two_reads :
    Exact true 5 [1, 2] [3, 4, 5, 9] [1, 2] (recvRequestBody 5 [1, 2] [3, 4, 5, 9] [1, 2]) ∧
    (recvRequestBody 5 [1, 2] [3, 4, 5, 9] [1, 2]).ret = some (some [1, 2, 3, 4, 5]) ∧
    Exact false 5 [1, 2] [3, 4, 5, 9] [1, 2] (recvResponseBody 5 [1, 2] [3, 4, 5, 9] [1, 2]) := by
  obtain ⟨hs, hc⟩ := message_exact_iff 5 (by decide) [1, 2] [3, 4, 5, 9] (by decide) [1, 2]
  have hok : ∀ alive, Consumable alive 5 [1, 2] [1, 2] :=
    fun alive => .inr (.inr ⟨by decide, by simp [Sound]⟩)
  exact ⟨(hs true (by decide)).mpr (hok true), by decide, (hc (by decide)).mpr (hok false)⟩

/-- Three bytes are left in the buffer, one of them is the body: the wrapped length
2^64 - 2 is asked for, and the answer is stored behind the body. -/
theorem message_over_read : Plausible [7, 8] [2] (recvRequestBody 1 [1, 2, 3] [7, 8] [2]) ∧
    (recvRequestBody 1 [1, 2, 3] [7, 8] [2]).asks = [2 ^ 64 - 2, 2 ^ 64 - 4] ∧
    (recvRequestBody 1 [1, 2, 3] [7, 8] [2]).writes = [(0, 1), (1, 2)] ∧
    ¬ Exact true 1 [1, 2, 3] [7, 8] [2] (recvRequestBody 1 [1, 2, 3] [7, 8] [2]) := by
  refine ⟨by decide, by decide, by decide, fun h => ?_⟩
  have hw := h.inside (0, 1) (by decide)
  omega

end Windgent.Http
