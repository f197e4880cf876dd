import Windgent.ByteArray.Consume

namespace Windgent.ByteArray

open Wire

/-- The loop of `writeUint32` and `writeUint64` over their `tmp`; none if it leaves the array. -/
def encodeLoop (tmp : List UInt8) (i value : Nat) : Option (List UInt8 × Nat) :=
  if i < tmp.length then
    if value < 0x80 then some (tmp.set i (UInt8.ofNat value), i + 1)
    else encodeLoop (tmp.set i (UInt8.ofNat (value &&& 0x7F ||| 0x80))) (i + 1) (value >>> 7)
  else none
termination_by tmp.length - i
decreasing_by
  rw [List.length_set]
  omega

def decode32 : Take UInt32 := (takeVarint 32 0 0).map UInt32.ofNat

def decode64 : Take UInt64 := (takeVarint 64 0 0).map UInt64.ofNat

/-- The code of the numbers of `w` bits, which a `tmp` of `cap` bytes has room for. -/
structure VarintCode {α : Type} (w cap : Nat) (toNat : α → Nat) (decode : Take α) : Prop where
  length : ∀ v, 1 ≤ (varint (toNat v)).length ∧ (varint (toNat v)).length ≤ cap
  fits : ∀ v tmp, tmp.length = cap → ∃ t, encodeLoop tmp 0 (toNat v) = some (t, (varint (toNat v)).length) ∧
    t.take (varint (toNat v)).length = varint (toNat v)
  separate : ∀ v v', varint (toNat v) <+: varint (toNat v') → varint (toNat v) = varint (toNat v')
  decodes : ∀ v u, decode (varint (toNat v) ++ u) = .ok (v, (varint (toNat v)).length)
  shortest : ∀ v u n, decode u = .ok (v, n) → (varint (toNat v)).length ≤ n
  -- With all its bytes in use the reader also takes sequences of the same length that have bits
  -- beyond the type.
  only : ∀ v u n, decode u = .ok (v, n) → n = (varint (toNat v)).length → n < cap → u.take n = varint (toNat v)
  canonical : ∀ v u n c, decode u = .ok (v, n) → (u.take n).getLast? = some c → c.toNat < 0x80 → n = 1 ∨ c ≠ 0 →
    payload (u.take n) < 2 ^ w → varint (toNat v) = u.take n
  bounded : ∀ u, taken (decode u) ≤ cap

section Encoding

theorem take_set_succ {tmp : List UInt8} {i : Nat} (h : i < tmp.length) (c : UInt8) :
    (tmp.set i c).take (i + 1) = tmp.take i ++ [c] := by
  rw [List.take_succ_eq_append_getElem (by rwa [List.length_set]), List.getElem_set_self, List.take_set_of_le le_rfl]

theorem encodeLoop_eq (tmp : List UInt8) (i v : Nat) (h : i + (varint v).length ≤ tmp.length) :
    ∃ t, encodeLoop tmp i v = some (t, i + (varint v).length) ∧
      t.take (i + (varint v).length) = tmp.take i ++ varint v := by
  induction v using varint.induct generalizing tmp i with
  | case1 v hlt =>
    rw [varint_of_lt hlt] at h ⊢
    have hi : i < tmp.length := h
    refine ⟨tmp.set i (UInt8.ofNat v), ?_, take_set_succ hi _⟩
    rw [encodeLoop, if_pos hi, if_pos hlt]
    rfl
  | case2 v hge ih =>
    rw [varint_of_ge hge, List.singleton_append, List.length_cons] at h ⊢
    have hi : i < tmp.length := by omega
    obtain ⟨t, ht, htake⟩ :=
      ih (tmp.set i (UInt8.ofNat (v &&& 0x7F ||| 0x80))) (i + 1) (by rw [List.length_set]; omega)
    have hlen : i + 1 + (varint (v >>> 7)).length = i + ((varint (v >>> 7)).length + 1) := by omega
    rw [hlen] at ht htake
    refine ⟨t, ?_, ?_⟩
    · rw [encodeLoop, if_pos hi, if_neg hge, ht]
    · rw [htake, take_set_succ hi, List.append_assoc]
      rfl

end Encoding

section Decoding

variable {w i r v n : Nat} {u : List UInt8}

theorem or_shift_mod (hr : r < 2 ^ i) (hi : i ≤ w) (d : Nat) : r ||| (d <<< i) % 2 ^ w = (r + d * 2 ^ i) % 2 ^ w := by
  have hpow : 2 ^ w = 2 ^ i * 2 ^ (w - i) := by rw [← Nat.pow_add, Nat.add_sub_cancel' hi]
  have hd : (d <<< i) % 2 ^ w = d % 2 ^ (w - i) * 2 ^ i := by
    rw [Nat.shiftLeft_eq, hpow, Nat.mul_comm d, Nat.mul_mod_mul_left, Nat.mul_comm]
  have hor : r ||| (d % 2 ^ (w - i)) * 2 ^ i = r + d % 2 ^ (w - i) * 2 ^ i := by
    rw [Nat.lor_comm, Nat.mul_comm, ← Nat.two_pow_add_eq_or_of_lt hr, Nat.add_comm]
  have hlt : r + d % 2 ^ (w - i) * 2 ^ i < 2 ^ w := by
    have hle := Nat.mul_le_mul_right (2 ^ i) (Nat.le_sub_one_of_lt (Nat.mod_lt d (Nat.two_pow_pos (w - i))))
    have hone := Nat.mul_le_mul_right (2 ^ i) (Nat.one_le_two_pow (n := w - i))
    rw [Nat.sub_mul, Nat.one_mul, Nat.mul_comm (2 ^ (w - i)), ← hpow] at hle
    rw [Nat.one_mul, Nat.mul_comm, ← hpow] at hone
    omega
  have hsplit : r + d * 2 ^ i = r + d % 2 ^ (w - i) * 2 ^ i + 2 ^ w * (d / 2 ^ (w - i)) := by
    conv_lhs => rw [← Nat.mod_add_div d (2 ^ (w - i))]
    rw [hpow]
    ring
  rw [hd, hor, hsplit, Nat.add_mul_mod_self_left, Nat.mod_eq_of_lt hlt]

theorem takeVarint_value (hr : r < 2 ^ i) (hw : r < 2 ^ w) (h : takeVarint w i r u = .ok (v, n)) :
    v = (r + payload (u.take n) * 2 ^ i) % 2 ^ w := by
  induction u generalizing i r n with
  | nil =>
    rw [takeVarint] at h
    split at h
    · cases h
    · cases h
      rw [List.take_zero, payload, Nat.zero_mul, Nat.add_zero, Nat.mod_eq_of_lt hw]
  | cons c u ih =>
    obtain hi | hi := Nat.lt_or_ge i w
    · have hpow : 2 ^ (i + 7) = 2 ^ i * 2 ^ 7 := Nat.pow_add 2 i 7
      obtain ⟨hc, rfl, rfl⟩ | ⟨hc, k, rfl, hrest⟩ := takeVarint_cons_ok hi h
      · have hdigit : c.toNat &&& 0x7F = c.toNat := by
          rw [and_mask]
          omega
        rw [or_shift_mod hr hi.le, List.take_succ_cons, List.take_zero, payload, payload, hdigit, Nat.zero_mul,
          Nat.add_zero]
      · rw [or_shift_mod hr hi.le] at hrest
        have hdigit : c.toNat &&& 0x7F ≤ 2 ^ 7 - 1 := Nat.and_le_right
        have hlow : (r + (c.toNat &&& 0x7F) * 2 ^ i) % 2 ^ w < 2 ^ (i + 7) := by
          have hle := Nat.mul_le_mul_right (2 ^ i) hdigit
          refine (Nat.mod_le _ _).trans_lt ?_
          rw [hpow]
          omega
        rw [List.take_succ_cons, payload, ih hlow (Nat.mod_lt _ (Nat.two_pow_pos w)) hrest, Nat.mod_add_mod, hpow]
        congr 1
        ring
    · rw [takeVarint_of_le hi] at h
      cases h
      rw [List.take_zero, payload, Nat.zero_mul, Nat.add_zero, Nat.mod_eq_of_lt hw]

theorem takeVarint_terminated (hi : i < w) (h : takeVarint w i r u = .ok (v, n))
    (hlast : (∃ c, (u.take n).getLast? = some c ∧ c.toNat < 0x80) ∨ i + 7 * n < w) : Terminated (u.take n) := by
  induction u generalizing i r n with
  | nil =>
    rw [takeVarint, if_pos hi] at h
    cases h
  | cons c u ih =>
    obtain ⟨hc, rfl, -⟩ | ⟨hc, k, rfl, hrest⟩ := takeVarint_cons_ok hi h
    · exact hc
    · rw [List.take_succ_cons] at hlast ⊢
      obtain hi' | hi' := Nat.lt_or_ge (i + 7) w
      · obtain ⟨d, u', hu⟩ := List.exists_cons_of_length_pos (l := u.take k) (by
          have hpos := takeVarint_pos hi' hrest
          have hne : u ≠ [] := fun hu => by
            rw [hu, takeVarint, if_pos hi'] at hrest
            cases hrest
          rw [List.length_take]
          exact Nat.lt_min.mpr ⟨hpos, List.length_pos_iff.mpr hne⟩)
        have hrec := ih hi' hrest (hlast.imp (fun hl => by simpa [hu] using hl) fun hl => by omega)
        rw [hu] at hrec ⊢
        exact ⟨hc, hrec⟩
      · rw [takeVarint_of_le hi'] at hrest
        cases hrest
        obtain ⟨d, hd, hlt⟩ | hl := hlast
        · rw [List.take_zero, List.getLast?_singleton] at hd
          obtain rfl := Option.some.inj hd
          omega
        · omega

/-- The reader takes terminated digits as a whole. -/
theorem takeVarint_of_terminated (hu : Terminated u) (hi : i + 7 * u.length < w + 7) (u' : List UInt8) :
    ∃ v, takeVarint w i r (u ++ u') = .ok (v, u.length) := by
  induction u generalizing i r with
  | nil => cases hu
  | cons c u ih =>
    rw [List.length_cons] at hi
    rw [List.cons_append, takeVarint, if_pos (by omega)]
    cases u with
    | nil =>
      replace hu : c.toNat < 0x80 := hu
      rw [if_pos hu]
      exact ⟨_, rfl⟩
    | cons d u =>
      obtain ⟨v, hv⟩ := ih hu.2 (i := i + 7) (r := r ||| ((c.toNat &&& 0x7F) <<< i) % 2 ^ w) (by omega)
      rw [if_neg (Nat.not_lt.mpr hu.1), hv]
      exact ⟨v, congrArg (fun n => Except.ok (v, n)) (Nat.add_comm ..)⟩

theorem taken_takeVarint_le (u : List UInt8) : taken (takeVarint w i r u) ≤ (w + 6 - i) / 7 := by
  induction u generalizing i r with
  | nil =>
    rw [takeVarint]
    split <;> exact Nat.zero_le _
  | cons c u ih =>
    rw [takeVarint]
    split
    · rename_i hi
      split
      · change 1 ≤ _
        omega
      · have hle := ih (i := i + 7) (r := r ||| ((c.toNat &&& 0x7F) <<< i) % 2 ^ w)
        cases hrest : takeVarint w (i + 7) (r ||| ((c.toNat &&& 0x7F) <<< i) % 2 ^ w) u with
        | error n =>
          rw [hrest] at hle
          change n ≤ _ at hle
          change 1 + n ≤ _
          omega
        | ok p =>
          rw [hrest] at hle
          change p.2 ≤ _ at hle
          change 1 + p.2 ≤ _
          omega
    · exact Nat.zero_le _

end Decoding

section Numbers

variable {w v n : Nat} {u : List UInt8}

theorem takeVarint_eq_payload (h : takeVarint w 0 0 u = .ok (v, n)) : v = payload (u.take n) % 2 ^ w := by
  have hval := takeVarint_value Nat.one_pos (Nat.two_pow_pos w) h
  rwa [Nat.zero_add, Nat.pow_zero, Nat.mul_one] at hval

theorem length_varint_le_cap (hw : 0 < w) (hv : v < 2 ^ w) : (varint v).length ≤ (w + 6) / 7 :=
  length_varint_le (by omega) (hv.trans_le (Nat.pow_le_pow_right (by decide) (by omega)))

theorem takeVarint_varint (hw : 0 < w) (hv : v < 2 ^ w) (u : List UInt8) :
    takeVarint w 0 0 (varint v ++ u) = .ok (v, (varint v).length) := by
  have hlen := length_varint_le_cap hw hv
  obtain ⟨m, hm⟩ := takeVarint_of_terminated (w := w) (i := 0) (r := 0) (terminated_varint v) (by omega) u
  have hval := takeVarint_eq_payload hm
  rw [List.take_left, payload_varint, Nat.mod_eq_of_lt hv] at hval
  rw [hm, hval]

theorem takeVarint_shortest (hw : 0 < w) (h : takeVarint w 0 0 u = .ok (v, n)) : (varint v).length ≤ n := by
  refine length_varint_le (takeVarint_pos hw h) ?_
  have hle : 2 ^ (7 * (u.take n).length) ≤ 2 ^ (7 * n) :=
    Nat.pow_le_pow_right (by decide) (Nat.mul_le_mul_left 7 (List.length_take_le n u))
  rw [takeVarint_eq_payload h]
  exact (Nat.mod_le _ _).trans_lt ((payload_lt _).trans_le hle)

theorem takeVarint_canonical (h : takeVarint w 0 0 u = .ok (v, n)) (hfit : payload (u.take n) < 2 ^ w)
    (hterm : Terminated (u.take n)) (hlast : n = 1 ∨ (u.take n).getLast? ≠ some 0) : varint v = u.take n := by
  rw [takeVarint_eq_payload h, Nat.mod_eq_of_lt hfit]
  refine varint_payload hterm (hlast.imp_left fun hn => ?_)
  have hne : u.take n ≠ [] := fun hnil => by
    rw [hnil] at hterm
    cases hterm
  have hpos := List.length_pos_iff.mpr hne
  rw [List.length_take] at hpos ⊢
  omega

theorem takeVarint_only (hw : 0 < w) (h : takeVarint w 0 0 u = .ok (v, n)) (hn : n = (varint v).length)
    (hlt : n < (w + 6) / 7) : u.take n = varint v := by
  have hpos := takeVarint_pos hw h
  have hlen : (u.take n).length ≤ n := List.length_take_le n u
  have hfit : payload (u.take n) < 2 ^ w :=
    (payload_lt _).trans_le (Nat.pow_le_pow_right (by decide) (by omega))
  have hv := takeVarint_eq_payload h
  rw [Nat.mod_eq_of_lt hfit] at hv
  refine (takeVarint_canonical h hfit (takeVarint_terminated hw h (.inr (by omega))) ?_).symm
  -- a zero at the end would leave a code that is shorter still
  by_contra hlast
  obtain ⟨hone, hzero⟩ := not_or.mp hlast
  have hless : payload (u.take n) < 2 ^ (7 * (n - 1)) :=
    (payload_lt_of_getLast? (not_not.mp hzero)).trans_le (Nat.pow_le_pow_right (by decide) (by omega))
  have hshort := length_varint_le (by omega) (hv ▸ hless)
  omega

end Numbers

section Codes

variable {α β : Type} {w cap : Nat} {toNat : α → Nat} {ofNat : Nat → α}

theorem Take.map_eq_ok {g : α → β} {f : Take α} {u : List UInt8} {v : β} {n : Nat} :
    f.map g u = .ok (v, n) ↔ ∃ a, f u = .ok (a, n) ∧ g a = v := by
  unfold Take.map
  cases f u with
  | error k => simp [Except.map]
  | ok p =>
    obtain ⟨a, k⟩ := p
    simp only [Except.map, Except.ok.injEq, Prod.mk.injEq]
    constructor
    · rintro ⟨rfl, rfl⟩
      exact ⟨a, ⟨rfl, rfl⟩, rfl⟩
    · rintro ⟨a', ⟨rfl, rfl⟩, rfl⟩
      exact ⟨rfl, rfl⟩

theorem Take.taken_map (g : α → β) (f : Take α) (u : List UInt8) : taken (f.map g u) = taken (f u) := by
  unfold Take.map
  cases f u <;> rfl

theorem varintCode_of (hw : 0 < w) (hcap : cap = (w + 6) / 7) (hlt : ∀ v, toNat v < 2 ^ w)
    (hof : ∀ v, ofNat (toNat v) = v)
    (hto : ∀ n, n < 2 ^ w → toNat (ofNat n) = n) : VarintCode w cap toNat ((takeVarint w 0 0).map ofNat) := by
  -- the number of bytes and the number that a read comes from
  have hread : ∀ {u v n}, (takeVarint w 0 0).map ofNat u = .ok (v, n) → takeVarint w 0 0 u = .ok (toNat v, n) := by
    intro u v n h
    obtain ⟨m, hm, rfl⟩ := Take.map_eq_ok.mp h
    rw [hto m (takeVarint_lt (Nat.two_pow_pos w) hm), hm]
  have hdecodes : ∀ v u,
      (takeVarint w 0 0).map ofNat (varint (toNat v) ++ u) = .ok (v, (varint (toNat v)).length) :=
    fun v u => Take.map_eq_ok.mpr ⟨toNat v, takeVarint_varint hw (hlt v) u, hof v⟩
  have hroom : ∀ v, (varint (toNat v)).length ≤ cap := fun v => hcap ▸ length_varint_le_cap hw (hlt v)
  exact
    { length := fun v => ⟨List.length_pos_iff.mpr (varint_ne_nil _), hroom v⟩
      fits := fun v tmp htmp => by
        simpa using encodeLoop_eq tmp 0 (toNat v) (by rw [Nat.zero_add, htmp]; exact hroom v)
      separate := fun v v' ⟨u, hu⟩ => by
        have hsecond := hdecodes v' []
        rw [List.append_nil, ← hu, hdecodes v u] at hsecond
        rw [(Prod.mk.inj (Except.ok.inj hsecond)).1]
      decodes := hdecodes
      shortest := fun v u n h => takeVarint_shortest hw (hread h)
      only := fun v u n h hn hless => takeVarint_only hw (hread h) hn (hcap ▸ hless)
      canonical := fun v u n c h hc hc' hlast hfit =>
        takeVarint_canonical (hread h) hfit (takeVarint_terminated hw (hread h) (.inl ⟨c, hc, hc'⟩))
          (hlast.imp_right fun hne heq => hne (Option.some.inj (hc.symm.trans heq)))
      bounded := fun u => by
        rw [Take.taken_map, hcap]
        exact taken_takeVarint_le u }

end Codes

theorem varint_codes {b : Nat} (hb : 0 < b) (e host : Endian) (fresh : Nat → Nat → UInt8) :
    (∀ v, Puts b e (writeUint32 fresh · v) (varint v.toNat)) ∧ Takes b e (readUint32 host) decode32 ∧
      VarintCode 32 5 UInt32.toNat decode32 ∧
    (∀ v, Puts b e (writeUint64 fresh · v) (varint v.toNat)) ∧ Takes b e (readUint64 host) decode64 ∧
      VarintCode 64 10 UInt64.toNat decode64 := by
  refine ⟨fun v => puts_writeBytes fresh hb _, (takes_readVarintLoop host hb 32 0 0).map UInt32.ofNat, ?_,
    fun v => puts_writeBytes fresh hb _, (takes_readVarintLoop host hb 64 0 0).map UInt64.ofNat, ?_⟩
  · exact varintCode_of (by decide) rfl UInt32.toNat_lt (fun _ => UInt32.ofNat_toNat) fun n hn => Nat.mod_eq_of_lt hn
  · exact varintCode_of (by decide) rfl UInt64.toNat_lt (fun _ => UInt64.ofNat_toNat) fun n hn => Nat.mod_eq_of_lt hn

theorem varint_codes_300 :
    Puts 4096 .big (writeUint32 (fun _ _ => 0) · 300) (varint 300) ∧
      decode32 (varint 300 ++ [7]) = .ok (300, (varint 300).length) :=
  have h := varint_codes (b := 4096) (by decide) .big .little fun _ _ => 0
  ⟨h.1 300, h.2.2.1.decodes 300 [7]⟩

end Windgent.ByteArray
