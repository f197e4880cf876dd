import Windgent.ByteArray.Refinement
import Windgent.ByteArray.Typed
import Mathlib.Data.BitVec

namespace Windgent.ByteArray

open Segments Wire

def content (s : State) : List UInt8 := (text (flat s)).content

variable {b : Nat} {e : Endian} {α β : Type}

section Emitting

variable (fresh : Nat → Nat → UInt8)

structure Ended (b : Nat) (e : Endian) (s : Typed) (c : List UInt8) : Prop where
  inv : Inv b s.array
  text_eq : text (flat s.array) = ⟨c, c.length⟩
  order_eq : s.endian = e

/-- A writer that appends the bytes `bs` to whatever has been written. -/
def Emits (b : Nat) (e : Endian) (f : Typed → Option Typed) (bs : List UInt8) : Prop :=
  ∀ s c, Ended b e s c → ∃ t, f s = some t ∧ Ended b e t (c ++ bs)

structure Wrote (b : Nat) (s t : Typed) (bs : List UInt8) : Prop where
  inv : Inv b t.array
  text_eq : text (flat t.array) =
    ⟨overwrite (content s.array) s.array.position bs, s.array.position + bs.length⟩
  order_eq : t.endian = s.endian

/-- A writer that writes the bytes `bs` at the cursor, wherever it stands. -/
def Puts (b : Nat) (e : Endian) (f : Typed → Option Typed) (bs : List UInt8) : Prop :=
  ∀ s : Typed, Inv b s.array → s.endian = e → ∃ t, f s = some t ∧ Wrote b s t bs

theorem puts_writeBytes (hb : 0 < b) (buf : List UInt8) : Puts b e (writeBytes fresh · buf) buf := by
  intro s h he
  obtain ⟨t, r, ht, hi, hx⟩ := step_text fresh hb h (.write buf) (by simp) (by simp)
  have hw : ∃ u, write fresh s.array buf = some u ∧ (u, Result.done) = (t, r) := by
    simpa only [step, Option.map_eq_some_iff] using ht
  obtain ⟨u, hu, hur⟩ := hw
  obtain ⟨rfl, rfl⟩ := Prod.mk.inj hur
  exact ⟨{ s with array := u }, by simp [writeBytes, hu], hi, (Prod.mk.inj hx).1.symm, rfl⟩

theorem Puts.bind {f g : Typed → Option Typed} {bs cs : List UInt8} (hf : Puts b e f bs)
    (hg : Puts b e g cs) : Puts b e (fun s => (f s).bind g) (bs ++ cs) := by
  intro s h he
  obtain ⟨t, ht, hs⟩ := hf s h he
  obtain ⟨u, hu, ht'⟩ := hg t hs.inv (hs.order_eq.trans he)
  refine ⟨u, by simp [ht, hu], ht'.inv, ?_, ht'.order_eq.trans hs.order_eq⟩
  have hcontent : content t.array = overwrite (content s.array) s.array.position bs :=
    congrArg Text.content hs.text_eq
  have hposition : t.array.position = s.array.position + bs.length := congrArg Text.position hs.text_eq
  have hle : s.array.position ≤ (content s.array).length := h.position_le.trans_eq h.size_eq.symm
  rw [ht'.text_eq, hcontent, hposition, overwrite_overwrite hle, List.length_append, Nat.add_assoc]

theorem Puts.emits {f : Typed → Option Typed} {bs : List UInt8} (hf : Puts b e f bs) : Emits b e f bs := by
  intro s c h
  obtain ⟨t, ht, hs⟩ := hf s h.inv h.order_eq
  refine ⟨t, ht, hs.inv, ?_, hs.order_eq.trans h.order_eq⟩
  have hcontent : content s.array = c := congrArg Text.content h.text_eq
  have hposition : s.array.position = c.length := congrArg Text.position h.text_eq
  have ho : overwrite c c.length bs = c ++ bs := by simp [overwrite]
  rw [hs.text_eq, hcontent, hposition, ho, List.length_append]

theorem writeFixed_eq (host : Endian) (s : Typed) (n v : Nat) :
    writeFixed host fresh s n v = writeBytes fresh s (store s.endian n v) := by
  rw [writeFixed, writeObject, store_swapped]

theorem store_one (host : Endian) (v : Nat) : store host 1 v = [UInt8.ofNat v] := by
  cases host <;> rfl

theorem puts_writeFixed (hb : 0 < b) (host : Endian) (n v : Nat) :
    Puts b e (writeFixed host fresh · n v) (store e n v) := by
  intro s h he
  have hw : writeFixed host fresh s n v = writeBytes fresh s (store e n v) := by
    rw [writeFixed_eq, he]
  obtain ⟨t, ht, h'⟩ := puts_writeBytes fresh hb (store e n v) s h he
  exact ⟨t, hw.trans ht, h'⟩

end Emitting

/-- The bytes of an item, given the byte order in force. -/
def wire (e : Endian) : (k : Kind) → k.Val → List UInt8
  | .fint8, v => [v.toUInt8]
  | .fuint8, v => [v]
  | .fint16, v => store e 2 v.toUInt16.toNat
  | .fuint16, v => store e 2 v.toNat
  | .fint32, v => store e 4 v.toUInt32.toNat
  | .fuint32, v => store e 4 v.toNat
  | .fint64, v => store e 8 v.toUInt64.toNat
  | .fuint64, v => store e 8 v.toNat
  | .float, v => store e 4 v.toNat
  | .double, v => store e 8 v.toNat
  | .int32, v => varint (encodeZigzag32 v).toNat
  | .uint32, v => varint v.toNat
  | .int64, v => varint (encodeZigzag64 v).toNat
  | .uint64, v => varint v.toNat
  | .stringF16, v => store e 2 (UInt16.ofNat v.size).toNat ++ v.data
  | .stringF32, v => store e 4 (UInt32.ofNat v.size).toNat ++ v.data
  | .stringF64, v => store e 8 (UInt64.ofNat v.size).toNat ++ v.data
  | .stringVint, v => varint (UInt64.ofNat v.size).toNat ++ v.data

theorem puts_writeVal (hb : 0 < b) (host : Endian) (fresh : Nat → Nat → UInt8) (k : Kind)
    (v : k.Val) : Puts b e (writeVal host fresh · k v) (wire e k v) := by
  have hone : ∀ v : UInt8, Puts b e (writeObject host fresh · 1 v.toNat) [v] := fun v => by
    simpa only [writeObject, store_one, UInt8.ofNat_toNat] using puts_writeBytes fresh hb [v]
  have hfix : ∀ n m, Puts b e (writeFixed host fresh · n m) (store e n m) :=
    puts_writeFixed fresh hb host
  have hraw : ∀ bs, Puts b e (writeBytes fresh · bs) bs := puts_writeBytes fresh hb
  cases k with
  | fint8 | fuint8 => exact hone _
  | fint16 | fuint16 | fint32 | fuint32 | fint64 | fuint64 | float | double => exact hfix _ _
  | int32 | uint32 | int64 | uint64 => exact hraw _
  | stringF16 | stringF32 | stringF64 => exact (hfix _ _).bind (hraw _)
  | stringVint => exact (hraw _).bind (hraw _)

/-- The host plays no part in what a typed writer does. -/
theorem writeVal_host (host host' : Endian) (fresh : Nat → Nat → UInt8) (s : Typed) (k : Kind)
    (v : k.Val) : writeVal host fresh s k v = writeVal host' fresh s k v := by
  cases k with
  | fint8 | fuint8 =>
    simp only [writeVal, writeFint8, writeFuint8, writeObject, store_one]
  | fint16 | fuint16 | fint32 | fuint32 | fint64 | fuint64 | float | double =>
    simp only [writeVal, writeFint16, writeFuint16, writeFint32, writeFuint32, writeFint64,
      writeFuint64, writeFloat, writeDouble, writeFixed_eq]
  | int32 | uint32 | int64 | uint64 => rfl
  | stringF16 | stringF32 | stringF64 | stringVint =>
    simp only [writeVal, writeStringF16, writeStringF32, writeStringF64, writeStringVint,
      writeFuint16, writeFuint32, writeFuint64, writeFixed_eq]

section Parsing

structure Unread (b : Nat) (e : Endian) (s : Typed) (l : List UInt8) : Prop where
  inv : Inv b s.array
  drop_eq : (content s.array).drop s.array.position = l
  order_eq : s.endian = e

/-- A reader that returns `a` on the bytes `bs`, whatever follows them. -/
def Parses (b : Nat) (e : Endian) (m : Reader α) (bs : List UInt8) (a : α) : Prop :=
  ∀ s rest, Unread b e s (bs ++ rest) → ∃ t, m.run.run s = some (.ok a, t) ∧ Unread b e t rest

theorem Parses.pure (a : α) : Parses b e (pure a) [] a :=
  fun s _ h => ⟨s, rfl, h⟩

theorem run_bind {m : Reader α} {f : α → Reader β} {s t : Typed} {a : α}
    (hm : m.run.run s = some (.ok a, t)) : (m >>= f).run.run s = (f a).run.run t := by
  simp only [ExceptT.run_bind, StateT.run_bind, hm]
  rfl

theorem Parses.bind {m : Reader α} {f : α → Reader β} {bs cs : List UInt8} {a : α} {c : β}
    (hm : Parses b e m bs a) (hf : Parses b e (f a) cs c) : Parses b e (m >>= f) (bs ++ cs) c := by
  intro s rest h
  obtain ⟨t, ht, h'⟩ := hm s (cs ++ rest) (by simpa only [List.append_assoc] using h)
  obtain ⟨u, hu, h''⟩ := hf t rest h'
  exact ⟨u, (run_bind ht).trans hu, h''⟩

theorem Parses.map {m : Reader α} {bs : List UInt8} {a : α} {c : β} (f : α → β)
    (hm : Parses b e m bs a) (hc : f a = c) : Parses b e (m >>= fun x => Pure.pure (f x)) bs c := by
  have h := hm.bind (f := fun x => Pure.pure (f x)) (Parses.pure (f a))
  rw [List.append_nil, hc] at h
  exact h

theorem parses_readBytes (hb : 0 < b) {bs : List UInt8} (hne : bs ≠ []) :
    Parses b e (readBytes bs.length) bs bs := by
  intro s rest h
  have hpos := List.length_pos_iff.mpr hne
  obtain ⟨t, r, ht, hi, hx⟩ := step_text (fun _ _ => 0) hb h.inv (.read bs.length)
    (by simpa using hpos) (by simp)
  have hd : (text (flat s.array)).content.drop (text (flat s.array)).position = bs ++ rest :=
    h.drop_eq
  have hlen : ¬ (text (flat s.array)).content.length - (text (flat s.array)).position <
      bs.length := by
    rw [← List.length_drop, hd, List.length_append]
    omega
  have hs : slice (text (flat s.array)).content (text (flat s.array)).position bs.length = bs := by
    rw [slice, hd, List.take_left]
  simp only [Text.step, if_neg hlen, hs] at hx
  obtain ⟨htx, rfl⟩ := Prod.mk.inj hx
  refine ⟨{ s with array := t }, ?_, hi, ?_, h.order_eq⟩
  · simp only [step] at ht
    simp only [readBytes, ExceptT.run_mk, StateT.run, ht, Option.map_some]
  · have hp : t.position = (text (flat s.array)).position + bs.length :=
      congrArg Text.position htx.symm
    have hc : content t = (text (flat s.array)).content := (congrArg Text.content htx).symm
    simp only [hc, hp, ← List.drop_drop, hd, List.drop_left]

theorem parses_readObject (hb : 0 < b) (host : Endian) {bs : List UInt8} (hne : bs ≠ []) :
    Parses b e (readObject host bs.length) bs (load host bs) :=
  (parses_readBytes hb hne).map (load host) rfl

theorem parses_readFixed (hb : 0 < b) (host : Endian) {n v : Nat} (hn : 0 < n) (hv : v < 256 ^ n) :
    Parses b e (readFixed host n) (store e n v) v := by
  have hl := length_store e n v
  have hne : store e n v ≠ [] := List.length_pos_iff.mp (by omega)
  intro s rest h
  obtain ⟨t, ht, h'⟩ := parses_readObject hb host hne s rest h
  rw [hl] at ht
  have hload : (if t.endian = host then load host (store e n v)
      else byteswap n (load host (store e n v))) = v := by
    rw [h'.order_eq, load_swapped e host hl, load_store, Nat.mod_eq_of_lt hv]
  refine ⟨t, ?_, h'⟩
  rw [readFixed, run_bind ht]
  exact congrArg (fun x => some (Except.ok x, t)) hload

theorem parses_readFint8 (hb : 0 < b) (host : Endian) (v : UInt8) :
    Parses b e (readFint8 host) [v] v.toInt8 := by
  have hl : load host [v] = v.toNat := by cases host <;> simp [load, value]
  exact (parses_readObject hb host (List.cons_ne_nil v [])).map _ (by rw [hl, UInt8.ofNat_toNat])

theorem parses_readFuint8 (hb : 0 < b) (host : Endian) (v : UInt8) :
    Parses b e (readFuint8 host) [v] v :=
  (parses_readFint8 hb host v).map Int8.toUInt8 v.toUInt8_toInt8

theorem parses_readFuint16 (hb : 0 < b) (host : Endian) (v : UInt16) :
    Parses b e (readFuint16 host) (store e 2 v.toNat) v :=
  (parses_readFixed hb host (by decide) v.toNat_lt).map _ UInt16.ofNat_toNat

theorem parses_readFuint32 (hb : 0 < b) (host : Endian) (v : UInt32) :
    Parses b e (readFuint32 host) (store e 4 v.toNat) v :=
  (parses_readFixed hb host (by decide) v.toNat_lt).map _ UInt32.ofNat_toNat

theorem parses_readFuint64 (hb : 0 < b) (host : Endian) (v : UInt64) :
    Parses b e (readFuint64 host) (store e 8 v.toNat) v :=
  (parses_readFixed hb host (by decide) v.toNat_lt).map _ UInt64.ofNat_toNat

theorem varint_of_lt {v : Nat} (h : v < 0x80) : varint v = [UInt8.ofNat v] := by
  rw [varint, if_pos h]

theorem varint_of_ge {v : Nat} (h : ¬ v < 0x80) :
    varint v = [UInt8.ofNat (v &&& 0x7F ||| 0x80)] ++ varint (v >>> 7) := by
  rw [varint, if_neg h]
  rfl

theorem split_digit (v p : Nat) : v * p = v % 2 ^ 7 * p + (v >>> 7) * (p * 2 ^ 7) := by
  rw [Nat.shiftRight_eq_div_pow]
  conv_lhs => rw [← Nat.div_add_mod v (2 ^ 7)]
  ring

/-- The loop has collected `r` from the first `i` bits and finds the rest of the
digits of the number. -/
theorem parses_readVarintLoop (hb : 0 < b) (host : Endian) {w : Nat} (i r v : Nat) (hi : i < w)
    (hr : r < 2 ^ i) (hv : r + v * 2 ^ i < 2 ^ w) :
    Parses b e (readVarintLoop host w i r) (varint v) (r + v * 2 ^ i) := by
  induction v using varint.induct generalizing i r with
  | case1 v hlt =>
    have hn : (UInt8.ofNat v).toNat = v := by
      rw [UInt8.toNat_ofNat']
      omega
    rw [readVarintLoop, if_pos hi, varint_of_lt hlt]
    have hp := (parses_readFuint8 (e := e) hb host (UInt8.ofNat v)).bind
      (f := fun x => if x.toNat < 0x80 then pure (r ||| (x.toNat <<< i) % 2 ^ w)
        else readVarintLoop host w (i + 7) (r ||| ((x.toNat &&& 0x7F) <<< i) % 2 ^ w))
      (by rw [if_pos (by omega)]; exact Parses.pure _)
    rw [hn, or_shift hr hv] at hp
    exact hp
  | case2 v hge ih =>
    have hsplit := split_digit v (2 ^ i)
    have hpow : 2 ^ (i + 7) = 2 ^ i * 2 ^ 7 := Nat.pow_add 2 i 7
    have hdigit : v % 2 ^ 7 < 2 ^ 7 := Nat.mod_lt _ (by decide)
    have hlow : r + v % 2 ^ 7 * 2 ^ i < 2 ^ w := by omega
    have hbound : r + v % 2 ^ 7 * 2 ^ i < 2 ^ (i + 7) := by
      have := Nat.mul_le_mul_right (2 ^ i) (Nat.le_sub_one_of_lt hdigit)
      rw [hpow]
      omega
    have hpos : 1 ≤ v >>> 7 := by
      rw [Nat.shiftRight_eq_div_pow]
      omega
    have hnext : i + 7 < w := by
      have := Nat.mul_le_mul_right (2 ^ (i + 7)) hpos
      exact (Nat.pow_lt_pow_iff_right (by decide : 1 < 2)).mp (by rw [hpow] at *; omega)
    have hrest := ih (i + 7) (r + v % 2 ^ 7 * 2 ^ i) hnext hbound (by rw [hpow]; omega)
    rw [readVarintLoop, if_pos hi, varint_of_ge hge]
    have hval : r + v % 2 ^ 7 * 2 ^ i + (v >>> 7) * 2 ^ (i + 7) = r + v * 2 ^ i := by
      rw [hpow]
      omega
    rw [hval] at hrest
    refine (parses_readFuint8 hb host _).bind ?_
    rw [if_neg (by rw [toNat_continued]; omega), payload_continued, or_shift hr hlow]
    exact hrest

theorem parses_readUint32 (hb : 0 < b) (host : Endian) (v : UInt32) :
    Parses b e (readUint32 host) (varint v.toNat) v := by
  have hlt := v.toNat_lt
  have h := parses_readVarintLoop (e := e) (w := 32) hb host 0 0 v.toNat (by decide) (by decide)
    (by simpa using hlt)
  exact h.map _ (by simp)

theorem parses_readUint64 (hb : 0 < b) (host : Endian) (v : UInt64) :
    Parses b e (readUint64 host) (varint v.toNat) v := by
  have hlt := v.toNat_lt
  have h := parses_readVarintLoop (e := e) (w := 64) hb host 0 0 v.toNat (by decide) (by decide)
    (by simpa using hlt)
  exact h.map _ (by simp)

end Parsing

section Zigzag

variable {w : Nat}

theorem toNat_and_one (hw : 0 < w) (u : BitVec w) : (u &&& 1).toNat = u.toNat % 2 := by
  have h1 : (1 : BitVec w).toNat = 1 := Nat.mod_eq_of_lt (Nat.one_lt_two_pow hw.ne')
  rw [BitVec.toNat_and, h1, Nat.and_one_is_mod]

theorem decodeZigzag_even (hw : 0 < w) {u : BitVec w} {k : Nat} (h : u.toNat = 2 * k) :
    (decodeZigzag u).toNat = k := by
  have hz : u &&& 1 = 0 := by
    apply BitVec.eq_of_toNat_eq
    rw [toNat_and_one hw]
    simp [h]
  have hs : (u >>> 1).toNat = k := by
    rw [BitVec.toNat_ushiftRight, Nat.shiftRight_one]
    omega
  rw [decodeZigzag, hz, BitVec.ofNat_eq_ofNat, BitVec.neg_zero, BitVec.xor_zero, hs]

theorem decodeZigzag_odd (hw : 0 < w) {u : BitVec w} {k : Nat} (h : u.toNat = 2 * k + 1) :
    (decodeZigzag u).toNat = 2 ^ w - 1 - k := by
  have ho : u &&& 1 = 1 := by
    apply BitVec.eq_of_toNat_eq
    rw [toNat_and_one hw]
    simp only [BitVec.ofNat_eq_ofNat, BitVec.toNat_ofNat,
      Nat.mod_eq_of_lt (Nat.one_lt_two_pow hw.ne')]
    omega
  have hs : (u >>> 1).toNat = k := by
    rw [BitVec.toNat_ushiftRight, Nat.shiftRight_one]
    omega
  have hn : -(1 : BitVec w) = BitVec.allOnes w := BitVec.neg_one_eq_allOnes
  rw [decodeZigzag, ho, hn, BitVec.xor_allOnes, BitVec.toNat_not, hs]

theorem toNat_double_add {v : BitVec w} {c : Nat} (h : 2 * v.toNat + c < 2 ^ w) :
    (v * 2 + BitVec.ofNat w c).toNat = 2 * v.toNat + c := by
  have he : v * 2 + BitVec.ofNat w c = BitVec.ofNat w (2 * v.toNat + c) := by
    rw [BitVec.ofNat_add, BitVec.ofNat_mul, BitVec.ofNat_toNat, BitVec.setWidth_eq, BitVec.mul_comm]
    rfl
  rw [he, BitVec.toNat_ofNat, Nat.mod_eq_of_lt h]

theorem encodeZigzag_nonneg {v : BitVec w} (h : v.msb = false) :
    (encodeZigzag v).toNat = 2 * v.toNat := by
  have hlt := BitVec.msb_eq_false_iff_two_mul_lt.mp h
  have hs : v.slt 0 = false := BitVec.slt_zero_eq_msb.trans h
  have hd := toNat_double_add (c := 0) hlt
  rw [BitVec.add_zero, Nat.add_zero] at hd
  rw [encodeZigzag, hs, if_neg Bool.false_ne_true, hd]

theorem encodeZigzag_neg {v : BitVec w} (h : v.msb = true) :
    (encodeZigzag v).toNat = 2 * (~~~v).toNat + 1 := by
  have hge := BitVec.msb_eq_true_iff_two_mul_ge.mp h
  have hs : v.slt 0 = true := BitVec.slt_zero_eq_msb.trans h
  have hlt := v.isLt
  have hnot : (~~~v).toNat = 2 ^ w - 1 - v.toNat := BitVec.toNat_not
  have hv : -v * 2 - 1 = ~~~v * 2 + BitVec.ofNat w 1 := by
    rw [BitVec.neg_eq_not_add v]
    change (~~~v + 1) * 2 - 1 = ~~~v * 2 + 1
    ring
  rw [encodeZigzag, hs, if_pos rfl, hv, toNat_double_add (by omega)]

theorem decodeZigzag_encodeZigzag (hw : 0 < w) (v : BitVec w) :
    decodeZigzag (encodeZigzag v) = v := by
  apply BitVec.eq_of_toNat_eq
  cases hm : v.msb with
  | false => exact decodeZigzag_even hw (encodeZigzag_nonneg hm)
  | true =>
    have hlt := v.isLt
    rw [decodeZigzag_odd hw (encodeZigzag_neg hm), BitVec.toNat_not]
    omega

theorem decodeZigzag32_encodeZigzag32 (v : Int32) : decodeZigzag32 (encodeZigzag32 v) = v := by
  rw [decodeZigzag32, encodeZigzag32, decodeZigzag_encodeZigzag (by decide)]
  rfl

theorem decodeZigzag64_encodeZigzag64 (v : Int64) : decodeZigzag64 (encodeZigzag64 v) = v := by
  rw [decodeZigzag64, encodeZigzag64, decodeZigzag_encodeZigzag (by decide)]
  rfl

end Zigzag

/-- A string that is not empty and whose size fits the length field; any number. -/
def Writable : (k : Kind) → k.Val → Prop
  | .stringF16, v => v.data ≠ [] ∧ v.size ≤ 65535
  | .stringF32, v => v.data ≠ [] ∧ v.size < 2 ^ 32
  | .stringF64, v | .stringVint, v => v.data ≠ []
  | _, _ => True

theorem Str.fill_eq {size : UInt64} {str : Str} (h : size.toNat = str.size) :
    (Str.resize size).fill str.data = str := by
  obtain ⟨data, hlt⟩ := str
  have hl : (Str.resize size).data.length = data.length := by
    rw [Str.resize, List.length_replicate]
    exact h
  simp only [Str.fill, hl, List.take_left]

theorem parses_readString (hb : 0 < b) {size : UInt64} {str : Str} (h : size.toNat = str.size)
    (hne : str.data ≠ []) : Parses b e (readString size) str.data str := by
  have hp := parses_readBytes (e := e) hb hne
  have hl : str.data.length = size.toNat := h.symm
  rw [hl] at hp
  exact hp.map _ (Str.fill_eq h)

theorem parses_readVal (hb : 0 < b) (host : Endian) (k : Kind) (v : k.Val) (hv : Writable k v) :
    Parses b e (readVal host k) (wire e k v) v := by
  cases k with
  | fint8 => exact parses_readFint8 hb host v.toUInt8
  | fuint8 => exact parses_readFuint8 hb host v
  | fint16 => exact (parses_readFixed hb host (by decide) v.toUInt16.toNat_lt).map _ (by simp)
  | fuint16 => exact parses_readFuint16 hb host v
  | fint32 => exact (parses_readFixed hb host (by decide) v.toUInt32.toNat_lt).map _ (by simp)
  | fuint32 | float => exact parses_readFuint32 hb host v
  | fint64 => exact (parses_readFixed hb host (by decide) v.toUInt64.toNat_lt).map _ (by simp)
  | fuint64 | double => exact parses_readFuint64 hb host v
  | int32 => exact (parses_readUint32 hb host _).map _ (decodeZigzag32_encodeZigzag32 v)
  | uint32 => exact parses_readUint32 hb host v
  | int64 => exact (parses_readUint64 hb host _).map _ (decodeZigzag64_encodeZigzag64 v)
  | uint64 => exact parses_readUint64 hb host v
  | stringF16 =>
    have hs : (UInt16.ofNat v.size).toUInt64.toNat = v.size := by
      have := hv.2
      simp
      omega
    exact (parses_readFuint16 hb host _).bind (parses_readString hb hs hv.1)
  | stringF32 =>
    have hs : (UInt32.ofNat v.size).toUInt64.toNat = v.size := by
      have := hv.2
      simp
      omega
    exact (parses_readFuint32 hb host _).bind (parses_readString hb hs hv.1)
  | stringF64 =>
    have hs : (UInt64.ofNat v.size).toNat = v.size := Nat.mod_eq_of_lt v.size_lt
    exact (parses_readFuint64 hb host _).bind (parses_readString hb hs hv)
  | stringVint =>
    have hs : (UInt64.ofNat v.size).toNat = v.size := Nat.mod_eq_of_lt v.size_lt
    exact (parses_readUint64 hb host _).bind (parses_readString hb hs hv)

section Scripts

variable (host : Endian) (fresh : Nat → Nat → UInt8)

def items : List (Call α) → List α
  | [] => []
  | .setIsLittleEndian _ :: cs => items cs
  | .item a :: cs => a :: items cs

def inForce : Endian → List (Call α) → List (Endian × α)
  | _, [] => []
  | _, .setIsLittleEndian val :: cs => inForce (order val) cs
  | e, .item a :: cs => (e, a) :: inForce e cs

def finalOrder : Endian → List (Call α) → Endian
  | e, [] => e
  | _, .setIsLittleEndian val :: cs => finalOrder (order val) cs
  | e, .item _ :: cs => finalOrder e cs

theorem map_snd_inForce (e : Endian) (cs : List (Call α)) : (inForce e cs).map Prod.snd = items cs := by
  induction cs generalizing e with
  | nil => rfl
  | cons c cs ih =>
    cases c with
    | setIsLittleEndian val => exact ih (order val)
    | item a => simp [inForce, items, ih e]

def wires (l : List (Endian × Item)) : List UInt8 := l.flatMap fun p => wire p.1 p.2.1 p.2.2

theorem writeCalls_spec (hb : 0 < b) (cs : List (Call Item)) {s : Typed} {c : List UInt8}
    (h : Ended b e s c) :
    ∃ t, writeCalls host fresh s cs = some t ∧
      Ended b (finalOrder e cs) t (c ++ wires (inForce e cs)) := by
  induction cs generalizing e s c with
  | nil => exact ⟨s, rfl, by simpa [inForce, wires, finalOrder] using h⟩
  | cons call cs ih =>
    cases call with
    | setIsLittleEndian val =>
      have h' : Ended b (order val) (s.setIsLittleEndian val) c := ⟨h.inv, h.text_eq, rfl⟩
      exact ih h'
    | item i =>
      obtain ⟨t, ht, h'⟩ := (puts_writeVal hb host fresh i.1 i.2).emits s c h
      obtain ⟨u, hu, h''⟩ := ih h'
      refine ⟨u, by simp [writeCalls, ht, hu], ?_⟩
      simpa only [finalOrder, inForce, wires, List.flatMap_cons, List.append_assoc] using h''

theorem writeCalls_host (host' : Endian) (cs : List (Call Item)) (s : Typed) :
    writeCalls host fresh s cs = writeCalls host' fresh s cs := by
  induction cs generalizing s with
  | nil => rfl
  | cons call cs ih =>
    cases call with
    | setIsLittleEndian val => exact ih _
    | item i => simp only [writeCalls, writeVal_host host host', ih]

theorem readCalls_spec (hb : 0 < b) (cs : List (Call Kind)) (l : List (Endian × Item))
    (hl : inForce e cs = l.map fun p => (p.1, p.2.1)) (hw : ∀ p ∈ l, Writable p.2.1 p.2.2)
    {s : Typed} (h : Unread b e s (wires l)) :
    ∃ t, (readCalls host cs).run.run s = some (.ok (l.map Prod.snd), t) ∧
      Unread b (finalOrder e cs) t [] := by
  induction cs generalizing e l s with
  | nil =>
    have hn : l = [] := by simpa [inForce] using hl
    subst hn
    exact ⟨s, rfl, h⟩
  | cons call cs ih =>
    cases call with
    | setIsLittleEndian val =>
      have h' : Unread b (order val) (s.setIsLittleEndian val) (wires l) :=
        ⟨h.inv, h.drop_eq, rfl⟩
      exact ih l hl hw h'
    | item k =>
      cases l with
      | nil => simp [inForce] at hl
      | cons p l =>
        obtain ⟨e', k', v⟩ := p
        simp only [inForce, List.map_cons, List.cons.injEq, Prod.mk.injEq] at hl
        obtain ⟨⟨rfl, rfl⟩, hl⟩ := hl
        obtain ⟨hv, hw⟩ := List.forall_mem_cons.mp hw
        obtain ⟨t, ht, h'⟩ := parses_readVal hb host k v hv s (wires l) h
        obtain ⟨u, hu, h''⟩ := ih l hl hw h'
        refine ⟨u, ?_, h''⟩
        rw [readCalls, run_bind ht, run_bind hu]
        rfl

theorem Ended.rewind (hb : 0 < b) {s : Typed} {c : List UInt8} (h : Ended b e s c) :
    ∃ t, setPosition s.array 0 = some (t, .done) ∧ Unread b e { s with array := t } c := by
  obtain ⟨t, r, ht, hi, hx⟩ := step_text (fun _ _ => 0) hb h.inv (.setPosition 0) (by simp) (by simp)
  rw [h.text_eq] at hx
  obtain ⟨htx, rfl⟩ := Prod.mk.inj hx
  have hc : content t = c := (congrArg Text.content htx).symm
  have hp : t.position = 0 := (congrArg Text.position htx).symm
  exact ⟨t, ht, hi, by rw [hc, hp, List.drop_zero], h.order_eq⟩

theorem Unread.getReadSize_eq {s : Typed} (h : Unread b e s []) : s.array.getReadSize = 0 := by
  have hl : (content s.array).length ≤ s.array.position := List.drop_eq_nil_iff.mp h.drop_eq
  have hs : (content s.array).length = s.array.size := h.inv.size_eq
  rw [State.getReadSize]
  omega

theorem Typed.new_ended (b : Nat) : Ended b .big (Typed.new fresh b) [] where
  inv := new_inv fresh
  text_eq := by simp [Typed.new, text, flat, ByteArray.new]
  order_eq := rfl

/-- What the typed writers put into a new array the matching readers take out of
it again, on hosts of either byte order and whatever the blocks are, as long as
the order in force at each item is the same. The data are the items' bytes, on
which the host has no influence. -/
theorem codec_round_trip (b : Nat) (hb : 1 ≤ b) (ws : List (Call Item))
    (hw : ∀ i ∈ items ws, Writable i.1 i.2) (rs : List (Call Kind))
    (hr : inForce (finalOrder .big ws) rs = (inForce .big ws).map fun p => (p.1, p.2.1)) :
    ∃ s t u, writeCalls host fresh (Typed.new fresh b) ws = some s ∧
      setPosition s.array 0 = some (t, .done) ∧
      (readCalls host rs).run.run { s with array := t } = some (.ok (items ws), u) ∧
      u.array.getReadSize = 0 ∧ content s.array = wires (inForce .big ws) ∧
      ∀ host', writeCalls host' fresh (Typed.new fresh b) ws = some s := by
  obtain ⟨s, hs, h⟩ := writeCalls_spec host fresh hb ws (Typed.new_ended fresh b)
  obtain ⟨t, ht, h'⟩ := h.rewind hb
  have hws : ∀ p ∈ inForce .big ws, Writable p.2.1 p.2.2 := by
    intro p hp
    apply hw
    rw [← map_snd_inForce .big ws]
    exact List.mem_map_of_mem hp
  obtain ⟨u, hu, h''⟩ := readCalls_spec host hb rs (inForce .big ws) hr hws h'
  rw [map_snd_inForce] at hu
  refine ⟨s, t, u, hs, ht, hu, h''.getReadSize_eq, congrArg Text.content h.text_eq, ?_⟩
  intro host'
  rw [← hs, writeCalls_host host' fresh host]

end Scripts

theorem codec_round_trip_mixed :
    ∃ s t u, writeCalls .little (fun _ _ => 7) (Typed.new (fun _ _ => 7) 3)
        [.item ⟨.fint16, -2⟩, .setIsLittleEndian true, .item ⟨.int32, -3⟩,
          .item ⟨.stringF16, ⟨[104, 105], by decide⟩⟩] = some s ∧
      setPosition s.array 0 = some (t, .done) ∧
      (readCalls .little [.setIsLittleEndian false, .item .fint16, .setIsLittleEndian true,
          .item .int32, .item .stringF16]).run.run { s with array := t } =
        some (.ok [⟨.fint16, -2⟩, ⟨.int32, -3⟩, ⟨.stringF16, ⟨[104, 105], by decide⟩⟩], u) ∧
      u.array.getReadSize = 0 := by
  obtain ⟨s, t, u, hs, ht, hu, hz, -⟩ := codec_round_trip .little (fun _ _ => 7) 3 (by decide)
    [.item ⟨.fint16, -2⟩, .setIsLittleEndian true, .item ⟨.int32, -3⟩,
      .item ⟨.stringF16, ⟨[104, 105], by decide⟩⟩]
    (by simp [items, Writable, Str.size])
    [.setIsLittleEndian false, .item .fint16, .setIsLittleEndian true, .item .int32,
      .item .stringF16]
    rfl
  exact ⟨s, t, u, hs, ht, hu, hz⟩

example : wire .big .fint16 (-2) = [255, 254] ∧ wire .little .fint32 258 = [2, 1, 0, 0] := by decide

end Windgent.ByteArray
