import Windgent.ByteArray.Consume

namespace Windgent.ByteArray

open Segments Wire Transition

def writeStringOf (host : Endian) (fresh : Nat → Nat → UInt8) (s : Typed) (str : Str) : Length → Option Typed
  | .f16 => writeStringF16 host fresh s str
  | .f32 => writeStringF32 host fresh s str
  | .f64 => writeStringF64 host fresh s str
  | .vint => writeStringVint fresh s str

/-- A string written in front of some items is read back from its start, up to the first item. -/
def InSync (host : Endian) (fresh : Nat → Nat → UInt8) (l : Length) (str : Str) (items : List Item) (s : Typed) :
    Prop :=
  ∃ t u v w, writeStringOf host fresh s str l = some t ∧ writeCalls host fresh t (items.map .item) = some u ∧
    setPosition u.array s.array.position = some (v, .done) ∧
    (readStringOf host l).run.run { u with array := v } = some (.ok str, w) ∧
    w.array.position = t.array.position

def Length.Fits (str : Str) : Length → Prop
  | .f16 => str.size < 2 ^ 16
  | .f32 => str.size < 2 ^ 32
  | .f64 | .vint => True

def Length.width : Length → Nat
  | .f16 => 2
  | .f32 => 4
  | .f64 => 8
  | .vint => 1

/-- An empty string at the end of everything, whose length field fills the last block. -/
def AtEnd (l : Length) (str : Str) (items : List Item) (s : Typed) : Prop :=
  str.data = [] ∧ items = [] ∧ s.array.capacity ≤ s.array.position + l.width ∧
    s.array.blocksize ∣ s.array.position + l.width

variable {b : Nat} {e : Endian} {s : Typed}

def Length.field (e : Endian) (str : Str) : Length → List UInt8
  | .f16 => store e 2 (UInt16.ofNat str.size).toNat
  | .f32 => store e 4 (UInt32.ofNat str.size).toNat
  | .f64 => store e 8 (UInt64.ofNat str.size).toNat
  | .vint => varint (UInt64.ofNat str.size).toNat

/-- The length that the field holds. -/
def Length.kept (str : Str) : Length → Nat
  | .f16 => str.size % 2 ^ 16
  | .f32 => str.size % 2 ^ 32
  | .f64 | .vint => str.size

theorem Length.kept_eq_iff (str : Str) (l : Length) : l.kept str = str.size ↔ l.Fits str := by
  cases l with
  | f16 | f32 =>
    simp only [Length.kept, Length.Fits]
    omega
  | f64 | vint => exact iff_of_true rfl trivial

theorem Length.length_field {str : Str} (h : str.data = []) (l : Length) : (l.field e str).length = l.width := by
  have hsize : str.size = 0 := by rw [Str.size, h, List.length_nil]
  cases l with
  | f16 | f32 | f64 => exact length_store e _ _
  | vint =>
    rw [Length.field, hsize, varint]
    rfl

theorem puts_writeStringOf (hb : 0 < b) (host : Endian) (fresh : Nat → Nat → UInt8) (str : Str) (l : Length) :
    Puts b e (writeStringOf host fresh · str l) (l.field e str ++ str.data) := by
  cases l with
  | f16 => exact puts_writeVal hb host fresh .stringF16 str
  | f32 => exact puts_writeVal hb host fresh .stringF32 str
  | f64 => exact puts_writeVal hb host fresh .stringF64 str
  | vint => exact puts_writeVal hb host fresh .stringVint str

theorem takeFixed_store (n v : Nat) (rest : List UInt8) :
    takeFixed e n (store e n v ++ rest) = .ok (v % 256 ^ n, n) := by
  have hl := length_store e n v
  have hlen : ¬ (store e n v ++ rest).length < n := by
    rw [List.length_append, hl]
    omega
  have htake : (store e n v ++ rest).take n = store e n v := by
    rw [List.take_append_of_le_length hl.ge, List.take_of_length_le hl.le]
  rw [takeFixed, if_neg hlen, htake, load_store]

theorem take_of_parses {α : Type} {m : Reader α} {f : Take α} {bs rest : List UInt8} {a : α} (hm : Takes b e m f)
    (hp : Parses b e m bs a) (h : Inv b s.array) (he : s.endian = e) (hu : unread s = bs ++ rest) :
    f (unread s) = .ok (a, bs.length) := by
  obtain ⟨t, ht, hrest⟩ := hp s rest ⟨h, hu, he⟩
  have hrun := (hm.run s h he).symm.trans ht
  have hle := hm.le (unread s)
  cases hf : f (unread s) with
  | error n =>
    rw [hf] at hrun
    cases hrun
  | ok p =>
    obtain ⟨a', n⟩ := p
    rw [hf] at hrun hle
    obtain ⟨ha, hskip⟩ := Prod.mk.inj (Option.some.inj hrun)
    have hdrop : (unread s).drop n = rest := by
      rw [← unread_skip, hskip]
      exact hrest.drop_eq
    have hlen := congrArg List.length hdrop
    replace hle : n ≤ (unread s).length := hle
    rw [hu, List.length_append] at hle
    rw [hu, List.length_drop, List.length_append] at hlen
    rw [Except.ok.inj ha, show n = bs.length by omega]

theorem take_field (hb : 0 < b) (h : Inv b s.array) (he : s.endian = e) (str : Str) {rest : List UInt8} (l : Length)
    (hu : unread s = l.field e str ++ rest) :
    l.take e (unread s) = .ok (l.kept str, (l.field e str).length) := by
  cases l with
  | f16 =>
    rw [hu, Length.take, Length.field, takeFixed_store, length_store]
    simp [Length.kept]
  | f32 =>
    rw [hu, Length.take, Length.field, takeFixed_store, length_store]
    simp [Length.kept]
  | f64 =>
    have hlt := str.size_lt
    rw [hu, Length.take, Length.field, takeFixed_store, length_store]
    simp [Length.kept, Str.size]
    omega
  | vint =>
    have htake := take_of_parses ((takes_readVarintLoop .little hb 64 0 0).map UInt64.ofNat)
      (parses_readUint64 hb .little (UInt64.ofNat str.size)) h he hu
    unfold Take.map at htake
    rw [Length.take]
    cases hv : takeVarint 64 0 0 (unread s) with
    | error n => simp [hv, Except.map] at htake
    | ok p =>
      obtain ⟨v, n⟩ := p
      have hlt := takeVarint_lt (by decide) hv
      have hlt' : str.size < 2 ^ 64 := str.size_lt
      simp only [hv, Except.map, Except.ok.injEq, Prod.mk.injEq] at htake
      have hnat := congrArg UInt64.toNat htake.1
      simp only [UInt64.toNat_ofNat'] at hnat
      rw [Nat.mod_eq_of_lt hlt, Nat.mod_eq_of_lt hlt'] at hnat
      rw [hnat, htake.2]
      rfl

theorem mul_blockCount_iff (hb : 0 < b) (m : Nat) : b * blockCount m b = m ↔ b ∣ m := by
  constructor
  · exact fun h => ⟨_, h.symm⟩
  · rintro ⟨q, rfl⟩
    have hdiv : (b * q + b - 1) / b = q := by
      rw [Nat.add_sub_assoc (by omega), Nat.mul_add_div hb, Nat.div_eq_of_lt (by omega), Nat.add_zero]
    rw [blockCount, hdiv]

theorem write_capacity_iff (hb : 0 < b) {fresh : Nat → Nat → UInt8} {x y : State} (h : Inv b x) {buf : List UInt8}
    (hne : 0 < buf.length) (hw : write fresh x buf = some y) :
    x.position + buf.length = y.capacity ↔ x.capacity ≤ x.position + buf.length ∧ b ∣ x.position + buf.length := by
  have hpos := h.position_le.trans h.size_le
  have hdvd : b ∣ x.capacity := ⟨_, h.capacity⟩
  have hcap : y.capacity = (addCapacity fresh x buf.length).capacity := by
    rw [write, if_neg hne.ne'] at hw
    unfold writeNodes at hw
    split at hw
    · cases hw
    · obtain ⟨p, -, rfl⟩ := Option.map_eq_some_iff.mp hw
      rfl
  rw [hcap, addCapacity, if_neg hne.ne']
  by_cases hroom : buf.length ≤ x.getCapacity
  · rw [if_pos hroom]
    unfold State.getCapacity at hroom
    exact ⟨fun heq => ⟨heq.ge, heq ▸ hdvd⟩, fun hc => by omega⟩
  · rw [if_neg hroom]
    obtain ⟨ext, -, -, -, hgrown, -⟩ := addBlocks_spec fresh (blockCount (buf.length - x.getCapacity) x.blocksize) x
    have hnew : (if x.getCapacity = 0 then
        { addBlocks fresh (blockCount (buf.length - x.getCapacity) x.blocksize) x with
          cur := nodeAt (addBlocks fresh (blockCount (buf.length - x.getCapacity) x.blocksize) x).nodes x.nodes.length }
        else addBlocks fresh (blockCount (buf.length - x.getCapacity) x.blocksize) x).capacity =
        x.capacity + b * blockCount (buf.length - x.getCapacity) b := by
      rw [← h.block, ← hgrown]
      split <;> rfl
    have hgap : x.position + buf.length = x.capacity + (buf.length - x.getCapacity) := by
      unfold State.getCapacity at *
      omega
    refine Iff.trans (by rw [hnew, hgap, Nat.add_left_cancel_iff, eq_comm, mul_blockCount_iff hb]) ?_
    rw [hgap, (Nat.dvd_add_right hdvd)]
    exact ⟨fun hd => ⟨by omega, hd⟩, fun hc => hc.2⟩

theorem wire_ne_nil (e : Endian) (k : Kind) (v : k.Val) : wire e k v ≠ [] := by
  have hstore : ∀ n m, 0 < n → store e n m ≠ [] := fun n m hn =>
    List.length_pos_iff.mp ((length_store e n m).symm ▸ hn)
  cases k with
  | fint8 | fuint8 => exact List.cons_ne_nil _ _
  | fint16 | fuint16 | fint32 | fuint32 | fint64 | fuint64 | float | double => exact hstore _ _ (by decide)
  | int32 | uint32 | int64 | uint64 => exact varint_ne_nil _
  | stringF16 | stringF32 | stringF64 => exact List.append_ne_nil_of_left_ne_nil (hstore _ _ (by decide)) _
  | stringVint => exact List.append_ne_nil_of_left_ne_nil (varint_ne_nil _) _

theorem puts_items (hb : 0 < b) (host : Endian) (fresh : Nat → Nat → UInt8) (items : List Item) :
    Puts b e (writeCalls host fresh · (items.map .item)) (items.flatMap fun i => wire e i.1 i.2) := by
  induction items with
  | nil =>
    intro s h he
    exact ⟨s, rfl, h, by simp [text, flat, content], rfl⟩
  | cons i items ih => exact (puts_writeVal hb host fresh i.1 i.2).bind ih

theorem writeStringOf_empty {host : Endian} {fresh : Nat → Nat → UInt8} {str : Str} {t : Typed} {l : Length}
    (hdata : str.data = []) (h : writeStringOf host fresh s str l = some t) :
    write fresh s.array (l.field s.endian str) = some t.array := by
  have hbytes : ∀ buf, (writeBytes fresh s buf).bind (writeBytes fresh · []) = some t →
      write fresh s.array buf = some t.array := by
    intro buf hbuf
    obtain ⟨u, hu, ht⟩ := Option.bind_eq_some_iff.mp hbuf
    obtain ⟨x, hx, rfl⟩ := Option.map_eq_some_iff.mp hu
    have hnil : writeBytes fresh { s with array := x } [] = some { s with array := x } := by
      simp [writeBytes, write]
    rw [hnil] at ht
    cases ht
    exact hx
  cases l with
  | f16 =>
    rw [writeStringOf, writeStringF16, writeFuint16, writeFixed_eq, hdata] at h
    exact hbytes _ h
  | f32 =>
    rw [writeStringOf, writeStringF32, writeFuint32, writeFixed_eq, hdata] at h
    exact hbytes _ h
  | f64 =>
    rw [writeStringOf, writeStringF64, writeFuint64, writeFixed_eq, hdata] at h
    exact hbytes _ h
  | vint =>
    rw [writeStringOf, writeStringVint, hdata] at h
    exact hbytes _ h

theorem drop_overwrite {l d : List UInt8} {p : Nat} (h : p ≤ l.length) :
    (overwrite l p d).drop p = d ++ l.drop (p + d.length) := by
  rw [overwrite, List.append_assoc, List.drop_append_of_le_length (by simp [h]), List.drop_take, Nat.sub_self,
    List.take_zero, List.nil_append]

theorem Wrote.rewind (hb : 0 < b) {u : Typed} {bs : List UInt8} (h : Inv b s.array) (hw : Wrote b s u bs) :
    ∃ v, setPosition u.array s.array.position = some (v, .done) ∧ Inv b v ∧ v.position = s.array.position ∧
      v.capacity = u.array.capacity ∧
      unread { u with array := v } = bs ++ (content s.array).drop (s.array.position + bs.length) := by
  have hle : s.array.position ≤ (content s.array).length := h.position_le.trans_eq h.size_eq.symm
  have hcontent : content u.array = overwrite (content s.array) s.array.position bs :=
    congrArg Text.content hw.text_eq
  have hposition : u.array.position = s.array.position + bs.length := congrArg Text.position hw.text_eq
  have hsize := hw.inv.position_le
  have hcap := hw.inv.size_le
  have hin : s.array.position ≤ u.array.capacity := by omega
  obtain ⟨v, hv, hi, hnodes, hpos, hvsize⟩ := setPosition_within hb hw.inv hin
  refine ⟨v, hv, hi, hpos, by rw [hi.capacity, hw.inv.capacity, hnodes], ?_⟩
  have hsame : content v = content u.array := by
    have hmax : v.size = u.array.size := by omega
    simp only [content, text, flat, hnodes, hmax]
  simp only [unread, hsame, hpos, hcontent, drop_overwrite hle]

theorem Str.length_resize_fill {size : Nat} (h : size < 2 ^ 64) (d : List UInt8) :
    ((Str.resize (UInt64.ofNat size)).fill d).size = size := by
  simp only [Str.size, Str.fill, Str.resize, List.length_take, List.length_append, List.length_drop,
    List.length_replicate, UInt64.toNat_ofNat', Nat.mod_eq_of_lt h]
  omega

theorem Length.kept_lt (str : Str) (l : Length) : l.kept str < 2 ^ 64 := by
  have hlt : str.size < 2 ^ 64 := str.size_lt
  cases l <;> simp only [Length.kept] <;> omega

theorem atEnd_iff (hb : 0 < b) (h : Inv b s.array) {host : Endian} {fresh : Nat → Nat → UInt8} {l : Length} {str : Str}
    {items : List Item} {t u : Typed} (ht : writeStringOf host fresh s str l = some t)
    (hu : writeCalls host fresh t (items.map .item) = some u)
    (hw : Wrote b s u (l.field s.endian str ++ str.data ++ items.flatMap fun i => wire s.endian i.1 i.2)) :
    (str.size = 0 ∧ s.array.position + (l.field s.endian str).length = u.array.capacity) ↔ AtEnd l str items s := by
  have hpos : u.array.position = _ := congrArg Text.position hw.text_eq
  have hsize := hw.inv.position_le
  have hcap := hw.inv.size_le
  unfold AtEnd
  rw [Str.size, List.length_eq_zero_iff]
  refine and_congr_right fun hdata => ?_
  have hwidth := Length.length_field (e := s.endian) hdata l
  have hne : 0 < (l.field s.endian str).length := by
    rw [hwidth]
    cases l <;> decide
  have hend := write_capacity_iff hb h hne (writeStringOf_empty hdata ht)
  rw [h.block, ← hwidth]
  constructor
  · intro heq
    have hitems : items = [] := by
      cases items with
      | nil => rfl
      | cons i items =>
        have hwire := List.length_pos_iff.mpr (wire_ne_nil s.endian i.1 i.2)
        simp only [List.length_append, List.flatMap_cons] at hpos
        omega
    subst hitems
    obtain rfl := Option.some.inj hu
    exact ⟨rfl, hend.mp heq⟩
  · rintro ⟨rfl, hc⟩
    obtain rfl := Option.some.inj hu
    exact hend.mpr hc

theorem inSync_of_inv (hb : 0 < b) (h : Inv b s.array) (fresh : Nat → Nat → UInt8) (host : Endian) (l : Length)
    (str : Str) (items : List Item) :
    InSync host fresh l str items s ↔ l.Fits str ∧ ¬ AtEnd l str items s := by
  obtain ⟨t, ht, hwt⟩ := puts_writeStringOf hb host fresh str l s h rfl
  obtain ⟨u, hu, hwu⟩ := (puts_writeStringOf hb host fresh str l).bind (puts_items hb host fresh items) s h rfl
  dsimp only at ht hu
  rw [ht, Option.bind_some] at hu
  obtain ⟨v, hv, hi, hvpos, hvcap, hunread⟩ := hwu.rewind hb h
  obtain ⟨rest, hsplit⟩ : ∃ rest, unread { u with array := v } = l.field s.endian str ++ (str.data ++ rest) :=
    ⟨_, by rw [hunread, List.append_assoc, List.append_assoc]⟩
  have he : ({ u with array := v } : Typed).endian = s.endian := hwu.order_eq
  have htake := take_field hb hi he str l hsplit
  have hrun := run_readStringOf hb hi he host l
  rw [htake] at hrun
  have hsync : InSync host fresh l str items s ↔ ∃ w, stringAfter { u with array := v }
      (.ok (l.kept str, (l.field s.endian str).length)) = some (.ok str, w) ∧ w.array.position = t.array.position := by
    rw [← hrun]
    constructor
    · rintro ⟨t', u', v', w, ht', hu', hv', hw, hpos⟩
      obtain rfl := Option.some.inj (ht.symm.trans ht')
      obtain rfl := Option.some.inj (hu.symm.trans hu')
      obtain ⟨rfl, -⟩ := Prod.mk.inj (Option.some.inj (hv.symm.trans hv'))
      exact ⟨w, hw, hpos⟩
    · rintro ⟨w, hw, hpos⟩
      exact ⟨t, u, v, w, ht, hu, hv, hw, hpos⟩
  rw [hsync, ← atEnd_iff hb h ht hu hwu, ← l.kept_eq_iff, stringAfter, hsplit, hvpos, hvcap]
  by_cases hfits : l.kept str = str.size
  · have hroom : ¬ (l.field s.endian str ++ (str.data ++ rest)).length - (l.field s.endian str).length < str.size := by
      simp only [List.length_append, Str.size]
      omega
    have hfill : ((l.field s.endian str ++ (str.data ++ rest)).drop (l.field s.endian str).length).take str.size =
        str.data := by
      rw [List.drop_left, Str.size, List.take_left]
    have hstr : (Str.resize (UInt64.ofNat str.size)).fill str.data = str :=
      Str.fill_eq (Nat.mod_eq_of_lt str.size_lt)
    rw [hfits, and_iff_right rfl, if_neg hroom, hfill, hstr]
    split
    · rename_i hnull
      exact iff_of_false (by simp) (not_not_intro hnull)
    · rename_i hnull
      refine iff_of_true ⟨_, rfl, ?_⟩ hnull
      have hpos : t.array.position = _ := congrArg Text.position hwt.text_eq
      rw [hpos, List.length_append]
      simp only [Typed.skip, hvpos, Str.size]
  · refine iff_of_false ?_ (fun hc => hfits hc.1)
    rintro ⟨w, hw, -⟩
    split at hw
    · cases hw
    · split at hw
      · cases hw
      · have hstr := Except.ok.inj (Prod.mk.inj (Option.some.inj hw)).1
        have hlen := congrArg Str.size hstr
        rw [Str.length_resize_fill (l.kept_lt str)] at hlen
        exact hfits hlen

/-- When a string with its length is read back up to what follows it. -/
theorem inSync_iff (hb : 1 ≤ b) {fresh : Nat → Nat → UInt8}
    (hr : Reachable (fun s => s = new fresh b) (ByteArray.advance fresh) s.array) (host : Endian) (l : Length)
    (str : Str) (items : List Item) :
    InSync host fresh l str items s ↔ l.Fits str ∧ ¬ AtEnd l str items s :=
  inSync_of_inv hb (inv_of_reachable hb hr) fresh host l str items

theorem inSync_greeting :
    InSync .little (fun _ _ => 7) .f16 ⟨[104, 105], by decide⟩ [⟨.fuint8, 9⟩] ⟨sixBytes, .big⟩ := by
  refine (inSync_iff (s := ⟨sixBytes, .big⟩) (by decide) sixBytes_reachable .little .f16 ⟨[104, 105], by decide⟩
    [⟨.fuint8, 9⟩]).mpr ⟨?_, fun h => ?_⟩
  · show 2 < 2 ^ 16
    decide
  · cases h.1

def longString : Str := ⟨List.replicate 65536 7, by rw [List.length_replicate]; decide⟩

/-- Its length field says that it is empty. -/
theorem longString_out_of_sync :
    Reachable (fun s => s = new (fun _ _ => 7) 4) (ByteArray.advance fun _ _ => 7) sixBytes ∧
      ¬ InSync .little (fun _ _ => 7) .f16 longString [⟨.fuint8, 9⟩] ⟨sixBytes, .big⟩ := by
  have hi := inv_of_reachable (by decide) sixBytes_reachable
  refine ⟨sixBytes_reachable, fun h => ?_⟩
  have hfits : longString.size < 2 ^ 16 :=
    ((inSync_of_inv (s := ⟨sixBytes, .big⟩) (by decide) hi _ _ _ _ _).mp h).1
  rw [Str.size, longString, List.length_replicate] at hfits
  exact absurd hfits (by decide)

end Windgent.ByteArray
