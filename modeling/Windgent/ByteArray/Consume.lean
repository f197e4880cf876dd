import Windgent.ByteArray.Codec
import Windgent.ByteArray.Buffers

namespace Windgent.ByteArray

open Segments Wire Transition

def unread (s : Typed) : List UInt8 := (content s.array).drop s.array.position

def Typed.skip (s : Typed) (n : Nat) : Typed :=
  { s with array := { s.array with
      position := s.array.position + n
      cur := nodeAt s.array.nodes ((s.array.position + n) / s.array.blocksize) } }

/-- What a reader makes of the bytes in front of it: a value and the number of bytes it takes,
or the number of bytes it has taken when it throws. -/
abbrev Take (α : Type) := List UInt8 → Except Nat (α × Nat)

variable {α β : Type}

def taken : Except Nat (α × Nat) → Nat
  | .ok (_, n) => n
  | .error n => n

def Typed.after (s : Typed) : Except Nat (α × Nat) → Except Thrown α × Typed
  | .ok (a, n) => (.ok a, s.skip n)
  | .error n => (.error .outOfRange, s.skip n)

def Take.pure (a : α) : Take α := fun _ => .ok (a, 0)

def Take.bind (f : Take α) (g : α → Take β) : Take β := fun u =>
  match f u with
  | .error n => .error n
  | .ok (a, n) =>
    match g a (u.drop n) with
    | .error k => .error (n + k)
    | .ok (c, k) => .ok (c, n + k)

def Take.map (g : α → β) (f : Take α) : Take β := fun u => (f u).map fun p => (g p.1, p.2)

structure Takes (b : Nat) (e : Endian) (m : Reader α) (f : Take α) : Prop where
  run : ∀ s : Typed, Inv b s.array → s.endian = e → m.run.run s = some (s.after (f (unread s)))
  le : ∀ u, taken (f u) ≤ u.length

variable {b : Nat} {e : Endian} {s : Typed}

section Skip

theorem length_unread (h : Inv b s.array) : (unread s).length = s.array.getReadSize := by
  rw [unread, List.length_drop, State.getReadSize, ← h.size_eq]
  rfl

theorem skip_zero (h : Inv b s.array) : s.skip 0 = s := by
  have hcur := h.cur
  rw [← h.block] at hcur
  rw [Typed.skip, Nat.add_zero, ← hcur]

theorem skip_skip (s : Typed) (n k : Nat) : (s.skip n).skip k = s.skip (n + k) := by
  simp only [Typed.skip, Nat.add_assoc]

theorem unread_skip (s : Typed) (n : Nat) : unread (s.skip n) = (unread s).drop n := by
  rw [unread, unread, List.drop_drop]
  rfl

theorem Inv.skip (h : Inv b s.array) {n : Nat} (hn : n ≤ (unread s).length) : Inv b (s.skip n).array := by
  have hpos := h.position_le
  rw [length_unread h, State.getReadSize] at hn
  refine ⟨h.block, h.uniform, h.nonempty, h.capacity, ?_, h.size_le, ?_⟩
  · change s.array.position + n ≤ s.array.size
    omega
  · simp only [Typed.skip, h.block]

theorem skip_eq_self_iff (h : Inv b s.array) {n : Nat} : s.skip n = s ↔ n = 0 := by
  constructor
  · intro heq
    have hpos : s.array.position + n = s.array.position := congrArg (fun t => t.array.position) heq
    omega
  · rintro rfl
    exact skip_zero h

end Skip

section Bytes

theorem run_readBytes (hb : 0 < b) (h : Inv b s.array) {n : Nat} (hn : 0 < n) :
    (readBytes n).run.run s = some (if (unread s).length < n then (.error .outOfRange, s)
      else (.ok ((unread s).take n), s.skip n)) := by
  have hlen := length_unread h
  unfold readBytes
  change (read s.array n).map _ = _
  rw [hlen]
  by_cases hshort : s.array.getReadSize < n
  · rw [if_pos hshort, read, if_pos hshort]
    rfl
  · have hle : n ≤ s.array.getReadSize := Nat.le_of_not_lt hshort
    obtain ⟨hcur, hloop⟩ := readLoop_cursor hb h hn hle
    have htake : (unread s).take n = slice s.array.nodes.flatten s.array.position n := by
      have hsize := h.position_le
      unfold State.getReadSize at hle
      exact slice_take (by change _ ≤ s.array.size; omega)
    rw [if_neg hshort, read, if_neg hshort, hcur]
    simp only [hn.ne', if_false, h.block, hloop, Option.map_some, htake, cursor_add hb, Typed.skip]

def takeBytes (n : Nat) : Take (List UInt8) := fun u => if u.length < n then .error 0 else .ok (u.take n, n)

theorem takes_readBytes (hb : 0 < b) {n : Nat} (hn : 0 < n) : Takes b e (readBytes n) (takeBytes n) where
  run s h _ := by
    rw [run_readBytes hb h hn, takeBytes]
    split
    · rw [Typed.after, skip_zero h]
    · rfl
  le u := by
    unfold takeBytes
    split
    · exact Nat.zero_le _
    · exact Nat.le_of_not_lt ‹_›

end Bytes

section Rules

variable {m : Reader α} {f : Take α}

theorem Takes.pure (a : α) : Takes b e (Pure.pure a) (Take.pure a) where
  run s h _ := by
    rw [Take.pure, Typed.after, skip_zero h]
    rfl
  le _ := Nat.zero_le _

theorem run_bind_error {m : Reader α} {f : α → Reader β} {s t : Typed} {x : Thrown}
    (hm : m.run.run s = some (.error x, t)) : (m >>= f).run.run s = some (.error x, t) := by
  simp only [ExceptT.run_bind, StateT.run_bind, hm]
  rfl

theorem Takes.bind {g : α → Reader β} {h : α → Take β} (hm : Takes b e m f) (hg : ∀ a, Takes b e (g a) (h a)) :
    Takes b e (m >>= g) (f.bind h) where
  run s hi he := by
    have hrun := hm.run s hi he
    have hle := hm.le (unread s)
    unfold Take.bind
    cases hf : f (unread s) with
    | error n =>
      rw [hf] at hrun
      exact run_bind_error hrun
    | ok p =>
      obtain ⟨a, n⟩ := p
      rw [hf] at hrun hle
      have hnext := (hg a).run (s.skip n) (hi.skip hle) he
      rw [unread_skip] at hnext
      rw [run_bind hrun, hnext]
      dsimp only
      cases hh : h a ((unread s).drop n) with
      | error k => simp only [Typed.after, skip_skip]
      | ok q => simp only [Typed.after, skip_skip]
  le u := by
    have hle := hm.le u
    unfold Take.bind
    cases hf : f u with
    | error n =>
      rw [hf] at hle
      exact hle
    | ok p =>
      obtain ⟨a, n⟩ := p
      rw [hf] at hle
      have hnext := (hg a).le (u.drop n)
      rw [List.length_drop] at hnext
      dsimp only
      cases hh : h a (u.drop n) with
      | error k =>
        rw [hh] at hnext
        simp only [taken] at *
        omega
      | ok q =>
        rw [hh] at hnext
        simp only [taken] at *
        omega

theorem Takes.map (g : α → β) (hm : Takes b e m f) : Takes b e (m >>= fun x => Pure.pure (g x)) (f.map g) := by
  have h := hm.bind fun a => Takes.pure (g a)
  have heq : f.bind (fun a => Take.pure (g a)) = f.map g := by
    funext u
    unfold Take.bind Take.map Take.pure
    cases f u <;> rfl
  rwa [heq] at h

end Rules

section Numbers

variable (host : Endian)

def takeFixed (e : Endian) (n : Nat) : Take Nat := fun u =>
  if u.length < n then .error 0 else .ok (load e (u.take n), n)

/-- The loop of `readUint32` and `readUint64`. -/
def takeVarint (w i result : Nat) : Take Nat
  | [] => if i < w then .error 0 else .ok (result, 0)
  | c :: u =>
    if i < w then
      if c.toNat < 0x80 then .ok (result ||| (c.toNat <<< i) % 2 ^ w, 1)
      else
        match takeVarint w (i + 7) (result ||| ((c.toNat &&& 0x7F) <<< i) % 2 ^ w) u with
        | .error n => .error (1 + n)
        | .ok (v, n) => .ok (v, 1 + n)
    else .ok (result, 0)

def takeByte : Take UInt8
  | [] => .error 0
  | c :: _ => .ok (c, 1)

theorem takes_readObject (hb : 0 < b) {n : Nat} (hn : 0 < n) :
    Takes b e (readObject host n) ((takeBytes n).map (load host)) := (takes_readBytes hb hn).map (load host)

theorem takes_readFuint8 (hb : 0 < b) : Takes b e (readFuint8 host) takeByte := by
  have h := ((takes_readObject (e := e) host hb Nat.one_pos).map fun v => (UInt8.ofNat v).toInt8).map Int8.toUInt8
  have heq : (((takeBytes 1).map (load host)).map fun v => (UInt8.ofNat v).toInt8).map Int8.toUInt8 = takeByte := by
    funext u
    cases u with
    | nil => rfl
    | cons c u =>
      have hl : load host [c] = c.toNat := by cases host <;> simp [load, value]
      simp [Take.map, takeBytes, takeByte, Except.map, hl]
  rw [heq] at h
  exact h

theorem takes_readFixed (hb : 0 < b) {n : Nat} (hn : 0 < n) : Takes b e (readFixed host n) (takeFixed e n) where
  run s h he := by
    have hrun := (takes_readObject host hb hn).run s h he
    unfold takeFixed
    by_cases hshort : (unread s).length < n
    · simp only [Take.map, takeBytes, if_pos hshort, Except.map] at hrun
      rw [if_pos hshort, readFixed]
      exact run_bind_error hrun
    · simp only [Take.map, takeBytes, if_neg hshort, Except.map] at hrun
      rw [if_neg hshort, readFixed, run_bind hrun]
      have hl : ((unread s).take n).length = n := List.length_take_of_le (Nat.le_of_not_lt hshort)
      have hload := load_swapped e host hl
      rw [← he] at hload ⊢
      exact congrArg (fun x => some (Except.ok x, s.skip n)) hload
  le u := by
    unfold takeFixed
    split
    · exact Nat.zero_le _
    · exact Nat.le_of_not_lt ‹_›

theorem takeVarint_of_le {w i r : Nat} (hi : w ≤ i) (u : List UInt8) : takeVarint w i r u = .ok (r, 0) := by
  cases u <;> rw [takeVarint, if_neg (Nat.not_lt.mpr hi)]

theorem takeVarint_cons_ok {w i r v n : Nat} {c : UInt8} {u : List UInt8} (hi : i < w)
    (h : takeVarint w i r (c :: u) = .ok (v, n)) :
    (c.toNat < 0x80 ∧ n = 1 ∧ v = r ||| (c.toNat <<< i) % 2 ^ w) ∨
      (0x80 ≤ c.toNat ∧ ∃ k, n = k + 1 ∧
        takeVarint w (i + 7) (r ||| ((c.toNat &&& 0x7F) <<< i) % 2 ^ w) u = .ok (v, k)) := by
  rw [takeVarint, if_pos hi] at h
  split at h
  · rename_i hc
    cases h
    exact .inl ⟨hc, rfl, rfl⟩
  · rename_i hc
    split at h
    · cases h
    · rename_i v' k heq
      cases h
      exact .inr ⟨Nat.le_of_not_lt hc, k, Nat.add_comm .., heq⟩

theorem takeVarint_pos {w i r v n : Nat} {u : List UInt8} (hi : i < w) (h : takeVarint w i r u = .ok (v, n)) :
    0 < n := by
  cases u with
  | nil =>
    rw [takeVarint, if_pos hi] at h
    cases h
  | cons c u =>
    obtain ⟨-, rfl, -⟩ | ⟨-, k, rfl, -⟩ := takeVarint_cons_ok hi h
    · exact Nat.one_pos
    · exact k.succ_pos

theorem takes_readVarintLoop (hb : 0 < b) (w i r : Nat) :
    Takes b e (readVarintLoop host w i r) (takeVarint w i r) := by
  induction i, r using readVarintLoop.induct (w := w) with
  | case1 i r hi ih =>
    have h := (takes_readFuint8 (e := e) host hb).bind
      (g := fun c => if c.toNat < 0x80 then pure (r ||| (c.toNat <<< i) % 2 ^ w)
        else readVarintLoop host w (i + 7) (r ||| ((c.toNat &&& 0x7F) <<< i) % 2 ^ w))
      (h := fun c => if c.toNat < 0x80 then Take.pure (r ||| (c.toNat <<< i) % 2 ^ w)
        else takeVarint w (i + 7) (r ||| ((c.toNat &&& 0x7F) <<< i) % 2 ^ w))
      (fun c => by
        split
        · exact Takes.pure _
        · exact ih c)
    have heq : takeByte.bind (fun c => if c.toNat < 0x80 then Take.pure (r ||| (c.toNat <<< i) % 2 ^ w)
        else takeVarint w (i + 7) (r ||| ((c.toNat &&& 0x7F) <<< i) % 2 ^ w)) = takeVarint w i r := by
      funext u
      cases u with
      | nil => simp [Take.bind, takeByte, takeVarint, hi]
      | cons c u =>
        by_cases hc : c.toNat < 0x80
        · simp [Take.bind, takeByte, takeVarint, hi, hc, Take.pure]
        · simp only [Take.bind, takeByte, takeVarint, hi, hc, if_true, if_false, List.drop_succ_cons, List.drop_zero]
          cases takeVarint w (i + 7) (r ||| ((c.toNat &&& 0x7F) <<< i) % 2 ^ w) u <;> rfl
    rw [heq] at h
    rw [readVarintLoop, if_pos hi]
    exact h
  | case2 i r hi =>
    have heq : takeVarint w i r = Take.pure r := funext (takeVarint_of_le (Nat.le_of_not_lt hi))
    rw [readVarintLoop, if_neg hi, heq]
    exact Takes.pure r

end Numbers

section Strings

inductive Length where
  | f16 | f32 | f64 | vint
deriving DecidableEq

def readStringOf (host : Endian) : Length → Reader Str
  | .f16 => readStringF16 host
  | .f32 => readStringF32 host
  | .f64 => readStringF64 host
  | .vint => readStringVint host

def Length.take (e : Endian) : Length → Take Nat
  | .f16 => takeFixed e 2
  | .f32 => takeFixed e 4
  | .f64 => takeFixed e 8
  | .vint => takeVarint 64 0 0

theorem run_readString (hb : 0 < b) (h : Inv b s.array) (size : UInt64) :
    (readString size).run.run s =
      if (unread s).length < size.toNat then some (.error .outOfRange, s)
      else if size.toNat = 0 ∧ s.array.position = s.array.capacity then none
      else some (.ok ((Str.resize size).fill ((unread s).take size.toNat)), s.skip size.toNat) := by
  obtain hzero | hpos := Nat.eq_zero_or_pos size.toNat
  · have hcur := h.cur_eq hb
    rw [readString, hzero, if_neg (Nat.not_lt_zero _)]
    by_cases hend : s.array.position = s.array.capacity
    · rw [if_pos hend] at hcur
      have hread : (readBytes 0).run.run s = none := by
        simp [readBytes, ExceptT.run_mk, StateT.run, read, hcur]
      rw [if_pos ⟨rfl, hend⟩, ExceptT.run_bind, StateT.run_bind, hread]
      rfl
    · rw [if_neg hend] at hcur
      have hread : (readBytes 0).run.run s = some (.ok [], s) := by
        simp [readBytes, ExceptT.run_mk, StateT.run, read, hcur]
      rw [if_neg (fun hc => hend hc.2), run_bind hread, skip_zero h]
      rfl
  · have hrun := run_readBytes hb h hpos
    rw [readString]
    by_cases hshort : (unread s).length < size.toNat
    · rw [if_pos hshort] at hrun ⊢
      exact run_bind_error hrun
    · rw [if_neg hshort] at hrun ⊢
      rw [if_neg (fun hc => hpos.ne' hc.1), run_bind hrun]
      rfl

/-- What a string reader does, given the length that it finds. -/
def stringAfter (s : Typed) : Except Nat (Nat × Nat) → Option (Except Thrown Str × Typed)
  | .error n => some (.error .outOfRange, s.skip n)
  | .ok (size, n) =>
    if (unread s).length - n < size then some (.error .outOfRange, s.skip n)
    else if size = 0 ∧ s.array.position + n = s.array.capacity then none
    else some (.ok ((Str.resize (UInt64.ofNat size)).fill (((unread s).drop n).take size)), s.skip (n + size))

theorem run_string (hb : 0 < b) (h : Inv b s.array) (he : s.endian = e) {m : Reader α} {f : Take Nat} {g : Nat → α}
    (hm : Takes b e m (f.map g)) {k : α → UInt64} (hk : ∀ u size n, f u = .ok (size, n) → (k (g size)).toNat = size) :
    (m >>= fun a => readString (k a)).run.run s = stringAfter s (f (unread s)) := by
  have hrun := hm.run s h he
  have hle := hm.le (unread s)
  unfold Take.map at hrun hle
  cases hf : f (unread s) with
  | error n =>
    rw [hf] at hrun
    exact run_bind_error hrun
  | ok p =>
    obtain ⟨size, n⟩ := p
    have hsize := hk _ _ _ hf
    rw [hf] at hrun hle
    replace hle : n ≤ (unread s).length := hle
    replace hrun : m.run.run s = some (.ok (g size), s.skip n) := hrun
    have hlen : k (g size) = UInt64.ofNat size := by
      have hof := UInt64.ofNat_toNat (x := k (g size))
      rw [hsize] at hof
      exact hof.symm
    rw [run_bind hrun, run_readString hb (h.skip hle), unread_skip, List.length_drop, hsize, hlen, skip_skip]
    rfl

theorem load_lt (e : Endian) (bs : List UInt8) : load e bs < 256 ^ bs.length := by
  cases e with
  | little => exact value_lt bs
  | big =>
    have h := value_lt bs.reverse
    rwa [List.length_reverse] at h

theorem takeFixed_lt {u : List UInt8} {n size k : Nat} (h : takeFixed e n u = .ok (size, k)) : size < 256 ^ n := by
  unfold takeFixed at h
  split at h
  · cases h
  · rename_i hlen
    cases h
    have hlt := load_lt e (u.take n)
    rwa [List.length_take_of_le (Nat.le_of_not_lt hlen)] at hlt

theorem takeVarint_lt {w i r : Nat} (hr : r < 2 ^ w) {u : List UInt8} {v k : Nat}
    (h : takeVarint w i r u = .ok (v, k)) : v < 2 ^ w := by
  have hor : ∀ d : Nat, r ||| d % 2 ^ w < 2 ^ w := fun d => Nat.or_lt_two_pow hr (Nat.mod_lt _ (Nat.two_pow_pos w))
  induction u generalizing i r k with
  | nil =>
    rw [takeVarint] at h
    split at h
    · cases h
    · cases h
      exact hr
  | cons c u ih =>
    obtain hi | hi := Nat.lt_or_ge i w
    · obtain ⟨-, -, rfl⟩ | ⟨-, n, -, hrest⟩ := takeVarint_cons_ok hi h
      · exact hor _
      · exact ih (hor _) hrest fun d => Nat.or_lt_two_pow (hor _) (Nat.mod_lt _ (Nat.two_pow_pos w))
    · rw [takeVarint_of_le hi] at h
      cases h
      exact hr

theorem run_readStringOf (hb : 0 < b) (h : Inv b s.array) (he : s.endian = e) (host : Endian) (l : Length) :
    (readStringOf host l).run.run s = stringAfter s (l.take e (unread s)) := by
  cases l with
  | f16 =>
    refine run_string hb h he ((takes_readFixed host hb (by decide)).map UInt16.ofNat) fun u size n hu => ?_
    have hlt := takeFixed_lt hu
    simp
    omega
  | f32 =>
    refine run_string hb h he ((takes_readFixed host hb (by decide)).map UInt32.ofNat) fun u size n hu => ?_
    have hlt := takeFixed_lt hu
    simp
    omega
  | f64 =>
    refine run_string (k := id) hb h he ((takes_readFixed host hb (by decide)).map UInt64.ofNat) fun u size n hu => ?_
    exact Nat.mod_eq_of_lt (takeFixed_lt hu)
  | vint =>
    refine run_string (k := id) hb h he ((takes_readVarintLoop host hb 64 0 0).map UInt64.ofNat) fun u size n hu => ?_
    exact Nat.mod_eq_of_lt (takeVarint_lt (by decide) hu)

end Strings

end Windgent.ByteArray
