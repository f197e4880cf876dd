import Windgent.ByteArray.Consume
import Windgent.ByteArray.Files
import Windgent.ByteArray.Positional

namespace Windgent.ByteArray

open Segments Wire Transition MachineInt

/-- The public operations that look at nodes; `toHexString` calls `toString`, and
`writeStringWithoutLen` calls `write`. -/
inductive Access where
  | write (buf : List UInt8)
  | read (size : Nat)
  | readAt (size pos : Nat)
  | setPosition (val : Nat)
  | addCapacity (size : Nat)
  | clear
  | toString
  | getReadBuffers (len : Nat)
  | getReadBuffersAt (len pos : Nat)
  | getWriteBuffers (len : Nat)
  | writeToFile
  | readFromFile (file : List UInt8)
  | writeVal (i : Item)
  | readVal (k : Kind)

def Access.Defined (host : Endian) (fresh : Nat → Nat → UInt8) (s : Typed) : Access → Prop
  | .write buf => (ByteArray.write fresh s.array buf).isSome
  | .read size => (ByteArray.read s.array size).isSome
  | .readAt size pos => (ByteArray.readAt s.array size pos).isSome
  | .setPosition val => (ByteArray.setPosition s.array val).isSome
  | .addCapacity size => (step fresh s.array (.addCapacity size)).isSome
  | .clear => (step fresh s.array .clear).isSome
  | .toString => (ByteArray.toString s.array).isSome
  | .getReadBuffers len => (ByteArray.getReadBuffers s.array len).isSome
  | .getReadBuffersAt len pos => (ByteArray.getReadBuffersAt s.array len pos).isSome
  | .getWriteBuffers len => (ByteArray.getWriteBuffers fresh s.array len).isSome
  | .writeToFile => (ByteArray.writeToFile s.array).isSome
  | .readFromFile file => (ByteArray.readFromFile fresh s.array file).isSome
  | .writeVal i => (ByteArray.writeVal host fresh s i.1 i.2).isSome
  | .readVal k => ((ByteArray.readVal host k).run.run s).isSome

def Length.Inner (s : Typed) (l : Length) : Prop :=
  ∀ n, l.take s.endian (unread s) = .ok (0, n) → s.array.position + n ≠ s.array.capacity

/-- The offset in the block is negative as an `int`, and the first piece is longer than what is left. -/
def Wraps (s : State) : Prop :=
  s.blocksize < s.getReadSize ∧ 2 ^ 31 ≤ s.position % s.blocksize % 2 ^ 32 ∧
    s.getReadSize < s.blocksize + (2 ^ 32 - s.position % s.blocksize % 2 ^ 32)

/-- The cursor, or the position asked for, is not at the end of the storage where nothing is to be read. -/
def Access.Safe (s : Typed) : Access → Prop
  | .read size => 0 < size ∨ s.array.position < s.array.capacity
  | .readAt size pos => s.array.getReadSize < size ∨
      (s.array.position < s.array.capacity ∧ (size = 0 ∨ s.array.mixed pos + size ≤ s.array.capacity))
  | .getReadBuffers len => len = 0 ∨ s.array.position < s.array.capacity
  | .getReadBuffersAt len pos => len = 0 ∨
      (pos < s.array.capacity ∧ pos + min len s.array.getReadSize ≤ s.array.capacity)
  | .writeToFile => ¬ Wraps s.array
  | .readVal .stringF16 => Length.f16.Inner s
  | .readVal .stringF32 => Length.f32.Inner s
  | .readVal .stringF64 => Length.f64.Inner s
  | .readVal .stringVint => Length.vint.Inner s
  | _ => True

variable {b : Nat} {s : State}

section Loops

theorem fileLoop_isSome (hb : 0 < b) (ns : List Node) (cur pos r : Nat) (hint : pos % b % 2 ^ 32 < 2 ^ 31) :
    (r + pos % b ≤ b * ns.length → (fileLoop b ns cur pos r).isSome) ∧
      ((fileLoop b ns cur pos r).isSome → r ≤ b * ns.length) := by
  induction ns generalizing cur pos r with
  | nil =>
    rw [fileLoop, List.length_nil, Nat.mul_zero]
    split
    · exact ⟨fun _ => rfl, fun _ => by omega⟩
    · exact ⟨fun h => by omega, fun h => absurd h Bool.false_ne_true⟩
  | cons node rest ih =>
    have hm := Nat.mod_lt pos hb
    rw [fileLoop, toInt_eq_mod, if_pos hint, List.length_cons, Nat.mul_succ]
    by_cases h0 : r = 0
    · rw [if_pos h0]
      exact ⟨fun _ => rfl, fun _ => by omega⟩
    rw [if_neg h0]
    by_cases hlong : b < r
    · have hle := Nat.mod_le (pos % b) (2 ^ 32)
      have hnext : (pos + (b - pos % b % 2 ^ 32)) % b = pos % b - pos % b % 2 ^ 32 := by
        have hd := Nat.div_add_mod pos b
        rw [show pos + (b - pos % b % 2 ^ 32) = pos % b - pos % b % 2 ^ 32 + b * (pos / b + 1) by
          rw [Nat.mul_succ]
          omega, Nat.add_mul_mod_self_left]
        exact Nat.mod_eq_of_lt (by omega)
      have hrest := ih (cur + 1) (pos + (b - pos % b % 2 ^ 32)) (r - (b - pos % b % 2 ^ 32))
        (by rw [hnext]; omega)
      rw [hnext] at hrest
      have hpos : ((pos : Int) + ((b : Int) - (pos % b % 2 ^ 32 : Nat))).toNat = pos + (b - pos % b % 2 ^ 32) := by omega
      have hleft : ((r : Int) - ((b : Int) - (pos % b % 2 ^ 32 : Nat))).toNat = r - (b - pos % b % 2 ^ 32) := by omega
      simp only [if_pos hlong, if_pos (show (b : Int) - (pos % b % 2 ^ 32 : Nat) ≤ r by omega), hpos, hleft,
        Option.isSome_map]
      exact ⟨fun h => hrest.1 (by omega), fun h => by
        have := hrest.2 h
        omega⟩
    · simp only [if_neg hlong, le_refl, if_true, Int.sub_self, Int.toNat_zero, fileLoop_zero]
      exact ⟨fun _ => rfl, fun _ => by omega⟩

end Loops

section Operations

theorem read_isSome_iff (hb : 0 < b) (h : Inv b s) (size : Nat) :
    (read s size).isSome ↔ 0 < size ∨ s.position < s.capacity := by
  obtain rfl | h0 := Nat.eq_zero_or_pos size
  · have hcur := h.cur_eq hb
    have hpos := h.position_le.trans h.size_le
    rw [read, if_neg (Nat.not_lt_zero _), or_iff_right (Nat.lt_irrefl 0), hcur]
    by_cases hend : s.position = s.capacity
    · simp [hend]
    · simp only [if_neg hend, if_true]
      exact iff_of_true rfl (by omega)
  · obtain ⟨t, r, hr, -⟩ := read_spec hb h h0
    rw [hr]
    exact iff_of_true rfl (.inl h0)

theorem readAt_isSome_iff (hb : 0 < b) (h : Inv b s) (size pos : Nat) :
    (readAt s size pos).isSome ↔ s.getReadSize < size ∨
      (s.position < s.capacity ∧ (size = 0 ∨ s.mixed pos + size ≤ s.capacity)) := by
  by_cases hn : s.getReadSize < size
  · rw [readAt, if_pos hn]
    exact iff_of_true rfl (.inl hn)
  · rw [or_iff_right hn]
    obtain rfl | h0 := Nat.eq_zero_or_pos size
    · have hcur := h.cur_eq hb
      have hpos := h.position_le.trans h.size_le
      rw [readAt, if_neg hn, hcur]
      by_cases hend : s.position = s.capacity
      · simp [hend]
      · simp only [if_neg hend, if_true]
        exact iff_of_true rfl ⟨by omega, .inl trivial⟩
    · have hle := Nat.le_of_not_lt hn
      have hlt : s.position < s.capacity := by
        have := h.size_le
        unfold State.getReadSize at hle
        omega
      rw [readAt_mixed hb h h0 hle, and_iff_right hlt, or_iff_right h0.ne']
      split <;> simp [*]

theorem getReadBuffers_isSome_iff (hb : 0 < b) (h : Inv b s) (len : Nat) :
    (getReadBuffers s len).isSome ↔ len = 0 ∨ s.position < s.capacity := by
  have hpos := h.position_le
  have hsize := h.size_le
  by_cases h0 : len = 0
  · rw [getReadBuffers, if_pos h0]
    exact iff_of_true rfl (.inl h0)
  · have hcur := h.cur_eq hb
    rw [getReadBuffers, if_neg h0, clamp_eq_min, or_iff_right h0, hcur]
    by_cases hend : s.position = s.capacity
    · simp [hend]
    · simp only [if_neg hend, h.block, Option.isSome_map]
      rw [bufferLoop_block_isSome_iff hb h]
      refine and_iff_left ?_
      unfold State.getReadSize
      omega

theorem getReadBuffersAt_isSome_iff (hb : 0 < b) (h : Inv b s) (len pos : Nat) :
    (getReadBuffersAt s len pos).isSome ↔ len = 0 ∨
      (pos < s.capacity ∧ pos + min len s.getReadSize ≤ s.capacity) := by
  by_cases h0 : len = 0
  · rw [getReadBuffersAt, if_pos h0]
    exact iff_of_true rfl (.inl h0)
  · rw [getReadBuffersAt, if_neg h0, clamp_eq_min, or_iff_right h0, h.block, Option.isSome_map]
    exact bufferLoop_block_isSome_iff hb h pos _

theorem getWriteBuffers_isSome (hb : 0 < b) (h : Inv b s) (fresh : Nat → Nat → UInt8) (len : Nat) :
    (getWriteBuffers fresh s len).isSome := by
  by_cases h0 : len = 0
  · rw [getWriteBuffers, if_pos h0]
    rfl
  · obtain ⟨ext, ht, -, hpos, -, hroom⟩ := addCapacity_spec fresh hb h len
    have hlt : (addCapacity fresh s len).position < (addCapacity fresh s len).capacity := by omega
    have hcur := (cursor_split hb ht hlt).1
    rw [getWriteBuffers, if_neg h0]
    simp only [hcur, ht.block, Option.isSome_map]
    rw [bufferLoop_block_isSome_iff hb ht]
    omega

theorem next_offset (hb : 0 < b) {p : Nat} (hint : 2 ^ 31 ≤ p % b % 2 ^ 32) :
    (p + (b + (2 ^ 32 - p % b % 2 ^ 32))) % b ≤ p % b + (2 ^ 32 - p % b % 2 ^ 32) ∧
      (p + (b + (2 ^ 32 - p % b % 2 ^ 32))) % b % 2 ^ 32 < 2 ^ 31 := by
  have hm := Nat.mod_lt p hb
  have hx := Nat.mod_lt (p % b) (Nat.two_pow_pos 32)
  have hd := Nat.div_add_mod p b
  have heq : (p + (b + (2 ^ 32 - p % b % 2 ^ 32))) % b = (p % b + (2 ^ 32 - p % b % 2 ^ 32)) % b := by
    rw [show p + (b + (2 ^ 32 - p % b % 2 ^ 32)) = p % b + (2 ^ 32 - p % b % 2 ^ 32) + b * (p / b + 1) by
      rw [Nat.mul_succ]
      omega, Nat.add_mul_mod_self_left]
  rw [heq]
  refine ⟨Nat.mod_le _ _, ?_⟩
  by_cases hfit : p % b + (2 ^ 32 - p % b % 2 ^ 32) < b
  · rw [Nat.mod_eq_of_lt hfit]
    omega
  · have hover : p % b + (2 ^ 32 - p % b % 2 ^ 32) - b < 2 ^ 31 := by omega
    rw [Nat.mod_eq_sub_mod (Nat.le_of_not_lt hfit)]
    exact lt_of_le_of_lt ((Nat.mod_le _ _).trans (Nat.mod_le _ _)) hover

theorem writeToFile_isSome_iff (hb : 0 < b) (h : Inv b s) :
    (¬ Wraps s → (writeToFile s).isSome) ∧ (s.capacity < 2 ^ 63 → (writeToFile s).isSome → ¬ Wraps s) := by
  obtain hzero | h0 := Nat.eq_zero_or_pos s.getReadSize
  · have hw : ¬ Wraps s := fun hw => by
      have := hw.1
      omega
    have hsome : (writeToFile s).isSome := by
      unfold writeToFile
      rw [hzero]
      cases s.cur with
      | none => rfl
      | some k => exact Option.isSome_iff_exists.mpr ⟨_, fileLoop_zero _ _ _⟩
    exact ⟨fun _ => hsome, fun _ _ => hw⟩
  · obtain ⟨hk, heq⟩ := writeToFile_eq hb h h0
    have hm := Nat.mod_lt s.position hb
    have hd := Nat.div_add_mod s.position b
    have hsize := h.size_le
    have hcap := h.capacity
    have hread : s.getReadSize = s.size - s.position := rfl
    have hlen : b * (s.nodes.drop (s.position / b + 1)).length + b * (s.position / b) + b = s.capacity := by
      rw [List.length_drop, hcap, Nat.mul_sub, Nat.mul_succ]
      have := Nat.mul_le_mul_left b hk
      rw [Nat.mul_succ] at this
      omega
    unfold Wraps
    rw [heq, h.block]
    by_cases hint : s.position % b % 2 ^ 32 < 2 ^ 31
    · have hloop := fileLoop_isSome hb (s.nodes.getD (s.position / b) [] :: s.nodes.drop (s.position / b + 1))
        (s.position / b) s.position s.getReadSize hint
      rw [List.length_cons, Nat.mul_succ] at hloop
      exact ⟨fun _ => hloop.1 (by omega), fun _ _ => by omega⟩
    rw [fileLoop, if_neg h0.ne', toInt_eq_mod, if_neg hint]
    by_cases hlong : b < s.getReadSize
    · have hx := Nat.mod_lt (s.position % b) (Nat.two_pow_pos 32)
      have hnext := next_offset hb (p := s.position) (Nat.le_of_not_lt hint)
      have hloop := fun r => fileLoop_isSome hb (s.nodes.drop (s.position / b + 1)) (s.position / b + 1) _ r hnext.2
      have hpos : ((s.position : Int) + ((b : Int) - ((s.position % b % 2 ^ 32 : Nat) - 2 ^ 32))).toNat =
          s.position + (b + (2 ^ 32 - s.position % b % 2 ^ 32)) := by omega
      simp only [if_pos hlong, Option.isSome_map, hpos]
      split
      · exact ⟨fun _ => (hloop _).1 (by omega), fun _ _ => by omega⟩
      · refine ⟨fun hw => absurd hw (by omega), fun hsmall hsome => ?_⟩
        have := (hloop _).2 hsome
        unfold modulus at this
        omega
    · simp only [if_neg hlong, le_refl, if_true, Int.sub_self, Int.toNat_zero, fileLoop_zero]
      exact ⟨fun _ => rfl, fun _ _ => by omega⟩

theorem readStringOf_isSome_iff (hb : 0 < b) {s : Typed} (h : Inv b s.array) (host : Endian) (l : Length) :
    ((readStringOf host l).run.run s).isSome ↔ l.Inner s := by
  rw [run_readStringOf hb h rfl, Length.Inner]
  cases hf : l.take s.endian (unread s) with
  | error n => simp [stringAfter]
  | ok p =>
    obtain ⟨size, n⟩ := p
    rw [stringAfter]
    split
    · rename_i hshort
      simp only [Option.isSome_some, Except.ok.injEq, Prod.mk.injEq, true_iff]
      rintro n' ⟨rfl, rfl⟩
      omega
    · split
      · rename_i hnull
        obtain ⟨rfl, hend⟩ := hnull
        exact iff_of_false (by simp) fun hin => hin n rfl hend
      · rename_i hnull
        simp only [Option.isSome_some, Except.ok.injEq, Prod.mk.injEq, true_iff]
        rintro n' ⟨rfl, rfl⟩ hend
        exact hnull ⟨rfl, hend⟩

theorem Takes.isSome {α : Type} {m : Reader α} {f : Take α} {s : Typed} (hm : Takes b s.endian m f)
    (h : Inv b s.array) : (m.run.run s).isSome := by
  rw [hm.run s h rfl]
  rfl

theorem readVal_isSome_iff (hb : 0 < b) {s : Typed} (h : Inv b s.array) (host : Endian) (k : Kind) :
    ((readVal host k).run.run s).isSome ↔ Access.Safe s (.readVal k) := by
  have h32 := (takes_readVarintLoop (e := s.endian) host hb 32 0 0).map UInt32.ofNat
  have h64 := (takes_readVarintLoop (e := s.endian) host hb 64 0 0).map UInt64.ofNat
  cases k with
  | fint8 => exact iff_of_true (((takes_readObject host hb Nat.one_pos).map _).isSome h) trivial
  | fuint8 => exact iff_of_true ((takes_readFuint8 host hb).isSome h) trivial
  | fint16 | fuint16 | fint32 | fuint32 | fint64 | fuint64 | float | double =>
    exact iff_of_true (((takes_readFixed host hb (by decide)).map _).isSome h) trivial
  | uint32 => exact iff_of_true (h32.isSome h) trivial
  | int32 => exact iff_of_true ((h32.map _).isSome h) trivial
  | uint64 => exact iff_of_true (h64.isSome h) trivial
  | int64 => exact iff_of_true ((h64.map _).isSome h) trivial
  | stringF16 => exact readStringOf_isSome_iff hb h host .f16
  | stringF32 => exact readStringOf_isSome_iff hb h host .f32
  | stringF64 => exact readStringOf_isSome_iff hb h host .f64
  | stringVint => exact readStringOf_isSome_iff hb h host .vint

end Operations

/-- When an operation meets no null node. -/
theorem defined_iff_safe (hb : 1 ≤ b) {fresh : Nat → Nat → UInt8} {s : Typed}
    (hr : Reachable (fun s => s = new fresh b) (ByteArray.advance fresh) s.array) (host : Endian) (op : Access) :
    (op.Safe s → op.Defined host fresh s) ∧
      (s.array.capacity < 2 ^ 63 → op.Defined host fresh s → op.Safe s) := by
  have h := inv_of_reachable hb hr
  have hboth : ∀ {p q : Prop}, (q ↔ p) → (p → q) ∧ (s.array.capacity < 2 ^ 63 → q → p) :=
    fun hiff => ⟨hiff.mpr, fun _ => hiff.mp⟩
  cases op with
  | write buf =>
    obtain ⟨t, ht, -⟩ := write_spec fresh hb h buf
    exact hboth (iff_of_true (Option.isSome_iff_exists.mpr ⟨t, ht⟩) trivial)
  | read size => exact hboth (read_isSome_iff hb h size)
  | readAt size pos => exact hboth (readAt_isSome_iff hb h size pos)
  | setPosition val =>
    obtain ⟨t, r, ht, -⟩ := setPosition_spec hb h val
    exact hboth (iff_of_true (Option.isSome_iff_exists.mpr ⟨_, ht⟩) trivial)
  | addCapacity size => exact hboth (iff_of_true rfl trivial)
  | clear => exact hboth (iff_of_true rfl trivial)
  | toString => exact hboth (iff_of_true (Option.isSome_iff_exists.mpr ⟨_, toString_spec hb h⟩) trivial)
  | getReadBuffers len => exact hboth (getReadBuffers_isSome_iff hb h len)
  | getReadBuffersAt len pos => exact hboth (getReadBuffersAt_isSome_iff hb h len pos)
  | getWriteBuffers len => exact hboth (iff_of_true (getWriteBuffers_isSome hb h fresh len) trivial)
  | writeToFile => exact writeToFile_isSome_iff hb h
  | readFromFile file =>
    obtain ⟨t, ht, -⟩ := readFromFile_spec fresh hb h file
    exact hboth (iff_of_true (Option.isSome_iff_exists.mpr ⟨t, ht⟩) trivial)
  | writeVal i =>
    obtain ⟨t, ht, -⟩ := puts_writeVal hb host fresh i.1 i.2 s h rfl
    exact hboth (iff_of_true (Option.isSome_iff_exists.mpr ⟨t, ht⟩) trivial)
  | readVal k => exact hboth (readVal_isSome_iff hb h host k)

theorem read_zero_defined : Access.Defined .little (fun _ _ => 7) ⟨sixBytes, .big⟩ (.read 0) ∧
    Access.Safe ⟨sixBytes, .big⟩ (.read 0) := by
  have hboth := defined_iff_safe (b := 4) (s := ⟨sixBytes, .big⟩) (by decide) sixBytes_reachable .little (.read 0)
  exact ⟨hboth.1 (.inr (by decide)), hboth.2 (by decide) (by decide : (read sixBytes 0).isSome = true)⟩

def fullBlock : State := ⟨4, 4, 4, 4, [[1, 2, 3, 4]], none, 1⟩

theorem read_zero_null :
    Reachable (fun s => s = new (fun _ _ => 7) 4) (ByteArray.advance fun _ _ => 7) fullBlock ∧
      read fullBlock 0 = none ∧ getReadBuffers fullBlock 1 = none ∧
      ¬ ∀ op : Access, op.Defined .little (fun _ _ => 7) ⟨fullBlock, .big⟩ := by
  refine ⟨(new_reachable _ 4).exec [.op (.write [1, 2, 3, 4])] (by decide), by decide, by decide, fun hall => ?_⟩
  have hread : (read fullBlock 0).isSome := hall (.read 0)
  revert hread
  decide

end Windgent.ByteArray
