import Windgent.ByteArray.Buffers
import Windgent.MachineInt

namespace Windgent.ByteArray

open Segments Transition MachineInt

/-- A call of `ofs.write` with the memory at `offset` in a node. -/
structure Chunk where
  part : Nat
  offset : Int
  len : Int
deriving DecidableEq

def Chunk.Inside (nodes : List Node) (c : Chunk) : Prop :=
  c.part < nodes.length ∧ 0 ≤ c.offset ∧ 0 ≤ c.len ∧ c.offset + c.len ≤ (nodes.getD c.part []).length

def Chunk.range (c : Chunk) : Range := ⟨c.part, c.offset.toNat, c.len.toNat⟩

/-- The loop of `writeToFile` over the nodes from node number `cur` on. The offset in the
block goes through an `int`. It fails on a null node. -/
def fileLoop (blocksize : Nat) : List Node → Nat → Nat → Nat → Option (List Chunk)
  | [], _, _, read_size => if read_size = 0 then some [] else none
  | _ :: rest, cur, pos, read_size =>
      if read_size = 0 then some []
      else
        let diff := toInt (pos % blocksize)
        let len := if blocksize < read_size then blocksize - diff else read_size
        let left := if len ≤ read_size then read_size - len else modulus - (len - read_size)
        (fileLoop blocksize rest (cur + 1) (pos + len).toNat left.toNat).map fun cs => ⟨cur, diff, len⟩ :: cs

def writeToFile (s : State) : Option (List Chunk) :=
  match s.cur with
  | none => if s.getReadSize = 0 then some [] else none
  | some k => fileLoop s.blocksize (s.nodes.drop k) k s.position s.getReadSize

/-- What `ifs.read` delivers for a block in each round up to the end of the file. -/
def pieces (blocksize : Nat) : Nat → List UInt8 → List (List UInt8)
  | 0, _ => []
  | fuel + 1, file =>
    if file.length < blocksize then [file] else file.take blocksize :: pieces blocksize fuel (file.drop blocksize)

def writeAll (fresh : Nat → Nat → UInt8) : State → List (List UInt8) → Option State
  | s, [] => some s
  | s, piece :: rest => (write fresh s piece).bind fun t => writeAll fresh t rest

def readFromFile (fresh : Nat → Nat → UInt8) (s : State) (file : List UInt8) : Option State :=
  writeAll fresh s (pieces s.blocksize (file.length + 1) file)

/-- The data start in the range of an `int`, and they fill more than a block or end in their first one. -/
def Whole (s : State) : Prop :=
  s.getReadSize = 0 ∨ (s.position % s.blocksize < 2 ^ 31 ∧
    (s.blocksize < s.getReadSize ∨ s.position % s.blocksize + s.getReadSize ≤ s.blocksize))

instance (s : State) : Decidable (Whole s) := inferInstanceAs (Decidable (_ ∨ _))

section Write

variable {b : Nat} {s : State}

def Covers (s : State) (p n : Nat) (cs : List Chunk) : Prop :=
  (∀ c ∈ cs, c.Inside s.nodes) ∧ (cs.map Chunk.range).flatMap (Range.cells s.blocksize) = List.range' p n

theorem covers_cons (h : Inv b s) {k o l n : Nat} {cs : List Chunk} (hk : k < s.nodes.length) (hfit : o + l ≤ b)
    (hl : l ≤ n) (hcs : Covers s (b * k + o + l) (n - l) cs) : Covers s (b * k + o) n (⟨k, o, l⟩ :: cs) := by
  have hnode := h.getD_length hk
  refine ⟨List.forall_mem_cons.mpr ⟨⟨hk, by dsimp only; omega, by dsimp only; omega, ?_⟩, hcs.1⟩, ?_⟩
  · dsimp only
    omega
  · rw [List.map_cons, List.flatMap_cons, hcs.2]
    simp only [Chunk.range, Range.cells, Int.toNat_natCast, h.block]
    rw [List.range'_append_1]
    congr 1
    omega

theorem fileLoop_zero (ns : List Node) (cur pos : Nat) : fileLoop b ns cur pos 0 = some [] := by
  cases ns <;> simp [fileLoop]

theorem fileLoop_step {node : Node} {rest : List Node} {cur pos r l : Nat} (hb : 0 < b) (h0 : 0 < r)
    (hd : pos % b < 2 ^ 31) (hl : l = if b < r then b - pos % b else r) :
    fileLoop b (node :: rest) cur pos r = (fileLoop b rest (cur + 1) (pos + l) (r - l)).map fun cs =>
      ⟨cur, (pos % b : Nat), l⟩ :: cs := by
  have hm := Nat.mod_lt pos hb
  have hcast : (if b < r then (b : Int) - (pos % b : Nat) else (r : Int)) = (l : Int) := by
    rw [hl]
    split <;> omega
  have hle : l ≤ r := by
    rw [hl]
    split <;> omega
  rw [fileLoop, if_neg h0.ne', toInt_of_lt hd]
  dsimp only
  rw [hcast, if_pos (by omega)]
  congr 2
  omega

theorem fileLoop_blocks (hb : 0 < b) (h : Inv b s) {ns : List Node} {cur r : Nat} (hns : ns = s.nodes.drop cur)
    (hr : r ≤ b * ns.length) : ∃ cs, fileLoop b ns cur (b * cur) r = some cs ∧ Covers s (b * cur) r cs := by
  induction ns generalizing cur r with
  | nil =>
    obtain rfl : r = 0 := by simpa using hr
    exact ⟨[], rfl, by simp, by simp⟩
  | cons node rest ih =>
    obtain ⟨hlt, -, hrest⟩ := head_of_drop hns
    have hmod : b * cur % b = 0 := Nat.mul_mod_right b cur
    obtain rfl | h0 := Nat.eq_zero_or_pos r
    · exact ⟨[], by simp [fileLoop], by simp, by simp⟩
    · rw [List.length_cons, Nat.mul_succ] at hr
      by_cases hlong : b < r
      · obtain ⟨cs, hcs, hcov⟩ := ih hrest (r := r - b) (by omega)
        rw [Nat.mul_succ] at hcs hcov
        rw [fileLoop_step (l := b) hb h0 (by omega) (by rw [if_pos hlong, hmod, Nat.sub_zero]), hmod, hcs]
        exact ⟨_, rfl, covers_cons h hlt (o := 0) (by omega) (by omega) hcov⟩
      · rw [fileLoop_step (l := r) hb h0 (by omega) (by rw [if_neg hlong]), hmod, Nat.sub_self, fileLoop_zero]
        refine ⟨_, rfl, covers_cons h hlt (o := 0) (by omega) le_rfl ?_⟩
        rw [Nat.sub_self]
        exact ⟨by simp, by simp⟩

theorem writeToFile_eq (hb : 0 < b) (h : Inv b s) (h0 : 0 < s.getReadSize) :
    s.position / b < s.nodes.length ∧ writeToFile s =
      fileLoop b (s.nodes.getD (s.position / b) [] :: s.nodes.drop (s.position / b + 1)) (s.position / b) s.position
        s.getReadSize := by
  have hlt : s.position < s.capacity := by
    have := h.size_le
    unfold State.getReadSize at h0
    omega
  have hk := cursor_lt hb h hlt
  refine ⟨hk, ?_⟩
  rw [writeToFile, (cursor_split hb h hlt).1, h.block, ← (drop_block h hk).1]

theorem writeToFile_whole (hb : 0 < b) (h : Inv b s) (hw : Whole s) :
    ∃ cs, writeToFile s = some cs ∧ Covers s s.position s.getReadSize cs := by
  obtain hzero | h0 := Nat.eq_zero_or_pos s.getReadSize
  · refine ⟨[], ?_, by simp, by simp [hzero]⟩
    unfold writeToFile
    rw [hzero]
    cases s.cur with
    | none => rfl
    | some k => exact fileLoop_zero _ _ _
  · obtain ⟨hint, hcase⟩ := hw.resolve_left h0.ne'
    rw [h.block] at hint hcase
    obtain ⟨hk, heq⟩ := writeToFile_eq hb h h0
    have hdm := Nat.div_add_mod s.position b
    have hm := Nat.mod_lt s.position hb
    have hcap := h.capacity
    have hsize := h.size_le
    have hroom : s.getReadSize - (b - s.position % b) ≤ b * (s.nodes.drop (s.position / b + 1)).length := by
      have hmul : b * (s.nodes.length - (s.position / b + 1)) = b * s.nodes.length - b * (s.position / b + 1) :=
        Nat.mul_sub _ _ _
      rw [List.length_drop, hmul, Nat.mul_succ]
      unfold State.getReadSize
      omega
    rw [heq, show Covers s s.position = Covers s (b * (s.position / b) + s.position % b) by rw [hdm]]
    by_cases hlong : b < s.getReadSize
    · obtain ⟨cs, hcs, hcov⟩ := fileLoop_blocks hb h rfl hroom
      have hnext : s.position + (b - s.position % b) = b * (s.position / b + 1) := by
        rw [Nat.mul_succ]
        omega
      rw [fileLoop_step hb h0 hint (if_pos hlong).symm, hnext, hcs]
      refine ⟨_, rfl, covers_cons h hk (by omega) (by omega) ?_⟩
      rw [hdm, hnext]
      exact hcov
    · rw [fileLoop_step hb h0 hint (if_neg hlong).symm, Nat.sub_self, fileLoop_zero]
      refine ⟨_, rfl, covers_cons h hk (hcase.resolve_left hlong) le_rfl ?_⟩
      rw [Nat.sub_self]
      exact ⟨by simp, by simp⟩

theorem whole_of_covers (hb : 0 < b) (h : Inv b s) {cs : List Chunk} (hcs : writeToFile s = some cs)
    (hcov : Covers s s.position s.getReadSize cs) : Whole s := by
  obtain hzero | h0 := Nat.eq_zero_or_pos s.getReadSize
  · exact .inl hzero
  obtain ⟨hk, heq⟩ := writeToFile_eq hb h h0
  rw [heq, fileLoop, if_neg h0.ne'] at hcs
  obtain ⟨rest, -, rfl⟩ := Option.map_eq_some_iff.mp hcs
  have hdm := Nat.div_add_mod s.position b
  have hm := Nat.mod_lt s.position hb
  obtain ⟨-, hoff, hlen, hfit⟩ := hcov.1 _ List.mem_cons_self
  rw [h.getD_length hk] at hfit
  have hcells := hcov.2
  rw [List.map_cons, h.block] at hcells
  have hstart := (cells_cons hcells).2.1
  simp only [Chunk.range] at hstart
  dsimp only at hoff hlen hfit
  refine .inr ?_
  rw [h.block]
  by_cases hint : s.position % b < 2 ^ 31
  · refine ⟨hint, ?_⟩
    rw [toInt_of_lt hint] at hfit
    split at hfit
    · rename_i hlong
      exact .inl hlong
    · exact .inr (by omega)
  · have hsmall : toInt (s.position % b) < 2 ^ 31 := by
      unfold toInt
      have := @Int.bmod_lt (s.position % b : Nat) (2 ^ 32) (by decide)
      omega
    exfalso
    have := hstart (by split <;> omega)
    omega

end Write

section Read

variable {b : Nat} (fresh : Nat → Nat → UInt8) {s : State}

theorem pieces_flatten (hb : 0 < b) {fuel : Nat} {file : List UInt8} (h : file.length < fuel) :
    (pieces b fuel file).flatten = file := by
  induction fuel generalizing file with
  | zero => exact absurd h (Nat.not_lt_zero _)
  | succ fuel ih =>
    rw [pieces]
    split
    · simp
    · rename_i hlong
      rw [List.flatten_cons, ih (by rw [List.length_drop]; omega), List.take_append_drop]

/-- Writing pieces one behind the other is writing them together. -/
theorem writeAll_spec (hb : 0 < b) (h : Inv b s) (ps : List (List UInt8)) :
    ∃ t, writeAll fresh s ps = some t ∧ Inv b t ∧
      text (flat t) = ⟨overwrite (text (flat s)).content s.position ps.flatten, s.position + ps.flatten.length⟩ := by
  induction ps generalizing s with
  | nil => exact ⟨s, rfl, h, by simp [text, flat]⟩
  | cons piece ps ih =>
    obtain ⟨t, ht, hi, htext⟩ : ∃ t, write fresh s piece = some t ∧ Inv b t ∧ _ := text_write hb h piece
    obtain ⟨u, hu, hiu, hutext⟩ := ih hi
    have hcontent := congrArg Text.content htext
    have hposition : t.position = s.position + piece.length := congrArg Text.position htext
    have hle : s.position ≤ (s.nodes.flatten.take s.size).length := h.size_eq.symm ▸ h.position_le
    refine ⟨u, by rw [writeAll, ht, Option.bind_some, hu], hiu, ?_⟩
    rw [hutext, hcontent, hposition, overwrite_overwrite hle, List.flatten_cons, List.length_append, Nat.add_assoc]
    rfl

theorem readFromFile_spec (hb : 0 < b) (h : Inv b s) (file : List UInt8) :
    ∃ t, readFromFile fresh s file = some t ∧ Inv b t ∧
      text (flat t) = ⟨overwrite (text (flat s)).content s.position file, s.position + file.length⟩ := by
  have hps := pieces_flatten hb (Nat.lt_succ_self file.length)
  obtain ⟨t, ht, hi, htext⟩ := writeAll_spec fresh hb h (pieces b (file.length + 1) file)
  rw [hps] at htext
  exact ⟨t, by rw [readFromFile, h.block, ht], hi, htext⟩

theorem toString_appended (hb : 0 < b) (h : Inv b s) {t : State} {file : List UInt8} (ht : Inv b t)
    (htext : text (flat t) = ⟨overwrite (text (flat s)).content s.position file, s.position + file.length⟩)
    (hend : s.size ≤ s.position + file.length) :
    ∃ u, setPosition t s.position = some (u, .done) ∧ toString u = some (.bytes file) := by
  have hcontent : (text (flat t)).content = overwrite (text (flat s)).content s.position file :=
    congrArg Text.content htext
  have hposition : t.position = s.position + file.length := congrArg Text.position htext
  have hlen := h.size_eq
  have hpos := h.position_le
  have hsize : t.size = s.position + file.length := by
    rw [← ht.size_eq, hcontent]
    simp only [overwrite, List.length_append, List.length_take, List.length_drop, hlen]
    omega
  have hcap : s.position ≤ t.capacity := by
    have := ht.size_le
    omega
  obtain ⟨u, hu, hiu, hnodes, hupos, husize⟩ := setPosition_within hb ht hcap
  refine ⟨u, hu, ?_⟩
  have husize' : u.size = s.position + file.length := by
    rw [husize, hsize]
    omega
  have hslice : slice u.nodes.flatten u.position u.getReadSize =
      slice (text (flat t)).content s.position file.length := by
    rw [hnodes, hupos, State.getReadSize, husize', hupos, Nat.add_sub_cancel_left]
    exact (slice_take (by rw [← hsize]; exact le_rfl)).symm
  rw [toString_spec hb hiu, hslice, hcontent]
  congr 2
  rw [overwrite, slice, List.append_assoc, List.drop_append, List.length_take, hlen, Nat.min_eq_left hpos,
    List.drop_take, Nat.sub_self, List.take_zero, List.drop_zero, List.nil_append,
    List.take_append_of_le_length le_rfl, List.take_length]

end Read

/-- What the files are for: the data behind the position go to the file from inside the nodes,
and from the file to the position of another array. -/
def RoundTrips (s : State) : Prop :=
  ∃ cs file, writeToFile s = some cs ∧ Covers s s.position s.getReadSize cs ∧
    file = gather s.nodes (cs.map Chunk.range) ∧ toString s = some (.bytes file) ∧
    ∀ (fresh : Nat → Nat → UInt8) (b : Nat) (t : State), 1 ≤ b →
      Reachable (fun t => t = new fresh b) (ByteArray.advance fresh) t →
      ∃ u, readFromFile fresh t file = some u ∧
        text (flat u) = ⟨overwrite (text (flat t)).content t.position file, t.position + file.length⟩ ∧
        (t.size ≤ t.position + file.length →
          ∃ v, setPosition u t.position = some (v, .done) ∧ toString v = toString s)

/-- When the file holds the data. -/
theorem roundTrips_iff {b : Nat} (hb : 1 ≤ b) {fresh : Nat → Nat → UInt8} {s : State}
    (hr : Reachable (fun s => s = new fresh b) (ByteArray.advance fresh) s) : RoundTrips s ↔ Whole s := by
  have h := inv_of_reachable hb hr
  constructor
  · rintro ⟨cs, file, hcs, hcov, -⟩
    exact whole_of_covers hb h hcs hcov
  · intro hw
    obtain ⟨cs, hcs, hcov⟩ := writeToFile_whole hb h hw
    have hcells := hcov.2
    rw [h.block] at hcells
    have hfile : gather s.nodes (cs.map Chunk.range) = slice s.nodes.flatten s.position s.getReadSize := by
      refine h.uniform.gather_eq_slice (fun v hv => ?_) hcells
      obtain ⟨c, hc, rfl⟩ := List.mem_map.mp hv
      obtain ⟨hpart, hoff, hlen, hfit⟩ := hcov.1 c hc
      exact ⟨hpart, by simp only [Chunk.range]; omega⟩
    refine ⟨cs, _, hcs, hcov, rfl, by rw [hfile, toString_spec hb h], fun fresh' b' t hb' ht => ?_⟩
    have hi := inv_of_reachable hb' ht
    obtain ⟨u, hu, hiu, htext⟩ := readFromFile_spec fresh' hb' hi (gather s.nodes (cs.map Chunk.range))
    refine ⟨u, hu, htext, fun hend => ?_⟩
    obtain ⟨v, hv, hstr⟩ := toString_appended hb' hi hiu htext hend
    exact ⟨v, hv, by rw [hstr, toString_spec hb h, hfile]⟩

theorem roundTrips_fiveBytes : RoundTrips { sixBytes with position := 1 } := by
  have hr := (new_reachable (fun _ _ => 7) 4).exec (t := { sixBytes with position := 1 })
    [.op (.write [1, 2, 3, 4, 5, 6]), .op (.setPosition 1)] (by decide)
  exact (roundTrips_iff (by decide) hr).mpr (by decide)

/-- Three bytes at the last cell of a block are written from that cell on. -/
theorem writeToFile_over_end : writeToFile sixBytes = some [⟨0, 3, 3⟩] ∧ ¬ RoundTrips sixBytes := by
  have hw : writeToFile sixBytes = some [⟨0, 3, 3⟩] := by decide
  refine ⟨hw, ?_⟩
  rintro ⟨cs, file, hcs, hcov, -⟩
  obtain rfl := Option.some.inj (hw.symm.trans hcs)
  exact absurd (hcov.1 _ List.mem_cons_self).2.2.2 (by decide)

end Windgent.ByteArray
