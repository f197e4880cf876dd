import Windgent.ByteArray.Basic

namespace Windgent.ByteArray

open Segments

/-- The abstract array: one flat storage with a cursor and the end of the data. -/
structure Flat where
  cells : List UInt8
  position : Nat
  size : Nat

inductive Flat.Step (b : Nat) : Flat → Op → Result → Flat → Prop
  | write (f : Flat) (buf ext : List UInt8) (h : f.position + buf.length ≤ (f.cells ++ ext).length) :
      Flat.Step b f (.write buf) .done
        ⟨overwrite (f.cells ++ ext) f.position buf, f.position + buf.length,
          max f.size (f.position + buf.length)⟩
  | read (f : Flat) (n : Nat) (h : n ≤ f.size - f.position) :
      Flat.Step b f (.read n) (.bytes (slice f.cells f.position n))
        ⟨f.cells, f.position + n, f.size⟩
  | read_throws (f : Flat) (n : Nat) (h : f.size - f.position < n) :
      Flat.Step b f (.read n) .outOfRange f
  | setPosition (f : Flat) (val : Nat) (h : val ≤ f.cells.length) :
      Flat.Step b f (.setPosition val) .done ⟨f.cells, val, max f.size val⟩
  | setPosition_throws (f : Flat) (val : Nat) (h : f.cells.length < val) :
      Flat.Step b f (.setPosition val) .outOfRange f
  | addCapacity (f : Flat) (n : Nat) (ext : List UInt8)
      (h : f.position + n ≤ (f.cells ++ ext).length) :
      Flat.Step b f (.addCapacity n) .done ⟨f.cells ++ ext, f.position, f.size⟩
  | toString (f : Flat) :
      Flat.Step b f .toString (.bytes (slice f.cells f.position (f.size - f.position))) f
  | clear (f : Flat) : Flat.Step b f .clear .done ⟨f.cells.take b, 0, 0⟩

inductive Flat.Run (b : Nat) : Flat → List Op → List Result → Flat → Prop
  | nil (f : Flat) : Flat.Run b f [] [] f
  | cons {f g h : Flat} {op : Op} {ops : List Op} {r : Result} {rs : List Result}
      (hs : Flat.Step b f op r g) (hr : Flat.Run b g ops rs h) : Flat.Run b f (op :: ops) (r :: rs) h

/-- The flat storage that a node list represents. -/
def flat (s : State) : Flat := ⟨s.nodes.flatten, s.position, s.size⟩

structure Inv (b : Nat) (s : State) : Prop where
  block : s.blocksize = b
  uniform : Uniform b s.nodes
  nonempty : 0 < s.nodes.length
  capacity : s.capacity = b * s.nodes.length
  position_le : s.position ≤ s.size
  size_le : s.size ≤ s.capacity
  cur : s.cur = nodeAt s.nodes (s.position / b)

variable {b : Nat} (fresh : Nat → Nat → UInt8) {s : State}

theorem length_newNode (k : Nat) : (newNode fresh k b).length = b := by
  simp [newNode]

theorem new_inv : Inv b (new fresh b) where
  block := rfl
  uniform := by simp [new, Uniform, length_newNode]
  nonempty := by simp [new]
  capacity := by simp [new]
  position_le := le_rfl
  size_le := by simp [new]
  cur := by simp [new, nodeAt]

theorem Inv.length_cells (h : Inv b s) : (flat s).cells.length = s.capacity := by
  rw [h.capacity]
  exact h.uniform.length_flatten

theorem Inv.cur_eq (h : Inv b s) (hb : 0 < b) :
    s.cur = if s.position = s.capacity then none else some (s.position / b) := by
  have hp := h.position_le.trans h.size_le
  have hc := h.capacity
  rw [h.cur]
  unfold nodeAt
  by_cases he : s.position = s.capacity
  · have hq : s.position / b = s.nodes.length := by rw [he, hc, Nat.mul_div_cancel_left _ hb]
    rw [hq, if_neg (lt_irrefl _), if_pos he]
  · have hlt : s.position / b < s.nodes.length := by
      rw [Nat.div_lt_iff_lt_mul hb, Nat.mul_comm]
      omega
    simp [he, hlt]

theorem Inv.flatten_split (h : Inv b s) (k : Nat) (hk : k ≤ s.nodes.length) :
    s.nodes.flatten = (s.nodes.take k).flatten ++ (s.nodes.drop k).flatten ∧
      (s.nodes.take k).flatten.length = b * k := by
  constructor
  · rw [← List.flatten_append, List.take_append_drop]
  · rw [(h.uniform.take k).length_flatten, List.length_take, Nat.min_eq_left hk]

theorem addBlocks_spec (n : Nat) (s : State) :
    ∃ ext, (addBlocks fresh n s).nodes = s.nodes ++ ext ∧ ext.length = n ∧
      Uniform s.blocksize ext ∧ (addBlocks fresh n s).capacity = s.capacity + s.blocksize * n ∧
      (addBlocks fresh n s).blocksize = s.blocksize ∧
      (addBlocks fresh n s).position = s.position ∧ (addBlocks fresh n s).size = s.size ∧
      (addBlocks fresh n s).cur = s.cur := by
  induction n generalizing s with
  | zero => exact ⟨[], by simp [addBlocks, Uniform]⟩
  | succ n ih =>
    obtain ⟨ext, hn, hl, hu, hc, hb, hp, hs, hcur⟩ := ih
      { s with
        nodes := s.nodes ++ [newNode fresh s.allocs s.blocksize]
        capacity := s.capacity + s.blocksize
        allocs := s.allocs + 1 }
    refine ⟨newNode fresh s.allocs s.blocksize :: ext, ?_, by simp [hl], ?_, ?_, hb, hp, hs, hcur⟩
    · simpa [addBlocks] using hn
    · exact Uniform.cons.mpr ⟨length_newNode fresh _, hu⟩
    · simp only [addBlocks, hc]
      ring

theorem le_mul_blockCount (hb : 0 < b) (n : Nat) : n ≤ b * blockCount n b := by
  have h := Nat.div_add_mod (n + b - 1) b
  have hm := Nat.mod_lt (n + b - 1) hb
  unfold blockCount
  omega

theorem Inv.append (h : Inv b s) {t : State} {ext : List Node} (hu : Uniform b ext)
    (hblk : t.blocksize = s.blocksize) (hnodes : t.nodes = s.nodes ++ ext)
    (hcap : t.capacity = s.capacity + b * ext.length) (hpos : t.position = s.position)
    (hsize : t.size = s.size) (hcur : t.cur = nodeAt t.nodes (s.position / b)) : Inv b t where
  block := hblk.trans h.block
  uniform := hnodes ▸ h.uniform.append hu
  nonempty := by rw [hnodes, List.length_append]; exact Nat.add_pos_left h.nonempty _
  capacity := by rw [hcap, hnodes, List.length_append, h.capacity, Nat.mul_add]
  position_le := by rw [hpos, hsize]; exact h.position_le
  size_le := by rw [hsize, hcap]; exact h.size_le.trans (Nat.le_add_right _ _)
  cur := by rw [hpos]; exact hcur

/-- Growth keeps the invariant, leaves room for `n` bytes at the cursor, and
only appends cells. -/
theorem addCapacity_spec (hb : 0 < b) (h : Inv b s) (n : Nat) :
    ∃ ext, Inv b (addCapacity fresh s n) ∧
      (addCapacity fresh s n).nodes.flatten = s.nodes.flatten ++ ext ∧
      (addCapacity fresh s n).position = s.position ∧ (addCapacity fresh s n).size = s.size ∧
      s.position + n ≤ (addCapacity fresh s n).capacity := by
  have hpos := h.position_le.trans h.size_le
  unfold addCapacity
  split
  · exact ⟨[], h, by simp, rfl, rfl, by omega⟩
  · split
    · exact ⟨[], h, by simp, rfl, rfl, by unfold State.getCapacity at *; omega⟩
    · obtain ⟨ext, hnodes, hlen, huni, hcap, hblk, hposi, hsize, hcur⟩ :=
        addBlocks_spec fresh (blockCount (n - s.getCapacity) s.blocksize) s
      have hle := le_mul_blockCount hb (n - s.getCapacity)
      have hroom : s.position + n ≤ s.capacity + b * blockCount (n - s.getCapacity) b := by
        unfold State.getCapacity at *
        omega
      simp only [h.block] at hnodes hlen huni hcap hblk hposi hsize hcur ⊢
      split
      · rename_i hz
        have he : s.position = b * s.nodes.length := by
          rw [← h.capacity]
          unfold State.getCapacity at hz
          omega
        have hq : s.position / b = s.nodes.length := by rw [he, Nat.mul_div_cancel_left _ hb]
        refine ⟨ext.flatten, h.append huni (hblk.trans h.block.symm) hnodes (hlen ▸ hcap) hposi hsize ?_,
          by simp [hnodes], hposi, hsize, by simpa [hcap] using hroom⟩
        rw [hq]
      · rename_i hz
        have hq : s.position / b < s.nodes.length := by
          rw [Nat.div_lt_iff_lt_mul hb, Nat.mul_comm, ← h.capacity]
          unfold State.getCapacity at hz
          omega
        refine ⟨ext.flatten, h.append huni (hblk.trans h.block.symm) hnodes (hlen ▸ hcap) hposi hsize ?_,
          by simp [hnodes], hposi, hsize, by simpa [hcap] using hroom⟩
        rw [hcur, h.cur]
        simp only [nodeAt, hnodes, List.length_append, hq, if_true]
        rw [if_pos (Nat.lt_add_right _ hq)]

theorem div_step {npos n : Nat} (h : npos + n ≤ b) (hb : 0 < b) :
    (if b = npos + n then 1 else 0) = (npos + n) / b := by
  split
  · rename_i he
    rw [← he, Nat.div_self hb]
  · rw [Nat.div_eq_of_lt (by omega)]

theorem div_next {npos n : Nat} (h : b < npos + n) (hp : npos ≤ b) (hb : 0 < b) :
    (0 + (n - (b - npos))) / b + 1 = (npos + n) / b := by
  rw [← Nat.add_div_right _ hb]
  congr 1
  omega

theorem writeLoop_spec (hb : 0 < b) (ns : List Node) (hu : Uniform b ns) (npos : Nat)
    (buf : List UInt8) (hp : npos ≤ b) (hroom : npos + buf.length ≤ b * ns.length)
    (hne : 0 < buf.length) :
    ∃ ns', writeLoop ns npos buf = some (ns', (npos + buf.length) / b) ∧ Uniform b ns' ∧
      ns'.length = ns.length ∧ ns'.flatten = overwrite ns.flatten npos buf := by
  induction ns generalizing npos buf with
  | nil =>
    rw [List.length_nil, Nat.mul_zero] at hroom
    omega
  | cons node rest ih =>
    obtain ⟨hn, hrest⟩ := Uniform.cons.mp hu
    by_cases hfit : buf.length ≤ b - npos
    · refine ⟨overwrite node npos buf :: rest, ?_, ?_, rfl, ?_⟩
      · simp only [writeLoop, Node.size, hn, hfit, if_true,
          div_step (show npos + buf.length ≤ b by omega) hb]
      · exact Uniform.cons.mpr ⟨(length_overwrite (by omega)).trans hn, hrest⟩
      · simp only [List.flatten_cons, overwrite_append_left (r := rest.flatten)
          (show npos + buf.length ≤ node.length by omega)]
    · have hlen : (buf.drop (b - npos)).length = buf.length - (b - npos) := by simp
      obtain ⟨ns', hw, hu', hl, hf⟩ := ih hrest 0 (buf.drop (b - npos)) (Nat.zero_le _)
        (by rw [hlen]; rw [List.length_cons, Nat.mul_succ] at hroom; omega) (by omega)
      refine ⟨overwrite node npos (buf.take (b - npos)) :: ns', ?_, ?_, by simp [hl], ?_⟩
      · simp only [writeLoop, Node.size, hn, hfit, if_false, hw, Option.map_some, hlen,
          div_next (show b < npos + buf.length by omega) hp hb]
      · refine Uniform.cons.mpr ⟨(length_overwrite ?_).trans hn, hu'⟩
        simp only [List.length_take]
        omega
      · simp only [List.flatten_cons, hf]
        rw [overwrite_append_cross (by omega) (by omega), hn]

theorem readLoop_spec (hb : 0 < b) (ns : List Node) (hu : Uniform b ns) (npos size : Nat)
    (hp : npos ≤ b) (hroom : npos + size ≤ b * ns.length) (hne : 0 < size) :
    readLoop ns npos size = some (slice ns.flatten npos size, (npos + size) / b) := by
  induction ns generalizing npos size with
  | nil =>
    rw [List.length_nil, Nat.mul_zero] at hroom
    omega
  | cons node rest ih =>
    obtain ⟨hn, hrest⟩ := Uniform.cons.mp hu
    by_cases hfit : size ≤ b - npos
    · simp only [readLoop, Node.size, hn, hfit, if_true, div_step (show npos + size ≤ b by omega) hb,
        List.flatten_cons, slice_append_left (r := rest.flatten)
          (show npos + size ≤ node.length by omega)]
    · have hr := ih hrest 0 (size - (b - npos)) (Nat.zero_le _)
        (by rw [List.length_cons, Nat.mul_succ] at hroom; omega) (by omega)
      have hs : slice node npos (b - npos) = node.drop npos := by
        simp [slice, List.take_of_length_le, hn]
      simp only [readLoop, Node.size, hn, hfit, if_false, hr, Option.map_some, hs, List.flatten_cons,
        div_next (show b < npos + size by omega) hp hb]
      rw [slice_append_cross (by omega) (by omega), hn]

theorem seekLoop_spec (hb : 0 < b) (ns : List Node) (hu : Uniform b ns) (val : Nat)
    (hne : 0 < ns.length) (hroom : val ≤ b * ns.length) : seekLoop ns val = some (val / b) := by
  induction ns generalizing val with
  | nil => simp at hne
  | cons node rest ih =>
    obtain ⟨hn, hrest⟩ := Uniform.cons.mp hu
    by_cases hlt : b < val
    · have hr : val - b ≤ b * rest.length := by
        rw [List.length_cons, Nat.mul_succ] at hroom
        omega
      have hpos : 0 < rest.length := by
        by_contra h0
        simp only [Nat.eq_zero_of_not_pos h0, Nat.mul_zero] at hr
        omega
      simp only [seekLoop, Node.size, hn, hlt, if_true, ih hrest _ hpos hr, Option.map_some]
      rw [← Nat.add_div_right _ hb, Nat.sub_add_cancel hlt.le]
    · have hd : _ = (0 + val) / b := div_step (by omega) hb
      simp only [Nat.zero_add] at hd
      simp only [seekLoop, Node.size, hn, hlt, if_false]
      rw [← hd]
      by_cases he : val = b
      · simp [he]
      · simp [he, Ne.symm he]

theorem cursor_lt (hb : 0 < b) (h : Inv b s) (hp : s.position < s.capacity) :
    s.position / b < s.nodes.length := by
  rw [Nat.div_lt_iff_lt_mul hb, Nat.mul_comm, ← h.capacity]
  exact hp

theorem cursor_add (hb : 0 < b) (p n : Nat) : p / b + (p % b + n) / b = (p + n) / b := by
  conv_rhs => rw [← Nat.div_add_mod p b, Nat.add_assoc, Nat.mul_add_div hb]

theorem cursor_room (hb : 0 < b) (h : Inv b s) {n : Nat} (hn : s.position + n ≤ s.capacity)
    (hp : s.position < s.capacity) :
    s.position % b + n ≤ b * (s.nodes.drop (s.position / b)).length := by
  have hk := (cursor_lt hb h hp).le
  have hd := Nat.div_add_mod s.position b
  have hm : b * (s.nodes.length - s.position / b) =
      b * s.nodes.length - b * (s.position / b) := Nat.mul_sub _ _ _
  rw [List.length_drop, hm, ← h.capacity]
  omega

theorem cursor_split (hb : 0 < b) (h : Inv b s) (hp : s.position < s.capacity) :
    s.cur = some (s.position / b) ∧
      s.nodes.flatten = (s.nodes.take (s.position / b)).flatten ++
        (s.nodes.drop (s.position / b)).flatten ∧
      s.position = (s.nodes.take (s.position / b)).flatten.length + s.position % b := by
  have hk := cursor_lt hb h hp
  obtain ⟨hsplit, hlen⟩ := h.flatten_split (s.position / b) hk.le
  refine ⟨?_, hsplit, ?_⟩
  · rw [h.cur]
    simp only [nodeAt, hk, if_true]
  · rw [hlen]
    exact (Nat.div_add_mod _ _).symm

theorem writeNodes_spec (hb : 0 < b) (h : Inv b s) (buf : List UInt8) (hne : 0 < buf.length)
    (hroom : s.position + buf.length ≤ s.capacity) :
    ∃ t, writeNodes s buf = some t ∧ Inv b t ∧
      flat t = ⟨overwrite s.nodes.flatten s.position buf, s.position + buf.length,
        max s.size (s.position + buf.length)⟩ := by
  have hlt : s.position < s.capacity := by omega
  obtain ⟨hcur, hsplit, hpos⟩ := cursor_split hb h hlt
  obtain ⟨ns', hw, hu, hl, hf⟩ := writeLoop_spec hb (s.nodes.drop (s.position / b))
    (h.uniform.drop _) (s.position % b) buf (Nat.mod_lt _ hb).le (cursor_room hb h hroom hlt) hne
  have hlen : (s.nodes.take (s.position / b) ++ ns').length = s.nodes.length := by
    have := cursor_lt hb h hlt
    simp only [List.length_append, List.length_take, hl, List.length_drop]
    omega
  refine ⟨_, by simp only [writeNodes, hcur, h.block, hw, Option.map_some]; rfl, ?_, ?_⟩
  · constructor
    · rfl
    · exact (h.uniform.take _).append hu
    · exact hlen ▸ h.nonempty
    · exact hlen ▸ h.capacity
    · exact le_max_right _ _
    · exact max_le h.size_le hroom
    · simp only [cursor_add hb]
  · have hflat : (s.nodes.take (s.position / b) ++ ns').flatten =
        overwrite s.nodes.flatten s.position buf := by
      rw [List.flatten_append, hf, ← overwrite_append_right, ← hpos, ← hsplit]
    simp only [flat, hflat]

theorem write_spec (hb : 0 < b) (h : Inv b s) (buf : List UInt8) :
    ∃ t, write fresh s buf = some t ∧ Inv b t ∧
      Flat.Step b (flat s) (.write buf) .done (flat t) := by
  by_cases h0 : buf.length = 0
  · have hnil : buf = [] := List.length_eq_zero_iff.mp h0
    subst hnil
    have hroom : (flat s).position + ([] : List UInt8).length ≤ ((flat s).cells ++ []).length := by
      rw [List.append_nil, h.length_cells]
      exact h.position_le.trans h.size_le
    refine ⟨s, by simp [write], h, ?_⟩
    simpa [flat, max_eq_left h.position_le] using Flat.Step.write (b := b) (flat s) [] [] hroom
  · obtain ⟨ext, ht, hcells, hpos, hsize, hcap⟩ := addCapacity_spec fresh hb h buf.length
    rw [← hpos] at hcap
    obtain ⟨t, hw, hinv, hflat⟩ := writeNodes_spec hb ht buf (by omega) hcap
    refine ⟨t, by simp only [write, h0, if_false, hw], hinv, ?_⟩
    have hroom : (flat s).position + buf.length ≤ ((flat s).cells ++ ext).length := by
      have hl := ht.length_cells
      simp only [flat, hcells] at hl ⊢
      omega
    rw [hflat, hcells, hpos, hsize]
    exact Flat.Step.write (flat s) buf ext hroom

theorem readLoop_cursor (hb : 0 < b) (h : Inv b s) {n : Nat} (hne : 0 < n)
    (hn : n ≤ s.getReadSize) :
    s.cur = some (s.position / b) ∧
      readLoop (s.nodes.drop (s.position / b)) (s.position % b) n =
        some (slice s.nodes.flatten s.position n, (s.position % b + n) / b) := by
  have hsize := h.size_le
  have hroom : s.position + n ≤ s.capacity := by unfold State.getReadSize at hn; omega
  have hlt : s.position < s.capacity := by omega
  obtain ⟨hcur, hsplit, hpos⟩ := cursor_split hb h hlt
  refine ⟨hcur, ?_⟩
  rw [readLoop_spec hb _ (h.uniform.drop _) _ n (Nat.mod_lt _ hb).le (cursor_room hb h hroom hlt) hne]
  have hs := slice_append_right (s.nodes.take (s.position / b)).flatten
    (s.nodes.drop (s.position / b)).flatten (s.position % b) n
  rw [← hsplit, ← hpos] at hs
  rw [hs]

theorem read_spec (hb : 0 < b) (h : Inv b s) {n : Nat} (hne : 0 < n) :
    ∃ t r, read s n = some (t, r) ∧ Inv b t ∧ Flat.Step b (flat s) (.read n) r (flat t) := by
  by_cases hn : s.getReadSize < n
  · exact ⟨s, .outOfRange, by simp only [read, hn, if_true], h, Flat.Step.read_throws (flat s) n hn⟩
  · have hle : n ≤ s.getReadSize := Nat.le_of_not_lt hn
    have hz : n ≠ 0 := by omega
    obtain ⟨hcur, hr⟩ := readLoop_cursor hb h hne hle
    refine ⟨{ s with position := s.position + n, cur := nodeAt s.nodes ((s.position + n) / b) },
      .bytes (slice s.nodes.flatten s.position n), ?_, ?_, Flat.Step.read (flat s) n hle⟩
    · simp only [read, hn, if_false, hcur, hz, h.block, hr, Option.map_some, cursor_add hb]
    · refine ⟨h.block, h.uniform, h.nonempty, h.capacity, ?_, h.size_le, rfl⟩
      have := h.position_le
      unfold State.getReadSize at hle
      change s.position + n ≤ s.size
      omega

theorem setPosition_spec (hb : 0 < b) (h : Inv b s) (val : Nat) :
    ∃ t r, setPosition s val = some (t, r) ∧ Inv b t ∧
      Flat.Step b (flat s) (.setPosition val) r (flat t) := by
  have hl := h.length_cells
  by_cases hv : s.capacity < val
  · refine ⟨s, .outOfRange, by simp only [setPosition, hv, if_true], h, ?_⟩
    exact Flat.Step.setPosition_throws (flat s) val (by omega)
  · have hk := seekLoop_spec hb s.nodes h.uniform val h.nonempty (by rw [← h.capacity]; omega)
    refine ⟨{ s with position := val, size := max s.size val, cur := nodeAt s.nodes (val / b) },
      .done, by simp only [setPosition, hv, if_false, hk, Option.map_some], ?_,
      Flat.Step.setPosition (flat s) val (by omega)⟩
    exact ⟨h.block, h.uniform, h.nonempty, h.capacity, le_max_right _ _,
      max_le h.size_le (Nat.le_of_not_lt hv), rfl⟩

theorem toString_spec (hb : 0 < b) (h : Inv b s) :
    toString s = some (.bytes (slice s.nodes.flatten s.position s.getReadSize)) := by
  unfold toString
  split
  · rename_i hz
    simp [hz, slice]
  · rename_i hz
    obtain ⟨hcur, hr⟩ := readLoop_cursor hb h (Nat.pos_of_ne_zero hz) le_rfl
    simp only [readAt, lt_irrefl, if_false, hcur, hz, h.block, hr, Option.map_some]

theorem clear_spec (h : Inv b s) :
    Inv b (clear s) ∧ flat (clear s) = ⟨s.nodes.flatten.take b, 0, 0⟩ := by
  obtain ⟨node, rest, hn⟩ := List.exists_cons_of_length_pos h.nonempty
  have hlen : node.length = b := h.uniform node (by simp [hn])
  constructor
  · refine ⟨h.block, h.uniform.take 1, ?_, ?_, le_rfl, Nat.zero_le _, ?_⟩
    · simp [clear, hn]
    · simp [clear, hn, h.block]
    · simp [clear, hn, nodeAt]
  · simp [flat, clear, hn, ← hlen]

/-- Every operation of the node list is one of the flat storage, and keeps the
invariant. No operation meets a null node. -/
theorem step_spec (hb : 0 < b) (h : Inv b s) (op : Op) (hread : ∀ n, op = .read n → 0 < n) :
    ∃ t r, step fresh s op = some (t, r) ∧ Inv b t ∧ Flat.Step b (flat s) op r (flat t) := by
  cases op with
  | write buf =>
    obtain ⟨t, hw, hi, hf⟩ := write_spec fresh hb h buf
    exact ⟨t, .done, by simp only [step, hw, Option.map_some], hi, hf⟩
  | read n => exact read_spec hb h (hread n rfl)
  | setPosition val => exact setPosition_spec hb h val
  | addCapacity n =>
    obtain ⟨ext, hi, hcells, hpos, hsize, hcap⟩ := addCapacity_spec fresh hb h n
    refine ⟨_, .done, rfl, hi, ?_⟩
    have hroom : (flat s).position + n ≤ ((flat s).cells ++ ext).length := by
      have hl := hi.length_cells
      simp only [flat, hcells] at hl ⊢
      omega
    have hf := Flat.Step.addCapacity (b := b) (flat s) n ext hroom
    simpa only [flat, hcells, hpos, hsize] using hf
  | toString =>
    exact ⟨s, _, by simp only [step, toString_spec hb h, Option.map_some]; rfl, h,
      Flat.Step.toString (flat s)⟩
  | clear =>
    obtain ⟨hi, hf⟩ := clear_spec h
    exact ⟨_, .done, rfl, hi, hf ▸ Flat.Step.clear (flat s)⟩

theorem run_spec (hb : 0 < b) (ops : List Op) (hread : ∀ n, Op.read n ∈ ops → 0 < n) (h : Inv b s) :
    ∃ t rs, run fresh s ops = some (t, rs) ∧ Inv b t ∧ Flat.Run b (flat s) ops rs (flat t) := by
  induction ops generalizing s with
  | nil => exact ⟨s, [], rfl, h, .nil _⟩
  | cons op ops ih =>
    obtain ⟨t, r, ht, hi, hf⟩ := step_spec fresh hb h op
      (fun n he => hread n (by simp [he]))
    obtain ⟨u, rs, hu, hj, hg⟩ := ih (fun n hn => hread n (by simp [hn])) hi
    exact ⟨u, r :: rs, by simp [run, ht, hu], hj, .cons hf hg⟩

/-- What a client sees as long as it never seeks behind the data: the data and
the cursor, with no mention of blocks. -/
structure Text where
  content : List UInt8
  position : Nat

def Text.step (x : Text) : Op → Text × Result
  | .write buf => (⟨overwrite x.content x.position buf, x.position + buf.length⟩, .done)
  | .read n =>
      if x.content.length - x.position < n then (x, .outOfRange)
      else (⟨x.content, x.position + n⟩, .bytes (slice x.content x.position n))
  | .setPosition val => (⟨x.content, val⟩, .done)
  | .addCapacity _ => (x, .done)
  | .toString => (x, .bytes (slice x.content x.position (x.content.length - x.position)))
  | .clear => (⟨[], 0⟩, .done)

def text (f : Flat) : Text := ⟨f.cells.take f.size, f.position⟩

theorem flat_step_text {f g : Flat} {op : Op} {r : Result} (h : Flat.Step b f op r g)
    (hp : f.position ≤ f.size) (hs : f.size ≤ f.cells.length)
    (hseek : ∀ v, op = .setPosition v → v ≤ f.size) : Text.step (text f) op = (text g, r) := by
  have hlen : (f.cells.take f.size).length = f.size := by
    rw [List.length_take, Nat.min_eq_left hs]
  cases h with
  | write buf ext hroom =>
    have ht : (f.cells ++ ext).take f.size = f.cells.take f.size := List.take_append_of_le_length hs
    have ho := overwrite_take (l := f.cells ++ ext) (d := buf) hp (by simp; omega)
    simp only [Text.step, text, ho, ht]
  | read n hn =>
    have hs' : slice (f.cells.take f.size) f.position n = slice f.cells f.position n :=
      slice_take (by omega)
    simp only [Text.step, text, hlen, Nat.not_lt.mpr hn, if_false, hs']
  | read_throws n hn => simp only [Text.step, text, hlen, hn, if_true]
  | setPosition val _ =>
    have hv := hseek val rfl
    simp only [Text.step, text, max_eq_left hv]
  | setPosition_throws val hv =>
    have := hseek val rfl
    omega
  | addCapacity n ext _ =>
    simp only [Text.step, text, List.take_append_of_le_length hs]
  | toString =>
    have hs' : slice (f.cells.take f.size) f.position (f.size - f.position) =
        slice f.cells f.position (f.size - f.position) := slice_take (by omega)
    simp only [Text.step, text, hlen, hs']
  | clear => simp [Text.step, text]

/-- Every `setPosition` of the run stays within the data present at that moment. -/
def SeeksWithin (fresh : Nat → Nat → UInt8) : State → List Op → Prop
  | _, [] => True
  | s, op :: ops => (∀ v, op = .setPosition v → v ≤ s.size) ∧
      ∀ t r, step fresh s op = some (t, r) → SeeksWithin fresh t ops

theorem Inv.size_eq (h : Inv b s) : (text (flat s)).content.length = s.size := by
  have hl := h.length_cells
  have hs := h.size_le
  simp only [text, List.length_take, hl]
  exact Nat.min_eq_left hs

theorem step_text (hb : 0 < b) (h : Inv b s) (op : Op) (hread : ∀ n, op = .read n → 0 < n)
    (hseek : ∀ v, op = .setPosition v → v ≤ s.size) :
    ∃ t r, step fresh s op = some (t, r) ∧ Inv b t ∧
      Text.step (text (flat s)) op = (text (flat t), r) := by
  obtain ⟨t, r, ht, hi, hf⟩ := step_spec fresh hb h op hread
  exact ⟨t, r, ht, hi, flat_step_text hf h.position_le (h.length_cells ▸ h.size_le) hseek⟩

/-- Two arrays with the same text give the same results, whatever their blocks. -/
theorem run_independent {b' : Nat} (fresh' : Nat → Nat → UInt8) {s' : State} (hb : 0 < b)
    (hb' : 0 < b') (ops : List Op) (hread : ∀ n, Op.read n ∈ ops → 0 < n) (h : Inv b s)
    (h' : Inv b' s') (he : text (flat s) = text (flat s')) (hw : SeeksWithin fresh s ops) :
    ∃ t t' rs, run fresh s ops = some (t, rs) ∧ run fresh' s' ops = some (t', rs) := by
  induction ops generalizing s s' with
  | nil => exact ⟨s, s', [], rfl, rfl⟩
  | cons op ops ih =>
    obtain ⟨hseek, hrest⟩ := hw
    have hr : ∀ n, op = .read n → 0 < n := fun n hn => hread n (by simp [hn])
    have hsize : s.size = s'.size := by rw [← h.size_eq, ← h'.size_eq, he]
    obtain ⟨t, r, ht, hi, hx⟩ := step_text fresh hb h op hr hseek
    obtain ⟨t', r', ht', hi', hx'⟩ := step_text fresh' hb' h' op hr
      (fun v hv => hsize ▸ hseek v hv)
    rw [he, hx'] at hx
    obtain ⟨hte, rfl⟩ := Prod.mk.inj hx
    obtain ⟨u, u', rs, hu, hu'⟩ := ih (fun n hn => hread n (by simp [hn])) hi hi' hte.symm
      (hrest t _ ht)
    exact ⟨u, u', r' :: rs, by simp [run, ht, hu], by simp [run, ht', hu']⟩

/-- The node list refines a flat storage: after any operations on a new array
the representation is as the cursor and the sizes say, the results are those
of the flat storage, and seeks within the data make them independent of the
block size and of the contents of fresh blocks. -/
theorem byteArray_refines_flat (fresh : Nat → Nat → UInt8) (b : Nat) (hb : 1 ≤ b) (ops : List Op)
    (hread : ∀ n, Op.read n ∈ ops → 1 ≤ n) :
    ∃ s rs, run fresh (new fresh b) ops = some (s, rs) ∧
      (s.blocksize = b ∧ Uniform b s.nodes ∧ s.capacity = b * s.nodes.length ∧
        s.position ≤ s.size ∧ s.size ≤ s.capacity ∧
        s.cur = if s.position = s.capacity then none else some (s.position / b)) ∧
      Flat.Run b ⟨newNode fresh 0 b, 0, 0⟩ ops rs ⟨s.nodes.flatten, s.position, s.size⟩ ∧
      (SeeksWithin fresh (new fresh b) ops → ∀ (fresh' : Nat → Nat → UInt8) (b' : Nat), 1 ≤ b' →
        ∃ s', run fresh' (new fresh' b') ops = some (s', rs)) := by
  obtain ⟨s, rs, hr, hi, hf⟩ := run_spec fresh hb ops hread (new_inv fresh)
  refine ⟨s, rs, hr, ⟨hi.block, hi.uniform, hi.capacity, hi.position_le, hi.size_le,
    hi.cur_eq hb⟩, by simpa [flat, new] using hf, ?_⟩
  intro hw fresh' b' hb'
  obtain ⟨t, t', rs', ht, ht'⟩ := run_independent fresh fresh' hb hb' ops hread
    (new_inv fresh) (new_inv fresh') (by simp [text, flat, new]) hw
  rw [hr] at ht
  obtain ⟨-, rfl⟩ := Prod.mk.inj (Option.some.inj ht)
  exact ⟨t', ht'⟩

theorem byteArray_refines_flat_two_blocks :
    ∃ s rs, run (fun _ _ => 7) (new (fun _ _ => 7) 2)
        [.write [1, 2, 3], .setPosition 1, .read 2, .read 1] = some (s, rs) ∧
      s.capacity = 2 * s.nodes.length := by
  obtain ⟨s, rs, hr, hi, -⟩ := byteArray_refines_flat (fun _ _ => 7) 2 (by decide)
    [.write [1, 2, 3], .setPosition 1, .read 2, .read 1] (by simp)
  exact ⟨s, rs, hr, hi.2.2.1⟩

example : (run (fun _ _ => 7) (new (fun _ _ => 7) 2)
    [.write [1, 2, 3], .setPosition 1, .read 2, .read 1]).map (·.2) =
      some [.done, .done, .bytes [2, 3], .outOfRange] := by decide

end Windgent.ByteArray
