import Windgent.ByteArray.Refinement
import Windgent.Transition

namespace Windgent.ByteArray

open Segments Transition

/-- An `iovec`: the node it points into, the offset of `iov_base` there and `iov_len`. -/
abbrev Iovec := Range

instance (nodes : List Node) (v : Iovec) : Decidable (v.Inside nodes) := inferInstanceAs (Decidable (_ ∧ _))

/-- The loop of `getReadBuffers` and `getWriteBuffers` over the nodes from node number `cur`
on: the `iovec`s appended. It fails on a null node. -/
def bufferLoop : List Node → Nat → Nat → Nat → Option (List Iovec)
  | [], _, _, _ => none
  | node :: rest, cur, npos, len =>
      let ncap := node.size - npos
      if len = 0 then some []
      else if len ≤ ncap then some [⟨cur, npos, len⟩]
      else (bufferLoop rest (cur + 1) 0 (len - ncap)).map fun vs => ⟨cur, ncap, ncap⟩ :: vs

def getReadBuffers (s : State) (len : Nat) : Option (List Iovec × Nat) :=
  if len = 0 then some ([], 0)
  else
    let size := if s.getReadSize < len then s.getReadSize else len
    match s.cur with
    | none => none
    | some k => (bufferLoop (s.nodes.drop k) k (s.position % s.blocksize) size).map fun vs => (vs, size)

/-- `getReadBuffers(buffers, len, pos)`; the walk to the block of `pos` starts at `m_root`. -/
def getReadBuffersAt (s : State) (len pos : Nat) : Option (List Iovec × Nat) :=
  if len = 0 then some ([], 0)
  else
    let size := if s.getReadSize < len then s.getReadSize else len
    let block_cnt := pos / s.blocksize
    (bufferLoop (s.nodes.drop block_cnt) block_cnt (pos % s.blocksize) size).map fun vs => (vs, size)

def getWriteBuffers (fresh : Nat → Nat → UInt8) (s : State) (len : Nat) : Option (State × List Iovec × Nat) :=
  if len = 0 then some (s, [], 0)
  else
    let t := addCapacity fresh s len
    match t.cur with
    | none => none
    | some k => (bufferLoop (t.nodes.drop k) k (t.position % t.blocksize) len).map fun vs => (t, vs, len)

inductive Event where
  | op (op : Op)
  | getWriteBuffers (len : Nat)
  | fill (v : Iovec) (data : List UInt8)

def advance (fresh : Nat → Nat → UInt8) (s : State) : Event → Option State
  | .op op => (step fresh s op).map (·.1)
  | .getWriteBuffers len => (getWriteBuffers fresh s len).map (·.1)
  | .fill v data =>
      if v.Inside s.nodes ∧ data.length ≤ v.len then some { s with nodes := scatter s.nodes [v] data } else none

section Reach

variable {b : Nat} {fresh : Nat → Nat → UInt8} {s t : State}

theorem Inv.step (hb : 0 < b) (h : Inv b s) {op : Op} {r : Result} (ht : step fresh s op = some (t, r)) : Inv b t := by
  by_cases h0 : op = .read 0
  · subst h0
    simp only [ByteArray.step, read, Nat.not_lt_zero, if_false, if_true] at ht
    split at ht
    · cases ht
    · obtain ⟨rfl, -⟩ := Prod.mk.inj (Option.some.inj ht)
      exact h
  · obtain ⟨u, r', hu, hi, -⟩ := step_spec fresh hb h op fun n hn => by
      rw [hn] at h0
      exact Nat.pos_of_ne_zero fun hz => h0 (by rw [hz])
    rw [hu] at ht
    obtain ⟨rfl, -⟩ := Prod.mk.inj (Option.some.inj ht)
    exact hi

/-- The nodes may be rewritten as long as their number and sizes stay. -/
theorem Inv.rewrite (h : Inv b s) {nodes : List Node} (hu : Uniform b nodes) (hl : nodes.length = s.nodes.length) :
    Inv b { s with nodes := nodes } where
  block := h.block
  uniform := hu
  nonempty := hl ▸ h.nonempty
  capacity := hl ▸ h.capacity
  position_le := h.position_le
  size_le := h.size_le
  cur := by
    rw [h.cur]
    simp only [nodeAt, hl]

theorem Inv.scatter {p n : Nat} (h : Inv b s) {vs : List Iovec} {d : List UInt8} (hin : ∀ v ∈ vs, v.Inside s.nodes)
    (hcells : vs.flatMap (Range.cells b) = List.range' p n) (hd : d.length ≤ n) (hp : p + n ≤ s.capacity) :
    Inv b { s with nodes := scatter s.nodes vs d } ∧
      (scatter s.nodes vs d).flatten = overwrite s.nodes.flatten p d := by
  obtain ⟨hu, hl, hf⟩ := h.uniform.flatten_scatter hin hcells hd (hp.trans_eq h.length_cells.symm)
  exact ⟨h.rewrite hu hl, hf⟩

theorem Inv.getD_length (h : Inv b s) {k : Nat} (hk : k < s.nodes.length) : (s.nodes.getD k []).length = b := by
  rw [List.getD_eq_getElem _ _ hk]
  exact h.uniform _ (List.getElem_mem hk)

theorem Inv.advance (hb : 0 < b) (h : Inv b s) {e : Event} (ht : advance fresh s e = some t) : Inv b t := by
  cases e with
  | op op =>
    obtain ⟨⟨u, r⟩, hu, rfl⟩ := Option.map_eq_some_iff.mp ht
    exact h.step hb hu
  | getWriteBuffers len =>
    obtain ⟨⟨u, vs, n⟩, hu, rfl⟩ := Option.map_eq_some_iff.mp ht
    unfold getWriteBuffers at hu
    split at hu
    · cases hu
      exact h
    · obtain ⟨ext, hi, -⟩ := addCapacity_spec fresh hb h len
      dsimp only at hu
      split at hu
      · cases hu
      · obtain ⟨vs', -, hvs⟩ := Option.map_eq_some_iff.mp hu
        cases hvs
        exact hi
  | fill v data =>
    simp only [ByteArray.advance] at ht
    split at ht
    · rename_i hv
      cases ht
      have hlen := h.getD_length hv.1.1
      have hcap : b * v.part + b ≤ s.capacity := by
        rw [h.capacity, ← Nat.mul_succ]
        exact Nat.mul_le_mul_left b hv.1.1
      have hroom := hv.1.2
      have hin : ∀ w ∈ [v], w.Inside s.nodes := by simpa using hv.1
      have hcells : [v].flatMap (Range.cells b) = List.range' (b * v.part + v.base) v.len := by simp [Range.cells]
      exact (h.scatter hin hcells hv.2 (by omega)).1
    · cases ht

theorem new_reachable (fresh : Nat → Nat → UInt8) (b : Nat) :
    Reachable (fun s => s = new fresh b) (ByteArray.advance fresh) (new fresh b) := Run.start rfl

theorem inv_of_reachable (hb : 0 < b) (h : Reachable (fun s => s = new fresh b) (ByteArray.advance fresh) s) :
    Inv b s :=
  h.invariant (fun _ hs => hs ▸ new_inv fresh) fun _ _ _ hi ht => hi.advance hb ht

end Reach

section Loop

variable {b : Nat} {s : State} {p n : Nat}

theorem block_lt (hb : 0 < b) (h : Inv b s) (hp : p < s.capacity) : p / b < s.nodes.length := by
  rw [Nat.div_lt_iff_lt_mul hb, Nat.mul_comm, ← h.capacity]
  exact hp

theorem next_block_lt (h : Inv b s) (hn : p + n ≤ s.capacity) (hcross : b < p % b + n) :
    p / b + 1 < s.nodes.length := by
  have hd := Nat.div_add_mod p b
  have hlt : b * (p / b + 1) < b * s.nodes.length := by
    rw [← h.capacity, Nat.mul_succ]
    omega
  exact Nat.lt_of_mul_lt_mul_left hlt

theorem drop_block (h : Inv b s) {k : Nat} (hk : k < s.nodes.length) :
    s.nodes.drop k = s.nodes.getD k [] :: s.nodes.drop (k + 1) ∧ Node.size (s.nodes.getD k []) = b := by
  refine ⟨?_, h.getD_length hk⟩
  rw [List.drop_eq_getElem_cons hk, List.getD_eq_getElem _ _ hk]

theorem head_of_drop {node : Node} {rest : List Node} {cur : Nat} (h : node :: rest = s.nodes.drop cur) :
    cur < s.nodes.length ∧ s.nodes.getD cur [] = node ∧ rest = s.nodes.drop (cur + 1) := by
  have hlt : cur < s.nodes.length := by
    by_contra hge
    rw [List.drop_eq_nil_of_le (Nat.le_of_not_lt hge)] at h
    cases h
  rw [List.drop_eq_getElem_cons hlt] at h
  obtain ⟨hnode, hrest⟩ := List.cons.inj h
  exact ⟨hlt, (List.getD_eq_getElem _ _ hlt).trans hnode.symm, hrest⟩

theorem slice_block (h : Inv b s) (hk : p / b < s.nodes.length) :
    slice s.nodes.flatten p n =
      slice (s.nodes.getD (p / b) [] ++ (s.nodes.drop (p / b + 1)).flatten) (p % b) n := by
  obtain ⟨hsplit, hlen⟩ := h.flatten_split (p / b) hk.le
  rw [(drop_block h hk).1, List.flatten_cons] at hsplit
  have hp : p = (s.nodes.take (p / b)).flatten.length + p % b := by
    rw [hlen, Nat.div_add_mod]
  have hs := slice_append_right (s.nodes.take (p / b)).flatten
    (s.nodes.getD (p / b) [] ++ (s.nodes.drop (p / b + 1)).flatten) (p % b) n
  rw [← hsplit, ← hp] at hs
  exact hs

theorem bufferLoop_cases (hb : 0 < b) (h : Inv b s) (h0 : 0 < n) (hp : p + n ≤ s.capacity) :
    (p % b + n ≤ b ∧ bufferLoop (s.nodes.drop (p / b)) (p / b) (p % b) n = some [⟨p / b, p % b, n⟩]) ∨
      (b < p % b + n ∧ p % b + n ≤ b + b ∧ bufferLoop (s.nodes.drop (p / b)) (p / b) (p % b) n =
        some [⟨p / b, b - p % b, b - p % b⟩, ⟨p / b + 1, 0, n - (b - p % b)⟩]) ∨
      (b + b < p % b + n ∧ ∀ vs, bufferLoop (s.nodes.drop (p / b)) (p / b) (p % b) n = some vs →
        ∃ v ∈ vs, ¬ v.Inside s.nodes) := by
  have hm := Nat.mod_lt p hb
  obtain ⟨hdrop, hsize⟩ := drop_block h (block_lt (p := p) hb h (by omega))
  by_cases hfit : p % b + n ≤ b
  · left
    refine ⟨hfit, ?_⟩
    rw [hdrop, bufferLoop, hsize, if_neg (by omega), if_pos (by omega)]
  · have hcross : b < p % b + n := Nat.lt_of_not_le hfit
    have hk := next_block_lt h hp hcross
    obtain ⟨hdrop', hsize'⟩ := drop_block h hk
    have hloop : bufferLoop (s.nodes.drop (p / b)) (p / b) (p % b) n =
        (bufferLoop (s.nodes.drop (p / b + 1)) (p / b + 1) 0 (n - (b - p % b))).map
          fun vs => ⟨p / b, b - p % b, b - p % b⟩ :: vs := by
      rw [hdrop, bufferLoop, hsize, if_neg (by omega), if_neg (by omega)]
    right
    by_cases hnext : p % b + n ≤ b + b
    · left
      refine ⟨hcross, hnext, ?_⟩
      rw [hloop, hdrop', bufferLoop, hsize', if_neg (by omega), if_pos (by omega), Option.map_some]
    · right
      refine ⟨Nat.lt_of_not_le hnext, fun vs hvs => ?_⟩
      rw [hloop, hdrop', bufferLoop, hsize', if_neg (by omega), if_neg (by omega)] at hvs
      obtain ⟨us, hus, rfl⟩ := Option.map_eq_some_iff.mp hvs
      obtain ⟨ws, -, rfl⟩ := Option.map_eq_some_iff.mp hus
      refine ⟨⟨p / b + 1, b - 0, b - 0⟩, by simp, fun hin => ?_⟩
      have hout := hin.2
      rw [h.getD_length hk] at hout
      simp only [Nat.sub_zero] at hout
      omega

theorem bufferLoop_isSome_iff {ns : List Node} (hu : Uniform b ns) {cur npos len : Nat} (hp : npos ≤ b) :
    (bufferLoop ns cur npos len).isSome ↔ ns ≠ [] ∧ npos + len ≤ b * ns.length := by
  induction ns generalizing cur npos len with
  | nil => simp [bufferLoop]
  | cons node rest ih =>
    obtain ⟨hn, hrest⟩ := Uniform.cons.mp hu
    have hsize : node.size = b := hn
    rw [bufferLoop, hsize, List.length_cons, Nat.mul_succ, and_iff_right (List.cons_ne_nil _ _)]
    by_cases h0 : len = 0
    · rw [if_pos h0]
      exact iff_of_true rfl (by omega)
    · rw [if_neg h0]
      by_cases hfit : len ≤ b - npos
      · rw [if_pos hfit]
        exact iff_of_true rfl (by omega)
      · rw [if_neg hfit, Option.isSome_map, ih hrest (Nat.zero_le _)]
        refine ⟨fun h => by omega, fun h => ⟨?_, by omega⟩⟩
        rintro rfl
        simp only [List.length_nil, Nat.mul_zero] at h
        omega

theorem bufferLoop_block_isSome_iff (hb : 0 < b) (h : Inv b s) (p len : Nat) :
    (bufferLoop (s.nodes.drop (p / b)) (p / b) (p % b) len).isSome ↔ p < s.capacity ∧ p + len ≤ s.capacity := by
  have hd := Nat.div_add_mod p b
  have hlt : p / b < s.nodes.length ↔ p < s.capacity := by
    rw [Nat.div_lt_iff_lt_mul hb, Nat.mul_comm, ← h.capacity]
  have hne : s.nodes.drop (p / b) ≠ [] ↔ p < s.capacity := by
    rw [ne_eq, List.drop_eq_nil_iff, Nat.not_le, hlt]
  rw [bufferLoop_isSome_iff (h.uniform.drop _) (Nat.mod_lt _ hb).le, hne]
  refine and_congr_right fun hp => ?_
  have hle := Nat.mul_le_mul_left b (hlt.mpr hp).le
  rw [List.length_drop, Nat.mul_sub, ← h.capacity]
  rw [← h.capacity] at hle
  omega

end Loop

section Reading

variable {b : Nat} {fresh : Nat → Nat → UInt8} {s : State} {p n : Nat}

def Holds (s : State) (p n : Nat) (vs : List Iovec) : Prop :=
  (∀ v ∈ vs, v.Inside s.nodes) ∧ gather s.nodes vs = slice s.nodes.flatten p n

/-- Where the loop finds the right `n` bytes at `p`: they end in the block of `p`, or they end
in the next block and the `iovec` that starts at `ncap` happens to hold the same bytes as the end
of the block. -/
def Straight (s : State) (p n : Nat) : Prop :=
  let npos := p % s.blocksize
  let ncap := s.blocksize - npos
  let node := s.nodes.getD (p / s.blocksize) []
  npos + n ≤ s.blocksize ∨
    (ncap ≤ npos ∧ npos + n ≤ s.blocksize + s.blocksize ∧ slice node ncap ncap = slice node npos ncap)

instance (s : State) (p n : Nat) : Decidable (Straight s p n) := inferInstanceAs (Decidable (_ ∨ _))

theorem holds_bufferLoop_iff (hb : 0 < b) (h : Inv b s) (hp : p < s.capacity) (hn : p + n ≤ s.capacity) :
    (∃ vs, bufferLoop (s.nodes.drop (p / b)) (p / b) (p % b) n = some vs ∧ Holds s p n vs) ↔ Straight s p n := by
  have hm := Nat.mod_lt p hb
  have hk := block_lt hb h hp
  have hlen := h.getD_length hk
  simp only [Straight, h.block]
  obtain rfl | h0 := Nat.eq_zero_or_pos n
  · refine iff_of_true ⟨[], ?_, by simp, by simp [gather, slice]⟩ (Or.inl (by omega))
    rw [(drop_block h hk).1, bufferLoop, if_pos rfl]
  obtain ⟨hfit, hloop⟩ | ⟨hcross, hnext, hloop⟩ | ⟨hfar, hloop⟩ := bufferLoop_cases hb h h0 hn
  · refine iff_of_true ⟨_, hloop, ?_, ?_⟩ (Or.inl hfit)
    · rw [List.forall_mem_singleton]
      exact ⟨hk, by rw [hlen]; exact hfit⟩
    · rw [slice_block h hk, slice_append_left (by omega)]
      exact List.append_nil _
  · have hk' := next_block_lt h hn hcross
    have hlen' := h.getD_length hk'
    have hcut : slice s.nodes.flatten p n = slice (s.nodes.getD (p / b) []) (p % b) (b - p % b) ++
        slice (s.nodes.getD (p / b + 1) []) 0 (n - (b - p % b)) := by
      rw [slice_block h hk, slice_append_cross (by omega) (by omega), (drop_block h hk').1, List.flatten_cons,
        hlen, slice_append_left (by omega)]
      congr 1
      rw [slice, List.take_of_length_le]
      rw [List.length_drop]
      omega
    have hgather : gather s.nodes [⟨p / b, b - p % b, b - p % b⟩, ⟨p / b + 1, 0, n - (b - p % b)⟩] =
        slice (s.nodes.getD (p / b) []) (b - p % b) (b - p % b) ++
          slice (s.nodes.getD (p / b + 1) []) 0 (n - (b - p % b)) := by
      simp [gather]
    constructor
    · rintro ⟨vs, hvs, hin, hg⟩
      rw [hloop] at hvs
      obtain rfl := Option.some.inj hvs
      have hfirst := (hin _ List.mem_cons_self).2
      rw [hlen] at hfirst
      rw [hgather, hcut] at hg
      refine Or.inr ⟨?_, hnext, List.append_cancel_right hg⟩
      dsimp only at hfirst
      omega
    · rintro (hfit | ⟨hle, -, hsame⟩)
      · omega
      · refine ⟨_, hloop, ?_, by rw [hgather, hcut, hsame]⟩
        rw [List.forall_mem_cons, List.forall_mem_singleton]
        refine ⟨⟨hk, ?_⟩, ⟨hk', ?_⟩⟩
        · dsimp only
          omega
        · dsimp only
          omega
  · apply iff_of_false
    · rintro ⟨vs, hvs, hin, -⟩
      obtain ⟨v, hv, hout⟩ := hloop vs hvs
      exact hout (hin v hv)
    · rintro (hfit | ⟨-, hnext, -⟩)
      · omega
      · omega

/-- What `getReadBuffers` is for: `n` bytes at `p`, as `read` at the cursor of `u` returns them. -/
def Faithful (s u : State) (p n : Nat) (r : Option (List Iovec × Nat)) : Prop :=
  ∃ vs, r = some (vs, n) ∧ Holds s p n vs ∧ ∀ t res, read u n = some (t, res) → res = .bytes (gather s.nodes vs)

theorem read_eq_slice (hb : 0 < b) (h : Inv b s) (hn : n ≤ s.getReadSize) {t : State} {res : Result}
    (hr : read s n = some (t, res)) : res = .bytes (slice s.nodes.flatten s.position n) := by
  obtain rfl | h0 := Nat.eq_zero_or_pos n
  · simp only [read, Nat.not_lt_zero, if_false, if_true] at hr
    split at hr
    · cases hr
    · obtain ⟨-, rfl⟩ := Prod.mk.inj (Option.some.inj hr)
      simp [slice]
  · obtain ⟨hcur, hloop⟩ := readLoop_cursor hb h h0 hn
    simp only [read, Nat.not_lt.mpr hn, if_false, hcur, h0.ne', h.block, hloop, Option.map_some] at hr
    exact (Prod.mk.inj (Option.some.inj hr)).2.symm

theorem faithful_iff {u : State} {r : Option (List Iovec × Nat)}
    (hread : ∀ t res, read u n = some (t, res) → res = .bytes (slice s.nodes.flatten p n)) :
    Faithful s u p n r ↔ ∃ vs, r = some (vs, n) ∧ Holds s p n vs := by
  constructor
  · rintro ⟨vs, hvs, hh, -⟩
    exact ⟨vs, hvs, hh⟩
  · rintro ⟨vs, hvs, hh⟩
    refine ⟨vs, hvs, hh, fun t res hr => ?_⟩
    rw [hh.2]
    exact hread t res hr

theorem exists_map_iff {n : Nat} {o : Option (List Iovec)} {P : List Iovec → Prop} :
    (∃ vs, (o.map fun vs => (vs, n)) = some (vs, n) ∧ P vs) ↔ ∃ vs, o = some vs ∧ P vs := by
  constructor
  · rintro ⟨vs, hvs, hP⟩
    obtain ⟨us, hus, he⟩ := Option.map_eq_some_iff.mp hvs
    obtain ⟨rfl, -⟩ := Prod.mk.inj he
    exact ⟨us, hus, hP⟩
  · rintro ⟨vs, hvs, hP⟩
    exact ⟨vs, by rw [hvs, Option.map_some], hP⟩

theorem clamp_eq_min (len size : Nat) : (if size < len then size else len) = min len size := by
  split
  · omega
  · omega

theorem holds_nil (s : State) (p : Nat) : Holds s p 0 [] :=
  ⟨by simp, by simp [gather, slice]⟩

theorem getReadBuffers_holds_iff (hb : 0 < b) (h : Inv b s) (len : Nat) :
    (∃ vs, getReadBuffers s len = some (vs, min len s.getReadSize) ∧ Holds s s.position (min len s.getReadSize) vs) ↔
      len = 0 ∨ (s.position < s.capacity ∧ Straight s s.position (min len s.getReadSize)) := by
  have hpos := h.position_le
  have hsize := h.size_le
  obtain rfl | h0 := Nat.eq_zero_or_pos len
  · refine iff_of_true ⟨[], ?_, ?_⟩ (Or.inl rfl)
    · rw [Nat.zero_min]
      rfl
    · rw [Nat.zero_min]
      exact holds_nil s s.position
  · have hcur := h.cur_eq hb
    rw [getReadBuffers, if_neg h0.ne', clamp_eq_min, or_iff_right h0.ne']
    by_cases hend : s.position = s.capacity
    · rw [if_pos hend] at hcur
      apply iff_of_false
      · rintro ⟨vs, hvs, -⟩
        simp only [hcur] at hvs
        cases hvs
      · exact fun hc => hc.1.ne hend
    · rw [if_neg hend] at hcur
      have hlt : s.position < s.capacity := by omega
      have hn : s.position + min len s.getReadSize ≤ s.capacity := by
        unfold State.getReadSize
        omega
      simp only [hcur, h.block]
      rw [exists_map_iff, holds_bufferLoop_iff hb h hlt hn, and_iff_right hlt]

theorem getReadBuffersAt_holds_iff (hb : 0 < b) (h : Inv b s) (len : Nat) {pos : Nat} (hpos : pos ≤ s.size) :
    (∃ vs, getReadBuffersAt s len pos = some (vs, min len (s.size - pos)) ∧
      Holds s pos (min len (s.size - pos)) vs) ↔
      len = 0 ∨ (pos < s.capacity ∧ min len s.getReadSize = min len (s.size - pos) ∧
        Straight s pos (min len (s.size - pos))) := by
  have hsize := h.size_le
  obtain rfl | h0 := Nat.eq_zero_or_pos len
  · refine iff_of_true ⟨[], ?_, ?_⟩ (Or.inl rfl)
    · rw [Nat.zero_min]
      rfl
    · rw [Nat.zero_min]
      exact holds_nil s pos
  · rw [getReadBuffersAt, if_neg h0.ne', clamp_eq_min, h.block, or_iff_right h0.ne']
    by_cases hend : pos = s.capacity
    · apply iff_of_false
      · rintro ⟨vs, hvs, -⟩
        have hq : pos / b = s.nodes.length := by rw [hend, h.capacity, Nat.mul_div_cancel_left _ hb]
        simp only [hq, List.drop_length] at hvs
        cases hvs
      · exact fun hc => hc.1.ne hend
    · have hlt : pos < s.capacity := by omega
      have hn : pos + min len (s.size - pos) ≤ s.capacity := by omega
      rw [and_iff_right hlt]
      by_cases hsame : min len s.getReadSize = min len (s.size - pos)
      · rw [hsame, exists_map_iff, holds_bufferLoop_iff hb h hlt hn, and_iff_right rfl]
      · apply iff_of_false
        · rintro ⟨vs, hvs, -⟩
          obtain ⟨us, -, he⟩ := Option.map_eq_some_iff.mp hvs
          exact hsame (Prod.mk.inj he).2
        · exact fun hc => hsame hc.1

theorem setPosition_within (hb : 0 < b) (h : Inv b s) {pos : Nat} (hpos : pos ≤ s.capacity) :
    ∃ u, setPosition s pos = some (u, .done) ∧ Inv b u ∧ u.nodes = s.nodes ∧ u.position = pos ∧
      u.size = max s.size pos := by
  have hk := seekLoop_spec hb s.nodes h.uniform pos h.nonempty (by rw [← h.capacity]; exact hpos)
  refine ⟨{ s with position := pos, size := max s.size pos, cur := nodeAt s.nodes (pos / b) }, ?_, ?_, rfl, rfl, rfl⟩
  · simp only [setPosition, Nat.not_lt.mpr hpos, if_false, hk, Option.map_some]
  · exact ⟨h.block, h.uniform, h.nonempty, h.capacity, le_max_right _ _, max_le h.size_le hpos, rfl⟩

/-- When the scatter buffers for reading are those of the data. -/
theorem getReadBuffers_faithful_iff (hb : 1 ≤ b)
    (h : Reachable (fun s => s = new fresh b) (ByteArray.advance fresh) s) (len : Nat) :
    (Faithful s s s.position (min len s.getReadSize) (getReadBuffers s len) ↔
      len = 0 ∨ (s.position < s.capacity ∧ Straight s s.position (min len s.getReadSize))) ∧
    ∀ pos ≤ s.size,
      ((∃ u, setPosition s pos = some (u, .done) ∧
        Faithful s u pos (min len (s.size - pos)) (getReadBuffersAt s len pos)) ↔
      len = 0 ∨ (pos < s.capacity ∧ min len s.getReadSize = min len (s.size - pos) ∧
        Straight s pos (min len (s.size - pos)))) := by
  have hi := inv_of_reachable hb h
  constructor
  · rw [faithful_iff fun t res hr => read_eq_slice hb hi (Nat.min_le_right _ _) hr]
    exact getReadBuffers_holds_iff hb hi len
  · intro pos hpos
    obtain ⟨u, hu, hiu, hnodes, hupos, husize⟩ := setPosition_within hb hi (hpos.trans hi.size_le)
    have hread : ∀ t res, read u (min len (s.size - pos)) = some (t, res) →
        res = .bytes (slice s.nodes.flatten pos (min len (s.size - pos))) := by
      intro t res hr
      have hle : min len (s.size - pos) ≤ u.getReadSize := by
        rw [State.getReadSize, hupos, husize, max_eq_left hpos]
        exact Nat.min_le_right _ _
      have hs := read_eq_slice hb hiu hle hr
      rwa [hnodes, hupos] at hs
    rw [← getReadBuffersAt_holds_iff hb hi len hpos, ← faithful_iff hread]
    constructor
    · rintro ⟨u', hu', hf⟩
      rw [hu] at hu'
      obtain ⟨rfl, -⟩ := Prod.mk.inj (Option.some.inj hu')
      exact hf
    · exact fun hf => ⟨u, hu, hf⟩

def sixBytes : State := ⟨4, 3, 8, 6, [[1, 2, 3, 4], [5, 6, 7, 7]], some 0, 2⟩

theorem sixBytes_reachable :
    Reachable (fun s => s = new (fun _ _ => 7) 4) (ByteArray.advance fun _ _ => 7) sixBytes := by
  exact (new_reachable _ 4).exec [.op (.write [1, 2, 3, 4, 5, 6]), .op (.setPosition 3)] (by decide)

theorem getReadBuffers_faithful_one_block :
    Faithful sixBytes sixBytes 3 (min 1 sixBytes.getReadSize) (getReadBuffers sixBytes 1) ∧
      ∃ u, setPosition sixBytes 4 = some (u, .done) ∧
        Faithful sixBytes u 4 (min 2 (sixBytes.size - 4)) (getReadBuffersAt sixBytes 2 4) :=
  ⟨(getReadBuffers_faithful_iff (by decide) sixBytes_reachable 1).1.mpr (by decide),
    ((getReadBuffers_faithful_iff (by decide) sixBytes_reachable 2).2 4 (by decide)).mpr (by decide)⟩

/-- The buffers for the bytes 4, 5, 6 hold 2, 5, 6. -/
theorem getReadBuffers_wrong_byte :
    getReadBuffers sixBytes 3 = some ([⟨0, 1, 1⟩, ⟨1, 0, 2⟩], 3) ∧
      ¬ Faithful sixBytes sixBytes 3 (min 3 sixBytes.getReadSize) (getReadBuffers sixBytes 3) := by
  have hbuf : getReadBuffers sixBytes 3 = some ([⟨0, 1, 1⟩, ⟨1, 0, 2⟩], 3) := by decide
  refine ⟨hbuf, ?_⟩
  rintro ⟨vs, hvs, ⟨-, hgather⟩, -⟩
  rw [hbuf] at hvs
  obtain ⟨rfl, -⟩ := Prod.mk.inj (Option.some.inj hvs)
  revert hgather
  decide

end Reading

section Writing

variable {b : Nat} {fresh : Nat → Nat → UInt8} {s : State} {p n : Nat}

def Apart (v w : Iovec) : Prop := v.part = w.part → v.base + v.len ≤ w.base ∨ w.base + w.len ≤ v.base

/-- Disjoint `iovec`s inside their nodes that denote the cells `p` to `p + n - 1`, in order. -/
structure Denotes (s : State) (p n : Nat) (vs : List Iovec) : Prop where
  inside : ∀ v ∈ vs, v.Inside s.nodes
  apart : vs.Pairwise Apart
  cells : vs.flatMap (Range.cells s.blocksize) = List.range' p n

theorem denotes_bufferLoop_iff (hb : 0 < b) (h : Inv b s) (h0 : 0 < n) (hn : p + n ≤ s.capacity) :
    (∃ vs, bufferLoop (s.nodes.drop (p / b)) (p / b) (p % b) n = some vs ∧ Denotes s p n vs) ↔
      p % b + n ≤ b ∨ (2 * (p % b) = b ∧ p % b + n ≤ b + b) := by
  have hm := Nat.mod_lt p hb
  have hk := block_lt (p := p) hb h (by omega)
  have hlen := h.getD_length hk
  have hd := Nat.div_add_mod p b
  obtain ⟨hfit, hloop⟩ | ⟨hcross, hnext, hloop⟩ | ⟨hfar, hloop⟩ := bufferLoop_cases hb h h0 hn
  · refine iff_of_true ⟨_, hloop, ?_, List.pairwise_singleton _ _, ?_⟩ (Or.inl hfit)
    · rw [List.forall_mem_singleton]
      exact ⟨hk, by rw [hlen]; exact hfit⟩
    · simp only [List.flatMap_singleton, Range.cells, h.block, hd]
  · have hk' := next_block_lt h hn hcross
    have hlen' := h.getD_length hk'
    constructor
    · rintro ⟨vs, hvs, hden⟩
      rw [hloop] at hvs
      obtain rfl := Option.some.inj hvs
      have hcells := hden.cells
      rw [h.block] at hcells
      have hstart := (cells_cons hcells).2.1 (by dsimp only; omega)
      dsimp only at hstart
      exact Or.inr ⟨by omega, hnext⟩
    · rintro (hfit | ⟨hhalf, -⟩)
      · omega
      · refine ⟨_, hloop, ?_, ?_, ?_⟩
        · rw [List.forall_mem_cons, List.forall_mem_singleton]
          refine ⟨⟨hk, ?_⟩, ⟨hk', ?_⟩⟩
          · dsimp only
            omega
          · dsimp only
            omega
        · refine List.pairwise_pair.mpr fun he => ?_
          dsimp only at he
          omega
        · have hfirst : b * (p / b) + (b - p % b) = p := by omega
          have hsecond : b * (p / b + 1) + 0 = p + (b - p % b) := by
            rw [Nat.mul_succ]
            omega
          have htotal : b - p % b + (n - (b - p % b)) = n := by omega
          simp only [List.flatMap_cons, List.flatMap_nil, List.append_nil, Range.cells, h.block, hfirst, hsecond]
          rw [List.range'_append_1, htotal]
  · apply iff_of_false
    · rintro ⟨vs, hvs, hden⟩
      obtain ⟨v, hv, hout⟩ := hloop vs hvs
      exact hout (hden.inside v hv)
    · rintro (hfit | ⟨-, hnext⟩)
      · omega
      · omega

/-- Storing `d` through the `iovec`s of the grown array `t` and then seeking behind it. -/
def fillAndSeek (t : State) (vs : List Iovec) (d : List UInt8) : Option (State × Result) :=
  setPosition { t with nodes := scatter t.nodes vs d } (t.position + d.length)

/-- What `getWriteBuffers` is for: the cells at the cursor, such that bytes stored through them
are as bytes written. -/
def Fillable (fresh : Nat → Nat → UInt8) (s : State) (len : Nat) : Prop :=
  ∃ t vs, getWriteBuffers fresh s len = some (t, vs, len) ∧ Denotes t s.position len vs ∧
    ∀ d : List UInt8, d.length ≤ len → ∃ u w, fillAndSeek t vs d = some (u, .done) ∧ write fresh s d = some w ∧
      u.position = w.position ∧ u.size = w.size ∧ text (flat u) = text (flat w)

theorem text_fillAndSeek (hb : 0 < b) {t : State} {ext : List UInt8} {vs : List Iovec} {d : List UInt8} {len : Nat}
    (h : Inv b s) (ht : Inv b t) (hnodes : t.nodes.flatten = s.nodes.flatten ++ ext) (hpos : t.position = s.position)
    (hsize : t.size = s.size) (hroom : s.position + len ≤ t.capacity) (hden : Denotes t s.position len vs)
    (hd : d.length ≤ len) :
    ∃ u, fillAndSeek t vs d = some (u, .done) ∧ Inv b u ∧
      text (flat u) = ⟨overwrite (s.nodes.flatten.take s.size) s.position d, s.position + d.length⟩ := by
  have hcells := hden.cells
  rw [ht.block] at hcells
  obtain ⟨hi, hflat⟩ := ht.scatter hden.inside hcells hd hroom
  have hend : t.position + d.length ≤ t.capacity := by omega
  obtain ⟨u, hu, hiu, hun, hup, hus⟩ := setPosition_within hb hi hend
  refine ⟨u, hu, hiu, ?_⟩
  have hs := h.size_le
  have hl := h.length_cells
  have htake : (t.nodes.flatten).take s.size = s.nodes.flatten.take s.size := by
    rw [hnodes]
    exact List.take_append_of_le_length (hs.trans_eq hl.symm)
  have hcap : s.size ≤ t.nodes.flatten.length := hsize ▸ ht.size_le.trans_eq ht.length_cells.symm
  have ho := overwrite_take (d := d) h.position_le hcap
  simp only [text, flat, hun, hup, hus, hflat, hpos, hsize, ho, htake]

theorem text_write (hb : 0 < b) (h : Inv b s) (d : List UInt8) :
    ∃ w, write fresh s d = some w ∧ Inv b w ∧
      text (flat w) = ⟨overwrite (s.nodes.flatten.take s.size) s.position d, s.position + d.length⟩ := by
  obtain ⟨w, hw, hi, hf⟩ := write_spec fresh hb h d
  refine ⟨w, hw, hi, ?_⟩
  have ht := flat_step_text hf h.position_le (h.size_le.trans_eq h.length_cells.symm) (by simp)
  exact (Prod.mk.inj ht).1.symm

/-- When the scatter buffers for writing are the cells at the cursor. -/
theorem getWriteBuffers_fillable_iff (hb : 1 ≤ b)
    (h : Reachable (fun s => s = new fresh b) (ByteArray.advance fresh) s) (len : Nat) (hlen : 1 ≤ len) :
    Fillable fresh s len ↔
      s.position % s.blocksize + len ≤ s.blocksize ∨
        (2 * (s.position % s.blocksize) = s.blocksize ∧
          s.position % s.blocksize + len ≤ s.blocksize + s.blocksize) := by
  have hi := inv_of_reachable hb h
  obtain ⟨ext, ht, hnodes, hpos, hsize, hroom⟩ := addCapacity_spec fresh hb hi len
  have hcur := (cursor_split hb ht (by omega)).1
  have hget : ∀ t vs, getWriteBuffers fresh s len = some (t, vs, len) ↔ t = addCapacity fresh s len ∧
      bufferLoop (t.nodes.drop (s.position / b)) (s.position / b) (s.position % b) len = some vs := by
    intro t vs
    rw [getWriteBuffers, if_neg (by omega)]
    simp only [hcur, hpos, ht.block, Option.map_eq_some_iff, Prod.mk.injEq, and_true]
    constructor
    · rintro ⟨us, hus, rfl, rfl⟩
      exact ⟨rfl, hus⟩
    · rintro ⟨rfl, hus⟩
      exact ⟨vs, hus, rfl, rfl⟩
  rw [hi.block, ← denotes_bufferLoop_iff hb ht hlen hroom]
  constructor
  · rintro ⟨t, vs, hvs, hden, -⟩
    obtain ⟨rfl, hloop⟩ := (hget t vs).mp hvs
    exact ⟨vs, hloop, hden⟩
  · rintro ⟨vs, hloop, hden⟩
    refine ⟨_, vs, (hget _ vs).mpr ⟨rfl, hloop⟩, hden, fun d hd => ?_⟩
    obtain ⟨u, hu, hiu, htu⟩ := text_fillAndSeek hb hi ht hnodes hpos hsize hroom hden hd
    obtain ⟨w, hw, hiw, htw⟩ := text_write hb hi d
    have htext : text (flat u) = text (flat w) := htu.trans htw.symm
    refine ⟨u, w, hu, hw, congrArg Text.position htext, ?_, htext⟩
    rw [← hiu.size_eq, ← hiw.size_eq, htext]

theorem getWriteBuffers_fillable_one_block : Fillable (fun _ _ => 7) sixBytes 1 :=
  (getWriteBuffers_fillable_iff (by decide) sixBytes_reachable 1 (by decide)).mpr (by decide)

/-- The first of the cells 3, 4, 5 is taken to be cell 1. -/
theorem getWriteBuffers_wrong_cell :
    getWriteBuffers (fun _ _ => 7) sixBytes 3 = some (sixBytes, [⟨0, 1, 1⟩, ⟨1, 0, 2⟩], 3) ∧
      ¬ Fillable (fun _ _ => 7) sixBytes 3 := by
  have hbuf : getWriteBuffers (fun _ _ => 7) sixBytes 3 = some (sixBytes, [⟨0, 1, 1⟩, ⟨1, 0, 2⟩], 3) := by decide
  refine ⟨hbuf, ?_⟩
  rintro ⟨t, vs, hvs, hden, -⟩
  rw [hbuf] at hvs
  simp only [Option.some.injEq, Prod.mk.injEq, and_true] at hvs
  obtain ⟨rfl, rfl⟩ := hvs
  have hcells := hden.cells
  revert hcells
  decide

end Writing

end Windgent.ByteArray
