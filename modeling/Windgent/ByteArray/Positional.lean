import Windgent.ByteArray.Buffers

namespace Windgent.ByteArray

open Segments Transition

/-- The sources of the `memcpy` calls of `read` over the nodes from node number `cur` on. -/
def copyLoop : List Node → Nat → Nat → Nat → List Iovec
  | [], _, _, _ => []
  | node :: rest, cur, npos, size =>
      let ncap := node.size - npos
      if size = 0 then []
      else if size ≤ ncap then [⟨cur, npos, size⟩]
      else ⟨cur, npos, ncap⟩ :: copyLoop rest (cur + 1) 0 (size - ncap)

def copiesAt (s : State) (size pos : Nat) : List Iovec :=
  if s.getReadSize < size then []
  else s.cur.elim [] fun k => copyLoop (s.nodes.drop k) k (pos % s.blocksize) size

/-- What `read(buf, size, pos)` is for: the bytes at `pos` if they are there, copied from
inside the nodes. -/
def ReadsAt (s : State) (size pos : Nat) : Prop :=
  readAt s size pos = some (if pos + size ≤ s.size then .bytes (slice s.nodes.flatten pos size) else .outOfRange) ∧
    (∀ v ∈ copiesAt s size pos, v.Inside s.nodes) ∧
    ∀ d, readAt s size pos = some (.bytes d) → gather s.nodes (copiesAt s size pos) = d

/-- The offset that `read(buf, size, pos)` starts from: that of `pos`, in the block of the cursor. -/
def State.mixed (s : State) (pos : Nat) : Nat := s.blocksize * (s.position / s.blocksize) + pos % s.blocksize

/-- When both bounds agree and the bytes read in place of those at `pos` are the same. -/
def Positional (s : State) (size pos : Nat) : Prop :=
  (s.getReadSize < size ∧ s.size < pos + size) ∨
    (size ≤ s.getReadSize ∧ pos + size ≤ s.size ∧ s.position < s.capacity ∧
      (size = 0 ∨ (s.mixed pos + size ≤ s.capacity ∧
        slice s.nodes.flatten (s.mixed pos) size = slice s.nodes.flatten pos size)))

instance (s : State) (size pos : Nat) : Decidable (Positional s size pos) := inferInstanceAs (Decidable (_ ∨ _))

section Copies

variable {b : Nat} {s : State}

theorem copyLoop_inside (hu : Uniform b s.nodes) {ns : List Node} {cur npos size : Nat} (hns : ns = s.nodes.drop cur)
    (hp : npos ≤ b) : ∀ v ∈ copyLoop ns cur npos size, v.Inside s.nodes := by
  induction ns generalizing cur npos size with
  | nil => simp [copyLoop]
  | cons node rest ih =>
    obtain ⟨hlt, hnode, hrest⟩ := head_of_drop hns
    have hlen : (s.nodes.getD cur []).length = b := by
      rw [hnode]
      exact hu _ (List.mem_of_mem_drop (hns ▸ List.mem_cons_self))
    have hsize : node.size = b := hnode ▸ hlen
    intro v hv
    rw [copyLoop, hsize] at hv
    split at hv
    · simp at hv
    · split at hv
      · obtain rfl := List.mem_singleton.mp hv
        exact ⟨hlt, by dsimp only; omega⟩
      · rcases List.mem_cons.mp hv with rfl | hv
        · exact ⟨hlt, by dsimp only; omega⟩
        · exact ih hrest (Nat.zero_le _) v hv

theorem gather_copyLoop {ns : List Node} {cur npos size m : Nat} {d : List UInt8} (hns : ns = s.nodes.drop cur)
    (hr : readLoop ns npos size = some (d, m)) (h0 : 0 < size) : gather s.nodes (copyLoop ns cur npos size) = d := by
  induction ns generalizing cur npos size m d with
  | nil => cases hr
  | cons node rest ih =>
    obtain ⟨hlt, hnode, hrest⟩ := head_of_drop hns
    rw [readLoop] at hr
    rw [copyLoop, if_neg h0.ne']
    split at hr
    · rename_i hfit
      obtain ⟨rfl, -⟩ := Prod.mk.inj (Option.some.inj hr)
      rw [if_pos hfit]
      simp only [gather, List.flatMap_singleton, hnode]
    · rename_i hfit
      obtain ⟨⟨e, k⟩, he, hd⟩ := Option.map_eq_some_iff.mp hr
      obtain ⟨rfl, -⟩ := Prod.mk.inj hd
      have hnext := ih hrest he (by omega)
      rw [if_neg hfit, gather, List.flatMap_cons, hnode]
      exact congrArg _ hnext

theorem readLoop_eq_none {ns : List Node} (hu : Uniform b ns) {npos size : Nat} (hp : npos ≤ b)
    (hroom : b * ns.length < npos + size) : readLoop ns npos size = none := by
  induction ns generalizing npos size with
  | nil => rfl
  | cons node rest ih =>
    obtain ⟨hn, hrest⟩ := Uniform.cons.mp hu
    have hsize : node.size = b := hn
    rw [List.length_cons, Nat.mul_succ] at hroom
    rw [readLoop, hsize]
    rw [if_neg (by omega), ih hrest (Nat.zero_le _) (by omega)]
    rfl

end Copies

section ReadAt

variable {b : Nat} {s : State} {size pos : Nat}

theorem copiesAt_inside (hb : 0 < b) (h : Inv b s) (size pos : Nat) : ∀ v ∈ copiesAt s size pos, v.Inside s.nodes := by
  unfold copiesAt
  split
  · simp
  · cases s.cur with
    | none => simp
    | some k =>
      rw [h.block]
      exact copyLoop_inside h.uniform rfl (Nat.mod_lt _ hb).le

theorem gather_copiesAt {d : List UInt8} (hr : readAt s size pos = some (.bytes d)) :
    gather s.nodes (copiesAt s size pos) = d := by
  unfold readAt at hr
  unfold copiesAt
  split at hr
  · cases hr
  · rename_i hn
    rw [if_neg hn]
    split at hr
    · cases hr
    · rename_i k hcur
      rw [hcur, Option.elim_some]
      split at hr
      · rename_i h0
        cases hr
        subst h0
        cases s.nodes.drop k <;> simp [copyLoop, gather]
      · rename_i h0
        obtain ⟨⟨e, m⟩, he, hd⟩ := Option.map_eq_some_iff.mp hr
        obtain rfl : e = d := by simpa using hd
        exact gather_copyLoop rfl he (Nat.pos_of_ne_zero h0)

/-- What `read(buf, size, pos)` returns when the check lets it read. -/
theorem readAt_mixed (hb : 0 < b) (h : Inv b s) (h0 : 0 < size) (hn : size ≤ s.getReadSize) (pos : Nat) :
    readAt s size pos = if s.mixed pos + size ≤ s.capacity then
      some (.bytes (slice s.nodes.flatten (s.mixed pos) size)) else none := by
  have hlt : s.position < s.capacity := by
    have := h.size_le
    unfold State.getReadSize at hn
    omega
  obtain ⟨hcur, hsplit, -⟩ := cursor_split hb h hlt
  have hk := cursor_lt hb h hlt
  have hlen := (h.flatten_split (s.position / b) hk.le).2
  have hm := Nat.mod_lt pos hb
  have hroom : s.mixed pos + size ≤ s.capacity ↔ pos % b + size ≤ b * (s.nodes.drop (s.position / b)).length := by
    have hmul : b * (s.nodes.length - s.position / b) = b * s.nodes.length - b * (s.position / b) := Nat.mul_sub _ _ _
    have hle : b * (s.position / b) ≤ b * s.nodes.length := Nat.mul_le_mul_left b hk.le
    rw [State.mixed, h.block, List.length_drop, hmul, h.capacity]
    omega
  rw [readAt, if_neg (Nat.not_lt.mpr hn), hcur]
  dsimp only
  rw [if_neg h0.ne', h.block]
  by_cases hin : s.mixed pos + size ≤ s.capacity
  · rw [if_pos hin, readLoop_spec hb _ (h.uniform.drop _) _ size hm.le (hroom.mp hin) h0, Option.map_some]
    have hs := slice_append_right (s.nodes.take (s.position / b)).flatten
      (s.nodes.drop (s.position / b)).flatten (pos % b) size
    rw [← hsplit, hlen] at hs
    rw [State.mixed, h.block, hs]
  · rw [if_neg hin, readLoop_eq_none (h.uniform.drop _) hm.le (Nat.lt_of_not_le fun hc => hin (hroom.mpr hc))]
    rfl

/-- When the positional read is that of the content. -/
theorem readsAt_iff (hb : 1 ≤ b) {fresh : Nat → Nat → UInt8}
    (hr : Reachable (fun s => s = new fresh b) (ByteArray.advance fresh) s) (size pos : Nat) :
    ReadsAt s size pos ↔ Positional s size pos := by
  have h := inv_of_reachable hb hr
  unfold ReadsAt Positional
  rw [and_iff_left ⟨copiesAt_inside hb h size pos, fun d hd => gather_copiesAt hd⟩]
  by_cases hn : s.getReadSize < size
  · rw [readAt, if_pos hn]
    by_cases hend : pos + size ≤ s.size
    · rw [if_pos hend]
      exact iff_of_false (by simp) (by omega)
    · rw [if_neg hend]
      exact iff_of_true rfl (.inl ⟨hn, by omega⟩)
  · have hle : size ≤ s.getReadSize := Nat.le_of_not_lt hn
    rw [or_iff_right (fun hc => hn hc.1), and_iff_right hle]
    obtain rfl | h0 := Nat.eq_zero_or_pos size
    · have hcur := h.cur_eq hb
      have hpos := h.position_le.trans h.size_le
      rw [readAt, if_neg hn]
      by_cases hnull : s.position = s.capacity
      · rw [if_pos hnull] at hcur
        rw [hcur]
        exact iff_of_false (by simp) (by omega)
      · rw [if_neg hnull] at hcur
        rw [hcur]
        by_cases hend : pos + 0 ≤ s.size
        · rw [if_pos hend]
          exact iff_of_true (by simp [slice]) ⟨hend, by omega, .inl rfl⟩
        · rw [if_neg hend]
          exact iff_of_false (by simp) (fun hc => hend hc.1)
    · have hlt : s.position < s.capacity := by
        have := h.size_le
        unfold State.getReadSize at hle
        omega
      rw [readAt_mixed hb h h0 hle, or_iff_right h0.ne', and_iff_right hlt]
      by_cases hend : pos + size ≤ s.size
      · rw [if_pos hend, and_iff_right hend]
        by_cases hin : s.mixed pos + size ≤ s.capacity
        · simp [hin]
        · simp [hin]
      · rw [if_neg hend]
        refine iff_of_false ?_ (fun hc => hend hc.1)
        split <;> simp

theorem readsAt_sixBytes : ReadsAt sixBytes 2 2 ∧ ReadsAt sixBytes 4 3 :=
  ⟨(readsAt_iff (by decide) sixBytes_reachable 2 2).mpr (by decide),
    (readsAt_iff (by decide) sixBytes_reachable 4 3).mpr (by decide)⟩

/-- Asked for the bytes 5 and 6, `read` returns 1 and 2. -/
theorem readAt_wrong_block : readAt sixBytes 2 4 = some (.bytes [1, 2]) ∧ ¬ ReadsAt sixBytes 2 4 := by
  have hr : readAt sixBytes 2 4 = some (.bytes [1, 2]) := by decide
  exact ⟨hr, fun h => absurd (hr.symm.trans h.1) (by decide)⟩

end ReadAt

end Windgent.ByteArray
