import Windgent.ByteArray.Buffers
import Windgent.ByteArray.Codec
import Windgent.MachineInt

namespace Windgent.SocketStream

open Windgent.ByteArray Segments MachineInt Transition

/-- What a call of `write` meets: a socket that is not connected, or the result of `sendmsg`. -/
inductive Attempt where
  | disconnected
  | send (ret : Int)
deriving DecidableEq

def Attempt.ret : Attempt → Int
  | .disconnected => -1
  | .send ret => ret

def clip : Nat → List Range → List Range
  | _, [] => []
  | n, v :: vs => if n ≤ v.len then [{ v with len := n }] else v :: clip (n - v.len) vs

/-- `SocketStream::write(ba, length)`: the array, the memory whose bytes were sent, and the result. -/
def write (fresh : Nat → Nat → UInt8) (s : State) (length : Nat) :
    Attempt → Option (State × List Iovec × Except Thrown Int)
  | .disconnected => some (s, [], .ok (-1))
  | .send ret => (getWriteBuffers fresh s length).bind fun (t, iovs, _) =>
      if 0 < ret then
        (setPosition t (t.position + ret.toNat)).map fun (u, r) =>
          (u, clip ret.toNat iovs, match r with
            | .outOfRange => .error .outOfRange
            | _ => .ok ret)
      else some (t, [], .ok ret)

/-- The loop of `Stream::writeFixedSize(ba, length)` with `left` bytes to go. The result is absent
while a call is still waiting. -/
def writeLoop (fresh : Nat → Nat → UInt8) (length : Nat) :
    List Attempt → State → Nat → Option (State × List Iovec × Option (Except Thrown Int))
  | [], s, left => some (s, [], if left = 0 then some (.ok (toInt length)) else none)
  | a :: as, s, left =>
      if left = 0 then some (s, [], some (.ok (toInt length)))
      else (write fresh s left a).bind fun
        | (t, sent, .error x) => some (t, sent, some (.error x))
        | (t, sent, .ok ret) =>
            if toUInt64 ret = 0 then some (t, sent, some (.ok (toInt (toUInt64 ret))))
            else (writeLoop fresh length as t (subU64 left (toUInt64 ret))).map fun (u, sent', r) =>
              (u, sent ++ sent', r)

def writeFixedSize (fresh : Nat → Nat → UInt8) (s : State) (length : Nat) (as : List Attempt) :
    Option (State × List Iovec × Option (Except Thrown Int)) := writeLoop fresh length as s length

def total (vs : List Range) : Nat := (vs.map Range.len).sum

/-- The ranges hold the data of `s` from its position on, and `u` is `s` with the position behind them. -/
structure SendsData (s u : State) (sent : List Iovec) : Prop where
  inside : ∀ v ∈ sent, v.Inside u.nodes
  cells : sent.flatMap (Range.cells s.blocksize) = List.range' s.position (total sent)
  within : s.position + total sent ≤ s.size
  bytes : gather u.nodes sent = slice (content s) s.position (total sent)
  content_eq : content u = content s
  size_eq : u.size = s.size
  position_eq : u.position = s.position + total sent

def Sends {ρ : Type} (s : State) (o : Option (State × List Iovec × ρ)) : Prop :=
  ∃ u sent r, o = some (u, sent, r) ∧ SendsData s u sent

def Attempt.Offered (len : Nat) (a : Attempt) : Prop := IsInt a.ret ∧ a.ret ≤ len

def Admissible : List Attempt → Nat → Prop
  | [], _ => True
  | a :: as, left => left = 0 ∨
      (a.Offered left ∧ (a.ret = 0 ∨ Admissible as (subU64 left (toUInt64 a.ret))))

/-- The request for `len` bytes stays in its block, or it starts in the middle of the block and
goes, or the bytes taken go, no further than the scatter buffers are right. -/
def Aligned (b npos len taken : Nat) : Prop :=
  npos + len ≤ b ∨ (2 * npos = b ∧ (npos + taken ≤ b ∨ npos + len ≤ b + b))

def Fits (b size position len : Nat) (a : Attempt) : Prop :=
  0 < a.ret → position + a.ret.toNat ≤ size ∧ Aligned b (position % b) len a.ret.toNat

def Clean (b size : Nat) : List Attempt → Nat → Nat → Prop
  | [], _, _ => True
  | a :: as, position, left => left = 0 ∨
      (Fits b size position left a ∧
        (a.ret = 0 ∨ Clean b size as (position + a.ret.toNat) (subU64 left (toUInt64 a.ret))))

instance (len : Nat) (a : Attempt) : Decidable (a.Offered len) := inferInstanceAs (Decidable (_ ∧ _))

instance (b npos len taken : Nat) : Decidable (Aligned b npos len taken) := inferInstanceAs (Decidable (_ ∨ _))

instance (b size position len : Nat) (a : Attempt) : Decidable (Fits b size position len a) :=
  inferInstanceAs (Decidable (_ → _))

instance instDecidableAdmissible : (as : List Attempt) → (left : Nat) → Decidable (Admissible as left)
  | [], _ => inferInstanceAs (Decidable True)
  | a :: as, left =>
      have := instDecidableAdmissible as (subU64 left (toUInt64 a.ret))
      inferInstanceAs (Decidable (left = 0 ∨ (a.Offered left ∧ (a.ret = 0 ∨
        Admissible as (subU64 left (toUInt64 a.ret))))))

instance instDecidableClean (b size : Nat) :
    (as : List Attempt) → (position left : Nat) → Decidable (Clean b size as position left)
  | [], _, _ => inferInstanceAs (Decidable True)
  | a :: as, position, left =>
      have := instDecidableClean b size as (position + a.ret.toNat) (subU64 left (toUInt64 a.ret))
      inferInstanceAs (Decidable (left = 0 ∨ (Fits b size position left a ∧ (a.ret = 0 ∨
        Clean b size as (position + a.ret.toNat) (subU64 left (toUInt64 a.ret))))))

section Ranges

variable {b p n : Nat} {v : Range} {vs : List Range}

theorem total_append (vs ws : List Range) : total (vs ++ ws) = total vs + total ws := by
  simp [total]

theorem total_cons (v : Range) (vs : List Range) : total (v :: vs) = v.len + total vs := rfl

theorem length_cells (vs : List Range) : (vs.flatMap (Range.cells b)).length = total vs := by
  induction vs with
  | nil => rfl
  | cons v vs ih => rw [List.flatMap_cons, List.length_append, ih, total_cons, Range.cells, List.length_range']

theorem total_clip (h : n ≤ total vs) : total (clip n vs) = n := by
  induction vs generalizing n with
  | nil => exact (Nat.le_zero.mp h).symm
  | cons v vs ih =>
    rw [total_cons] at h
    rw [clip]
    split
    · rfl
    · rw [total_cons, ih (by omega)]
      omega

theorem part_of_mem_clip {w : Range} (h : w ∈ clip n vs) : ∃ v ∈ vs, v.part = w.part := by
  induction vs generalizing n with
  | nil => exact absurd h List.not_mem_nil
  | cons v vs ih =>
    rw [clip] at h
    split at h
    · obtain rfl := List.mem_singleton.mp h
      exact ⟨v, List.mem_cons_self, rfl⟩
    · obtain rfl | h := List.mem_cons.mp h
      · exact ⟨w, List.mem_cons_self, rfl⟩
      · obtain ⟨v', hv', hp⟩ := ih h
        exact ⟨v', List.mem_cons_of_mem _ hv', hp⟩

/-- The ranges stay in blocks of `b` cells and cover the cells from `p` on, in order. -/
def Placed (b p : Nat) (vs : List Range) : Prop :=
  (∀ v ∈ vs, v.base + v.len ≤ b) ∧ vs.flatMap (Range.cells b) = List.range' p (total vs)

theorem placed_nil : Placed b p [] := ⟨by simp, rfl⟩

theorem placed_append (b p : Nat) (vs ws : List Range) :
    Placed b p (vs ++ ws) ↔ Placed b p vs ∧ Placed b (p + total vs) ws := by
  have hcells : (vs ++ ws).flatMap (Range.cells b) = List.range' p (total (vs ++ ws)) ↔
      vs.flatMap (Range.cells b) = List.range' p (total vs) ∧
        ws.flatMap (Range.cells b) = List.range' (p + total vs) (total ws) := by
    rw [List.flatMap_append, total_append, ← List.range'_append_1]
    constructor
    · intro h
      exact List.append_inj h (by rw [length_cells, List.length_range'])
    · rintro ⟨hv, hw⟩
      rw [hv, hw]
  unfold Placed
  rw [hcells, List.forall_mem_append]
  tauto

theorem placed_singleton (h0 : 0 < v.len) :
    Placed b p [v] ↔ v.base + v.len ≤ b ∧ b * v.part + v.base = p := by
  unfold Placed
  rw [List.forall_mem_singleton, List.flatMap_singleton, Range.cells]
  refine and_congr_right fun _ => ⟨fun h => ?_, fun h => by rw [h]; rfl⟩
  have hcells : [v].flatMap (Range.cells b) = List.range' p (total [v]) := by
    rw [List.flatMap_singleton]
    exact h
  exact (cells_cons hcells).2.1 h0.ne'

theorem placed_cons (h0 : 0 < v.len) :
    Placed b p (v :: vs) ↔ (v.base + v.len ≤ b ∧ b * v.part + v.base = p) ∧ Placed b (p + v.len) vs := by
  have h := placed_append b p [v] vs
  rw [placed_singleton h0] at h
  exact h

end Ranges

section Step

variable {b : Nat} {fresh : Nat → Nat → UInt8} {s t u : State} {p n : Nat}

theorem bufferLoop_ranges {ns : List Node} {cur npos len : Nat} {vs : List Range}
    (h : bufferLoop ns cur npos len = some vs) : total vs = len ∧ ∀ v ∈ vs, v.part < cur + ns.length := by
  induction ns generalizing cur npos len vs with
  | nil => cases h
  | cons node rest ih =>
    rw [bufferLoop] at h
    split at h
    · rename_i h0
      cases h
      exact ⟨h0.symm, by simp⟩
    · split at h
      · cases h
        refine ⟨rfl, ?_⟩
        rw [List.forall_mem_singleton, List.length_cons]
        dsimp only
        omega
      · obtain ⟨ws, hws, rfl⟩ := Option.map_eq_some_iff.mp h
        obtain ⟨htotal, hpart⟩ := ih hws
        rw [total_cons, htotal, List.length_cons]
        refine ⟨by dsimp only; omega, ?_⟩
        rw [List.forall_mem_cons]
        refine ⟨by dsimp only; omega, fun v hv => ?_⟩
        have := hpart v hv
        omega

theorem placed_clip_iff (hb : 0 < b) (h : Inv b t) {r : Nat} (h0 : 0 < r) (hr : r ≤ n) (hn : p + n ≤ t.capacity)
    {vs : List Range} (hvs : bufferLoop (t.nodes.drop (p / b)) (p / b) (p % b) n = some vs) :
    Placed b p (clip r vs) ↔ Aligned b (p % b) n r := by
  have hm := Nat.mod_lt p hb
  have hd := Nat.div_add_mod p b
  obtain ⟨hdrop, hsize⟩ := drop_block h (block_lt (p := p) hb h (by omega))
  rw [hdrop, bufferLoop, hsize, if_neg (by omega)] at hvs
  unfold Aligned
  by_cases hfit : p % b + n ≤ b
  · rw [if_pos (by omega)] at hvs
    obtain rfl := Option.some.inj hvs
    rw [clip, if_pos hr, placed_singleton h0]
    dsimp only
    omega
  · rw [if_neg (by omega)] at hvs
    obtain ⟨ws, hws, rfl⟩ := Option.map_eq_some_iff.mp hvs
    rw [clip]
    by_cases hfirst : r ≤ b - p % b
    · rw [if_pos hfirst, placed_singleton h0]
      dsimp only
      omega
    · obtain ⟨hdrop', hsize'⟩ := drop_block h (next_block_lt h hn (by omega))
      rw [if_neg hfirst, placed_cons (by dsimp only; omega)]
      rw [hdrop', bufferLoop, hsize', if_neg (by omega)] at hws
      dsimp only
      by_cases hnext : n - (b - p % b) ≤ b - 0
      · rw [if_pos hnext] at hws
        obtain rfl := Option.some.inj hws
        rw [clip, if_pos (by dsimp only; omega), placed_singleton (by dsimp only; omega)]
        dsimp only
        rw [Nat.mul_succ]
        omega
      · rw [if_neg hnext] at hws
        obtain ⟨us, -, rfl⟩ := Option.map_eq_some_iff.mp hws
        apply iff_of_false
        · rintro ⟨-, hbound, -⟩
          rw [clip] at hbound
          split at hbound
          · have := hbound _ List.mem_cons_self
            dsimp only at this
            omega
          · have := hbound _ List.mem_cons_self
            dsimp only at this
            omega
        · omega

/-- `u` is `s` with more cells and the position behind the bytes sent. -/
structure Advanced (b : Nat) (s u : State) (sent : List Iovec) : Prop where
  inv : Inv b u
  grown : ∃ ext, u.nodes.flatten = s.nodes.flatten ++ ext
  position_eq : u.position = s.position + total sent
  size_eq : u.size = max s.size u.position
  part_lt : ∀ v ∈ sent, v.part < u.nodes.length

theorem Advanced.refl (h : Inv b s) : Advanced b s s [] where
  inv := h
  grown := ⟨[], (List.append_nil _).symm⟩
  position_eq := rfl
  size_eq := (max_eq_left h.position_le).symm
  part_lt := by simp

theorem Advanced.length_le (h : Inv b s) (hb : 0 < b) {sent : List Iovec} (ha : Advanced b s u sent) :
    s.nodes.length ≤ u.nodes.length := by
  obtain ⟨ext, hext⟩ := ha.grown
  have hlen := congrArg List.length hext
  rw [List.length_append, h.uniform.length_flatten, ha.inv.uniform.length_flatten] at hlen
  exact Nat.le_of_mul_le_mul_left (Nat.le.intro hlen.symm) hb

theorem Advanced.trans (hb : 0 < b) {sent sent' : List Iovec} (hst : Advanced b s t sent)
    (htu : Advanced b t u sent') : Advanced b s u (sent ++ sent') where
  inv := htu.inv
  grown := by
    obtain ⟨ext, hext⟩ := hst.grown
    obtain ⟨ext', hext'⟩ := htu.grown
    exact ⟨ext ++ ext', by rw [hext', hext, List.append_assoc]⟩
  position_eq := by rw [htu.position_eq, hst.position_eq, total_append, Nat.add_assoc]
  size_eq := by
    have hle : t.position ≤ u.position := htu.position_eq ▸ Nat.le_add_right _ _
    rw [htu.size_eq, hst.size_eq, max_assoc, max_eq_right hle]
  part_lt := by
    rw [List.forall_mem_append]
    exact ⟨fun v hv => (hst.part_lt v hv).trans_le (htu.length_le hst.inv hb), htu.part_lt⟩

theorem write_advanced (fresh : Nat → Nat → UInt8) (hb : 0 < b) (h : Inv b s) {len : Nat} {a : Attempt}
    (ha : a.Offered len) :
    ∃ u sent, write fresh s len a = some (u, sent, .ok a.ret) ∧ Advanced b s u sent ∧ total sent = a.ret.toNat ∧
      (Placed b s.position sent ↔ (0 < a.ret → Aligned b (s.position % b) len a.ret.toNat)) := by
  obtain ⟨-, hle⟩ := ha
  have hstay : ¬ 0 < a.ret → total [] = a.ret.toNat ∧
      (Placed b s.position [] ↔ (0 < a.ret → Aligned b (s.position % b) len a.ret.toNat)) :=
    fun hneg => ⟨(Int.toNat_of_nonpos (Int.not_lt.mp hneg)).symm, iff_of_true placed_nil fun hpos => absurd hpos hneg⟩
  cases a with
  | disconnected => exact ⟨s, [], rfl, .refl h, hstay (by decide)⟩
  | send ret =>
    change ret ≤ len at hle
    obtain rfl | h0 := Nat.eq_zero_or_pos len
    · have hneg : ¬ 0 < ret := by omega
      refine ⟨s, [], ?_, .refl h, hstay hneg⟩
      simp [write, getWriteBuffers, hneg, Attempt.ret]
    obtain ⟨ext, ht, hnodes, hpos, hsize, hroom⟩ := addCapacity_spec fresh hb h len
    have hgrown : Advanced b s (addCapacity fresh s len) [] :=
      ⟨ht, ⟨ext, hnodes⟩, hpos, by rw [hsize, hpos, max_eq_left h.position_le], by simp⟩
    have hcur := (cursor_split hb ht (by omega)).1
    obtain ⟨vs, hvs⟩ := Option.isSome_iff_exists.mp
      ((bufferLoop_block_isSome_iff hb ht s.position len).mpr ⟨by omega, hroom⟩)
    have hget : getWriteBuffers fresh s len = some (addCapacity fresh s len, vs, len) := by
      rw [getWriteBuffers, if_neg h0.ne']
      simp only [hcur, hpos, ht.block, hvs, Option.map_some]
    by_cases hneg : ¬ 0 < ret
    · refine ⟨addCapacity fresh s len, [], ?_, hgrown, hstay hneg⟩
      simp [write, hget, hneg, Attempt.ret]
    · have hret : 0 < ret := not_not.mp hneg
      obtain ⟨htotal, hpart⟩ := bufferLoop_ranges hvs
      have hclip : total (clip ret.toNat vs) = ret.toNat := total_clip (by omega)
      have hend : (addCapacity fresh s len).position + ret.toNat ≤ (addCapacity fresh s len).capacity := by omega
      obtain ⟨u, hu, hiu, hun, hup, hus⟩ := setPosition_within hb ht hend
      refine ⟨u, clip ret.toNat vs, ?_, ⟨hiu, ⟨ext, by rw [hun, hnodes]⟩, ?_, ?_, ?_⟩, hclip, ?_⟩
      · simp [write, hget, hret, hu, Attempt.ret]
      · rw [hup, hpos, hclip]
      · rw [hus, hup, hsize]
      · intro w hw
        obtain ⟨v, hv, hvw⟩ := part_of_mem_clip hw
        have := hpart v hv
        have hk := block_lt (p := s.position) hb ht (by omega)
        rw [List.length_drop] at this
        rw [hun, ← hvw]
        omega
      · rw [placed_clip_iff hb ht (by omega) (by omega) hroom hvs]
        exact ⟨fun hal _ => hal, fun hal => hal hret⟩

end Step

section Loop

variable {b : Nat} {fresh : Nat → Nat → UInt8} {s u : State}

theorem fits_iff {m len : Nat} {a : Attempt} {sent : List Iovec} (htotal : total sent = a.ret.toNat)
    (hplaced : Placed b s.position sent ↔ (0 < a.ret → Aligned b (s.position % b) len a.ret.toNat))
    (hm : s.position ≤ m) :
    Fits b m s.position len a ↔ Placed b s.position sent ∧ s.position + total sent ≤ m := by
  rw [hplaced, htotal, Fits]
  constructor
  · intro hf
    refine ⟨fun hpos => (hf hpos).2, ?_⟩
    by_cases hpos : 0 < a.ret
    · exact (hf hpos).1
    · omega
  · exact fun hf hpos => ⟨hf.2, hf.1 hpos⟩

theorem sends_some {ρ : Type} {o : Option (State × List Iovec × ρ)} {sent : List Iovec} {r : ρ}
    (h : o = some (u, sent, r)) : Sends s o ↔ SendsData s u sent := by
  constructor
  · rintro ⟨u', sent', r', h', hs⟩
    rw [h] at h'
    obtain ⟨rfl, rfl, rfl⟩ : u = u' ∧ sent = sent' ∧ r = r' := by simpa using h'
    exact hs
  · exact fun hs => ⟨u, sent, r, h, hs⟩

/-- The whole loop, with the size `m` that the position must not pass. -/
theorem writeLoop_advanced (fresh : Nat → Nat → UInt8) (hb : 0 < b) (length m : Nat) (as : List Attempt) {left : Nat}
    (h : Inv b s)
    (ha : Admissible as left) :
    ∃ u sent r, writeLoop fresh length as s left = some (u, sent, r) ∧ Advanced b s u sent ∧
      (s.position ≤ m → (Placed b s.position sent ∧ s.position + total sent ≤ m ↔ Clean b m as s.position left)) := by
  induction as generalizing s left with
  | nil => exact ⟨s, [], _, rfl, .refl h, fun hm => iff_of_true ⟨placed_nil, hm⟩ trivial⟩
  | cons a as ih =>
    by_cases h0 : left = 0
    · exact ⟨s, [], _, by rw [writeLoop, if_pos h0], .refl h, fun hm => iff_of_true ⟨placed_nil, hm⟩ (.inl h0)⟩
    obtain ⟨hoff, hrest⟩ := ha.resolve_left h0
    obtain ⟨t, sent, ht, hadv, htotal, hplaced⟩ := write_advanced fresh hb h hoff
    have hzero := toUInt64_eq_zero hoff.1
    have hfits := fits_iff (m := m) htotal hplaced
    rw [writeLoop, if_neg h0, ht, Option.bind_some, Clean, or_iff_right h0]
    by_cases hstop : a.ret = 0
    · refine ⟨t, sent, some (.ok (toInt (toUInt64 a.ret))), by simp only [if_pos (hzero.mpr hstop)], hadv, fun hm => ?_⟩
      exact (hfits hm).symm.trans (and_iff_left (.inl hstop)).symm
    · have hgo : ¬ toUInt64 a.ret = 0 := fun hc => hstop (hzero.mp hc)
      obtain ⟨u, sent', r, hu, hadv', hiff⟩ := ih hadv.inv (hrest.resolve_left hstop)
      refine ⟨u, sent ++ sent', r, by simp only [if_neg hgo, hu, Option.map_some], hadv.trans hb hadv', fun hm => ?_⟩
      rw [hadv.position_eq, htotal] at hiff
      rw [hfits hm, or_iff_right hstop, placed_append, total_append, htotal]
      by_cases hmt : s.position + a.ret.toNat ≤ m
      · rw [← hiff hmt, ← Nat.add_assoc]
        tauto
      · exact iff_of_false (fun hc => hmt (by omega)) fun hc => hmt hc.1.2

theorem sendsData_iff (h : Inv b s) {sent : List Iovec} (ha : Advanced b s u sent) :
    SendsData s u sent ↔ Placed b s.position sent ∧ s.position + total sent ≤ s.size := by
  have hinside : (∀ v ∈ sent, v.Inside u.nodes) ↔ ∀ v ∈ sent, v.base + v.len ≤ b := by
    refine forall₂_congr fun v hv => ?_
    have hpart := ha.part_lt v hv
    rw [Range.Inside, and_iff_right hpart, ha.inv.getD_length hpart]
  constructor
  · intro hs
    have hcells := hs.cells
    rw [h.block] at hcells
    exact ⟨⟨hinside.mp hs.inside, hcells⟩, hs.within⟩
  · rintro ⟨⟨hbound, hcells⟩, hwithin⟩
    obtain ⟨ext, hext⟩ := ha.grown
    have hsize : u.size = s.size := by
      rw [ha.size_eq, ha.position_eq, max_eq_left hwithin]
    have hlen := h.size_le.trans_eq h.length_cells.symm
    have hcontent : content u = content s := by
      change u.nodes.flatten.take u.size = s.nodes.flatten.take s.size
      rw [hext, hsize]
      exact List.take_append_of_le_length hlen
    refine ⟨hinside.mpr hbound, by rw [h.block, hcells], hwithin, ?_, hcontent, hsize, ha.position_eq⟩
    rw [ha.inv.uniform.gather_eq_slice (hinside.mpr hbound) hcells, ← hcontent]
    exact (slice_take (hwithin.trans_eq hsize.symm)).symm

/-- When the bytes that reach the socket are the data of the array. -/
theorem sends_iff (hb : 1 ≤ b) (hr : Reachable (fun s => s = new fresh b) (ByteArray.advance fresh) s) (length : Nat) :
    (∀ a : Attempt, a.Offered length →
      (Sends s (write fresh s length a) ↔ Fits s.blocksize s.size s.position length a)) ∧
    (∀ as : List Attempt, Admissible as length →
      (Sends s (writeFixedSize fresh s length as) ↔ Clean s.blocksize s.size as s.position length)) := by
  have h := inv_of_reachable hb hr
  rw [h.block]
  constructor
  · intro a ha
    obtain ⟨u, sent, hu, hadv, htotal, hplaced⟩ := write_advanced fresh hb h ha
    rw [fits_iff htotal hplaced h.position_le, ← sendsData_iff h hadv, sends_some hu]
  · intro as ha
    obtain ⟨u, sent, r, hu, hadv, hiff⟩ := writeLoop_advanced fresh hb length s.size as h ha
    rw [← hiff h.position_le, ← sendsData_iff h hadv, writeFixedSize, sends_some hu]

theorem sends_one_block :
    Sends { sixBytes with position := 4, cur := some 1 } (writeFixedSize (fun _ _ => 7)
      { sixBytes with position := 4, cur := some 1 } 2 [.send 1, .send 1]) ∧
    Sends { sixBytes with position := 4, cur := some 1 } (write (fun _ _ => 7)
      { sixBytes with position := 4, cur := some 1 } 2 (.send 1)) := by
  have hr : Reachable (fun s => s = new (fun _ _ => 7) 4) (ByteArray.advance fun _ _ => 7)
      { sixBytes with position := 4, cur := some 1 } :=
    (new_reachable _ 4).exec [.op (.write [1, 2, 3, 4, 5, 6]), .op (.setPosition 4)] (by decide)
  have hboth := sends_iff (by decide) hr 2
  exact ⟨(hboth.2 _ (by decide)).mpr (by decide), (hboth.1 _ (by decide)).mpr (by decide)⟩

/-- A request for the bytes 4, 5, 6 sends 2, 5, 6, and one for two bytes at the last one sends a byte
behind the data. -/
theorem sends_wrong_bytes :
    Reachable (fun s => s = new (fun _ _ => 7) 4) (ByteArray.advance fun _ _ => 7) sixBytes ∧
      writeFixedSize (fun _ _ => 7) sixBytes 3 [.send 3] =
        some ({ sixBytes with position := 6, cur := some 1 }, [⟨0, 1, 1⟩, ⟨1, 0, 2⟩], some (.ok 3)) ∧
      ¬ Sends sixBytes (writeFixedSize (fun _ _ => 7) sixBytes 3 [.send 3]) ∧
      write (fun _ _ => 7) { sixBytes with position := 5, cur := some 1 } 2 (.send 2) =
        some ({ sixBytes with position := 7, size := 7, cur := some 1 }, [⟨1, 1, 2⟩], .ok 2) := by
  have hrun : writeFixedSize (fun _ _ => 7) sixBytes 3 [.send 3] =
      some ({ sixBytes with position := 6, cur := some 1 }, [⟨0, 1, 1⟩, ⟨1, 0, 2⟩], some (.ok 3)) := by decide
  refine ⟨sixBytes_reachable, hrun, fun hs => ?_, by decide⟩
  have hcells := ((sends_some hrun).mp hs).cells
  revert hcells
  decide

end Loop

end Windgent.SocketStream
