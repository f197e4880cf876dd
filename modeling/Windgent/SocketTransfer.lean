import Windgent.SocketStream

namespace Windgent.SocketStream

open Windgent.ByteArray Segments Wire MachineInt Transition

/-- What a call of `read` meets: a socket that is not connected, a `recvmsg` without bytes, or the
bytes that it stores. -/
inductive Arrival where
  | disconnected
  | fails (ret : Int) (h : ret ≤ 0)
  | recv (data : List UInt8)
deriving DecidableEq

def Arrival.attempt : Arrival → Attempt
  | .disconnected => .disconnected
  | .fails ret _ => .send ret
  | .recv data => .send data.length

def Arrival.data : Arrival → List UInt8
  | .disconnected => []
  | .fails .. => []
  | .recv data => data

/-- `SocketStream::read(ba, length)`: the array, the bytes stored, and the result. -/
def read (fresh : Nat → Nat → UInt8) (s : State) (length : Nat) (a : Arrival) :
    Option (State × List UInt8 × Except Thrown Int) :=
  if a = .disconnected then some (s, [], .ok (-1))
  else (getWriteBuffers fresh s length).bind fun (t, iovs, _) =>
    let t := { t with nodes := scatter t.nodes iovs a.data }
    let ret := a.attempt.ret
    if 0 < ret then
      (setPosition t (t.position + ret.toNat)).map fun (u, r) =>
        (u, a.data, match r with
          | .outOfRange => .error .outOfRange
          | _ => .ok ret)
    else some (t, a.data, .ok ret)

def readLoop (fresh : Nat → Nat → UInt8) (length : Nat) :
    List Arrival → State → Nat → Option (State × List UInt8 × Option (Except Thrown Int))
  | [], s, left => some (s, [], if left = 0 then some (.ok (toInt length)) else none)
  | a :: as, s, left =>
      if left = 0 then some (s, [], some (.ok (toInt length)))
      else (read fresh s left a).bind fun
        | (t, taken, .error x) => some (t, taken, some (.error x))
        | (t, taken, .ok ret) =>
            if toUInt64 ret = 0 then some (t, taken, some (.ok (toInt (toUInt64 ret))))
            else (readLoop fresh length as t (subU64 left (toUInt64 ret))).map fun (u, taken', r) =>
              (u, taken ++ taken', r)

def readFixedSize (fresh : Nat → Nat → UInt8) (s : State) (length : Nat) (as : List Arrival) :
    Option (State × List UInt8 × Option (Except Thrown Int)) := readLoop fresh length as s length

section Scatter

variable {α : Type}

theorem scatter_nil (ls : List (List α)) (vs : List Range) : scatter ls vs [] = ls := by
  induction vs generalizing ls with
  | nil => rfl
  | cons v vs ih =>
    have hid : (fun l : List α => overwrite l v.base ([].take v.len)) = id := by
      funext l
      simp
    rw [scatter, hid, List.modify_id, List.drop_nil, ih]

theorem scatter_clip (ls : List (List α)) (vs : List Range) (d : List α) :
    scatter ls (clip d.length vs) d = scatter ls vs d := by
  induction vs generalizing ls d with
  | nil => rfl
  | cons v vs ih =>
    rw [clip]
    split
    · rename_i hle
      rw [scatter, scatter, scatter, List.take_of_length_le le_rfl, List.take_of_length_le hle,
        List.drop_eq_nil_of_le hle, scatter_nil]
    · rw [scatter, scatter, ← List.length_drop, ih]

end Scatter

section Step

variable {b : Nat} {fresh : Nat → Nat → UInt8} {s t u : State}

theorem text_flat (s : State) : text (flat s) = ⟨content s, s.position⟩ := rfl

theorem text_scatter (hb : 0 < b) (h : Inv b s) (ht : Inv b t) {ext : List UInt8}
    (hnodes : t.nodes.flatten = s.nodes.flatten ++ ext) (hpos : t.position = s.position) (hsize : t.size = s.size)
    {vs : List Iovec} {d : List UInt8} (hpart : ∀ v ∈ vs, v.part < t.nodes.length) (hp : Placed b s.position vs)
    (hd : total vs = d.length) (hroom : s.position + d.length ≤ t.capacity) :
    ∃ u, setPosition { t with nodes := scatter t.nodes vs d } (t.position + d.length) = some (u, .done) ∧ Inv b u ∧
      text (flat u) = ⟨overwrite (content s) s.position d, s.position + d.length⟩ := by
  have hinside : ∀ v ∈ vs, v.Inside t.nodes := fun v hv =>
    ⟨hpart v hv, (hp.1 v hv).trans_eq (ht.getD_length (hpart v hv)).symm⟩
  obtain ⟨hi, hflat⟩ := ht.scatter hinside hp.2 hd.ge (hd ▸ hroom)
  have hend : t.position + d.length ≤ t.capacity := hpos ▸ hroom
  obtain ⟨u, hu, hiu, hun, hup, hus⟩ := setPosition_within hb hi hend
  refine ⟨u, hu, hiu, ?_⟩
  have htake : t.nodes.flatten.take s.size = s.nodes.flatten.take s.size := by
    rw [hnodes]
    exact List.take_append_of_le_length (h.size_le.trans_eq h.length_cells.symm)
  have hcap : s.size ≤ t.nodes.flatten.length := hsize ▸ ht.size_le.trans_eq ht.length_cells.symm
  have ho := overwrite_take (d := d) h.position_le hcap
  simp only [content, text, flat, hun, hup, hus, hflat, hpos, hsize, ho, htake]

theorem Arrival.data_of_nonpos {a : Arrival} (h : ¬ 0 < a.attempt.ret) : a.data = [] := by
  cases a with
  | disconnected | fails => rfl
  | recv data =>
    change ¬ 0 < (data.length : Int) at h
    have hzero : data.length = 0 := by omega
    exact List.eq_nil_of_length_eq_zero hzero

theorem Arrival.length_data {a : Arrival} (h : 0 < a.attempt.ret) : a.data.length = a.attempt.ret.toNat := by
  cases a with
  | disconnected => cases h
  | fails ret hret => exact absurd h (Int.not_lt.mpr hret)
  | recv data => rfl

theorem read_text (fresh : Nat → Nat → UInt8) (hb : 0 < b) (h : Inv b s) {len : Nat} {a : Arrival}
    (ha : a.attempt.Offered len)
    (hal : 0 < a.attempt.ret → Aligned b (s.position % b) len a.attempt.ret.toNat) :
    ∃ u, read fresh s len a = some (u, a.data, .ok a.attempt.ret) ∧ Inv b u ∧
      text (flat u) = ⟨overwrite (content s) s.position a.data, s.position + a.data.length⟩ := by
  obtain ⟨-, hle⟩ := ha
  by_cases hdis : a = .disconnected
  · subst hdis
    exact ⟨s, rfl, h, by rw [Arrival.data, overwrite_nil]; rfl⟩
  obtain rfl | h0 := Nat.eq_zero_or_pos len
  · have hneg : ¬ 0 < a.attempt.ret := by omega
    refine ⟨s, ?_, h, by rw [Arrival.data_of_nonpos hneg, overwrite_nil]; rfl⟩
    simp [read, hdis, getWriteBuffers, hneg, scatter]
  obtain ⟨ext, ht, hnodes, hpos, hsize, hroom⟩ := addCapacity_spec fresh hb h len
  have hcur := (cursor_split hb ht (by omega)).1
  obtain ⟨vs, hvs⟩ := Option.isSome_iff_exists.mp
    ((bufferLoop_block_isSome_iff hb ht s.position len).mpr ⟨by omega, hroom⟩)
  have hget : getWriteBuffers fresh s len = some (addCapacity fresh s len, vs, len) := by
    rw [getWriteBuffers, if_neg h0.ne']
    simp only [hcur, hpos, ht.block, hvs, Option.map_some]
  by_cases hneg : ¬ 0 < a.attempt.ret
  · have hnil := Arrival.data_of_nonpos hneg
    refine ⟨addCapacity fresh s len, ?_, ht, ?_⟩
    · simp [read, hdis, hget, hneg, hnil, scatter_nil]
    · have hcontent : content (addCapacity fresh s len) = content s := by
        change (addCapacity fresh s len).nodes.flatten.take (addCapacity fresh s len).size = s.nodes.flatten.take s.size
        rw [hnodes, hsize]
        exact List.take_append_of_le_length (h.size_le.trans_eq h.length_cells.symm)
      rw [hnil, overwrite_nil, text_flat, hcontent, hpos]
      rfl
  · have hret : 0 < a.attempt.ret := not_not.mp hneg
    have hlen := Arrival.length_data hret
    obtain ⟨htotal, hpart⟩ := bufferLoop_ranges hvs
    have hclip : total (clip a.data.length vs) = a.data.length := total_clip (by omega)
    have hplaced : Placed b s.position (clip a.data.length vs) := by
      rw [hlen, placed_clip_iff hb ht (by omega) (by omega) hroom hvs]
      exact hal hret
    have hparts : ∀ w ∈ clip a.data.length vs, w.part < (addCapacity fresh s len).nodes.length := by
      intro w hw
      obtain ⟨v, hv, hvw⟩ := part_of_mem_clip hw
      have hk := block_lt (p := s.position) hb ht (by omega)
      have := hpart v hv
      rw [List.length_drop] at this
      omega
    obtain ⟨u, hu, hi, htext⟩ := text_scatter hb h ht hnodes hpos hsize hparts hplaced hclip (by omega)
    refine ⟨u, ?_, hi, htext⟩
    rw [scatter_clip, hlen] at hu
    simp [read, hdis, hget, hret, hu]

end Step

section Loop

variable {b : Nat} {fresh : Nat → Nat → UInt8} {s u : State}

/-- The whole loop: the bytes taken stand behind each other at the cursor. -/
theorem readLoop_text (fresh : Nat → Nat → UInt8) (hb : 0 < b) (length m : Nat) (as : List Arrival) {left : Nat}
    (h : Inv b s) (ha : Admissible (as.map Arrival.attempt) left)
    (hc : Clean b m (as.map Arrival.attempt) s.position left) :
    ∃ u taken r, readLoop fresh length as s left = some (u, taken, r) ∧ Inv b u ∧
      text (flat u) = ⟨overwrite (content s) s.position taken, s.position + taken.length⟩ := by
  induction as generalizing s left with
  | nil => exact ⟨s, [], _, rfl, h, by rw [overwrite_nil]; rfl⟩
  | cons a as ih =>
    by_cases h0 : left = 0
    · exact ⟨s, [], _, by rw [readLoop, if_pos h0], h, by rw [overwrite_nil]; rfl⟩
    obtain ⟨hoff, hrest⟩ := ha.resolve_left h0
    obtain ⟨hfits, hcrest⟩ := hc.resolve_left h0
    obtain ⟨t, ht, hi, htext⟩ := read_text fresh hb h hoff fun hpos => (hfits hpos).2
    have hzero := toUInt64_eq_zero hoff.1
    rw [readLoop, if_neg h0, ht, Option.bind_some]
    by_cases hstop : a.attempt.ret = 0
    · refine ⟨t, a.data, some (.ok (toInt (toUInt64 a.attempt.ret))), ?_, hi, htext⟩
      simp only [if_pos (hzero.mpr hstop)]
    · have hgo : ¬ toUInt64 a.attempt.ret = 0 := fun hz => hstop (hzero.mp hz)
      have hcontent : content t = overwrite (content s) s.position a.data := congrArg Text.content htext
      have hposition : t.position = s.position + a.data.length := congrArg Text.position htext
      have hret : a.data.length = a.attempt.ret.toNat := by
        by_cases hpos : 0 < a.attempt.ret
        · exact Arrival.length_data hpos
        · rw [Arrival.data_of_nonpos hpos, List.length_nil]
          omega
      obtain ⟨u, taken, r, hu, hiu, htu⟩ := ih hi (hrest.resolve_left hstop)
        (by rw [hposition, hret]; exact hcrest.resolve_left hstop)
      refine ⟨u, a.data ++ taken, r, by simp only [if_neg hgo, hu, Option.map_some], hiu, ?_⟩
      have hle : s.position ≤ (content s).length := h.position_le.trans_eq h.size_eq.symm
      rw [htu, hcontent, hposition, overwrite_overwrite hle, List.length_append, Nat.add_assoc]

end Loop

section Transfer

variable {b b' : Nat}

/-- What the loop of `writeFixedSize` sends of the data behind the cursor. -/
theorem writeLoop_sends (fresh : Nat → Nat → UInt8) (hb : 0 < b) (length : Nat) {t : State} (h : Inv b t) {left : Nat}
    {as : List Attempt} (ha : Admissible as left) (hc : Clean b t.size as t.position left) :
    ∃ u sent r, writeLoop fresh length as t left = some (u, sent, r) ∧ SendsData t u sent := by
  obtain ⟨u, sent, r, hu, hadv, hiff⟩ := writeLoop_advanced fresh hb length t.size as h ha
  exact ⟨u, sent, r, hu, (sendsData_iff h hadv).mpr ((hiff h.position_le).mpr hc)⟩

theorem position_end {s : State} (h : Inv b s) (hend : s.getReadSize = 0) : s.position = (content s).length := by
  have hle := h.position_le
  have hsize : (content s).length = s.size := h.size_eq
  rw [State.getReadSize] at hend
  omega

theorem text_start (hb : 0 < b) {s t : State} (h : Inv b s) (ht : setPosition s 0 = some (t, .done)) :
    text (flat t) = ⟨content s, 0⟩ := by
  obtain ⟨u, r, hu, -, hx⟩ := step_text (fun _ _ => 0) hb h (.setPosition 0) (by simp) (by simp)
  rw [show step (fun _ _ => 0) s (.setPosition 0) = some (t, .done) from ht] at hu
  obtain ⟨rfl, rfl⟩ := Prod.mk.inj (Option.some.inj hu)
  exact (Prod.mk.inj hx).1.symm

theorem rewind_unread (hb : 0 < b) {s v : State} {e : Endian} {l : List UInt8} (hv : Inv b v)
    (htext : text (flat v) = ⟨content s ++ l, s.position + l.length⟩) (hend : s.position = (content s).length) :
    ∃ w, setPosition v s.position = some (w, .done) ∧ Unread b e ⟨w, e⟩ l := by
  have hcontent : content v = content s ++ l := congrArg Text.content htext
  have hsize : s.position ≤ v.size := by
    rw [← hv.size_eq, ← content, hcontent, List.length_append, hend]
    omega
  obtain ⟨w, r, hw, hi, hx⟩ := step_text (fun _ _ => 0) hb hv (.setPosition s.position) (by simp) (by simpa using hsize)
  obtain ⟨htx, rfl⟩ := Prod.mk.inj hx
  have hc : content w = content v := (congrArg Text.content htx).symm
  have hp : w.position = s.position := (congrArg Text.position htx).symm
  refine ⟨w, hw, hi, ?_, rfl⟩
  rw [hc, hp, hcontent, hend, List.drop_left]

/-- Values that typed writers put into an array go to another host with `writeFixedSize` and
`readFixedSize`, in any pieces whose scatter buffers are right. What has arrived stands behind the
data that the array there has; and when everything has arrived, the matching readers find the values. -/
theorem transfer_delivers (host host' : Endian) (fresh fresh' : Nat → Nat → UInt8) (hb : 1 ≤ b) (hb' : 1 ≤ b')
    (ws : List (Call Item)) (hw : ∀ i ∈ items ws, Writable i.1 i.2) {d : Typed}
    (hd : Reachable (fun s => s = new fresh' b') (ByteArray.advance fresh') d.array)
    (hend : d.array.getReadSize = 0) (rs : List (Call Kind))
    (hr : inForce d.endian rs = (inForce .big ws).map fun p => (p.1, p.2.1)) :
    ∃ s t, writeCalls host fresh (Typed.new fresh b) ws = some s ∧ setPosition s.array 0 = some (t, .done) ∧
      ∀ (as : List Attempt) (bs : List Arrival), Admissible as t.getReadSize →
        Clean b t.getReadSize as 0 t.getReadSize → Admissible (bs.map Arrival.attempt) t.getReadSize →
        Clean b' (d.array.position + t.getReadSize) (bs.map Arrival.attempt) d.array.position t.getReadSize →
        ∃ u sent r v taken r', writeFixedSize fresh t t.getReadSize as = some (u, sent, r) ∧
          readFixedSize fresh' d.array t.getReadSize bs = some (v, taken, r') ∧
          content v = content d.array ++ taken ∧
          (taken = gather u.nodes sent → total sent = t.getReadSize →
            ∃ w x, setPosition v d.array.position = some (w, .done) ∧
              (readCalls host' rs).run.run { d with array := w } = some (.ok (items ws), x)) := by
  obtain ⟨s, hs, h⟩ := writeCalls_spec host fresh hb ws (Typed.new_ended fresh b)
  obtain ⟨t, ht, hunread⟩ := h.rewind hb
  have hd := inv_of_reachable hb' hd
  have hpos := position_end hd hend
  have htext := text_start hb h.inv ht
  have hcontent : content t = wires (inForce .big ws) :=
    (congrArg Text.content htext).trans (congrArg Text.content h.text_eq)
  have hzero : t.position = 0 := congrArg Text.position htext
  have hit : Inv b t := hunread.inv
  have hsize : t.getReadSize = t.size := by rw [State.getReadSize, hzero, Nat.sub_zero]
  refine ⟨s, t, hs, ht, fun as bs ha hc ha' hc' => ?_⟩
  rw [hsize] at ha hc ha' hc' ⊢
  obtain ⟨u, sent, r, hu, hsends⟩ := writeLoop_sends fresh hb t.size hit ha (hzero ▸ hc)
  obtain ⟨v, taken, r', hv, hiv, htv⟩ := readLoop_text fresh' hb' t.size _ bs hd ha' hc'
  have happ : overwrite (content d.array) d.array.position taken = content d.array ++ taken := by
    rw [hpos]
    simp [overwrite]
  rw [happ] at htv
  refine ⟨u, sent, r, v, taken, r', hu, hv, congrArg Text.content htv, fun hall htotal => ?_⟩
  have hlen : (content t).length = t.size := hit.size_eq
  have htaken : taken = wires (inForce .big ws) := by
    rw [hall, hsends.bytes, hzero, htotal, slice, List.drop_zero, ← hlen, List.take_length, hcontent]
  obtain ⟨w, hw', hun⟩ := rewind_unread (e := d.endian) hb' hiv htv hpos
  rw [htaken] at hun
  have hws : ∀ p ∈ inForce .big ws, Writable p.2.1 p.2.2 := by
    intro p hp
    apply hw
    rw [← map_snd_inForce .big ws]
    exact List.mem_map_of_mem hp
  obtain ⟨x, hx, -⟩ := readCalls_spec host' hb' rs (inForce .big ws) hr hws hun
  rw [map_snd_inForce] at hx
  exact ⟨w, x, hw', hx⟩

def greeting : List (Call Item) := [.item ⟨.fint16, -2⟩, .item ⟨.stringF16, ⟨[104, 105], by decide⟩⟩]

def greeted : State := ⟨8, 0, 8, 6, [[255, 254, 0, 2, 104, 105, 7, 7]], some 0, 1⟩

def oneByte : State := ⟨16, 1, 16, 1, [9 :: List.replicate 15 0], some 0, 1⟩

theorem transfer_delivers_greeting :
    ∃ v w x r, readFixedSize (fun _ _ => 0) oneByte 6 [.recv [255, 254, 0], .recv [2, 104, 105]] =
        some (v, [255, 254, 0, 2, 104, 105], r) ∧
      setPosition v 1 = some (w, .done) ∧
      (readCalls .little [.item .fint16, .item .stringF16]).run.run ⟨w, .big⟩ =
        some (.ok [⟨.fint16, -2⟩, ⟨.stringF16, ⟨[104, 105], by decide⟩⟩], x) := by
  have hd : Reachable (fun s => s = new (fun _ _ => 0) 16) (ByteArray.advance fun _ _ => 0) oneByte :=
    (new_reachable _ 16).exec [.op (.write [9])] (by decide)
  obtain ⟨s, t, hs, ht, h⟩ := transfer_delivers .big .little (fun _ _ => 7) (fun _ _ => 0) (b := 8) (by decide)
    (by decide) greeting (by simp [greeting, items, Writable, Str.size]) (d := ⟨oneByte, .big⟩) hd (by decide)
    [.item .fint16, .item .stringF16] rfl
  have hwritten : writeCalls .big (fun _ _ => 7) (Typed.new (fun _ _ => 7) 8) greeting =
      some ⟨{ greeted with position := 6 }, .big⟩ := rfl
  obtain rfl := Option.some.inj (hs.symm.trans hwritten)
  obtain rfl : t = greeted := (Prod.mk.inj (Option.some.inj (ht.symm.trans rfl))).1
  obtain ⟨u, sent, r, v, taken, r', hu, hv, -, hall⟩ := h [.send 4, .send 2]
    [.recv [255, 254, 0], .recv [2, 104, 105]] (by decide) (by decide) (by decide) (by decide)
  have hsend : (writeFixedSize (fun _ _ => 7) greeted greeted.getReadSize [.send 4, .send 2]).map
      (fun x => (gather x.1.nodes x.2.1, total x.2.1)) = some ([255, 254, 0, 2, 104, 105], 6) := by decide
  have hrecv : (readFixedSize (fun _ _ => 0) oneByte greeted.getReadSize
      [.recv [255, 254, 0], .recv [2, 104, 105]]).map (fun x => x.2.1) = some [255, 254, 0, 2, 104, 105] := by decide
  rw [hu] at hsend
  rw [hv] at hrecv
  obtain ⟨hgather, htotal⟩ := Prod.mk.inj (Option.some.inj hsend)
  obtain rfl : taken = [255, 254, 0, 2, 104, 105] := Option.some.inj hrecv
  obtain ⟨w, x, hw, hx⟩ := hall hgather.symm htotal
  exact ⟨v, w, x, r', hv, hw, hx⟩

end Transfer

end Windgent.SocketStream
