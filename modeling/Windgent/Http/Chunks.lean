import Windgent.Http.Cuts
import Mathlib.Data.List.Infix

namespace Windgent.Http

open Scanner MachineInt

section Lines

variable {σ : Type} {M : ResponseMachine σ} {bufferSize : Nat}

def freshScan (M : ResponseMachine σ) (text : List UInt8) : Scan σ ResponseMark FieldLen ResponseCallback :=
  scan M text M.start ⟨fun _ => 0, fun _ => 0⟩ 0 text

theorem freshScan_pos_le (M : ResponseMachine σ) (text : List UInt8) : (freshScan M text).pos ≤ text.length := by
  have hle := (scan_pos (M := M) text text M.start ⟨fun _ => 0, fun _ => 0⟩ 0).2
  rwa [Nat.zero_add] at hle

/-- Where the size line of a chunk begins, where its data begin, and where the next line. -/
structure ChunkPlace where
  line : Nat
  data : Nat
  next : Nat

/-- The places of the chunks of a body that begins at `a`. -/
def chunkPlaces (M : ResponseMachine σ) : Nat → ResponseState → Nat → List UInt8 → List ChunkPlace
  | 0, _, _, _ => []
  | fuel + 1, s, a, rest =>
    match (freshScan M rest).events.foldlM onResponse (httpclientParserInit M s).state with
    | none => []
    | some s =>
      let n := (freshScan M rest).pos + s.contentLen.toNat + 2
      ⟨a, a + (freshScan M rest).pos, a + n⟩ ::
        if s.chunksDone then [] else chunkPlaces M fuel s (a + n) (rest.drop n)

def ChunkPlace.Whole (cuts : List Nat) (x : ChunkPlace) : Prop := ∀ c ∈ cuts, ¬ (x.line < c ∧ c < x.data)

/-- The read that brings the byte in front of `p` ends at `c`. -/
def Brings (ends : List Nat) (p c : Nat) : Prop := p ≤ c ∧ ∀ d ∈ ends, p ≤ d → c ≤ d

/-- The read that brings the end of a chunk-size line does not end `(int)buffer_size` bytes
behind it, where the buffer is taken for full; and it brings the chunk too, or the rest of
the chunk is asked for with a positive `int`. -/
def ChunkPlace.Roomy (bufferSize : Nat) (ends : List Nat) (x : ChunkPlace) : Prop :=
  ∀ c ∈ ends, Brings ends x.data c → (c : Int) - x.data ≠ toInt bufferSize ∧ (x.next ≤ c ∨ 0 < toInt bufferSize)

theorem ge_of_mem_starts {base c : Nat} {source : Source} (h : c ∈ starts base source) : base ≤ c := by
  induction source generalizing base with
  | nil => cases h
  | cons piece source ih =>
    obtain rfl | h := List.mem_cons.mp h
    · exact le_rfl
    · have := ih h
      omega

/-- A chunk-size line that the machine accepts from its start. -/
structure Line (M : ResponseMachine σ) (rest : List UInt8) (s s' : ResponseState) : Prop where
  halted : (freshScan M rest).halted = true
  final : ∃ cs, (freshScan M rest).cs = some cs
  state : (freshScan M rest).events.foldlM onResponse (httpclientParserInit M s).state = some s'
  error : s'.error = 0

theorem responseFrontend_sound : responseFrontend.Sound DelimitsResponse :=
  ⟨fun _ _ _ h h0 => onResponse_error h h0, fun s _ _ h hd => onResponse_alike s h hd⟩

theorem execute_line {s : ResponseState} {data rest : List UInt8} {len : Nat}
    (hD : ∀ e ∈ (scan M rest M.start ⟨fun _ => 0, fun _ => 0⟩ 0 (data.take len)).events, DelimitsResponse e)
    (hpre : data.take len = rest.take len) (hlen : len < data.length) :
    responseFrontend.execute M (httpclientParserInit M s) (data.set len 0) len =
      ((scan M rest M.start ⟨fun _ => 0, fun _ => 0⟩ 0 (data.take len)).events.foldlM onResponse
        (httpclientParserInit M s).state).map fun s' =>
          (⟨(scan M rest M.start ⟨fun _ => 0, fun _ => 0⟩ 0 (data.take len)).cs,
            (scan M (data.set len 0) M.start ⟨fun _ => 0, fun _ => 0⟩ 0 (data.take len)).regs, s'⟩,
            (scan M rest M.start ⟨fun _ => 0, fun _ => 0⟩ 0 (data.take len)).pos) := by
  have hsize : (data.take len).length = len := by
    rw [List.length_take]
    omega
  have hset : (data.set len 0).take len = data.take len := by rw [List.take_set_of_le le_rfl]
  have hguard : responseFrontend.guard (data.set len 0) (data.take len).length = true := by
    simp [responseFrontend, hsize, List.getElem?_set_self hlen]
  have := execute_alike (M := M) responseFrontend_sound (httpclientParserInit M s) rest (data.take len)
    (data.set len 0) rfl (agree_zero ⟨fun _ => 0, fun _ => 0⟩ _)
    (by rw [hsize, List.drop_zero, hpre]) (fun _ _ => Nat.zero_le _) hD (by rw [hsize, hset]) hguard
  rw [hsize] at this
  exact this

theorem Line.scan_take {rest : List UInt8} {s s' : ResponseState} (h : Line M rest s s') {len : Nat}
    (hlen : (freshScan M rest).pos ≤ len) (hle : len ≤ rest.length) :
    scan M rest M.start ⟨fun _ => 0, fun _ => 0⟩ 0 (rest.take len) = freshScan M rest := by
  obtain ⟨cs, hcs⟩ := h.final
  have hsplit : rest.take len ++ rest.drop len = rest := List.take_append_drop len rest
  have hpre := scan_prefix (M := M) rest (rest.take len) (rest.drop len) M.start ⟨fun _ => 0, fun _ => 0⟩ 0
    (by rw [hsplit]; exact h.halted) (by rw [hsplit]; exact hcs)
    (by rw [hsplit, List.length_take]; unfold freshScan at hlen; omega)
  rw [hsplit] at hpre
  exact hpre

/-- The state of the loops over the chunks: what is left of the text is in the buffer and
in the source. -/
structure Remains (bufferSize : Nat) (rest data : List UInt8) (len : Nat) (source : Source) : Prop where
  size : data.length = bufferSize
  fits : len ≤ bufferSize
  rest : data.take len ++ source.flatten = rest
  pieces : ∀ p ∈ source, p ≠ []

theorem Remains.len_le {rest data : List UInt8} {len : Nat} {source : Source}
    (h : Remains bufferSize rest data len source) : len + source.flatten.length = rest.length := by
  have := congrArg List.length h.rest
  rw [List.length_append, List.length_take, h.size] at this
  have := h.fits
  omega

theorem Remains.take_eq {rest data : List UInt8} {len : Nat} {source : Source}
    (h : Remains bufferSize rest data len source) : data.take len = rest.take len := by
  have hsize : (data.take len).length = len := by
    rw [List.length_take, h.size]
    exact Nat.min_eq_left h.fits
  rw [← h.rest, List.take_append, hsize, Nat.sub_self, List.take_zero, List.append_nil, List.take_take, Nat.min_self]

theorem Remains.beyond {rest data : List UInt8} {len n : Nat} {source : Source}
    (h : Remains bufferSize rest data len source) (hn : len ≤ n) :
    rest.take n = data.take len ++ source.flatten.take (n - len) ∧
      rest.drop n = source.flatten.drop (n - len) := by
  have hsize : (data.take len).length = len := by
    rw [List.length_take, h.size]
    exact Nat.min_eq_left h.fits
  rw [← h.rest]
  generalize data.take len = d at hsize ⊢
  subst hsize
  rw [List.take_append, List.take_of_length_le hn, List.drop_append, List.drop_of_length_le hn, List.nil_append]
  exact ⟨rfl, rfl⟩

theorem Remains.drop_eq {rest data : List UInt8} {len n : Nat} {source : Source}
    (h : Remains bufferSize rest data len source) (hn : n ≤ len) :
    rest.drop n = (data.take len).drop n ++ source.flatten := by
  have hsize : (data.take len).length = len := by
    rw [List.length_take, h.size]
    exact Nat.min_eq_left h.fits
  rw [← h.rest, List.drop_append_of_le_length (by omega)]

theorem Remains.mem_ends {rest data : List UInt8} {len : Nat} {source : Source}
    (h : Remains bufferSize rest data len source) (a : Nat) :
    a + len ∈ (a + rest.length) :: starts (a + len) source := by
  cases source with
  | nil =>
    have hlen := h.len_le
    rw [List.flatten_nil, List.length_nil, Nat.add_zero] at hlen
    rw [hlen]
    exact List.mem_cons_self ..
  | cons piece source => exact List.mem_cons_of_mem _ (List.mem_cons_self ..)

theorem Remains.brings {rest data : List UInt8} {len a p : Nat} {source : Source}
    (h : Remains bufferSize rest data len source) (hp : p ≤ a + len) :
    Brings ((a + rest.length) :: starts (a + len) source) p (a + len) := by
  refine ⟨hp, fun d hd _ => ?_⟩
  obtain rfl | hd := List.mem_cons.mp hd
  · have := h.len_le
    omega
  · exact ge_of_mem_starts hd

theorem Brings.cons {l : List Nat} {e b p c : Nat} (h : Brings (e :: l) p c) (hb : b < p) :
    Brings (e :: b :: l) p c := by
  refine ⟨h.1, fun d hd hpd => ?_⟩
  obtain rfl | hd := List.mem_cons.mp hd
  · exact h.2 d (List.mem_cons_self ..) hpd
  · obtain rfl | hd := List.mem_cons.mp hd
    · omega
    · exact h.2 d (List.mem_cons_of_mem _ hd) hpd

theorem Remains.fill {rest data piece : List UInt8} {source : Source}
    (h : Remains bufferSize rest data 0 (piece :: source)) (hfit : rest.length ≤ bufferSize) :
    fillLine bufferSize false data 0 (piece :: source) = .done (overlay data 0 piece, piece.length, source) ∧
      Remains bufferSize rest (overlay data 0 piece) piece.length source := by
  have hlen := h.len_le
  have hsize := h.size
  have hne := h.pieces piece (List.mem_cons_self ..)
  rw [List.flatten_cons, List.length_append, Nat.zero_add] at hlen
  constructor
  · have hread : readPiece (bufferSize - 0) (piece :: source) = some (piece, source) := readPiece_whole (by omega)
    simp only [fillLine, decide_true, Bool.or_true, if_true, hread, hne, if_false, Nat.zero_add]
  · refine ⟨by rw [length_overlay (by omega), hsize], by omega, ?_, fun q hq => h.pieces q (List.mem_cons_of_mem _ hq)⟩
    rw [take_overlay_zero]
    exact h.rest

/-- What no read cuts is in the first read. -/
theorem Remains.le_piece {rest data piece : List UInt8} {source : Source} {a p : Nat}
    (h : Remains bufferSize rest data 0 (piece :: source)) (hp : p ≤ rest.length)
    (hcut : ∀ c ∈ starts a (piece :: source), ¬ (a < c ∧ c < a + p)) : p ≤ piece.length := by
  have hlen := h.len_le
  have hpos := List.length_pos_of_ne_nil (h.pieces piece (List.mem_cons_self ..))
  rw [List.flatten_cons, List.length_append, Nat.zero_add] at hlen
  by_contra hlt
  cases source with
  | nil =>
    simp only [List.flatten_nil, List.length_nil, Nat.add_zero] at hlen
    omega
  | cons piece' source =>
    refine hcut (a + piece.length) (List.mem_cons_of_mem _ (List.mem_cons_self ..)) ?_
    omega

theorem recvChunkLine_step {s s' : ResponseState} {rest data₀ data : List UInt8} {size len₀ len : Nat}
    {source₀ source : Source} (fuel : Nat) (again : Bool)
    (hfill : fillLine bufferSize again data₀ len₀ source₀ = .done (data, len, source))
    (hrem : Remains size rest data len source) (hlt : len < size)
    (hD : ∀ e ∈ (freshScan M rest).events, DelimitsResponse e) (hline : Line M rest s s')
    (hpos : (freshScan M rest).pos ≤ len) :
    ∃ data', recvChunkLine M bufferSize (fuel + 1) again s data₀ len₀ source₀ =
        (if ((len - (freshScan M rest).pos : Nat) : Int) = toInt bufferSize then .closed
          else .done (s', data', len - (freshScan M rest).pos, source)) ∧
      Remains size (rest.drop (freshScan M rest).pos) data' (len - (freshScan M rest).pos) source := by
  have hlen := hrem.len_le
  have htake := hrem.take_eq
  have hscan := hline.scan_take hpos (by omega)
  obtain ⟨cs, hcs⟩ := hline.final
  have hfinal := (scan_halted rest rest M.start _ 0 hline.halted hcs).1
  have hexec := execute_line (M := M) (s := s) (by rw [htake, hscan]; exact hD) htake
    (by rw [hrem.size]; omega)
  rw [htake, hscan, hline.state, Option.map_some] at hexec
  have hset : (data.set len 0).length = size := by rw [List.length_set, hrem.size]
  refine ⟨memmove (data.set len 0) (freshScan M rest).pos (len - (freshScan M rest).pos), ?_, ?_, ?_, ?_,
    hrem.pieces⟩
  · have herr : responseFrontend.hasError (⟨(freshScan M rest).cs, (scan M (data.set len 0) M.start
        ⟨fun _ => 0, fun _ => 0⟩ 0 (rest.take len)).regs, s'⟩ : Parser σ ResponseMark FieldLen ResponseState) =
        false := by
      simp [Frontend.hasError, responseFrontend, hline.error, hcs]
    have hfin : isFinished M (⟨(freshScan M rest).cs, (scan M (data.set len 0) M.start
        ⟨fun _ => 0, fun _ => 0⟩ 0 (rest.take len)).regs, s'⟩ : Parser σ ResponseMark FieldLen ResponseState) =
        true := by
      simp [isFinished, hcs, hfinal]
    simp only [recvChunkLine, hfill, done_bind, hexec, herr, Bool.false_eq_true, if_false, hfin, if_true]
  · rw [length_memmove (by omega), hset]
  · omega
  · rw [take_memmove (by omega), ← List.drop_take, List.take_set_of_le le_rfl, ← hrem.drop_eq hpos]

theorem recvChunkLine_filled {s s' : ResponseState} {rest data₀ data : List UInt8} {len₀ len : Nat}
    {source₀ source : Source} (fuel : Nat) (again : Bool)
    (hfill : fillLine bufferSize again data₀ len₀ source₀ = .done (data, len, source))
    (hrem : Remains bufferSize rest data len source) (hrest : rest.length < bufferSize)
    (hD : ∀ e ∈ (freshScan M rest).events, DelimitsResponse e) (hline : Line M rest s s')
    (hpos : (freshScan M rest).pos ≤ len) (hfull : (len : Int) - (freshScan M rest).pos ≠ toInt bufferSize) :
    ∃ data', recvChunkLine M bufferSize (fuel + 1) again s data₀ len₀ source₀ =
        .done (s', data', len - (freshScan M rest).pos, source) ∧
      Remains bufferSize (rest.drop (freshScan M rest).pos) data' (len - (freshScan M rest).pos) source := by
  have hlen := hrem.len_le
  obtain ⟨data', hstep, hrem'⟩ := recvChunkLine_step fuel again hfill hrem (by omega) hD hline hpos
  refine ⟨data', ?_, hrem'⟩
  rw [hstep, if_neg]
  rwa [Nat.cast_sub hpos]

/-- A line that no read cuts is in the buffer behind at most one read. -/
theorem recvChunkLine_cut {s s' : ResponseState} {rest data : List UInt8} {len a : Nat} {source : Source}
    (fuel : Nat) (hrem : Remains bufferSize rest data len source)
    (hrest : rest.length < bufferSize) (hD : ∀ e ∈ (freshScan M rest).events, DelimitsResponse e)
    (hline : Line M rest s s')
    (hcut : ∀ c ∈ starts (a + len) source, ¬ (a < c ∧ c < a + (freshScan M rest).pos))
    (hfull : ∀ c ∈ (a + rest.length) :: starts (a + len) source,
      Brings ((a + rest.length) :: starts (a + len) source) (a + (freshScan M rest).pos) c →
      (c : Int) - (a + (freshScan M rest).pos : Nat) ≠ toInt bufferSize) :
    ∃ data' len' source', recvChunkLine M bufferSize (fuel + 1) false s data len source =
        .done (s', data', len', source') ∧
      Remains bufferSize (rest.drop (freshScan M rest).pos) data' len' source' ∧
      a + (freshScan M rest).pos + len' ∈ (a + rest.length) :: starts (a + len) source ∧
      Brings ((a + rest.length) :: starts (a + len) source) (a + (freshScan M rest).pos)
        (a + (freshScan M rest).pos + len') ∧
      ∀ c, a + (freshScan M rest).pos < c →
        (c ∈ starts (a + (freshScan M rest).pos + len') source' ↔ c ∈ starts (a + len) source) := by
  have hlen := hrem.len_le
  have hle := freshScan_pos_le M rest
  by_cases hbuf : (freshScan M rest).pos ≤ len ∧ len ≠ 0
  · have hfill : fillLine bufferSize false data len source = .done (data, len, source) := by
      simp [fillLine, hbuf.2]
    have hbrings := hrem.brings (a := a) (Nat.add_le_add_left hbuf.1 a)
    have hroom := hfull _ (hrem.mem_ends a) hbrings
    obtain ⟨data', hstep, hrem'⟩ := recvChunkLine_filled fuel false hfill hrem hrest hD hline hbuf.1 (by omega)
    refine ⟨data', _, source, hstep, hrem', ?_⟩
    rw [Nat.add_assoc a, Nat.add_sub_cancel' hbuf.1]
    exact ⟨hrem.mem_ends a, hbrings, fun c _ => Iff.rfl⟩
  · -- the buffer is empty, and the line is in the next read
    obtain ⟨cs, hcs⟩ := hline.final
    have hpos := (scan_halted rest rest M.start _ 0 hline.halted hcs).2
    have hpos' : 0 < (freshScan M rest).pos := hpos
    cases source with
    | nil =>
      simp only [List.flatten_nil, List.length_nil, Nat.add_zero] at hlen
      omega
    | cons piece source =>
      have hfirst := hcut (a + len) (List.mem_cons_self ..)
      obtain rfl : len = 0 := by omega
      rw [Nat.add_zero] at hcut hfull ⊢
      have hin := hrem.le_piece hle hcut
      obtain ⟨hfill, hrem₁⟩ := hrem.fill hrest.le
      have hthere := List.mem_cons.mpr ((List.mem_cons.mp (hrem₁.mem_ends a)).imp_right (List.mem_cons_of_mem a))
      have hbrings := (hrem₁.brings (Nat.add_le_add_left hin a)).cons (b := a) (by omega)
      have hroom := hfull _ hthere hbrings
      obtain ⟨data', hstep, hrem'⟩ := recvChunkLine_filled fuel false hfill hrem₁ hrest hD hline hin (by omega)
      refine ⟨data', _, source, hstep, hrem', ?_⟩
      rw [Nat.add_assoc a, Nat.add_sub_cancel' hin]
      exact ⟨hthere, hbrings, fun c hc => mem_starts_behind (by omega)⟩

theorem recvChunkLine_whole {s s' : ResponseState} {rest data data' : List UInt8} {len len' : Nat}
    {source' : Source} {fuel : Nat} (hrem : Remains bufferSize rest data len []) (hrest : rest.length < bufferSize)
    (hD : ∀ e ∈ (freshScan M rest).events, DelimitsResponse e)
    (h : recvChunkLine M bufferSize fuel false s data len [] = .done (s', data', len', source')) :
    Line M rest s s' := by
  have hlen : len = rest.length := by simpa using hrem.len_le
  have hdata : data.take len = rest := by simpa using hrem.rest
  cases fuel with
  | zero => cases h
  | succ fuel =>
    by_cases h0 : len = 0
    · simp only [recvChunkLine, fillLine, h0, decide_true, Bool.or_true, if_true, readPiece] at h
      cases h
    · have hfill : fillLine bufferSize false data len [] = .done (data, len, []) := by simp [fillLine, h0]
      have hscan : scan M rest M.start ⟨fun _ => 0, fun _ => 0⟩ 0 (data.take len) = freshScan M rest := by
        rw [hdata]
        rfl
      have hexec := execute_line (M := M) (s := s) (by rw [hscan]; exact hD) hrem.take_eq
        (by rw [hrem.size]; omega)
      rw [hscan] at hexec
      simp only [recvChunkLine, hfill, done_bind] at h
      cases hs : (freshScan M rest).events.foldlM onResponse (httpclientParserInit M s).state with
      | none => simp [hexec, hs] at h
      | some s₁ =>
        simp only [hexec, hs, Option.map_some] at h
        split at h
        · cases h
        · rename_i herr
          split at h
          · cases h
          · split at h
            · rename_i hfin
              simp only [Outcome.done.injEq, Prod.mk.injEq] at h
              obtain ⟨rfl, -⟩ := h
              simp only [isFinished, Option.any_eq_true] at hfin
              obtain ⟨cs', hcs', hfinal⟩ := hfin
              refine ⟨?_, ⟨cs', hcs'⟩, hs, ?_⟩
              · by_contra hrun
                obtain ⟨-, cs'', hcs'', hnot⟩ :=
                  scan_running rest rest M.start ⟨fun _ => 0, fun _ => 0⟩ 0 (Bool.not_eq_true _ ▸ hrun)
                have heq : cs'' = cs' := Option.some.inj (hcs''.symm.trans hcs')
                rw [heq] at hnot
                rw [hnot (List.ne_nil_of_length_pos (by omega))] at hfinal
                cases hfinal
              · by_contra h1
                exact herr (by simp [Frontend.hasError, responseFrontend, h1])
            · cases fuel <;> simp [recvChunkLine, fillLine, readPiece, bind] at h

def asks (bufferSize left : Nat) : Nat :=
  toUInt64 (if ((left : Nat) : Int) > toInt bufferSize then toInt bufferSize else (left : Nat))

theorem asks_of_pos {left : Nat} (h0 : 0 < left) (hint : left < 2 ^ 31) (h : 0 < toInt bufferSize) :
    0 < asks bufferSize left ∧ asks bufferSize left ≤ left ∧ asks bufferSize left ≤ bufferSize := by
  have hle := toInt_le h.le
  obtain ⟨_, hlt⟩ := isInt_toInt bufferSize
  unfold asks
  split
  · rw [toUInt64_of_nonneg (isInt_toInt _) h.le]
    omega
  · rw [toUInt64_of_nonneg ⟨by omega, by omega⟩ (by omega)]
    omega

theorem recvChunkData_cut (hB : 0 < toInt bufferSize) (fuel : Nat) :
    ∀ (left base : Nat) (data body : List UInt8) (source : Source), left ≤ fuel → left ≤ source.flatten.length →
      left < 2 ^ 31 → data.length = bufferSize → (∀ p ∈ source, p ≠ []) →
      ∃ data' source', recvChunkData bufferSize fuel left data body source =
          .done (data', body ++ source.flatten.take left, source') ∧
        Remains bufferSize (source.flatten.drop left) data' 0 source' ∧
        ∀ c, base + left < c → (c ∈ starts (base + left) source' ↔ c ∈ starts base source) := by
  induction fuel with
  | zero =>
    intro left base data body source hfuel _ _ hdata hne
    obtain rfl : left = 0 := by omega
    exact ⟨data, source, by simp [recvChunkData], ⟨hdata, Nat.zero_le _, by simp, hne⟩, fun c _ => Iff.rfl⟩
  | succ fuel ih =>
    intro left base data body source hfuel hleft hint hdata hne
    cases left with
    | zero =>
      exact ⟨data, source, by simp [recvChunkData], ⟨hdata, Nat.zero_le _, by simp, hne⟩, fun c _ => Iff.rfl⟩
    | succ left =>
      obtain ⟨hask, haskle, hasksize⟩ := asks_of_pos (Nat.succ_pos left) hint hB
      have haskdef : toUInt64 (if ((left + 1 : Nat) : Int) > toInt bufferSize then toInt bufferSize
          else ((left + 1 : Nat) : Int)) = asks bufferSize (left + 1) := rfl
      generalize asks bufferSize (left + 1) = ask at hask haskle hasksize haskdef
      cases source with
      | nil => simp at hleft
      | cons piece source =>
        have hp := hne piece (List.mem_cons_self ..)
        have hlen := List.length_pos_of_ne_nil hp
        rw [List.flatten_cons, List.length_append] at hleft
        by_cases hle : piece.length ≤ ask
        · obtain ⟨data', source', hrec, hrem, hcuts⟩ := ih (left + 1 - piece.length) (base + piece.length)
            (overlay data 0 piece) (body ++ piece) source (by omega) (by omega) (by omega)
            (by rw [length_overlay (by omega), hdata]) (fun q hq => hne q (List.mem_cons_of_mem _ hq))
          refine ⟨data', source', ?_, ?_, fun c hc => ?_⟩
          · simp only [recvChunkData, haskdef, readPiece_whole hle, hp, if_false, hrec]
            rw [List.flatten_cons, List.take_append, List.take_of_length_le (hle.trans haskle), List.append_assoc]
          · rwa [List.flatten_cons, List.drop_append, List.drop_of_length_le (hle.trans haskle), List.nil_append]
          · rw [Nat.add_assoc, Nat.add_sub_cancel' (by omega)] at hcuts
            exact (hcuts c hc).trans (mem_starts_behind (by omega))
        · have htake : (piece.take ask).length = ask := by
            rw [List.length_take]
            omega
          have hne' : piece.take ask ≠ [] := List.ne_nil_of_length_pos (by omega)
          have hflat : (piece.drop ask :: source).flatten = (piece :: source).flatten.drop ask := by
            rw [List.flatten_cons, List.flatten_cons, List.drop_append_of_le_length (by omega)]
          obtain ⟨data', source', hrec, hrem, hcuts⟩ := ih (left + 1 - ask) (base + ask)
            (overlay data 0 (piece.take ask)) (body ++ piece.take ask) (piece.drop ask :: source) (by omega)
            (by rw [List.flatten_cons, List.length_append, List.length_drop]; omega) (by omega)
            (by rw [length_overlay (by omega), hdata]) (by
              intro q hq
              obtain rfl | hq := List.mem_cons.mp hq
              · exact List.ne_nil_of_length_pos (by rw [List.length_drop]; omega)
              · exact hne q (List.mem_cons_of_mem _ hq))
          refine ⟨data', source', ?_, ?_, fun c hc => ?_⟩
          · simp only [recvChunkData, haskdef, readPiece, hle, hne', if_false, htake, hrec]
            have hsum : left + 1 = ask + (left + 1 - ask) := by omega
            have hfirst : piece.take ask = (piece :: source).flatten.take ask := by
              rw [List.flatten_cons, List.take_append_of_le_length (by omega)]
            rw [hflat, List.append_assoc, hfirst, ← List.take_add, ← hsum]
          · rw [hflat, List.drop_drop] at hrem
            rwa [show ask + (left + 1 - ask) = left + 1 by omega] at hrem
          · rw [Nat.add_assoc, Nat.add_sub_cancel' haskle] at hcuts
            refine (hcuts c hc).trans (.trans ?_ (mem_starts_behind (by omega)))
            rw [starts, List.mem_cons, or_iff_right (by omega), List.length_drop,
              show base + ask + (piece.length - ask) = base + piece.length by omega]

theorem recvChunk_cut (body : List UInt8) {rest data : List UInt8} {len n a : Nat} {source : Source}
    (hB : n + 2 ≤ len ∨ 0 < toInt bufferSize)
    (hrem : Remains bufferSize rest data len source) (hrest : rest.length < 2 ^ 31) (hn : n + 2 ≤ rest.length) :
    ∃ data' len' source', recvChunk bufferSize n data len body source =
        .done (data', len', body ++ rest.take n, source') ∧
      Remains bufferSize (rest.drop (n + 2)) data' len' source' ∧
      (∀ c, a + (n + 2) < c → (c ∈ starts (a + (n + 2) + len') source' ↔ c ∈ starts (a + len) source)) ∧
      (n + 2 ≤ len → source' = source) := by
  have hlen := hrem.len_le
  have hsize := hrem.size
  have hfits := hrem.fits
  have hint : ¬ (2 ^ 31 : Int) ≤ (n : Int) + 2 := by omega
  by_cases hbuf : n + 2 ≤ len
  · refine ⟨memmove data (n + 2) (len - n - 2), len - n - 2, source, ?_, ⟨?_, by omega, ?_, hrem.pieces⟩,
      fun c hc => ?_, fun _ => rfl⟩
    · have hle : (n : Int) + 2 ≤ len := by omega
      have hneg : ¬ (n : Int) < 0 := by omega
      have htake : data.take n = rest.take n := by
        have := congrArg (List.take n) hrem.take_eq
        rwa [List.take_take, List.take_take, Nat.min_eq_left (by omega)] at this
      simp only [recvChunk, hint, if_false, hle, if_true, hneg, Int.toNat_natCast, htake]
    · rw [length_memmove (by omega), hsize]
    · rw [take_memmove (by omega), hrem.drop_eq hbuf, List.drop_take, Nat.sub_sub]
    · rw [show a + (n + 2) + (len - n - 2) = a + len by omega]
  · obtain ⟨data', source', hdata, hrem', hcuts⟩ := recvChunkData_cut (hB.resolve_left hbuf) (n + 2 - len)
      (n + 2 - len) (a + len) data (body ++ data.take len) source le_rfl (by omega) (by omega) hsize hrem.pieces
    obtain ⟨htake, hdrop⟩ := hrem.beyond (n := n + 2) (by omega)
    have hbody : body ++ data.take len ++ source.flatten.take (n + 2 - len) = body ++ rest.take (n + 2) := by
      rw [htake, List.append_assoc]
    have hshort : (rest.take (n + 2)).length = n + 2 := by
      rw [List.length_take]
      omega
    rw [hbody] at hdata
    refine ⟨data', 0, source', ?_, ?_, fun c hc => ?_, fun hin => absurd hin hbuf⟩
    · have hle : ¬ (n : Int) + 2 ≤ len := by omega
      have hleft : ((n : Int) - len + 2).toNat = n + 2 - len := by omega
      have htwo : ¬ (body ++ rest.take (n + 2)).length < 2 := by
        rw [List.length_append]
        omega
      have hcut : (body ++ rest.take (n + 2)).take ((body ++ rest.take (n + 2)).length - 2) = body ++ rest.take n := by
        rw [List.length_append, hshort, List.take_append, List.take_of_length_le (by omega), List.take_take]
        congr 2
        omega
      simp only [recvChunk, hint, if_false, hle, hleft, hdata, done_bind, htwo, hcut]
    · rwa [← hdrop] at hrem'
    · rw [Nat.add_zero, show a + (n + 2) = a + len + (n + 2 - len) by omega] at hc ⊢
      exact hcuts c hc

theorem recvChunk_whole {contentLen : Int} {data data' body body' : List UInt8} {len len' : Nat} {source' : Source}
    (h : recvChunk bufferSize contentLen data len body [] = .done (data', len', body', source')) :
    ∃ n : Nat, contentLen = n ∧ n + 2 ≤ len := by
  unfold recvChunk at h
  split at h
  · cases h
  · split at h
    · split at h
      · cases h
      · rename_i hle hneg
        exact ⟨contentLen.toNat, by omega, by omega⟩
    · rename_i hgt
      obtain ⟨k, hk⟩ : ∃ k, (contentLen - len + 2).toNat = k + 1 := ⟨(contentLen - len + 2).toNat - 1, by omega⟩
      simp only [hk, recvChunkData, readPiece, bind] at h
      cases h

theorem chunkPlaces_ge (fuel : Nat) (s : ResponseState) (a : Nat) (rest : List UInt8) {x : ChunkPlace}
    (h : x ∈ chunkPlaces M fuel s a rest) : a ≤ x.line ∧ x.line ≤ x.data := by
  induction fuel generalizing s a rest with
  | zero => simp [chunkPlaces] at h
  | succ fuel ih =>
    simp only [chunkPlaces] at h
    split at h
    · simp at h
    · rename_i s' _
      obtain rfl | h := List.mem_cons.mp h
      · exact ⟨le_rfl, Nat.le_add_right _ _⟩
      · split at h
        · simp at h
        · have := ih s' _ _ h
          omega

theorem recvChunkLine_left {s s' : ResponseState} {rest data data' : List UInt8} {len len' : Nat}
    {source' : Source} {fuel : Nat} (hrem : Remains bufferSize rest data len []) (hrest : rest.length < bufferSize)
    (hD : ∀ e ∈ (freshScan M rest).events, DelimitsResponse e) (hline : Line M rest s s')
    (h : recvChunkLine M bufferSize fuel false s data len [] = .done (s', data', len', source')) :
    source' = [] ∧ Remains bufferSize (rest.drop (freshScan M rest).pos) data' len' [] := by
  have hlen : len = rest.length := by simpa using hrem.len_le
  cases fuel with
  | zero => cases h
  | succ fuel =>
    by_cases h0 : len = 0
    · simp only [recvChunkLine, fillLine, h0, decide_true, Bool.or_true, if_true, readPiece] at h
      cases h
    · have hfill : fillLine bufferSize false data len [] = .done (data, len, []) := by simp [fillLine, h0]
      obtain ⟨data₁, hstep, hrem₁⟩ := recvChunkLine_step fuel false hfill hrem (by omega) hD hline
        (hlen ▸ freshScan_pos_le M rest)
      rw [hstep] at h
      split at h
      · cases h
      · simp only [Outcome.done.injEq, Prod.mk.injEq, true_and] at h
        obtain ⟨rfl, rfl, rfl⟩ := h
        exact ⟨rfl, hrem₁⟩

theorem ChunkPlace.Roomy.behind {a : Nat} {ends ends' : List Nat} {x : ChunkPlace} (h : x.Roomy bufferSize ends)
    (hx : a < x.data) (hends : ∀ c, a < c → (c ∈ ends' ↔ c ∈ ends)) : x.Roomy bufferSize ends' :=
  fun c hc hbrings => h c ((hends c (hx.trans_le hbrings.1)).mp hc)
    ⟨hbrings.1, fun d hd hle => hbrings.2 d ((hends d (hx.trans_le hle)).mpr hd) hle⟩

/-- A chunk in the two runs, of which the first one has all of the text in its buffer. -/
theorem recvChunk_alike {contentLen : Int} {rest body data₁ data data₁' body' : List UInt8} {len₁ len len₁' a : Nat}
    {source source₁' : Source}
    (h : recvChunk bufferSize contentLen data₁ len₁ body [] = .done (data₁', len₁', body', source₁'))
    (hrem₁ : Remains bufferSize rest data₁ len₁ []) (hrem : Remains bufferSize rest data len source)
    (hrest : rest.length < 2 ^ 31) (hroom : contentLen.toNat + 2 ≤ len ∨ 0 < toInt bufferSize) :
    source₁' = [] ∧ contentLen.toNat + 2 ≤ rest.length ∧
      Remains bufferSize (rest.drop (contentLen.toNat + 2)) data₁' len₁' [] ∧
      ∃ data' len' source', recvChunk bufferSize contentLen data len body source = .done (data', len', body', source') ∧
        Remains bufferSize (rest.drop (contentLen.toNat + 2)) data' len' source' ∧
        ∀ c, a + (contentLen.toNat + 2) < c →
          (c ∈ starts (a + (contentLen.toNat + 2) + len') source' ↔ c ∈ starts (a + len) source) := by
  obtain ⟨n, rfl, hfit⟩ := recvChunk_whole h
  rw [Int.toNat_natCast] at hroom ⊢
  have hlen₁ := hrem₁.len_le
  rw [List.flatten_nil, List.length_nil, Nat.add_zero] at hlen₁
  obtain ⟨dataB, lenB, sourceB, hwhole, hremB, -, hsourceB⟩ :=
    recvChunk_cut body (a := a) (.inl hfit) hrem₁ hrest (by omega : n + 2 ≤ rest.length)
  obtain rfl := hsourceB hfit
  rw [hwhole] at h
  simp only [Outcome.done.injEq, Prod.mk.injEq] at h
  obtain ⟨rfl, rfl, rfl, rfl⟩ := h
  obtain ⟨data', len', source', hc, hrem', hcuts, -⟩ :=
    recvChunk_cut body (a := a) hroom hrem hrest (by omega : n + 2 ≤ rest.length)
  exact ⟨rfl, by omega, hremB, data', len', source', hc, hrem', hcuts⟩

/-- The chunks of a text that arrives in one read, and in pieces that do not cut its
lines, by induction on the chunks. -/
theorem recvChunks_cut (fuel : Nat) :
    ∀ (s : ResponseState) (a : Nat) (body rest data₁ data : List UInt8) (len₁ len : Nat) (source : Source)
      (r : ResponseState × List UInt8),
      recvChunks M bufferSize fuel s data₁ len₁ body [] = .done r → Remains bufferSize rest data₁ len₁ [] →
      Remains bufferSize rest data len source → rest.length < bufferSize → rest.length < 2 ^ 31 →
      (∀ k, ∀ e ∈ (freshScan M (rest.drop k)).events, DelimitsResponse e) →
      (∀ x ∈ chunkPlaces M fuel s a rest, x.line < x.data →
        x.Whole (starts (a + len) source) ∧ x.Roomy bufferSize ((a + rest.length) :: starts (a + len) source)) →
      recvChunks M bufferSize fuel s data len body source = .done r := by
  induction fuel with
  | zero =>
    intro s a body rest data₁ data len₁ len source r h
    cases h
  | succ fuel ih =>
    intro s a body rest data₁ data len₁ len source r h hrem₁ hrem hrest hint hD hplaces
    obtain ⟨⟨s', data₂, len₂, source₂⟩, hline₁, h⟩ := bind_eq_done.mp h
    obtain ⟨⟨data₃, len₃, body₃, source₃⟩, hchunk₁, h⟩ := bind_eq_done.mp h
    have hD0 : ∀ e ∈ (freshScan M rest).events, DelimitsResponse e := by simpa using hD 0
    have hline := recvChunkLine_whole hrem₁ hrest hD0 hline₁
    have hstate := hline.state
    obtain ⟨cs, hcs⟩ := hline.final
    have hpos : 0 < (freshScan M rest).pos := (scan_halted rest rest M.start _ 0 hline.halted hcs).2
    simp only [chunkPlaces, hstate] at hplaces
    obtain ⟨hwhole, hroomy⟩ := hplaces _ (List.mem_cons_self ..) (Nat.lt_add_of_pos_right hpos)
    -- the line in the two runs
    obtain ⟨rfl, hremA⟩ := recvChunkLine_left hrem₁ hrest hD0 hline hline₁
    obtain ⟨data', len', source', hl, hrem', hthere, hbrings, hcuts⟩ := recvChunkLine_cut (a := a)
      (source.flatten.length + 1) hrem hrest hD0 hline hwhole fun c hc hb => (hroomy c hc hb).1
    -- the data behind the line
    have hshort : (rest.drop (freshScan M rest).pos).length < 2 ^ 31 := by
      rw [List.length_drop]
      omega
    have hroom : s'.contentLen.toNat + 2 ≤ len' ∨ 0 < toInt bufferSize :=
      (hroomy _ hthere hbrings).2.imp_left fun hle => by
        dsimp only at hle
        omega
    obtain ⟨rfl, hbehind, hremB, data'', len'', source'', hc, hrem'', hcuts''⟩ :=
      recvChunk_alike (a := a + (freshScan M rest).pos) hchunk₁ hremA hrem' hshort hroom
    generalize s'.contentLen.toNat = n at hplaces hbehind hremB hrem'' hcuts''
    refine bind_eq_done.mpr ⟨_, hl, bind_eq_done.mpr ⟨_, hc, ?_⟩⟩
    dsimp only at h ⊢
    by_cases hdone : s'.chunksDone = true
    · rw [if_pos hdone] at h ⊢
      exact h
    · rw [if_neg hdone] at h ⊢
      rw [if_neg hdone] at hplaces
      have hsum : (freshScan M rest).pos + n + 2 = (freshScan M rest).pos + (n + 2) := Nat.add_assoc _ _ _
      rw [hsum, ← Nat.add_assoc, ← List.drop_drop] at hplaces
      refine ih s' (a + (freshScan M rest).pos + (n + 2)) _ _ data₃ data'' len₃ len'' source'' r h hremB hrem''
        ?_ ?_ ?_ ?_
      · rw [List.length_drop, List.length_drop]
        omega
      · rw [List.length_drop, List.length_drop]
        omega
      · intro k
        rw [List.drop_drop, List.drop_drop]
        exact hD _
      · intro x hx hpositive
        have hge := chunkPlaces_ge _ _ _ _ hx
        obtain ⟨hwhole, hroomy⟩ := hplaces x (List.mem_cons_of_mem _ hx) hpositive
        have hstarts : ∀ c, a + (freshScan M rest).pos + (n + 2) < c →
            (c ∈ starts (a + (freshScan M rest).pos + (n + 2) + len'') source'' ↔ c ∈ starts (a + len) source) :=
          fun c hc => (hcuts'' c hc).trans (hcuts c (by omega))
        have hend : a + (freshScan M rest).pos + (n + 2) +
            ((rest.drop (freshScan M rest).pos).drop (n + 2)).length = a + rest.length := by
          rw [List.length_drop]
          rw [List.length_drop] at hbehind ⊢
          omega
        rw [hend]
        refine ⟨fun c hc hin => hwhole c ((hstarts c (by omega)).mp hc) hin,
          hroomy.behind (a := a + (freshScan M rest).pos + (n + 2)) (by omega) fun c hc => ?_⟩
        rw [List.mem_cons, List.mem_cons, hstarts c hc]

end Lines

section Response

variable {σ : Type} {M : ResponseMachine σ} {lexicalCast : List UInt8 → Option UInt64}
  {memory memory' text : List UInt8} {pieces : Source} {rsp : HttpResponse}

def responsePlaces (M : ResponseMachine σ) (text : List UInt8) : List ChunkPlace :=
  let n := (freshScan M text).pos
  match (freshScan M text).events.foldlM onResponse {} with
  | none => []
  | some s => if s.chunked then chunkPlaces M (text.length - n + 1) s n (text.drop n) else []

/-- A response in pieces that cut neither a token of its header block nor a chunk-size
line, with a NUL behind each read of the header block and room for each chunk. -/
structure Uncut (M : ResponseMachine σ) (memory text : List UInt8) (pieces : Source) : Prop where
  tokens : Unbroken (tokens M text) (starts 0 pieces)
  lines : ∀ x ∈ responsePlaces M text, x.Whole (starts 0 pieces)
  nul : Guarded responseFrontend (freshScan M text).pos memory pieces
  room : ∀ x ∈ responsePlaces M text, x.Roomy memory.length (text.length :: starts 0 pieces)

/-- A response that is received in one read is received in pieces that do not cut it. -/
theorem recvResponse_cut (hsize : memory'.length = memory.length) (hfit : text.length ≤ memory.length)
    (hint : text.length < 2 ^ 31) (hflat : pieces.flatten = text) (hne : ∀ p ∈ pieces, p ≠ [])
    (hD : ∀ rest ∈ text.tails, ∀ e ∈ (freshScan M rest).events, DelimitsResponse e)
    (hone : recvResponse M lexicalCast memory [text] = .done rsp) (hcut : Uncut M memory' text pieces) :
    recvResponse M lexicalCast memory' pieces = .done rsp := by
  obtain ⟨⟨parser, data, last, source⟩, hhead, hone⟩ := bind_eq_done.mp hone
  obtain ⟨hguard, hfold, rfl, hlen, hlast, hrest, cs, parser', data', last', source', hpieces, hheaded⟩ :=
    recvHeader_pieces responseFrontend_sound memory' rfl hfit rfl hsize
      (hD text ((List.mem_tails _ _).mpr List.suffix_rfl)) hhead hflat hne hcut.tokens hcut.nul
  have hstate := hheaded.state
  have hroom : text.length < memory.length := by
    have hget : (overlay memory 0 text)[text.length]? = some 0 := by simpa [responseFrontend] using hguard
    obtain ⟨hlt, -⟩ := List.getElem?_eq_some_iff.mp hget
    rwa [length_overlay (by omega)] at hlt
  refine bind_eq_done.mpr ⟨(parser', data', last', source'), ?_, ?_⟩
  · rw [hflat, hsize]
    exact hpieces
  · dsimp only at hone ⊢
    rw [hstate]
    have hrem₁ : Remains memory.length (text.drop (freshScan M text).pos) data last [] :=
      ⟨hlen, hlast, (List.append_nil _).trans hrest, by simp⟩
    have hrem : Remains memory.length (text.drop (freshScan M text).pos) data' last' source' :=
      ⟨hheaded.size, hheaded.fits, hheaded.rest, hheaded.pieces⟩
    have htotal := hrem.len_le.trans hrem₁.len_le.symm
    have hshort : (text.drop (freshScan M text).pos).length < memory.length := by
      rw [List.length_drop]
      omega
    by_cases hchunked : parser.state.chunked = true
    · rw [if_pos hchunked] at hone ⊢
      obtain ⟨⟨s, body⟩, hchunks, hrsp⟩ := bind_eq_done.mp hone
      refine bind_eq_done.mpr ⟨(s, body), ?_, hrsp⟩
      rw [List.flatten_nil, List.length_nil] at hchunks htotal
      rw [hsize, Nat.add_comm source'.flatten.length, htotal, Nat.add_comm last]
      have hn := hrem₁.len_le
      rw [List.flatten_nil, List.length_nil, List.length_drop] at hn
      have hlines : responsePlaces M text =
          chunkPlaces M (0 + last + 1) parser.state (freshScan M text).pos (text.drop (freshScan M text).pos) := by
        rw [responsePlaces]
        have hfold' : (freshScan M text).events.foldlM onResponse {} = some parser.state := hfold
        simp only [hfold', hchunked, if_true]
        congr 1
        omega
      refine recvChunks_cut _ _ (freshScan M text).pos [] _ data data' last last' source' _ hchunks hrem₁ hrem
        hshort ?_ (fun k => hD _ ?_) fun x hx hpositive => ?_
      · rw [List.length_drop]
        omega
      · rw [List.mem_tails, List.drop_drop]
        exact List.drop_suffix _ _
      · have hge := chunkPlaces_ge _ _ _ _ hx
        rw [← hlines] at hx
        have hroomy := hcut.room x hx
        rw [hsize] at hroomy
        rw [List.length_drop, Nat.add_sub_cancel' (freshScan_pos_le M text)]
        refine ⟨fun c hc hin => hcut.lines x hx c ((hheaded.begins c (hge.1.trans_lt hin.1)).mp hc) hin,
          hroomy.behind (hge.1.trans_lt hpositive) fun c hc => ?_⟩
        rw [List.mem_cons, List.mem_cons]
        exact or_congr_right (hheaded.begins c hc)
    · rw [if_neg hchunked] at hone ⊢
      obtain ⟨body, hbody, hrsp⟩ := bind_eq_done.mp hone
      rw [hrest] at hbody
      exact bind_eq_done.mpr ⟨body, recvRest_cut hbody hrem.rest hrem.pieces (by
        change (text.drop (freshScan M text).pos).length < 2 ^ 31
        rw [List.length_drop]
        omega), hrsp⟩

end Response

/-- A message that is received in one read is received, and is the same, in every
sequence of reads that begins none of them inside a token or inside a chunk-size line. A read
brings less than 2^31 bytes. -/
theorem received_in_pieces {σ τ : Type} (M : RequestMachine σ) (N : ResponseMachine τ)
    (lexicalCast : List UInt8 → Option UInt64) (text : List UInt8) (pieces : Source)
    (hflat : pieces.flatten = text) (hne : ∀ p ∈ pieces, p ≠ []) (memory memory' : List UInt8)
    (hsize : memory'.length = memory.length) (hfit : text.length ≤ memory.length) :
    (∀ queryStart req, text.length < 2 ^ 31 → (∀ e ∈ requestEvents M queryStart text, Delimits e) →
      recvRequest M lexicalCast queryStart memory [text] = .done req →
      Unbroken (tokens M text) (starts 0 pieces) →
      recvRequest M lexicalCast queryStart memory' pieces = .done req) ∧
    ∀ rsp, text.length < 2 ^ 31 →
      (∀ rest ∈ text.tails, ∀ e ∈ (freshScan N rest).events, DelimitsResponse e) →
      recvResponse N lexicalCast memory [text] = .done rsp → Uncut N memory' text pieces →
      recvResponse N lexicalCast memory' pieces = .done rsp :=
  ⟨fun _ _ hint hD hone hun => recvRequest_cut hsize hfit hint hflat hne hD hone hun,
    fun _ hint hD hone hcut => recvResponse_cut hsize hfit hint hflat hne hD hone hcut⟩

section Tables

variable {A P L K : Type} (op : A → Op P L K)

/-- The part of a machine that some texts use, each with the actions of its bytes. -/
def tableNext (tables : List (List (UInt8 × List A))) :
    Option (List (UInt8 × List A) × Bool) → UInt8 → Option (Option (List (UInt8 × List A) × Bool) × List A)
  | none, b =>
    match tables.find? fun t => t.head?.any fun x => x.1 = b with
    | some (x :: rest) => some (some (rest, x.2.any fun a => (op a).isStop), x.2)
    | _ => none
  | some (x :: rest, _), b => if x.1 = b then some (some (rest, x.2.any fun a => (op a).isStop), x.2) else none
  | some ([], _), _ => none

def tableMachine (tables : List (List (UInt8 × List A))) :
    Machine (Option (List (UInt8 × List A) × Bool)) A op where
  start := none
  next := tableNext op tables
  final s := s.any Prod.snd
  final_iff := by
    intro s b s' as h
    unfold tableNext at h
    split at h
    · split at h
      · simp only [Option.some.injEq, Prod.mk.injEq] at h
        obtain ⟨rfl, rfl⟩ := h
        simp
      · cases h
    · split at h
      · simp only [Option.some.injEq, Prod.mk.injEq] at h
        obtain ⟨rfl, rfl⟩ := h
        simp
      · cases h
    · cases h

end Tables

def requestTable : List (UInt8 × List RequestAction) :=
  (bytes "GET / HTTP/1.1\r\n\r\n").zip
    [[.mark], [], [], [.requestMethod], [.mark], [.requestPath, .requestUri],
      [.mark], [], [], [], [], [], [], [], [.httpVersion], [], [], [.done]]

def getRequest : RequestMachine (Option (List (UInt8 × List RequestAction) × Bool)) :=
  tableMachine RequestAction.op [requestTable]

def responseTable : List (UInt8 × List ResponseAction) :=
  (bytes "HTTP/1.1 200 OK\r\nTransfer-Encoding: chunked\r\n\r\n").zip
    ([[.mark], [], [], [], [], [], [], [], [.httpVersion], [.mark], [], [], [.statusCode], [.mark], [],
      [.reasonPhrase], [], [.startField]] ++ List.replicate 16 [] ++ [[.writeField], [], [.startValue]] ++
      List.replicate 6 [] ++ [[.writeValue], [.transChunked], [], [.done]])

def lineTable (line : String) : List (UInt8 × List ResponseAction) :=
  (bytes line).zip [[.mark], [.chunkSize], [.done]]

def chunkedResponse : ResponseMachine (Option (List (UInt8 × List ResponseAction) × Bool)) :=
  tableMachine ResponseAction.op [responseTable, lineTable "2\r\n", lineTable "0\r\n"]

instance (stretches : List (Nat × Nat)) (cuts : List Nat) : Decidable (Unbroken stretches cuts) :=
  inferInstanceAs (Decidable (∀ x ∈ stretches, ∀ c ∈ cuts, ¬ _))

instance (cuts : List Nat) (x : ChunkPlace) : Decidable (x.Whole cuts) :=
  inferInstanceAs (Decidable (∀ c ∈ cuts, ¬ _))

instance (ends : List Nat) (p c : Nat) : Decidable (Brings ends p c) :=
  inferInstanceAs (Decidable (_ ∧ ∀ d ∈ ends, _))

instance (bufferSize : Nat) (ends : List Nat) (x : ChunkPlace) : Decidable (x.Roomy bufferSize ends) :=
  inferInstanceAs (Decidable (∀ c ∈ ends, Brings ends x.data c → _))

theorem received_in_pieces_chunked :
    recvRequest getRequest (fun _ => none) 0 (List.replicate 32 7)
      [bytes "GET ", bytes "/ ", bytes "HTTP/1.1\r", bytes "\n\r\n"] = .done {} ∧
    recvResponse chunkedResponse (fun _ => none) (List.replicate 80 0)
      [bytes "HTTP/1.1 ", bytes "200 OK\r\nTransfer-Encoding: chunked\r\n\r\n2\r\nh", bytes "i\r\n0\r\n\r\n"] =
      .done
        { reason := bytes "OK", headers := [(bytes "Transfer-Encoding", bytes "chunked")], body := bytes "hi" } := by
  obtain ⟨hrequest, -⟩ := received_in_pieces getRequest chunkedResponse (fun _ => none)
    (bytes "GET / HTTP/1.1\r\n\r\n") [bytes "GET ", bytes "/ ", bytes "HTTP/1.1\r", bytes "\n\r\n"] (by decide +kernel)
    (by decide +kernel) (List.replicate 32 7) (List.replicate 32 7) rfl (by decide +kernel)
  obtain ⟨-, hresponse⟩ := received_in_pieces getRequest chunkedResponse (fun _ => none)
    (bytes "HTTP/1.1 200 OK\r\nTransfer-Encoding: chunked\r\n\r\n2\r\nhi\r\n0\r\n\r\n")
    [bytes "HTTP/1.1 ", bytes "200 OK\r\nTransfer-Encoding: chunked\r\n\r\n2\r\nh", bytes "i\r\n0\r\n\r\n"]
    (by decide +kernel) (by decide +kernel) (List.replicate 80 0) (List.replicate 80 0) rfl (by decide +kernel)
  refine ⟨hrequest 0 _ (by decide +kernel) (by decide +kernel) (by decide +kernel) (by decide +kernel),
    hresponse _ (by decide +kernel) (by decide +kernel) (by decide +kernel)
      ⟨by decide +kernel, by decide +kernel, ?_, by decide +kernel⟩⟩
  refine ⟨by decide +kernel, fun _ => ⟨by decide +kernel, fun h => absurd h ?_⟩⟩
  decide +kernel

/-- The method `GET` in two reads: the mark of the second one is its first byte, so the
method that is looked up is `T`. -/
theorem request_lost_in_two_reads :
    [bytes "GE", bytes "T / HTTP/1.1\r\n\r\n"].flatten = bytes "GET / HTTP/1.1\r\n\r\n" ∧
    recvRequest getRequest (fun _ => none) 0 (List.replicate 32 0) [bytes "GET / HTTP/1.1\r\n\r\n"] = .done {} ∧
    recvRequest getRequest (fun _ => none) 0 (List.replicate 32 0)
      [bytes "GE", bytes "T / HTTP/1.1\r\n\r\n"] = .closed := by
  refine ⟨by decide +kernel, by decide +kernel, by decide +kernel⟩

end Windgent.Http
