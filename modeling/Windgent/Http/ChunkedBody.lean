import Windgent.Http.HttpClient

namespace Windgent.Http.HttpClient

open Ragel Scanner MachineInt

/-- `recvResponse` in a buffer of `bufferSize` bytes with one more byte behind it, for the
NUL behind a buffer that is full. -/
def recvResponseIn {σ : Type} (M : ResponseMachine σ) (lexicalCast : List UInt8 → Option UInt64)
    (bufferSize : Nat) (memory : List UInt8) (source : Source) : Outcome HttpResponse := do
  let (parser, data, lastSize, source) ←
    recvHeader responseFrontend M bufferSize (source.flatten.length + 1) (Http.httpclientParserInit M {})
      memory 0 source
  if parser.state.chunked then do
    let (s, body) ←
      recvChunks M bufferSize (source.flatten.length + lastSize + 1) parser.state data lastSize [] source
    return { s.data with body := body }
  else do
    let body ← recvRest lexicalCast parser.state.data.headers (data.take lastSize) source
    return { parser.state.data with body := body }

theorem recvResponseIn_length {σ : Type} (M : ResponseMachine σ) (lexicalCast : List UInt8 → Option UInt64)
    (memory : List UInt8) (source : Source) :
    recvResponseIn M lexicalCast memory.length memory source = recvResponse M lexicalCast memory source := rfl

section Source

variable {bufferSize size left len : Nat} {data body rest : List UInt8} {source : Source}

def skip : Nat → Source → Source
  | _, [] => []
  | n, piece :: source => if piece.length ≤ n then skip (n - piece.length) source else piece.drop n :: source

def Ends (n : Nat) (source : Source) : Prop := ∃ k, (source.take k).flatten.length = n

theorem skip_zero (h : ∀ p ∈ source, p ≠ []) : skip 0 source = source := by
  cases source with
  | nil => rfl
  | cons p ps =>
    have hp := List.length_pos_of_ne_nil (h p (List.mem_cons_self ..))
    rw [skip, if_neg (by omega), List.drop_zero]

theorem flatten_skip (n : Nat) (source : Source) : (skip n source).flatten = source.flatten.drop n := by
  induction source generalizing n with
  | nil => simp [skip]
  | cons p ps ih =>
    rw [skip]
    split
    · rename_i h
      rw [ih, List.flatten_cons, List.drop_append, List.drop_of_length_le h, List.nil_append]
    · rename_i h
      rw [List.flatten_cons, List.flatten_cons, List.drop_append_of_le_length (by omega)]

def Reads (source : Source) : Prop := ∀ p ∈ source, p ≠ [] ∧ p.length < 2 ^ 31

instance (source : Source) : Decidable (Reads source) := inferInstanceAs (Decidable (∀ p ∈ source, _ ∧ _))

theorem Reads.drop_cons {piece : List UInt8} {n : Nat} (h : Reads (piece :: source)) (hn : n < piece.length) :
    Reads (piece.drop n :: source) := by
  obtain ⟨⟨-, hint⟩, hsource⟩ := List.forall_mem_cons.mp h
  refine List.forall_mem_cons.mpr ⟨⟨List.ne_nil_of_length_pos ?_, ?_⟩, hsource⟩ <;>
  · rw [List.length_drop]
    omega

theorem Reads.read {piece : List UInt8} {n : Nat} (h : Reads (piece :: source)) :
    Reads (if piece.length ≤ n then source else piece.drop n :: source) := by
  split
  · exact (List.forall_mem_cons.mp h).2
  · exact h.drop_cons (by omega)

theorem Reads.skip (h : Reads source) (n : Nat) : Reads (skip n source) := by
  induction source generalizing n with
  | nil => exact h
  | cons p ps ih =>
    rw [HttpClient.skip]
    split
    · exact ih (List.forall_mem_cons.mp h).2 _
    · exact h.drop_cons (by omega)

theorem Reads.nonempty (h : Reads source) : ∀ p ∈ source, p ≠ [] := fun p hp => (h p hp).1

theorem flatten_read (piece : List UInt8) (n : Nat) (source : Source) :
    piece.take n ++ (if piece.length ≤ n then source else piece.drop n :: source).flatten =
      (piece :: source).flatten := by
  split
  · rename_i h
    rw [List.take_of_length_le h, List.flatten_cons]
  · rw [List.flatten_cons, List.flatten_cons, ← List.append_assoc, List.take_append_drop]

theorem skip_read {piece : List UInt8} {ask : Nat} (h : ask ≤ left) :
    skip (left - (piece.take ask).length)
      (if piece.length ≤ ask then source else piece.drop ask :: source) = skip left (piece :: source) := by
  rw [List.length_take]
  by_cases hle : piece.length ≤ ask
  · rw [if_pos hle, Nat.min_eq_right hle, skip, if_pos (by omega)]
  · rw [if_neg hle, Nat.min_eq_left (by omega), skip, skip, List.length_drop]
    by_cases hin : piece.length ≤ left
    · rw [if_pos hin, if_pos (by omega)]
      congr 1
      omega
    · rw [if_neg hin, if_neg (by omega), List.drop_drop]
      congr 2
      omega

theorem Ends.cons {piece : List UInt8} (h : Ends left (piece :: source)) (h0 : 0 < left) :
    piece.length ≤ left ∧ Ends (left - piece.length) source := by
  obtain ⟨k, hk⟩ := h
  cases k with
  | zero =>
    rw [List.take_zero, List.flatten_nil, List.length_nil] at hk
    omega
  | succ k =>
    rw [List.take_succ_cons, List.flatten_cons, List.length_append] at hk
    exact ⟨by omega, k, by omega⟩

/-- The reads for the rest of a chunk: they ask for no more than is left, or they end
with the chunk. -/
def Readable (bufferSize left : Nat) (source : Source) : Prop :=
  left = 0 ∨ 0 < toInt bufferSize ∨ (toInt bufferSize < 0 ∧ Ends left source)

theorem asks_of_neg (h : toInt bufferSize < 0) : 2 ^ 31 ≤ asks bufferSize left := by
  obtain ⟨hge, _⟩ := isInt_toInt bufferSize
  rw [asks, if_pos (by omega), toUInt64_of_neg (isInt_toInt _) h]
  unfold modulus
  omega

theorem Readable.read {piece : List UInt8} (h : Readable bufferSize left (piece :: source)) (h0 : 0 < left)
    (hint : left < 2 ^ 31) (hp : piece ≠ []) (hplen : piece.length < 2 ^ 31) :
    piece.take (asks bufferSize left) ≠ [] ∧ (piece.take (asks bufferSize left)).length ≤ bufferSize ∧
      (piece.take (asks bufferSize left)).length ≤ left ∧
      skip (left - (piece.take (asks bufferSize left)).length)
        (if piece.length ≤ asks bufferSize left then source else piece.drop (asks bufferSize left) :: source) =
          skip left (piece :: source) ∧
      Readable bufferSize (left - (piece.take (asks bufferSize left)).length)
        (if piece.length ≤ asks bufferSize left then source else piece.drop (asks bufferSize left) :: source) := by
  have hlen := List.length_pos_of_ne_nil hp
  obtain rfl | hpos | ⟨hneg, hends⟩ := h
  · omega
  · obtain ⟨hask, hleft, hbuf⟩ := asks_of_pos h0 hint hpos
    have htake := List.length_take_le (asks bufferSize left) piece
    exact ⟨List.ne_nil_of_length_pos (by rw [List.length_take]; omega), by omega, by omega, skip_read hleft,
      .inr (.inl hpos)⟩
  · -- the whole piece is read, and it is no longer than what is left
    obtain ⟨hle, hends⟩ := hends.cons h0
    have hask : 2 ^ 31 ≤ asks bufferSize left := asks_of_neg hneg
    have hbuf := le_of_toInt_neg hneg
    rw [List.take_of_length_le (by omega), if_pos (by omega)]
    refine ⟨hp, by omega, hle, ?_, .inr (.inr ⟨hneg, hends⟩)⟩
    rw [skip, if_pos hle]

theorem recvChunkData_skip (fuel : Nat) (hsize : bufferSize ≤ size) :
    ∀ (left : Nat) (data body : List UInt8) (source : Source), left ≤ fuel → left ≤ source.flatten.length →
      left < 2 ^ 31 → data.length = size → Reads source →
      Readable bufferSize left source →
      ∃ data', recvChunkData bufferSize fuel left data body source =
          .done (data', body ++ source.flatten.take left, skip left source) ∧ data'.length = size := by
  induction fuel with
  | zero =>
    intro left data body source hfuel _ _ hdata hpieces _
    obtain rfl : left = 0 := by omega
    exact ⟨data, by simp [recvChunkData, skip_zero hpieces.nonempty], hdata⟩
  | succ fuel ih =>
    intro left data body source hfuel hleft hint hdata hpieces hread
    cases left with
    | zero => exact ⟨data, by simp [recvChunkData, skip_zero hpieces.nonempty], hdata⟩
    | succ left =>
      cases source with
      | nil => simp at hleft
      | cons piece source =>
        obtain ⟨hp, hplen⟩ := hpieces piece (List.mem_cons_self ..)
        obtain ⟨hne, hbuf, hle, hskip, hrest⟩ := hread.read (by omega) hint hp hplen
        generalize hask : asks bufferSize (left + 1) = ask at hne hbuf hle hskip hrest
        have hflat := flatten_read piece ask source
        have hpos := List.length_pos_of_ne_nil hne
        have hcount := congrArg List.length hflat
        rw [List.length_append] at hcount
        obtain ⟨data', hrec, hdata'⟩ := ih (left + 1 - (piece.take ask).length) (overlay data 0 (piece.take ask))
          (body ++ piece.take ask) _ (by omega) (by omega) (by omega)
          (by rw [length_overlay (by omega), hdata]) hpieces.read hrest
        refine ⟨data', ?_, hdata'⟩
        unfold asks at hask
        simp only [recvChunkData, hask, readPiece, hne, if_false, hrec, hskip]
        rw [← hflat, List.take_append, List.take_of_length_le hle, List.append_assoc]

end Source

/-- A chunk as it is sent: a plain chunk-size line, the data and a line end. -/
structure Chunk where
  digits : List UInt8
  data : List UInt8
  plain : Digits digits
  size : hexValue digits = data.length

def Chunk.text (c : Chunk) : List UInt8 := c.digits ++ 13 :: 10 :: (c.data ++ [13, 10])

/-- What the decoder has when it starts to parse the size line of a chunk: the number of
bytes in the buffer and what is still to be read. -/
structure Round where
  chunk : Chunk
  len : Nat
  source : Source

def Round.Complete (r : Round) : Prop := r.chunk.digits.length + 2 ≤ r.len

instance (r : Round) : Decidable r.Complete := inferInstanceAs (Decidable (_ ≤ _))

def Round.behind (r : Round) : Nat := r.len - (r.chunk.digits.length + 2)

def Round.left (r : Round) : Nat := r.chunk.data.length + 2 - r.behind

/-- The buffer is not taken for full, and the rest of the chunk can be read. -/
def Round.Regular (bufferSize : Nat) (r : Round) : Prop :=
  (r.behind : Int) ≠ toInt bufferSize ∧ Readable bufferSize r.left r.source

def fill (bufferSize len : Nat) (source : Source) : Nat × Source :=
  if len = 0 then (readPiece bufferSize source).elim (0, []) fun x => (x.1.length, x.2) else (len, source)

def startRound (bufferSize : Nat) (c : Chunk) (len : Nat) (source : Source) : Round :=
  ⟨c, (fill bufferSize len source).1, (fill bufferSize len source).2⟩

/-- The rounds of the decoder over the chunks. -/
def rounds (bufferSize : Nat) : List Chunk → Nat → Source → List Round
  | [], _, _ => []
  | c :: cs, len, source =>
    let r := startRound bufferSize c len source
    r :: rounds bufferSize cs (r.behind - (c.data.length + 2)) (skip r.left r.source)

section Rounds

variable {bufferSize size len fuel : Nat} {data body rest : List UInt8} {source : Source} {c : Chunk}
  {s : ResponseState}

theorem fillLine_eq (hrem : Remains size rest data len source) (hreads : Reads source) (hsize : bufferSize ≤ size)
    (hlen : len ≤ bufferSize) (h : 0 < (fill bufferSize len source).1) :
    ∃ data', fillLine bufferSize false data len source =
        .done (data', (fill bufferSize len source).1, (fill bufferSize len source).2) ∧
      Remains size rest data' (fill bufferSize len source).1 (fill bufferSize len source).2 ∧
      Reads (fill bufferSize len source).2 ∧ (fill bufferSize len source).1 ≤ bufferSize := by
  by_cases h0 : len = 0
  · subst h0
    cases source with
    | nil => simp [fill, readPiece] at h
    | cons piece source =>
      simp only [fill, if_true, readPiece, Option.elim_some] at h ⊢
      have hle := List.length_take_le bufferSize piece
      have hrest := hreads.read (n := bufferSize)
      refine ⟨overlay data 0 (piece.take bufferSize), ?_, ⟨?_, by omega, ?_, hrest.nonempty⟩, hrest, hle⟩
      · simp only [fillLine, decide_true, Bool.or_true, if_true, readPiece, Nat.sub_zero,
          List.ne_nil_of_length_pos h, if_false, Nat.zero_add]
      · rw [length_overlay (by rw [hrem.size]; omega), hrem.size]
      · rw [take_overlay_zero, flatten_read]
        exact hrem.rest
  · simp only [fill, h0, if_false] at h ⊢
    exact ⟨data, by simp [fillLine, h0], hrem, hreads, hlen⟩

/-- The size line of a chunk. -/
theorem recvChunkLine_round (fuel : Nat) (hc : c.data.length < 2 ^ 31) (h0 : s.error = 0)
    (hrem : Remains (bufferSize + 1) (c.text ++ rest) data len source) (hreads : Reads source)
    (hlen : len ≤ bufferSize) (hcomplete : (startRound bufferSize c len source).Complete) :
    ∃ data', recvChunkLine httpclientParser bufferSize (fuel + 1) false s data len source =
        (if ((startRound bufferSize c len source).behind : Int) = toInt bufferSize then .closed
          else .done (sized s c.data.length, data', (startRound bufferSize c len source).behind,
            (startRound bufferSize c len source).source)) ∧
      Remains (bufferSize + 1) (c.data ++ 13 :: 10 :: rest) data' (startRound bufferSize c len source).behind
        (startRound bufferSize c len source).source ∧
      Reads (startRound bufferSize c len source).source ∧
      (startRound bufferSize c len source).behind ≤ bufferSize := by
  have htext : c.text ++ rest = c.digits ++ 13 :: 10 :: (c.data ++ 13 :: 10 :: rest) := by simp [Chunk.text]
  obtain ⟨hline, hpos, hD⟩ := line_sizeLine c.plain (c.size ▸ hc) (c.data ++ 13 :: 10 :: rest) h0
  rw [htext] at hrem
  obtain ⟨data₁, hfill, hrem₁, hreads', hle⟩ := fillLine_eq hrem hreads (Nat.le_succ _) hlen
    (Nat.lt_of_lt_of_le (by omega) hcomplete)
  obtain ⟨data', hstep, hrem'⟩ := recvChunkLine_step fuel false hfill hrem₁ (by omega) hD hline
    (hpos ▸ hcomplete)
  rw [hpos, c.size] at hstep
  rw [hpos] at hrem'
  rw [List.drop_length_add_append] at hrem'
  exact ⟨data', hstep, hrem', hreads', (Nat.sub_le _ _).trans hle⟩

theorem recvChunk_regular (body : List UInt8) (hc : c.data.length + 2 < 2 ^ 31) (hsize : bufferSize ≤ size)
    (hrem : Remains size (c.data ++ 13 :: 10 :: rest) data len source) (hreads : Reads source)
    (hread : Readable bufferSize (c.data.length + 2 - len) source) :
    ∃ data', recvChunk bufferSize c.data.length data len body source =
        .done (data', len - (c.data.length + 2), body ++ c.data, skip (c.data.length + 2 - len) source) ∧
      Remains size rest data' (len - (c.data.length + 2)) (skip (c.data.length + 2 - len) source) := by
  have hlen := hrem.len_le
  rw [List.length_append, List.length_cons, List.length_cons] at hlen
  have hfits := hrem.fits
  have hint : ¬ (2 ^ 31 : Int) ≤ (c.data.length : Int) + 2 := by omega
  have hdrop : (c.data ++ 13 :: 10 :: rest).drop (c.data.length + 2) = rest := by
    rw [List.drop_length_add_append]
    rfl
  by_cases hbuf : c.data.length + 2 ≤ len
  · refine ⟨memmove data (c.data.length + 2) (len - c.data.length - 2), ?_, ?_, by omega, ?_, ?_⟩
    · have hle : (c.data.length : Int) + 2 ≤ len := by omega
      have hneg : ¬ (c.data.length : Int) < 0 := by omega
      have htake : data.take c.data.length = c.data := by
        have := congrArg (List.take c.data.length) hrem.take_eq
        rwa [List.take_take, List.take_take, Nat.min_eq_left (by omega), List.take_left] at this
      rw [Nat.sub_eq_zero_of_le hbuf, skip_zero hreads.nonempty]
      simp only [recvChunk, hint, if_false, hle, if_true, hneg, Int.toNat_natCast, htake, Nat.sub_sub]
    · rw [length_memmove (by rw [hrem.size]; omega), hrem.size]
    · rw [Nat.sub_eq_zero_of_le hbuf, skip_zero hreads.nonempty, ← Nat.sub_sub,
        take_memmove (by rw [hrem.size]; omega), Nat.sub_sub, ← List.drop_take, ← hrem.drop_eq hbuf, hdrop]
    · exact (hreads.skip _).nonempty
  · obtain ⟨data', hdata, hsize'⟩ := recvChunkData_skip (c.data.length + 2 - len) hsize (c.data.length + 2 - len)
      data (body ++ data.take len) source le_rfl (by omega) (by omega) hrem.size hreads hread
    obtain ⟨htake, hflat⟩ := hrem.beyond (n := c.data.length + 2) (by omega)
    have hbody : body ++ data.take len ++ source.flatten.take (c.data.length + 2 - len) =
        body ++ c.data ++ [13, 10] := by
      rw [List.append_assoc, ← htake, List.take_length_add_append, List.append_assoc]
      rfl
    have hleft : ((c.data.length : Int) - len + 2).toNat = c.data.length + 2 - len := by omega
    have hle : ¬ (c.data.length : Int) + 2 ≤ len := by omega
    have htwo : ¬ (body ++ c.data ++ [13, 10]).length < 2 := by
      rw [List.length_append, List.length_cons, List.length_singleton]
      omega
    have hcut : (body ++ c.data ++ [13, 10]).take ((body ++ c.data ++ [13, 10]).length - 2) = body ++ c.data := by
      rw [List.length_append]
      exact List.take_left
    rw [hbody] at hdata
    refine ⟨data', ?_, hsize', Nat.sub_le_of_le_add (by omega), ?_, (hreads.skip _).nonempty⟩
    · rw [Nat.sub_eq_zero_of_le (by omega : len ≤ c.data.length + 2)]
      simp only [recvChunk, hint, if_false, hle, hleft, hdata, done_bind, htwo, hcut]
    · rw [Nat.sub_eq_zero_of_le (by omega : len ≤ c.data.length + 2), List.take_zero, List.nil_append, flatten_skip,
        ← hflat, hdrop]

theorem recvChunk_closed (body : List UInt8) (hc : c.data.length + 2 < 2 ^ 31)
    (hrem : Remains size (c.data ++ 13 :: 10 :: rest) data len source) (h0 : 0 ≤ toInt bufferSize)
    (hread : ¬ Readable bufferSize (c.data.length + 2 - len) source) :
    recvChunk bufferSize c.data.length data len body source = .closed := by
  have hlen := hrem.len_le
  rw [List.length_append, List.length_cons, List.length_cons] at hlen
  obtain ⟨hleft, hsize⟩ : c.data.length + 2 - len ≠ 0 ∧ toInt bufferSize = 0 := by
    unfold Readable at hread
    omega
  obtain ⟨k, hk⟩ := Nat.exists_eq_succ_of_ne_zero hleft
  have hint : ¬ (2 ^ 31 : Int) ≤ (c.data.length : Int) + 2 := by omega
  have hle : ¬ (c.data.length : Int) + 2 ≤ len := by omega
  have hnat : ((c.data.length : Int) - len + 2).toNat = k + 1 := by omega
  have hask : toUInt64 (if ((k + 1 : Nat) : Int) > 0 then 0 else ((k + 1 : Nat) : Int)) = 0 := by
    rw [if_pos (by omega)]
    rfl
  cases source with
  | nil =>
    rw [List.flatten_nil, List.length_nil] at hlen
    omega
  | cons piece source =>
    simp only [recvChunk, hint, if_false, hle, hnat, recvChunkData, hsize, hask, readPiece, List.take_zero, if_true]
    rfl

theorem recvChunks_regular (fuel : Nat) (body : List UInt8) (hc : c.data.length + 2 < 2 ^ 31) (h0 : s.error = 0)
    (hrem : Remains (bufferSize + 1) (c.text ++ rest) data len source) (hreads : Reads source)
    (hlen : len ≤ bufferSize) (hcomplete : (startRound bufferSize c len source).Complete)
    (hregular : (startRound bufferSize c len source).Regular bufferSize) :
    let r := startRound bufferSize c len source
    let len' := r.behind - (c.data.length + 2)
    ∃ data', recvChunks httpclientParser bufferSize (fuel + 1) s data len body source =
        (if c.data = [] then .done (sized s c.data.length, body ++ c.data)
          else recvChunks httpclientParser bufferSize fuel (sized s c.data.length) data' len' (body ++ c.data)
            (skip r.left r.source)) ∧
      Remains (bufferSize + 1) rest data' len' (skip r.left r.source) ∧ Reads (skip r.left r.source) ∧
      len' ≤ bufferSize := by
  obtain ⟨data₁, hline, hrem₁, hreads₁, hle⟩ := recvChunkLine_round (source.flatten.length + 1) (by omega) h0 hrem
    hreads hlen hcomplete
  obtain ⟨data', hchunk, hrem'⟩ := recvChunk_regular body hc (Nat.le_succ _) hrem₁ hreads₁ hregular.2
  refine ⟨data', ?_, hrem', hreads₁.skip _, (Nat.sub_le _ _).trans hle⟩
  rw [if_neg hregular.1] at hline
  simp only [recvChunks, hline, done_bind, sized, hchunk, decide_eq_true_eq, List.length_eq_zero_iff]
  rfl

theorem recvChunks_closed (fuel : Nat) (body : List UInt8) (hc : c.data.length + 2 < 2 ^ 31) (h0 : s.error = 0)
    (hrem : Remains (bufferSize + 1) (c.text ++ rest) data len source) (hreads : Reads source)
    (hlen : len ≤ bufferSize) (hcomplete : (startRound bufferSize c len source).Complete)
    (hsign : 0 ≤ toInt bufferSize)
    (hregular : ¬ (startRound bufferSize c len source).Regular bufferSize) :
    recvChunks httpclientParser bufferSize (fuel + 1) s data len body source = .closed := by
  obtain ⟨data₁, hline, hrem₁, hreads₁, hle⟩ := recvChunkLine_round (source.flatten.length + 1) (by omega) h0 hrem
    hreads hlen hcomplete
  by_cases hfull : ((startRound bufferSize c len source).behind : Int) = toInt bufferSize
  · rw [if_pos hfull] at hline
    simp only [recvChunks, hline]
    rfl
  · have hchunk := recvChunk_closed body hc hrem₁ hsign fun hread => hregular ⟨hfull, hread⟩
    rw [if_neg hfull] at hline
    simp only [recvChunks, hline, done_bind, sized, hchunk]
    rfl

/-- All chunks of a body, the last one included, by induction on the chunks. -/
theorem recvChunks_rounds (last : Chunk) (hlast : last.data = []) (cs : List Chunk)
    (hcs : ∀ c ∈ cs, c.data ≠ [] ∧ c.data.length + 2 < 2 ^ 31) :
    ∀ (fuel : Nat) (s : ResponseState) (body data : List UInt8) (len : Nat) (source : Source),
      cs.length < fuel → s.error = 0 →
      Remains (bufferSize + 1) ((cs ++ [last]).flatMap Chunk.text) data len source → Reads source →
      len ≤ bufferSize → (∀ r ∈ rounds bufferSize (cs ++ [last]) len source, r.Complete) →
      ((∀ r ∈ rounds bufferSize (cs ++ [last]) len source, r.Regular bufferSize) →
        ∃ s', recvChunks httpclientParser bufferSize fuel s data len body source =
          .done (s', body ++ cs.flatMap Chunk.data) ∧ s'.data = s.data) ∧
      (0 ≤ toInt bufferSize → ¬ (∀ r ∈ rounds bufferSize (cs ++ [last]) len source, r.Regular bufferSize) →
        recvChunks httpclientParser bufferSize fuel s data len body source = .closed) := by
  induction cs with
  | nil =>
    intro fuel s body data len source hfuel h0 hrem hreads hlen hcomplete
    obtain ⟨fuel, rfl⟩ := Nat.exists_eq_succ_of_ne_zero (by omega : fuel ≠ 0)
    have hsize : last.data.length + 2 < 2 ^ 31 := by simp [hlast]
    simp only [List.nil_append, rounds, List.forall_mem_singleton, List.flatMap_cons, List.flatMap_nil] at *
    refine ⟨fun hregular => ?_, recvChunks_closed fuel body hsize h0 hrem hreads hlen hcomplete⟩
    obtain ⟨data', hstep, -⟩ := recvChunks_regular fuel body hsize h0 hrem hreads hlen hcomplete hregular
    rw [if_pos hlast, hlast] at hstep
    exact ⟨_, hstep, rfl⟩
  | cons c cs ih =>
    intro fuel s body data len source hfuel h0 hrem hreads hlen hcomplete
    obtain ⟨fuel, rfl⟩ := Nat.exists_eq_succ_of_ne_zero (by omega : fuel ≠ 0)
    obtain ⟨⟨hne, hsize⟩, hcs⟩ := List.forall_mem_cons.mp hcs
    rw [List.cons_append, List.flatMap_cons] at hrem
    rw [List.cons_append, rounds] at hcomplete ⊢
    obtain ⟨hfirst, hothers⟩ := List.forall_mem_cons.mp hcomplete
    by_cases hregular : (startRound bufferSize c len source).Regular bufferSize
    · obtain ⟨data', hstep, hrem', hreads', hlen'⟩ :=
        recvChunks_regular fuel body hsize h0 hrem hreads hlen hfirst hregular
      obtain ⟨hdone, hclosed⟩ := ih hcs fuel (sized s c.data.length) (body ++ c.data) data' _ _
        (by rw [List.length_cons] at hfuel; omega) h0 hrem' hreads' hlen' hothers
      rw [hstep, if_neg hne, List.flatMap_cons, ← List.append_assoc]
      refine ⟨fun hall => ?_, fun hsign hnot => ?_⟩
      · obtain ⟨s', hrun, hdata⟩ := hdone (List.forall_mem_cons.mp hall).2
        exact ⟨s', hrun, hdata⟩
      · exact hclosed hsign fun hall => hnot (List.forall_mem_cons.mpr ⟨hregular, hall⟩)
    · exact ⟨fun hall => absurd (List.forall_mem_cons.mp hall).1 hregular, fun hsign _ =>
        recvChunks_closed fuel body hsize h0 hrem hreads hlen hfirst hsign hregular⟩

theorem rounds_regular (hsize : bufferSize < 2 ^ 31) (cs : List Chunk) (len : Nat) (source : Source)
    (hlen : len ≤ bufferSize) (hcomplete : ∀ r ∈ rounds bufferSize cs len source, r.Complete) :
    ∀ r ∈ rounds bufferSize cs len source, r.Regular bufferSize := by
  induction cs generalizing len source with
  | nil => simp [rounds]
  | cons c cs ih =>
    rw [rounds] at hcomplete ⊢
    obtain ⟨hfirst, hothers⟩ := List.forall_mem_cons.mp hcomplete
    have hfill : (fill bufferSize len source).1 ≤ bufferSize := by
      unfold fill
      split
      · cases source with
        | nil => simp [readPiece]
        | cons p ps => exact List.length_take_le _ _
      · exact hlen
    have hle : (startRound bufferSize c len source).len ≤ bufferSize := hfill
    unfold Round.Complete at hfirst
    refine List.forall_mem_cons.mpr ⟨⟨?_, .inr (.inl ?_)⟩, ih _ _ ?_ hothers⟩
    · rw [toInt_of_lt hsize, Round.behind]
      omega
    · rw [toInt_of_lt hsize]
      omega
    · rw [Round.behind]
      omega

end Rounds

/-- A response with chunks and without trailers. -/
structure ChunkedResponse where
  head : List UInt8
  chunks : List Chunk
  last : Chunk
  nonempty : ∀ c ∈ chunks, c.data ≠ []
  ended : last.data = []
  total : (chunks.flatMap Chunk.data).length < 2 ^ 31 - 2

namespace ChunkedResponse

variable (r : ChunkedResponse) (bufferSize : Nat) (memory : List UInt8) (pieces : Source)

def text : List UInt8 := r.head ++ (r.chunks ++ [r.last]).flatMap Chunk.text

def body : List UInt8 := r.chunks.flatMap Chunk.data

def firstRead : List UInt8 := (pieces.headD []).take bufferSize

def rounds : List Round :=
  HttpClient.rounds bufferSize (r.chunks ++ [r.last]) ((firstRead bufferSize pieces).length - r.head.length)
    (fill bufferSize 0 pieces).2

/-- The response arrives with its header block in one read and each size line in the
bytes that the decoder has when it comes to it. -/
structure Arrives : Prop where
  size : memory.length = bufferSize + 1
  reads : Reads pieces
  flatten : pieces.flatten = r.text
  header : ∃ parser, responseFrontend.execute httpclientParser (httpclientParserInit httpclientParser {})
      (overlay memory 0 (firstRead bufferSize pieces)) (firstRead bufferSize pieces).length =
        some (parser, r.head.length) ∧
    responseFrontend.hasError parser = false ∧ isFinished httpclientParser parser = true ∧
    parser.state.chunked = true
  lines : ∀ x ∈ r.rounds bufferSize pieces, x.Complete

def Reassembled (lexicalCast : List UInt8 → Option UInt64) : Prop :=
  ∃ rsp, recvResponseIn httpclientParser lexicalCast bufferSize memory pieces = .done rsp ∧ rsp.body = r.body

variable {r bufferSize memory pieces}

theorem chunk_size {c : Chunk} (h : c ∈ r.chunks) : c.data.length + 2 < 2 ^ 31 := by
  have hle : c.data.length ≤ (r.chunks.flatMap Chunk.data).length := by
    rw [List.flatMap_def]
    exact (List.sublist_flatten_of_mem (List.mem_map_of_mem h)).length_le
  have := r.total
  omega

theorem length_le_flatMap_text (cs : List Chunk) : cs.length ≤ (cs.flatMap Chunk.text).length := by
  induction cs with
  | nil => simp
  | cons c cs ih =>
    simp only [List.flatMap_cons, List.length_append, List.length_cons, Chunk.text]
    omega

theorem start_running : httpclientParser.final httpclientParser.start = false := by decide

theorem firstRead_cons (piece : List UInt8) (source : Source) :
    firstRead bufferSize (piece :: source) = piece.take bufferSize := rfl

theorem Arrives.head_length (h : r.Arrives bufferSize memory pieces) :
    0 < r.head.length ∧ r.head.length ≤ (firstRead bufferSize pieces).length := by
  obtain ⟨parser, hexec, -, hfin, -⟩ := h.header
  unfold Frontend.execute at hexec
  split at hexec
  · simp only [httpclientParserInit, Option.map_eq_some_iff, Prod.mk.injEq] at hexec
    obtain ⟨s, -, rfl, hpos⟩ := hexec
    rw [take_overlay_zero] at hpos hfin
    simp only [isFinished, Option.any_eq_true] at hfin
    obtain ⟨cs, hcs, hfinal⟩ := hfin
    have hle := (scan_pos (M := httpclientParser) (overlay memory 0 (firstRead bufferSize pieces))
      (firstRead bufferSize pieces) httpclientParser.start ⟨fun _ => 0, fun _ => 0⟩ 0).2
    refine ⟨?_, by rw [← hpos]; simpa [responseFrontend] using hle⟩
    cases hhalt : (scan httpclientParser (overlay memory 0 (firstRead bufferSize pieces)) httpclientParser.start
      ⟨fun _ => 0, fun _ => 0⟩ 0 (firstRead bufferSize pieces)).halted with
    | true => exact hpos ▸ (scan_halted _ _ _ _ _ hhalt hcs).2
    | false =>
      obtain ⟨-, cs', hcs', hnot⟩ := scan_running _ _ _ _ _ hhalt
      obtain rfl := Option.some.inj (hcs'.symm.trans hcs)
      by_cases hempty : firstRead bufferSize pieces = []
      · rw [hempty] at hcs'
        obtain rfl := Option.some.inj hcs'
        rw [start_running] at hfinal
        cases hfinal
      · rw [hnot hempty] at hfinal
        cases hfinal
  · cases hexec

theorem Arrives.recvHeader (h : r.Arrives bufferSize memory pieces) :
    ∃ parser data, Http.recvHeader responseFrontend httpclientParser bufferSize (pieces.flatten.length + 1)
        (httpclientParserInit httpclientParser {}) memory 0 pieces =
          .done (parser, data, (firstRead bufferSize pieces).length - r.head.length, (fill bufferSize 0 pieces).2) ∧
      parser.state.error = 0 ∧ parser.state.chunked = true ∧
      Remains (bufferSize + 1) ((r.chunks ++ [r.last]).flatMap Chunk.text) data
        ((firstRead bufferSize pieces).length - r.head.length) (fill bufferSize 0 pieces).2 ∧
      Reads (fill bufferSize 0 pieces).2 ∧ (firstRead bufferSize pieces).length - r.head.length ≤ bufferSize := by
  obtain ⟨hpos, hle⟩ := h.head_length
  obtain ⟨parser, hexec, herr, hfin, hchunked⟩ := h.header
  have hsize := h.size
  cases pieces with
  | nil =>
    have hnone : firstRead bufferSize [] = [] := List.take_nil
    rw [hnone, List.length_nil] at hle
    omega
  | cons piece source =>
    have hfill : (fill bufferSize 0 (piece :: source)).2 =
      if piece.length ≤ bufferSize then source else piece.drop bufferSize :: source := rfl
    rw [firstRead_cons] at hle hexec ⊢
    rw [hfill]
    have hbuf := List.length_take_le bufferSize piece
    have hreads := h.reads.read (n := bufferSize)
    have herror : parser.state.error = 0 := by
      simp only [Frontend.hasError, Bool.or_eq_false_iff, decide_eq_false_iff_not, not_not] at herr
      exact herr.1
    refine ⟨parser, memmove (overlay memory 0 (piece.take bufferSize)) r.head.length
      ((piece.take bufferSize).length - r.head.length), ?_, herror, hchunked, ⟨?_, by omega, ?_, hreads.nonempty⟩,
      hreads, by omega⟩
    · have hne : piece.take bufferSize ≠ [] := List.ne_nil_of_length_pos (by omega)
      have hfull : (piece.take bufferSize).length - r.head.length ≠ bufferSize := by omega
      simp only [Http.recvHeader, Nat.sub_zero, readPiece, hne, if_false, Nat.add_zero, hexec, herr, hfin, hfull,
        if_true, Bool.false_eq_true]
    · rw [length_memmove (by rw [length_overlay (by omega)]; omega), length_overlay (by omega), hsize]
    · rw [take_memmove (by rw [length_overlay (by omega)]; omega), ← List.drop_take, take_overlay_zero,
        ← List.drop_append_of_le_length hle, flatten_read, h.flatten, text, List.drop_left]

/-- What `recvResponse` makes of a response that arrives: the decision is in the rounds. -/
theorem Arrives.recvResponse (lexicalCast : List UInt8 → Option UInt64) (h : r.Arrives bufferSize memory pieces) :
    ((∀ x ∈ r.rounds bufferSize pieces, x.Regular bufferSize) → r.Reassembled bufferSize memory pieces lexicalCast) ∧
      (0 ≤ toInt bufferSize → ¬ (∀ x ∈ r.rounds bufferSize pieces, x.Regular bufferSize) →
        recvResponseIn httpclientParser lexicalCast bufferSize memory pieces = .closed) := by
  obtain ⟨parser, data, hheader, herror, hchunked, hrem, hreads, hle⟩ := h.recvHeader
  have hfuel : r.chunks.length < (fill bufferSize 0 pieces).2.flatten.length +
      ((firstRead bufferSize pieces).length - r.head.length) + 1 := by
    have hlen := hrem.len_le
    have hcount := length_le_flatMap_text (r.chunks ++ [r.last])
    rw [List.length_append, List.length_singleton] at hcount
    omega
  obtain ⟨hdone, hclosed⟩ := recvChunks_rounds r.last r.ended r.chunks
    (fun c hc => ⟨r.nonempty c hc, chunk_size hc⟩) _ parser.state [] data _ _ hfuel herror hrem hreads hle h.lines
  refine ⟨fun hregular => ?_, fun hsign hnot => ?_⟩
  · obtain ⟨s, hrun, -⟩ := hdone hregular
    refine ⟨{ s.data with body := r.body }, ?_, rfl⟩
    simp only [recvResponseIn, hheader, done_bind, hchunked, if_true, hrun, List.nil_append]
    rfl
  · simp only [recvResponseIn, hheader, done_bind, hchunked, if_true, hclosed hsign hnot]
    rfl

def greeting : ChunkedResponse where
  head := bytes "HTTP/1.1 200 OK\r\nTransfer-Encoding: chunked\r\n\r\n"
  chunks := [⟨bytes "2", bytes "hi", ⟨by decide, by decide +kernel⟩, by decide⟩]
  last := ⟨bytes "0", [], ⟨by decide, by decide +kernel⟩, by decide⟩
  nonempty := by decide
  ended := rfl
  total := by decide

theorem greeting_header {bufferSize : Nat} {memory : List UInt8} {pieces : Source}
    (h : (responseFrontend.execute httpclientParser (httpclientParserInit httpclientParser {})
      (overlay memory 0 (firstRead bufferSize pieces)) (firstRead bufferSize pieces).length).any (fun x =>
        x.2 = greeting.head.length && !responseFrontend.hasError x.1 && isFinished httpclientParser x.1 &&
          x.1.state.chunked) = true) :
    ∃ parser, responseFrontend.execute httpclientParser (httpclientParserInit httpclientParser {})
      (overlay memory 0 (firstRead bufferSize pieces)) (firstRead bufferSize pieces).length =
        some (parser, greeting.head.length) ∧
    responseFrontend.hasError parser = false ∧ isFinished httpclientParser parser = true ∧
    parser.state.chunked = true := by
  obtain ⟨⟨parser, n⟩, hexec, hall⟩ := (Option.any_eq_true ..).mp h
  simp only [Bool.and_eq_true, decide_eq_true_eq, Bool.not_eq_true'] at hall
  obtain ⟨⟨⟨rfl, herr⟩, hfin⟩, hchunked⟩ := hall
  exact ⟨parser, hexec, herr, hfin, hchunked⟩

theorem execute_header {data head : List UInt8}
    (hD : ∀ e ∈ (freshScan httpclientParser head).events, DelimitsResponse e)
    (htake : data.take head.length = head) (hnul : data[head.length]? = some 0) :
    responseFrontend.execute httpclientParser (httpclientParserInit httpclientParser {}) data head.length =
      ((freshScan httpclientParser head).events.foldlM onResponse
        (httpclientParserInit httpclientParser {}).state).map fun s =>
          (⟨(freshScan httpclientParser head).cs,
            (scan httpclientParser data httpclientParser.start ⟨fun _ => 0, fun _ => 0⟩ 0 head).regs, s⟩,
            (freshScan httpclientParser head).pos) := by
  obtain ⟨hlt, hget⟩ := List.getElem?_eq_some_iff.mp hnul
  have hset : data.set head.length 0 = data := by rw [← hget, List.set_getElem_self]
  have hprefix : data.take head.length = head.take head.length := by rw [htake, List.take_length]
  have hexec := execute_line (M := httpclientParser) (s := {}) (by rw [htake]; exact hD) hprefix hlt
  rw [hset, htake] at hexec
  exact hexec

end ChunkedResponse

end Windgent.Http.HttpClient
