import Windgent.Http.Recv

namespace Windgent.Http

open Scanner MachineInt

def starts : Nat → Source → List Nat
  | _, [] => []
  | base, piece :: source => base :: starts (base + piece.length) source

theorem mem_starts_behind {base c : Nat} {piece : List UInt8} {source : Source} (h : base < c) :
    c ∈ starts (base + piece.length) source ↔ c ∈ starts base (piece :: source) := by
  rw [starts, List.mem_cons, or_iff_right (by omega)]

/-- No read begins inside one of the stretches, the byte at their end included. -/
def Unbroken (stretches : List (Nat × Nat)) (cuts : List Nat) : Prop :=
  ∀ x ∈ stretches, ∀ c ∈ cuts, ¬ (x.1 < c ∧ c ≤ x.2)

theorem bind_eq_done {α β : Type} {x : Outcome α} {f : α → Outcome β} {b : β} :
    (x >>= f) = .done b ↔ ∃ a, x = .done a ∧ f a = .done b := by
  cases x <;> simp [bind]

@[simp] theorem done_bind {α β : Type} (a : α) (f : α → Outcome β) : (Outcome.done a >>= f) = f a := rfl

section Memory

variable {data piece : List UInt8} {off n : Nat}

@[simp] theorem length_overlay (h : off + piece.length ≤ data.length) :
    (overlay data off piece).length = data.length := by
  simp only [overlay, List.length_append, List.length_take, List.length_drop]
  omega

theorem take_overlay_zero (data piece : List UInt8) : (overlay data 0 piece).take piece.length = piece := by
  simp [overlay]

@[simp] theorem length_memmove (h : off + n ≤ data.length) : (memmove data off n).length = data.length := by
  simp only [memmove, List.length_append, List.length_take, List.length_drop]
  omega

theorem take_memmove (h : off + n ≤ data.length) : (memmove data off n).take n = (data.drop off).take n := by
  have hlen : ((data.drop off).take n).length = n := by
    rw [List.length_take, List.length_drop]
    omega
  rw [memmove, List.take_append, hlen, Nat.sub_self, List.take_zero, List.append_nil, List.take_take,
    Nat.min_self]

theorem memmove_zero (data : List UInt8) (off : Nat) : memmove data off 0 = data := by simp [memmove]

end Memory

section Source

variable {piece : List UInt8} {source : Source} {n : Nat}

theorem readPiece_whole (h : piece.length ≤ n) : readPiece n (piece :: source) = some (piece, source) := by
  simp [readPiece, h, List.take_of_length_le h]

theorem flatten_length_ge (h : ∀ p ∈ source, p ≠ []) : source.length ≤ source.flatten.length := by
  induction source with
  | nil => simp
  | cons p ps ih =>
    have hp := List.length_pos_of_ne_nil (h p (List.mem_cons_self ..))
    have hps := ih (fun q hq => h q (List.mem_cons_of_mem _ hq))
    rw [List.flatten_cons, List.length_append, List.length_cons]
    omega

end Source

section Header

variable {σ A P L K S : Type} [DecidableEq P] [DecidableEq L] {op : A → Op P L K}

/-- What the parser relies on: an error of a callback is kept, and a callback does not
look beyond the tokens that are delimited. -/
structure Frontend.Sound (F : Frontend P L K S) (D : Event K → Prop) : Prop where
  kept : ∀ s e s', F.handle s e = some s' → F.error s' = 0 → F.error s = 0
  alike : ∀ s e f, e.Alike f → D e → F.handle s e = F.handle s f

/-- The byte behind each read of the first `n` bytes passes the assertion of `execute`. -/
def Guarded (F : Frontend P L K S) : Nat → List UInt8 → Source → Prop
  | _, _, [] => True
  | n, data, piece :: source =>
    F.guard (overlay data 0 piece) piece.length = true ∧
      (piece.length < n → Guarded F (n - piece.length) (overlay data 0 piece) source)

variable {F : Frontend P L K S} {D : Event K → Prop} {M : Machine σ A op} {text : List UInt8}
  {bufferSize : Nat}

omit [DecidableEq P] [DecidableEq L] in
theorem needs_in_read {pieces : Source} {c : Nat} {stretches : List (Nat × Nat)}
    (hun : Unbroken stretches (starts c pieces)) (hne : pieces ≠ []) (hge : ∀ x ∈ stretches, c ≤ x.2) :
    ∀ x ∈ stretches, c ≤ x.1 := by
  intro x hx
  obtain ⟨p, ps, rfl⟩ := List.exists_cons_of_ne_nil hne
  by_contra hlt
  exact hun x hx c (List.mem_cons_self ..) ⟨by omega, hge x hx⟩

theorem recvHeader_step (fuel : Nat) {source source' : Source} {parser parser' : Parser σ P L S}
    {data piece : List UInt8} {nparse : Nat} (hread : readPiece bufferSize source = some (piece, source'))
    (hp : piece ≠ []) (hexec : F.execute M parser (overlay data 0 piece) piece.length = some (parser', nparse))
    (herr : F.hasError parser' = false) (hfull : piece.length - nparse ≠ bufferSize) :
    recvHeader F M bufferSize (fuel + 1) parser data 0 source =
      if isFinished M parser' then
        .done (parser', memmove (overlay data 0 piece) nparse (piece.length - nparse),
          piece.length - nparse, source')
      else recvHeader F M bufferSize fuel parser' (memmove (overlay data 0 piece) nparse (piece.length - nparse))
        (piece.length - nparse) source' := by
  simp only [recvHeader, Nat.sub_zero, hread, hp, if_false, Nat.add_zero, hexec, herr, Bool.false_eq_true, hfull]

theorem execute_alike (hF : F.Sound D) (parser : Parser σ P L S) (text piece data : List UInt8) {cs : σ} {c : Nat}
    {β : Births P L} {g : Regs P L} (hcs : parser.cs = some cs) (hag : Agree c β g (F.reset parser.regs))
    (htext : (text.drop c).take piece.length = piece) (hneeds : ∀ x ∈ (needs M cs β c piece).2, c ≤ x.1)
    (hD : ∀ e ∈ (scan M text cs g c piece).events, D e) (hdata : data.take piece.length = piece)
    (hguard : F.guard data piece.length = true) :
    F.execute M parser data piece.length =
      ((scan M text cs g c piece).events.foldlM F.handle parser.state).map fun s =>
        (⟨(scan M text cs g c piece).cs, (scan M data cs (F.reset parser.regs) 0 piece).regs, s⟩,
          (scan M text cs g c piece).pos - c) := by
  have halike := scan_alike (M := M) (hdata.trans htext.symm) piece cs 0 (by omega) hag hneeds
  rw [Nat.add_zero] at halike
  simp only [Frontend.execute, hguard, if_true, hcs, hdata]
  rw [← fold_alike hF.alike halike.events hD, halike.cs, halike.pos, Nat.add_sub_cancel_left]

/-- What the header loop leaves behind: the parser, and the bytes behind the header
block in the buffer and in the source. -/
structure Headed (text : List UInt8) (bufferSize n : Nat) (cs : σ) (s : S)
    (cuts : List Nat) (parser : Parser σ P L S) (data : List UInt8) (last : Nat) (source : Source) : Prop where
  finished : parser.cs = some cs
  state : parser.state = s
  size : data.length = bufferSize
  fits : last ≤ bufferSize
  rest : data.take last ++ source.flatten = text.drop n
  pieces : ∀ p ∈ source, p ≠ []
  begins : ∀ c, n < c → (c ∈ starts (n + last) source ↔ c ∈ cuts)

/-- The header loop on a text that is cut outside of its tokens, by induction on the
pieces: the scan of the pieces so far and the scan of the whole text are in one state. -/
theorem recvHeader_cut (hF : F.Sound D) (text : List UInt8) (bufferSize : Nat) (pieces : Source) :
    ∀ (cs : σ) (g : Regs P L) (β : Births P L) (c : Nat) (parser : Parser σ P L S) (data : List UInt8) (fuel : Nat),
      parser.cs = some cs → Agree c β g (F.reset parser.regs) → β.Before (c + 1) →
      text.drop c = pieces.flatten → (∀ p ∈ pieces, p ≠ []) → pieces.flatten.length ≤ bufferSize →
      data.length = bufferSize → pieces.length ≤ fuel →
      ∀ (cs' : σ) (s : S), (scan M text cs g c pieces.flatten).halted = true →
      (scan M text cs g c pieces.flatten).cs = some cs' →
      (scan M text cs g c pieces.flatten).events.foldlM F.handle parser.state = some s → F.error s = 0 →
      (∀ e ∈ (scan M text cs g c pieces.flatten).events, D e) →
      Unbroken (needs M cs β c pieces.flatten).2 (starts c pieces) →
      Guarded F ((scan M text cs g c pieces.flatten).pos - c) data pieces →
      ∃ parser' data' last source',
        recvHeader F M bufferSize fuel parser data 0 pieces = .done (parser', data', last, source') ∧
        Headed text bufferSize (scan M text cs g c pieces.flatten).pos cs' s (starts c pieces)
          parser' data' last source' := by
  induction pieces with
  | nil =>
    intro cs g β c parser data fuel _ _ _ _ _ _ _ _ cs' s hhalt
    simp [scan] at hhalt
  | cons piece pieces ih =>
    intro cs g β c parser data fuel hcs hag hβ htext hne hfit hsize hfuel cs' s hhalt hcs' hs h0 hD hun hguard
    obtain ⟨fuel, rfl⟩ : ∃ k, fuel = k + 1 := ⟨fuel - 1, by rw [List.length_cons] at hfuel; omega⟩
    have hp : piece ≠ [] := hne piece (List.mem_cons_self ..)
    have hpos : 0 < piece.length := List.length_pos_of_ne_nil hp
    rw [List.flatten_cons] at htext hfit hhalt hcs' hs hD hun hguard ⊢
    rw [List.length_append] at hfit
    have hpiece : (text.drop c).take piece.length = piece := by rw [htext, List.take_left]
    have hover : (overlay data 0 piece).length = bufferSize := by
      rw [length_overlay (by omega), hsize]
    have hfirst : ∀ x ∈ (needs M cs β c piece).2, c ≤ x.1 := by
      refine fun x hx => needs_in_read hun (List.cons_ne_nil _ _) (fun y hy => needs_ge _ _ _ _ hy) x ?_
      exact (needs_append text piece pieces.flatten cs g β c).1 x hx
    have hle := scan_pos (M := M) text piece cs g c
    cases hrun : (scan M text cs g c piece).halted with
    | true =>
      -- the header block ends in this read
      rw [scan_append_halted text piece _ cs g c hrun] at hhalt hcs' hs hD hguard ⊢
      obtain ⟨hfinal, hlt⟩ := scan_halted text piece cs g c hhalt hcs'
      have hexec := execute_alike hF parser text piece _ hcs hag hpiece hfirst hD (take_overlay_zero data piece)
        hguard.1
      rw [hs, Option.map_some] at hexec
      have hread : readPiece bufferSize (piece :: pieces) = some (piece, pieces) := readPiece_whole (by omega)
      have hstep := recvHeader_step fuel hread hp hexec (by simp [Frontend.hasError, h0, hcs'])
        (by omega)
      rw [if_pos (by simp [isFinished, hcs', hfinal])] at hstep
      refine ⟨_, _, _, _, hstep, hcs', rfl, ?_, by omega, ?_,
        fun q hq => hne q (List.mem_cons_of_mem _ hq), fun d hd => ?_⟩
      · rw [length_memmove (by omega), hover]
      · rw [take_memmove (by omega), ← List.drop_take, take_overlay_zero]
        have hdrop : text.drop (scan M text cs g c piece).pos =
            (text.drop c).drop ((scan M text cs g c piece).pos - c) := by
          rw [List.drop_drop, Nat.add_sub_cancel' hle.1]
        rw [hdrop, htext, List.drop_append_of_le_length (by omega)]
      · rw [show (scan M text cs g c piece).pos + (piece.length - ((scan M text cs g c piece).pos - c)) =
          c + piece.length by omega]
        exact mem_starts_behind (by omega)
    | false =>
      -- the scan goes on with the next read
      obtain ⟨hend, cs₁, hcs₁, hfinal⟩ := scan_running text piece cs g c hrun
      have happend := scan_append_running text piece pieces.flatten cs g c hrun hcs₁
      simp only [happend, List.foldlM_append] at hhalt hcs' hs hD hguard ⊢
      obtain ⟨s₁, hs₁, hs⟩ := Option.bind_eq_some_iff.mp hs
      have h1 : F.error s₁ = 0 := fold_error hF.kept _ hs h0
      have hexec := execute_alike hF parser text piece _ hcs hag hpiece hfirst
        (fun e he => hD e (List.mem_append_left _ he)) (take_overlay_zero data piece) hguard.1
      rw [hs₁, Option.map_some] at hexec
      have hread : readPiece bufferSize (piece :: pieces) = some (piece, pieces) := readPiece_whole (by omega)
      have hstep := recvHeader_step fuel hread hp hexec (by simp [Frontend.hasError, h1, hcs₁])
        (by omega)
      have hzero : piece.length - ((scan M text cs g c piece).pos - c) = 0 := by omega
      rw [if_neg (by simp [isFinished, hcs₁, hfinal hp]), hzero, memmove_zero] at hstep
      have hafter : (needs M cs β c piece).1.Before (c + piece.length) :=
        Births.Before.needs piece cs c le_rfl (hβ.mono (by omega))
      have htail : text.drop (c + piece.length) = pieces.flatten := by
        rw [← List.drop_drop, htext, List.drop_left]
      have hnext := scan_pos (M := M) text pieces.flatten cs₁ (scan M text cs g c piece).regs (c + piece.length)
      obtain ⟨-, hlt⟩ := scan_halted text _ cs₁ _ _ hhalt hcs'
      obtain ⟨parser', data', last, source', hrec, hheaded⟩ :=
        ih cs₁ (scan M text cs g c piece).regs (needs M cs β c piece).1 (c + piece.length)
          ⟨(scan M text cs g c piece).cs, _, s₁⟩ (overlay data 0 piece) fuel hcs₁
          (agree_of_before hafter _ _) (hafter.mono (by omega)) htail
          (fun q hq => hne q (List.mem_cons_of_mem _ hq)) (by omega) hover
          (by rw [List.length_cons] at hfuel; omega) cs' s hhalt hcs' hs h0
          (fun e he => hD e (List.mem_append_right _ he))
          (fun x hx d hd => hun x ((needs_append text piece _ cs g β c).2 cs₁ hrun hcs₁ x hx) d
            (List.mem_cons_of_mem _ hd))
          (by rw [Nat.sub_add_eq]; exact hguard.2 (by omega))
      exact ⟨parser', data', last, source', hstep.trans hrec, hheaded.finished, hheaded.state, hheaded.size,
        hheaded.fits, hheaded.rest, hheaded.pieces,
        fun d hd => (hheaded.begins d hd).trans (mem_starts_behind (by omega))⟩

theorem recvHeader_whole (hF : F.Sound D) {parser parser' : Parser σ P L S} {data data' : List UInt8}
    {fuel last : Nat} {source : Source} {cs : σ} (hcs : parser.cs = some cs) (hne : text ≠ [])
    (hfit : text.length ≤ bufferSize)
    (hD : ∀ e ∈ (scan M text cs (F.reset parser.regs) 0 text).events, D e)
    (h : recvHeader F M bufferSize fuel parser data 0 [text] = .done (parser', data', last, source)) :
    ∃ cs', (scan M text cs (F.reset parser.regs) 0 text).halted = true ∧
      (scan M text cs (F.reset parser.regs) 0 text).cs = some cs' ∧
      (scan M text cs (F.reset parser.regs) 0 text).events.foldlM F.handle parser.state = some parser'.state ∧
      F.error parser'.state = 0 ∧ source = [] ∧
      F.guard (overlay data 0 text) text.length = true := by
  cases fuel with
  | zero => cases h
  | succ fuel =>
    simp only [recvHeader, Nat.sub_zero, readPiece_whole hfit, hne, if_false, Nat.add_zero] at h
    cases hguard : F.guard (overlay data 0 text) text.length with
    | false => simp [Frontend.execute, hguard] at h
    | true =>
      have hexec := execute_alike hF parser text text _ hcs (agree_zero ⟨fun _ => 0, fun _ => 0⟩ (F.reset parser.regs))
        (by simp) (fun _ _ => Nat.zero_le _) hD (take_overlay_zero data text) hguard
      cases hs : (scan M text cs (F.reset parser.regs) 0 text).events.foldlM F.handle parser.state with
      | none => simp [hexec, hs] at h
      | some s =>
        simp only [hexec, hs, Option.map_some] at h
        split at h
        · cases h
        · rename_i herr
          split at h
          · cases h
          · split at h
            · rename_i hfin
              simp only [Outcome.done.injEq, Prod.mk.injEq] at h
              obtain ⟨rfl, rfl, rfl, rfl⟩ := h
              simp only [isFinished, Option.any_eq_true] at hfin
              obtain ⟨cs', hcs', hfinal⟩ := hfin
              refine ⟨cs', ?_, hcs', rfl, ?_, rfl, rfl⟩
              · by_contra hrun
                obtain ⟨-, cs'', hcs'', hnot⟩ := scan_running text text cs _ 0 (Bool.not_eq_true _ ▸ hrun)
                rw [hcs'] at hcs''
                obtain rfl := Option.some.inj hcs''
                rw [hnot hne] at hfinal
                cases hfinal
              · by_contra h0
                exact herr (by simp [Frontend.hasError, h0])
            · cases fuel <;> simp [recvHeader, readPiece] at h

theorem recvHeader_pieces (hF : F.Sound D) {parser parser₁ : Parser σ P L S} {memory data₁ : List UInt8}
    (memory' : List UInt8) {fuel last₁ : Nat} {source₁ pieces : Source} {cs : σ} (hcs : parser.cs = some cs)
    (hfit : text.length ≤ bufferSize) (hmem : memory.length = bufferSize) (hmem' : memory'.length = bufferSize)
    (hD : ∀ e ∈ (scan M text cs (F.reset parser.regs) 0 text).events, D e)
    (h : recvHeader F M bufferSize fuel parser memory 0 [text] = .done (parser₁, data₁, last₁, source₁))
    (hflat : pieces.flatten = text) (hne : ∀ p ∈ pieces, p ≠ [])
    (hun : Unbroken (needs M cs ⟨fun _ => 0, fun _ => 0⟩ 0 text).2 (starts 0 pieces))
    (hguard : Guarded F (scan M text cs (F.reset parser.regs) 0 text).pos memory' pieces) :
    F.guard (overlay memory 0 text) text.length = true ∧
      (scan M text cs (F.reset parser.regs) 0 text).events.foldlM F.handle parser.state = some parser₁.state ∧
      source₁ = [] ∧ data₁.length = bufferSize ∧
      last₁ ≤ bufferSize ∧ data₁.take last₁ = text.drop (scan M text cs (F.reset parser.regs) 0 text).pos ∧
      ∃ cs' parser' data' last source,
        recvHeader F M bufferSize (text.length + 1) parser memory' 0 pieces = .done (parser', data', last, source) ∧
        Headed text bufferSize (scan M text cs (F.reset parser.regs) 0 text).pos cs' parser₁.state
          (starts 0 pieces) parser' data' last source := by
  have htext : text ≠ [] := by
    rintro rfl
    cases fuel <;> simp [recvHeader, readPiece] at h
  obtain ⟨cs', hhalt, hcs', hs, h0, rfl, hg⟩ := recvHeader_whole hF hcs htext hfit hD h
  have hall : ∀ (sources : Source) (mem : List UInt8) (k : Nat), sources.flatten = text → (∀ p ∈ sources, p ≠ []) →
      mem.length = bufferSize → sources.length ≤ k →
      Unbroken (needs M cs ⟨fun _ => 0, fun _ => 0⟩ 0 text).2 (starts 0 sources) →
      Guarded F (scan M text cs (F.reset parser.regs) 0 text).pos mem sources →
      ∃ parser' data' last source,
        recvHeader F M bufferSize k parser mem 0 sources = .done (parser', data', last, source) ∧
        Headed text bufferSize (scan M text cs (F.reset parser.regs) 0 text).pos cs' parser₁.state
          (starts 0 sources) parser' data' last source := by
    intro sources mem k hfl hn hm hk hu hgu
    have := recvHeader_cut (M := M) hF text bufferSize sources cs (F.reset parser.regs)
      ⟨fun _ => 0, fun _ => 0⟩ 0 parser mem k hcs (agree_zero _ _)
      ⟨fun _ => Nat.one_pos, fun _ => Nat.one_pos⟩ (by rw [hfl, List.drop_zero]) hn (by rw [hfl]; exact hfit)
      hm hk cs' parser₁.state
    rw [hfl] at this
    exact this hhalt hcs' hs h0 hD hu hgu
  have hfuel : 1 ≤ fuel := by
    by_contra hlt
    obtain rfl : fuel = 0 := by omega
    cases h
  obtain ⟨parser', data', last', source', hone, hheaded⟩ := hall [text] memory fuel (by simp) (by simpa using htext)
    hmem hfuel (fun x hx c hc => by simp [starts] at hc; omega) ⟨hg, fun _ => trivial⟩
  rw [h] at hone
  simp only [Outcome.done.injEq, Prod.mk.injEq] at hone
  obtain ⟨rfl, rfl, rfl, rfl⟩ := hone
  refine ⟨hg, hs, rfl, hheaded.size, hheaded.fits, by simpa using hheaded.rest, cs', ?_⟩
  refine hall pieces memory' (text.length + 1) hflat hne hmem' ?_ hun hguard
  have := flatten_length_ge hne
  rw [hflat] at this
  omega

end Header

section Rest

variable {source : Source} {data : List UInt8}

theorem readSizes_exact (hne : ∀ p ∈ source, p ≠ []) :
    readSizes source.flatten.length source = source.map fun p => (p.length : Int) := by
  induction source with
  | nil => rfl
  | cons p ps ih =>
    have hps := ih (fun q hq => hne q (List.mem_cons_of_mem _ hq))
    rw [List.flatten_cons, List.length_append, readSizes, if_pos (by omega), Nat.add_sub_cancel_left, hps]
    rfl

open Windgent.Stream in
theorem loop_complete {m : Nat} (hm : m < modulus) (source : Source) (hne : ∀ p ∈ source, p ≠ [])
    (hint : ∀ p ∈ source, p.length < 2 ^ 31) (t : Nat) (ht : t + source.flatten.length = m) :
    let o := loop readBuffer m (source.map fun p => (p.length : Int)) (moved t) source.flatten.length
    o.ret = some (toInt m) ∧ o.final = moved m := by
  induction source generalizing t with
  | nil =>
    obtain rfl : t = m := by simpa using ht
    exact ⟨rfl, rfl⟩
  | cons p ps ih =>
    obtain ⟨hp, hps⟩ := List.forall_mem_cons.mp hne
    obtain ⟨hi, his⟩ := List.forall_mem_cons.mp hint
    have hpos := List.length_pos_of_ne_nil hp
    rw [List.flatten_cons, List.length_append] at ht
    have hrest := ih hps his (t + p.length) (by omega)
    rw [List.map_cons, List.flatten_cons, List.length_append,
      loop_positive hm ht ⟨by omega, by omega⟩ (by omega) (by omega), Int.toNat_natCast, Nat.add_sub_cancel_left]
    exact hrest

open Windgent.Stream in
/-- A body whose bytes are in the buffer and in the source: `readFixedSize` returns their
number as an `int`. -/
theorem recvBody_ret (data : List UInt8) (source : Source) (hne : ∀ p ∈ source, p ≠ [])
    (hint : ∀ p ∈ source, p.length < 2 ^ 31) (hlen : data.length + source.flatten.length < modulus) :
    (recvBody (data.length + source.flatten.length) data source.flatten
      (readSizes (subU64 (data.length + source.flatten.length) data.length) source)).ret =
      some (if source.flatten.length = 0 ∨ 0 < toInt source.flatten.length then some (data ++ source.flatten)
        else none) := by
  have hleft : subU64 (data.length + source.flatten.length) data.length = source.flatten.length := by
    rw [subU64_of_le hlen (by omega), Nat.add_sub_cancel_left]
  have htake : data.take data.length = data := List.take_length
  rw [hleft, readSizes_exact hne]
  by_cases h0 : data.length + source.flatten.length = 0
  · have hd : data = [] := List.eq_nil_of_length_eq_zero (by omega)
    have hs : source.flatten = [] := List.eq_nil_of_length_eq_zero (by omega)
    simp [recvBody, hd, hs]
  · by_cases hs : source.flatten.length = 0
    · have hs' : source.flatten = [] := List.eq_nil_of_length_eq_zero hs
      simp only [recvBody, h0, if_false, hleft]
      simp [hs', htake]
    · obtain ⟨hret, hfinal⟩ := loop_complete (m := source.flatten.length) (by omega) source hne hint 0 (by omega)
      have hread : readFixedSize source.flatten.length (source.map fun p => (p.length : Int)) =
          loop readBuffer source.flatten.length (source.map fun p => (p.length : Int)) (moved 0)
            source.flatten.length := rfl
      have hshift : (diagonal source.flatten.length).map (fun p => (p.1, addU64 data.length p.2)) =
          (diagonal source.flatten.length).map (fun p => (p.1, data.length + p.2)) := by
        refine List.map_congr_left (fun p hp => ?_)
        obtain ⟨i, hi, rfl⟩ := List.mem_map.mp hp
        have hin := List.mem_range.mp hi
        rw [addU64_of_lt (by omega)]
      have hstore := store_diagonal data source.flatten _ _ le_rfl le_rfl
      rw [List.take_length, Nat.sub_self, List.replicate_zero, List.append_nil] at hstore
      simp only [recvBody, h0, if_false, hleft, Nat.le_add_right, if_true, hs, htake, hread, hret, hfinal,
        Option.map_some, Nat.add_sub_cancel_left, false_or]
      simp only [moved, hshift, hstore]
      by_cases hpos : 0 < toInt source.flatten.length
      · rw [if_neg (by omega), if_pos hpos]
      · rw [if_pos (by omega), if_neg hpos]

theorem recvBody_complete (data : List UInt8) (source : Source) (hne : ∀ p ∈ source, p ≠ [])
    (hlen : data.length + source.flatten.length < 2 ^ 31) :
    (recvBody (data.length + source.flatten.length) data source.flatten
      (readSizes (subU64 (data.length + source.flatten.length) data.length) source)).ret =
      some (some (data ++ source.flatten)) := by
  have hint : ∀ p ∈ source, p.length < 2 ^ 31 := by
    intro p hp
    have := (List.sublist_flatten_of_mem hp).length_le
    omega
  rw [recvBody_ret data source hne hint (by unfold modulus; omega), if_pos]
  rw [toInt_of_lt (by omega)]
  omega

/-- The body phase of a message whose rest arrives with the header block, and of the
same message in pieces. -/
theorem recvRest_cut {lexicalCast : List UInt8 → Option UInt64} {headers : MapType} {rest body : List UInt8}
    (h : recvRest lexicalCast headers rest [] = .done body) (hrest : data ++ source.flatten = rest)
    (hne : ∀ p ∈ source, p ≠ []) (hlen : rest.length < 2 ^ 31) :
    recvRest lexicalCast headers data source = .done body := by
  subst hrest
  rw [List.length_append] at hlen
  unfold recvRest at h ⊢
  generalize hl : contentLength lexicalCast headers = length at h ⊢
  have hlt : length < modulus := by
    rw [← hl, contentLength]
    cases ((getHeader (bytes "content-length") headers).bind lexicalCast) with
    | none => simp
    | some v => exact v.toNat_lt
  by_cases h0 : length = 0
  · subst h0
    simpa [recvBody] using h
  · by_cases heq : length = data.length + source.flatten.length
    · have hwhole := recvBody_complete (data ++ source.flatten) [] (by simp) (by simpa using hlen)
      simp only [List.flatten_nil, List.length_nil, Nat.add_zero, List.append_nil, List.length_append,
        ← heq] at hwhole h
      have hpieces := recvBody_complete data source hne hlen
      rw [← heq] at hpieces
      simp only [hwhole] at h
      simpa only [hpieces] using h
    · have hleft : subU64 length (data ++ source.flatten).length ≠ 0 := by
        rw [List.length_append]
        unfold subU64 modulus at *
        omega
      simp only [recvBody, h0, if_false, hleft, readSizes, Stream.readFixedSize, Stream.loop,
        Option.map_none] at h
      cases h

end Rest

def tokens {σ A P L K : Type} [DecidableEq P] [DecidableEq L] {op : A → Op P L K} (M : Machine σ A op)
    (text : List UInt8) : List (Nat × Nat) :=
  (needs M M.start ⟨fun _ => 0, fun _ => 0⟩ 0 text).2

section Request

variable {σ : Type} {M : RequestMachine σ} {lexicalCast : List UInt8 → Option UInt64} {queryStart : Nat}
  {memory memory' text : List UInt8} {pieces : Source} {req : HttpRequest}

def requestRegs (queryStart : Nat) : Regs RequestMark FieldLen :=
  ⟨fun r => if r = .queryStart then queryStart else 0, fun _ => 0⟩

def requestEvents (M : RequestMachine σ) (queryStart : Nat) (text : List UInt8) : List (Event RequestCallback) :=
  (scan M text M.start (requestRegs queryStart) 0 text).events

theorem requestFrontend_sound : requestFrontend.Sound Delimits :=
  ⟨fun _ _ _ h h0 => onRequest_error h h0, fun s _ _ h hd => onRequest_alike s h hd⟩

theorem requestRegs_reset (q : Nat) : requestFrontend.reset (requestRegs q) = requestRegs q := by
  simp only [requestFrontend, requestRegs, Regs.mk.injEq, and_true]
  funext r
  cases r <;> rfl

theorem guarded_request (n : Nat) (data : List UInt8) (source : Source) :
    Guarded requestFrontend n data source := by
  induction source generalizing n data with
  | nil => trivial
  | cons p ps ih => exact ⟨rfl, fun _ => ih _ _⟩

/-- A request that is received in one read is received in pieces that do not cut its
tokens. -/
theorem recvRequest_cut (hsize : memory'.length = memory.length) (hfit : text.length ≤ memory.length)
    (hint : text.length < 2 ^ 31) (hflat : pieces.flatten = text) (hne : ∀ p ∈ pieces, p ≠ [])
    (hD : ∀ e ∈ requestEvents M queryStart text, Delimits e)
    (hone : recvRequest M lexicalCast queryStart memory [text] = .done req)
    (hun : Unbroken (tokens M text) (starts 0 pieces)) :
    recvRequest M lexicalCast queryStart memory' pieces = .done req := by
  obtain ⟨⟨parser, data, last, source⟩, hhead, hone⟩ := bind_eq_done.mp hone
  obtain ⟨body, hbody, hreq⟩ := bind_eq_done.mp hone
  have hregs := requestRegs_reset queryStart
  obtain ⟨-, -, rfl, -, -, hrest, cs, parser', data', last', source', hpieces, hheaded⟩ :=
    recvHeader_pieces requestFrontend_sound memory' rfl hfit rfl hsize
      (by rw [← requestRegs, hregs]; exact hD) hhead hflat hne hun (guarded_request _ _ _)
  rw [hrest] at hbody
  have hshort : (text.drop (scan M text M.start (requestFrontend.reset (requestRegs queryStart)) 0 text).pos).length
      < 2 ^ 31 := by
    rw [List.length_drop]
    omega
  have hbody' := recvRest_cut hbody hheaded.rest hheaded.pieces hshort
  have hstate := hheaded.state
  refine bind_eq_done.mpr ⟨(parser', data', last', source'), ?_, bind_eq_done.mpr ⟨body, ?_, ?_⟩⟩
  · rw [hflat, hsize]
    exact hpieces
  · rw [hstate]
    exact hbody'
  · rw [hstate]
    exact hreq

end Request

end Windgent.Http
