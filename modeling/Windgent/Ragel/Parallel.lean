import Windgent.Ragel.Runs

namespace Windgent.Ragel

/-- All transitions on a byte, whatever their priorities. -/
def ahead (S : States) (c : UInt8) : States := {r | ∃ e ∈ S, ∃ m ∈ moves e c, m.rest = r}

/-- A run of states without priorities. They may die out, and they are not final before the end. -/
inductive Beside : States → List UInt8 → List (List Nat) → States → Prop
  | nil (S : States) : Beside S [] [] S
  | cons {S U : States} {c : UInt8} {w : List UInt8} {t : List Nat} {τ : List (List Nat)} (hf : ¬ Final S)
      (ht : ∀ i, i ∈ t ↔ ∃ e ∈ S, ∃ m ∈ moves e c, i ∈ m.fires) (hr : Beside (ahead S c) w τ U) :
      Beside S (c :: w) (t :: τ) U

section Beside

variable {S D T U : States} {c d : UInt8} {w w' : List UInt8} {t u : List Nat} {τ τ' : List (List Nat)}
  {e f : Exp Nat}

theorem ahead_stuck (h : Stuck S c) : ahead S c = ∅ := by
  refine Set.eq_empty_of_forall_notMem ?_
  rintro r ⟨e, he, m, hm, rfl⟩
  rw [h e he] at hm
  cases hm

theorem not_final_empty : ¬ Final (∅ : States) := by
  rintro ⟨e, he, -⟩
  exact he

theorem Beside.empty (w : List UInt8) : Beside ∅ w (silent w) ∅ := by
  induction w with
  | nil => exact .nil ∅
  | cons c w ih =>
    have hstuck : Stuck (∅ : States) c := fun e he => he.elim
    refine .cons not_final_empty (fun i => by simp) ?_
    rw [ahead_stuck hstuck]
    exact ih

theorem Beside.stuck (hf : ¬ Final S) (hc : Stuck S c) (w : List UInt8) : Beside S (c :: w) (silent (c :: w)) ∅ := by
  refine .cons hf (fun i => ?_) ?_
  · simp only [List.not_mem_nil, false_iff]
    rintro ⟨e, he, m, hm, -⟩
    rw [hc e he] at hm
    cases hm
  · rw [ahead_stuck hc]
    exact Beside.empty w

theorem Step.ahead_eq (hs : Step S c t T) (hS : ∀ e ∈ S, Plain e) :
    ahead S c = T ∧ ∀ i, i ∈ t ↔ ∃ e ∈ S, ∃ m ∈ moves e c, i ∈ m.fires := by
  have hk : ∀ m, Kept S c m ↔ Candidate S c m := by
    refine fun m => ⟨fun h => h.1, fun h => ⟨h, fun m' _ => ?_⟩⟩
    obtain ⟨e, he, hm⟩ := h
    simp [Move.below, ((hS e he).move hm).1]
  constructor
  · rw [← hs.after_eq]
    ext r
    simp only [ahead, after, Set.mem_ofPred_eq, hk, Candidate]
    constructor
    · rintro ⟨e, he, m, hm, hr⟩
      exact ⟨m, ⟨e, he, hm⟩, hr⟩
    · rintro ⟨m, ⟨e, he, hm⟩, hr⟩
      exact ⟨e, he, m, hm, hr⟩
  · intro i
    rw [hs.fires_iff]
    simp only [Fires, hk, Candidate]
    constructor
    · rintro ⟨m, ⟨e, he, hm⟩, hi⟩
      exact ⟨e, he, m, hm, hi⟩
    · rintro ⟨e, he, m, hm, hi⟩
      exact ⟨m, ⟨e, he, hm⟩, hi⟩

theorem Beside.of_run (h : Run (fun _ => False) S w τ T) (hS : ∀ e ∈ S, Plain e) : Beside S w τ T := by
  induction h with
  | nil S => exact .nil S
  | cons hf hs _ ih =>
    obtain ⟨hahead, ht⟩ := hs.ahead_eq hS
    exact .cons hf ht (hahead ▸ ih (hs.plain hS))

theorem Step.congr {R : States} (hs : Step S c t T) (h : ∀ m, Candidate R c m ↔ Candidate S c m) :
    Step R c t T := by
  have hk : ∀ m, Kept R c m ↔ Kept S c m := fun m => by simp only [Kept, h]
  refine ⟨hs.nonempty, ?_, fun i => ?_⟩
  · rw [← hs.after_eq]
    ext r
    simp only [after, Set.mem_ofPred_eq, hk]
  · rw [hs.fires_iff]
    simp only [Fires, hk]

theorem Run.congr {Q : UInt8 → Prop} {V : States} (h : Run Q S (c :: w) τ T)
    (hm : ∀ m, Candidate V c m ↔ Candidate S c m) (hQ : Final V → Q c) : Run Q V (c :: w) τ T := by
  cases h with
  | cons _ hs hr => exact .cons hQ (hs.congr hm) hr

theorem Step.union (hs : Step S c t T) (hD : ∀ e ∈ D, Plain e)
    (hu : ∀ i, i ∈ u ↔ ∃ e ∈ D, ∃ m ∈ moves e c, i ∈ m.fires) : Step (S ∪ D) c (u ++ t) (T ∪ ahead D c) := by
  have hplain : ∀ m, Candidate D c m → ∀ m', m.below m' = false ∧ m'.below m = false := by
    rintro m ⟨e, he, hm⟩ m'
    simp [Move.below, ((hD e he).move hm).1]
  have hc : ∀ m, Candidate (S ∪ D) c m ↔ Candidate S c m ∨ Candidate D c m := by
    intro m
    constructor
    · rintro ⟨e, he | he, hm⟩
      · exact .inl ⟨e, he, hm⟩
      · exact .inr ⟨e, he, hm⟩
    · rintro (⟨e, he, hm⟩ | ⟨e, he, hm⟩)
      · exact ⟨e, .inl he, hm⟩
      · exact ⟨e, .inr he, hm⟩
  have hk : ∀ m, Kept (S ∪ D) c m ↔ Kept S c m ∨ Candidate D c m := by
    intro m
    simp only [Kept, hc]
    constructor
    · rintro ⟨hm | hm, hmax⟩
      · exact .inl ⟨hm, fun m' hm' => hmax m' (.inl hm')⟩
      · exact .inr hm
    · rintro (⟨hm, hmax⟩ | hm)
      · refine ⟨.inl hm, fun m' hm' => ?_⟩
        obtain hm' | hm' := hm'
        · exact hmax m' hm'
        · exact (hplain m' hm' m).2
      · exact ⟨.inr hm, fun m' _ => (hplain m hm m').1⟩
  refine ⟨hs.nonempty.mono Set.subset_union_left, ?_, fun i => ?_⟩
  · rw [← hs.after_eq]
    ext r
    simp only [after, ahead, Set.mem_ofPred_eq, Set.mem_union, hk, or_and_right, exists_or, Candidate]
    refine or_congr_right ⟨?_, ?_⟩
    · rintro ⟨m, ⟨e, he, hm⟩, hr⟩
      exact ⟨e, he, m, hm, hr⟩
    · rintro ⟨e, he, m, hm, hr⟩
      exact ⟨m, ⟨e, he, hm⟩, hr⟩
  · rw [List.mem_append, hu, hs.fires_iff, or_comm]
    simp only [Fires, hk, or_and_right, exists_or, Candidate]
    refine or_congr_right ⟨?_, ?_⟩
    · rintro ⟨e, he, m, hm, hi⟩
      exact ⟨m, ⟨e, he, hm⟩, hi⟩
    · rintro ⟨m, ⟨e, he, hm⟩, hi⟩
      exact ⟨e, he, m, hm, hi⟩

theorem ahead_plain (hD : ∀ e ∈ D, Plain e) : ∀ e ∈ ahead D c, Plain e := by
  rintro _ ⟨e, he, m, hm, rfl⟩
  exact ((hD e he).move hm).2

def both (τ τ' : List (List Nat)) : List (List Nat) := List.zipWith (· ++ ·) τ τ'

theorem final_union (h : Final (S ∪ D)) : Final S ∨ Final D := by
  obtain ⟨e, he | he, ho⟩ := h
  · exact .inl ⟨e, he, ho⟩
  · exact .inr ⟨e, he, ho⟩

theorem Run.union {Q : UInt8 → Prop} (h : Run Q S w τ T) (hD : ∀ e ∈ D, Plain e) (h' : Beside D w τ' U) :
    Run Q (S ∪ D) w (both τ' τ) (T ∪ U) := by
  induction h generalizing D τ' with
  | nil S =>
    cases h' with
    | nil D => exact .nil _
  | cons hf hs _ ih =>
    cases h' with
    | cons hf' ht' hr' =>
      refine .cons (fun h => ?_) (hs.union hD ht') (ih (ahead_plain hD) hr')
      exact (final_union h).elim hf fun h => absurd h hf'

/-- The second alternative reads a text, and the first one reads it beside or gives up. -/
theorem Scans.alt_beside {Q F G : UInt8 → Prop} {o v : List Nat} (he : Plain e) (h : Scans Q f (c :: w) τ o F)
    (hb : Beside {e} (c :: w) τ' U) (hv : ∀ i, i ∈ v ↔ Leaves U i) (hG : ∀ c, G c → F c ∧ Stuck U c)
    (hout : (out (.alt e f)).isSome = true → Q c) : Scans Q (.alt e f) (c :: w) (both τ' τ) (v ++ o) G := by
  obtain ⟨T, hr, ⟨r, hrT, hor⟩, ho, hF⟩ := h
  have hplain : ∀ x ∈ ({e} : States), Plain x := by
    rintro _ rfl
    exact he
  have hu := hr.union hplain hb
  have hboth : ∃ τ'', both τ' τ = τ'' ∧ Run Q ({f} ∪ {e}) (c :: w) τ'' (T ∪ U) := ⟨_, rfl, hu⟩
  obtain ⟨τ'', hτ, hu⟩ := hboth
  rw [hτ]
  cases hu with
  | cons hf hs hr' =>
    have hs' : Step {.alt e f} c _ _ := hs.congr fun m => by
      simp only [Candidate, Set.mem_union, Set.mem_singleton_iff, or_and_right, exists_or, exists_eq_left, moves,
        List.mem_append]
      exact or_comm
    refine ⟨T ∪ U, .cons (fun hfin => hout ?_) hs' hr', ⟨r, .inl hrT, hor⟩, fun i => ?_, fun d hd => ?_⟩
    · obtain ⟨_, rfl, hfin⟩ := hfin
      exact hfin
    · rw [List.mem_append, hv, ho]
      constructor
      · rintro (⟨x, hx, hi⟩ | ⟨x, hx, hi⟩)
        · exact ⟨x, .inr hx, hi⟩
        · exact ⟨x, .inl hx, hi⟩
      · rintro ⟨x, hx | hx, hi⟩
        · exact .inr ⟨x, hx, hi⟩
        · exact .inl ⟨x, hx, hi⟩
    · rintro x (hx | hx)
      · exact hF d (hG d hd).1 x hx
      · exact (hG d hd).2 x hx

theorem both_silent (h : τ.length = w.length) : both (silent w) τ = τ := by
  induction w generalizing τ with
  | nil =>
    obtain rfl := List.length_eq_zero_iff.mp h
    rfl
  | cons c w ih =>
    cases τ with
    | nil => cases h
    | cons t τ => exact congrArg (t :: ·) (ih (Nat.succ.inj h))

theorem Run.length {Q : UInt8 → Prop} (h : Run Q S w τ T) : τ.length = w.length := by
  induction h with
  | nil S => rfl
  | cons _ _ _ ih => exact congrArg (· + 1) ih

theorem leaves_empty (i : Nat) : i ∈ ([] : List Nat) ↔ Leaves ∅ i := by
  simp [Leaves]

/-- The first alternative gives up, and adds to the first byte at most. -/
theorem Scans.alt_dying {Q F : UInt8 → Prop} {o : List Nat} (he : Plain e) (h : Scans Q f (c :: w) (t :: τ) o F)
    (hb : Beside {e} (c :: w) (u :: silent w) ∅) (hout : (out (.alt e f)).isSome = true → Q c) :
    Scans Q (.alt e f) (c :: w) ((u ++ t) :: τ) o F := by
  have hlen : τ.length = w.length := by
    obtain ⟨T, hr, -⟩ := h
    exact Nat.succ.inj hr.length
  have hs := h.alt_beside (G := F) he hb leaves_empty (fun c hc => ⟨hc, fun e he => he.elim⟩) hout
  have hboth : both (u :: silent w) (t :: τ) = (u ++ t) :: τ := congrArg ((u ++ t) :: ·) (both_silent hlen)
  rwa [hboth] at hs

theorem Scans.alt_both {Q F : UInt8 → Prop} {o v : List Nat} (he : Plain e)
    (h' : Scans (fun _ => False) e (c :: w) τ' v F) (h : Scans Q f (c :: w) τ o F)
    (hout : (out (.alt e f)).isSome = true → Q c) : Scans Q (.alt e f) (c :: w) (both τ' τ) (v ++ o) F := by
  obtain ⟨U, hr, -, hv, hF⟩ := h'
  have hplain : ∀ x ∈ ({e} : States), Plain x := by
    rintro _ rfl
    exact he
  exact h.alt_beside he (Beside.of_run hr hplain) hv (fun c hc => ⟨hc, hF c hc⟩) hout

/-- What is left behind a text on which nothing is fired and no state before the end is final. -/
def quietly : List (Exp Nat) → List UInt8 → Option (List (Exp Nat))
  | S, [] => some S
  | S, c :: w =>
    if isFinal S || (candidates S c).any (fun m => !m.fires.isEmpty) then none
    else quietly ((candidates S c).map Move.rest) w

theorem Beside.quietly {A B : List (Exp Nat)} (h : quietly A w = some B) :
    Beside {x | x ∈ A} w (silent w) {x | x ∈ B} := by
  induction w generalizing A with
  | nil =>
    obtain rfl := Option.some.inj h
    exact .nil _
  | cons c w ih =>
    rw [Ragel.quietly] at h
    split at h
    · cases h
    · rename_i hno
      rw [Bool.or_eq_true, not_or, Bool.not_eq_true, Bool.not_eq_true, List.any_eq_false] at hno
      have hahead : ahead {x | x ∈ A} c = {x | x ∈ (candidates A c).map Move.rest} := by
        ext r
        simp only [ahead, candidates, Set.mem_ofPred_eq, List.mem_map, List.mem_flatMap]
        constructor
        · rintro ⟨e, he, m, hm, hr⟩
          exact ⟨m, ⟨e, he, hm⟩, hr⟩
        · rintro ⟨m, ⟨e, he, hm⟩, hr⟩
          exact ⟨e, he, m, hm, hr⟩
      refine .cons (fun hfin => ?_) (fun i => ?_) ?_
      · rw [← isFinal_iff, hno.1] at hfin
        cases hfin
      · simp only [List.not_mem_nil, false_iff]
        rintro ⟨e, he, m, hm, hi⟩
        have hm := hno.2 m (List.mem_flatMap.mpr ⟨e, he, hm⟩)
        simp [List.eq_nil_iff_forall_not_mem] at hm
        exact hm i hi
      · rw [hahead]
        exact ih h

theorem Beside.enter {a : Nat} (h : Beside {f} (c :: w) ([] :: τ) U) (hm : moves e c = (moves f c).map (.fire [a]))
    (he : out e = none) : ∃ t, (t = [] ∨ t = [a]) ∧ Beside {e} (c :: w) (t :: τ) U := by
  have hfinal : ¬ Final {e} := by
    rintro ⟨_, rfl, ho⟩
    simp [he] at ho
  cases h with
  | cons _ ht hr =>
    have hquiet : ∀ m ∈ moves f c, m.fires = [] := fun m hmem =>
      List.eq_nil_iff_forall_not_mem.mpr fun i hi => by simpa using (ht i).mpr ⟨f, rfl, m, hmem, hi⟩
    have hahead : ahead {e} c = ahead {f} c := by
      ext r
      simp [ahead, hm, Move.fire]
    by_cases hnil : moves f c = []
    · refine ⟨[], .inl rfl, .cons hfinal (fun i => ?_) (hahead ▸ hr)⟩
      simp [hm, hnil]
    · obtain ⟨m₀, hm₀⟩ := List.exists_mem_of_ne_nil _ hnil
      refine ⟨[a], .inr rfl, .cons hfinal (fun i => ?_) (hahead ▸ hr)⟩
      simp only [List.mem_singleton, Set.mem_singleton_iff, exists_eq_left, hm, List.mem_map]
      constructor
      · rintro rfl
        exact ⟨_, ⟨m₀, hm₀, rfl⟩, by simp [Move.fire]⟩
      · rintro ⟨_, ⟨m, hmem, rfl⟩, hi⟩
        simpa [Move.fire, hquiet m hmem] using hi

end Beside

def word {A : Type} (ps : List (UInt8 → Bool)) : Exp A := .cat (ps.map .chars)

section Word

variable {p : UInt8 → Bool} {ps : List (UInt8 → Bool)} {c d : UInt8} {w : List UInt8}

theorem plain_word (ps : List (UInt8 → Bool)) : Plain (word ps) := by
  induction ps with
  | nil => trivial
  | cons p ps ih =>
    cases ps with
    | nil => trivial
    | cons q ps => exact ⟨trivial, ih⟩

theorem out_word (p : UInt8 → Bool) (ps : List (UInt8 → Bool)) : out (word (p :: ps)) = none := by
  cases ps <;> rfl

theorem moves_word (h : p c = false) (ps : List (UInt8 → Bool)) : moves (word (p :: ps)) c = [] := by
  cases ps <;> simp [word, Exp.cat, moves, out, h]

theorem Scans.word {F : UInt8 → Prop} (h : List.Forall₂ (fun p c => p c = true) ps w) (hne : ps ≠ []) :
    Scans (fun _ => False) (word ps) w (silent w) [] F := by
  induction h with
  | nil => exact absurd rfl hne
  | @cons p c ps w hc h ih =>
    cases h with
    | nil => exact Scans.chars hc
    | @cons q d ps w hd h =>
      have hb : Scans (fun _ => False) (.chars p) [c] [[]] [] fun _ => True := Scans.chars hc
      exact hb.seq_quiet (ih (by simp)) (fun _ _ => trivial) (fun _ _ => trivial) (fun _ h => h.elim)
        (fun _ _ h => h.elim) fun _ h => h

/-- A place in an expression that the transitions of what stands there pass through. -/
structure Place (K : Exp Nat → Exp Nat) : Prop where
  moves : ∀ x c, out x = none → Ragel.moves (K x) c = (Ragel.moves x c).map (.under K)
  out : ∀ x, Ragel.out (K x) = none

variable {K : Exp Nat → Exp Nat} {x : Exp Nat}

theorem Place.not_final (hK : Place K) (x : Exp Nat) : ¬ Final {K x} := by
  rintro ⟨_, rfl, ho⟩
  simp [hK.out] at ho

/-- A word gives up on a text that is a different one up to its end, by induction on the word. -/
theorem Beside.word (hK : Place K) (hd : ∀ p ∈ ps, p d = false) (hend : ∀ c ∈ w, moves (K .eps) c = [])
    (hne : ps ≠ []) (h : ¬ List.Forall₂ (fun p c => p c = true) ps w) (hx : ∀ c, moves x c = moves (Ragel.word ps) c)
    (hox : out x = none) (rest : List UInt8) :
    Beside {K x} (w ++ d :: rest) (silent (w ++ d :: rest)) ∅ := by
  induction ps generalizing w x with
  | nil => exact absurd rfl hne
  | cons p ps ih =>
    have hstuck : ∀ c, p c = false → Stuck {K x} c := by
      rintro c hc _ rfl
      rw [hK.moves x c hox, hx, moves_word hc ps, List.map_nil]
    cases w with
    | nil => exact Beside.stuck (hK.not_final x) (hstuck d (hd p List.mem_cons_self)) rest
    | cons c w =>
      cases hc : p c with
      | false => exact Beside.stuck (hK.not_final x) (hstuck c hc) _
      | true =>
        have hquiet : ∀ y, moves x c = [⟨y, [], []⟩] →
            Beside {K y} (w ++ d :: rest) (silent (w ++ d :: rest)) ∅ →
            Beside {K x} (c :: w ++ d :: rest) (silent (c :: w ++ d :: rest)) ∅ := by
          intro y hy hrest
          refine .cons (hK.not_final x) (fun i => ?_) ?_
          · simp [hK.moves x c hox, hy, Move.under]
          · have hahead : Ragel.ahead {K x} c = {K y} := by
              ext r
              simp [Ragel.ahead, hK.moves x c hox, hy, Move.under, eq_comm]
            rw [hahead]
            exact hrest
        cases ps with
        | nil =>
          refine hquiet .eps (by simp [hx, Ragel.word, Exp.cat, moves, hc]) ?_
          cases w with
          | nil => exact absurd (.cons hc .nil) h
          | cons c' w =>
            exact Beside.stuck (hK.not_final _) (stuck_singleton.mpr (hend c' (by simp))) _
        | cons q ps =>
          have hmoves : ∀ c, moves (.seq .eps (Ragel.word (q :: ps))) c = moves (Ragel.word (q :: ps)) c := by
            intro c
            have hid : Move.fire [] = id := rfl
            simp [moves, out, hid]
          refine hquiet (.seq .eps (Ragel.word (q :: ps))) ?_ ?_
          · simp [hx, Ragel.word, Exp.cat, moves, out, hc, Move.under]
          · refine ih (fun p hp => hd p (List.mem_cons_of_mem _ hp)) (fun c hc => hend c (List.mem_cons_of_mem _ hc))
              (by simp) (fun h' => h (.cons hc h')) hmoves ?_
            simp [out, out_word]

end Word

theorem place_seq {R C : Exp Nat} (hC : out C = none) : Place fun x => .seq (.seq x R) C where
  moves x c hx := by simp [moves, out, hx, Move.under]
  out x := by simp [out, hC]

theorem place_leaving {a : Nat} {R C : Exp Nat} (hC : out C = none) :
    Place fun x => .seq (.seq (.leaving a x) R) C where
  moves x c hx := by simp [moves, out, hx, Move.under]
  out x := by simp [out, hC]

theorem Scans.star_within {P F : UInt8 → Prop} {p : UInt8 → Bool} {w : List UInt8}
    (hw : ∀ c ∈ w, p c = true ∧ P c) (hF : ∀ c, F c → p c = false) :
    Scans P (.star (.chars p)) w (silent w) [] F := by
  induction w with
  | nil => exact Scans.nil rfl fun c hc => by simp [moves, hF c hc]
  | cons c w ih =>
    obtain ⟨hc, hw⟩ := List.forall_mem_cons.mp hw
    have hb : Scans (fun _ => False) (.chars p) [c] [[]] [] fun _ => True := Scans.chars hc.1
    exact Scans.star_cons rfl hb (fun _ h => h.elim) (fun _ h => h.elim) hc.2 (fun _ _ => trivial)
      (fun _ _ => trivial) (ih hw)

section Star

variable {Q P F G : UInt8 → Prop} {e : Exp Nat} {c d : UInt8} {w w' : List UInt8} {t : List Nat}
  {τ τ' : List (List Nat)} {o u : List Nat}

theorem Scans.star_last (he : out e = none) (h : Scans Q e (c :: w) τ o F) (hQ : ∀ c, Q c → moves e c = [])
    (hP : ∀ c, Q c → P c) (hc : P c) (hG : ∀ c, G c → F c ∧ moves e c = []) : Scans P (.star e) (c :: w) τ o G := by
  have hstar : out (.star e) = some [] := by simp [out, he]
  have hs := h.seq_nil (G := G) hstar (fun c hc => moves_star_eq_nil (hQ c hc))
    fun c hc => ⟨(hG c hc).1, moves_star_eq_nil (hG c hc).2⟩
  rw [List.append_nil] at hs
  obtain ⟨T, hr, hrest⟩ := hs
  cases hr with
  | cons hf hs hr =>
    refine ⟨T, .cons (fun _ => hc) (hs.congr fun m => ?_) (hr.mono hP), hrest⟩
    simp only [candidate_singleton, moves, he, Option.elim_none, List.append_nil, Option.getD_none, List.mem_map]
    exact Iff.rfl

theorem Scans.star_next (he : out e = none) (h : Scans Q e (c :: w) τ o F) (hQ : ∀ c, Q c → moves e c = [])
    (hP : ∀ c, Q c → P c) (hc : P c) (hd : F d) (h' : Scans P (.star e) (d :: w') (t :: τ') u G) :
    Scans P (.star e) (c :: w ++ d :: w') (τ ++ (o ++ t) :: τ') u G := by
  have hs := h.seq (R := P) h' hd (fun c hc => moves_star_eq_nil (hQ c hc)) (fun c _ hc => hP c hc) fun _ h => h
  obtain ⟨T, hr, hrest⟩ := hs
  have hboth : ∃ τ'', τ ++ (o ++ t) :: τ' = τ'' ∧ Run P {.seq e (.star e)} (c :: (w ++ d :: w')) τ'' T := ⟨_, rfl, hr⟩
  obtain ⟨τ'', hτ, hr⟩ := hboth
  rw [hτ]
  cases hr with
  | cons hf hs hr =>
    refine ⟨T, .cons (fun _ => hc) (hs.congr fun m => ?_) hr, hrest⟩
    simp only [candidate_singleton, moves, he, Option.elim_none, List.append_nil, Option.getD_none, List.mem_map]
    exact Iff.rfl

end Star

end Windgent.Ragel
