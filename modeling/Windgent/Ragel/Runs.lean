import Windgent.Ragel.Machine

namespace Windgent.Ragel

abbrev States := Set (Exp Nat)

def Candidate (S : States) (c : UInt8) (m : Move) : Prop := ∃ e ∈ S, m ∈ moves e c

def Kept (S : States) (c : UInt8) (m : Move) : Prop :=
  Candidate S c m ∧ ∀ m', Candidate S c m' → m.below m' = false

def after (S : States) (c : UInt8) : States := {r | ∃ m, Kept S c m ∧ m.rest = r}

def Fires (S : States) (c : UInt8) (i : Nat) : Prop := ∃ m, Kept S c m ∧ i ∈ m.fires

def Final (S : States) : Prop := ∃ e ∈ S, (out e).isSome

def Leaves (S : States) (i : Nat) : Prop := ∃ e ∈ S, ∃ o, out e = some o ∧ i ∈ o

def Stuck (S : States) (c : UInt8) : Prop := ∀ e ∈ S, moves e c = []

/-- One step of the machine, with the embeddings of the transition. -/
structure Step (S : States) (c : UInt8) (t : List Nat) (T : States) : Prop where
  nonempty : T.Nonempty
  after_eq : after S c = T
  fires_iff : ∀ i, i ∈ t ↔ Fires S c i

/-- A run over a text; a final state on the way sees bytes of `Q` only. -/
inductive Run (Q : UInt8 → Prop) : States → List UInt8 → List (List Nat) → States → Prop
  | nil (S : States) : Run Q S [] [] S
  | cons {S T U : States} {c : UInt8} {w : List UInt8} {t : List Nat} {τ : List (List Nat)}
      (hf : Final S → Q c) (hs : Step S c t T) (hr : Run Q T w τ U) : Run Q S (c :: w) (t :: τ) U

section Steps

variable {S T R : States} {c : UInt8} {t o : List Nat} {e f g : Exp Nat}

theorem Step.of_candidates {R : States} (K : Exp Nat → Exp Nat) (a : List Nat) (hs : Step S c t T)
    (w : Move → Move) (hrest : ∀ m, (w m).rest = K m.rest) (hfires : ∀ m, (w m).fires = a ++ m.fires)
    (hbelow : ∀ m m', Candidate S c m → Candidate S c m' → (w m).below (w m') = m.below m')
    (hc : ∀ m', Candidate R c m' ↔ ∃ m, Candidate S c m ∧ w m = m') :
    Step R c (a ++ t) (K '' T) := by
  have hk : ∀ m', Kept R c m' ↔ ∃ m, Kept S c m ∧ w m = m' := by
    intro m'
    constructor
    · rintro ⟨hm', hmax⟩
      obtain ⟨m, hm, rfl⟩ := (hc m').mp hm'
      refine ⟨m, ⟨hm, fun n hn => ?_⟩, rfl⟩
      rw [← hbelow m n hm hn]
      exact hmax _ ((hc _).mpr ⟨n, hn, rfl⟩)
    · rintro ⟨m, ⟨hm, hmax⟩, rfl⟩
      refine ⟨(hc _).mpr ⟨m, hm, rfl⟩, fun n' hn' => ?_⟩
      obtain ⟨n, hn, rfl⟩ := (hc n').mp hn'
      rw [hbelow m n hm hn]
      exact hmax n hn
  refine ⟨hs.nonempty.image K, ?_, fun i => ?_⟩
  · rw [← hs.after_eq]
    ext r
    constructor
    · rintro ⟨m', hm', rfl⟩
      obtain ⟨m, hm, rfl⟩ := (hk m').mp hm'
      exact ⟨m.rest, ⟨m, hm, rfl⟩, (hrest m).symm⟩
    · rintro ⟨_, ⟨m, hm, rfl⟩, rfl⟩
      exact ⟨w m, (hk _).mpr ⟨m, hm, rfl⟩, hrest m⟩
  · rw [List.mem_append, hs.fires_iff]
    constructor
    · rintro (hi | ⟨m, hm, hi⟩)
      · rw [← hs.after_eq] at hs
        obtain ⟨_, m, hm, rfl⟩ := hs.nonempty
        exact ⟨w m, (hk _).mpr ⟨m, hm, rfl⟩, by simp [hfires, hi]⟩
      · exact ⟨w m, (hk _).mpr ⟨m, hm, rfl⟩, by simp [hfires, hi]⟩
    · rintro ⟨m', hm', hi⟩
      obtain ⟨m, hm, rfl⟩ := (hk m').mp hm'
      rw [hfires, List.mem_append] at hi
      exact hi.imp_right fun hi => ⟨m, hm, hi⟩

theorem candidate_singleton {m : Move} : Candidate {e} c m ↔ m ∈ moves e c := by
  simp [Candidate]

theorem Step.under (K : Exp Nat → Exp Nat) (hK : ∀ e ∈ S, moves (K e) c = (moves e c).map (.under K))
    (hs : Step S c t T) : Step (K '' S) c t (K '' T) := by
  refine hs.of_candidates K [] (.under K) (fun _ => rfl) (fun _ => rfl) (fun _ _ _ _ => rfl) fun m' => ?_
  constructor
  · rintro ⟨_, ⟨e, he, rfl⟩, hm'⟩
    rw [hK e he] at hm'
    obtain ⟨m, hm, rfl⟩ := List.mem_map.mp hm'
    exact ⟨m, ⟨e, he, hm⟩, rfl⟩
  · rintro ⟨m, ⟨e, he, hm⟩, rfl⟩
    exact ⟨K e, ⟨e, he, rfl⟩, by rw [hK e he]; exact List.mem_map_of_mem hm⟩

theorem Step.leaving (a : Nat) (hs : Step S c t T) : Step (Exp.leaving a '' S) c t (Exp.leaving a '' T) :=
  hs.under _ fun _ _ => rfl

theorem Step.seq (hf : Final S → moves f c = []) (hs : Step S c t T) :
    Step ((Exp.seq · f) '' S) c t ((Exp.seq · f) '' T) := by
  refine hs.under _ fun e he => ?_
  cases ho : out e with
  | none => simp [moves, ho]
  | some o =>
    have hm := hf ⟨e, he, by simp [ho]⟩
    simp [moves, ho, hm]

theorem Step.chars {p : UInt8 → Bool} (hp : p c = true) : Step {.chars p} c [] {.eps} := by
  have hm : moves (.chars p) c = [⟨.eps, [], []⟩] := by simp [moves, hp]
  have hk : ∀ m, Kept {Exp.chars p} c m ↔ m = ⟨.eps, [], []⟩ := by
    intro m
    simp only [Kept, candidate_singleton, hm, List.mem_singleton]
    constructor
    · exact fun h => h.1
    · rintro rfl
      exact ⟨rfl, by rintro _ rfl; rfl⟩
  refine ⟨⟨.eps, rfl⟩, ?_, fun i => ?_⟩
  · ext r
    simp [after, hk, eq_comm]
  · simp [Fires, hk]

theorem Step.of_moves_eq (K : Exp Nat → Exp Nat) (a : List Nat) (hs : Step {e} c t T)
    (h : moves g c = (moves e c).map fun m => (m.under K).fire a) : Step {g} c (a ++ t) (K '' T) := by
  refine hs.of_candidates K a (fun m => (m.under K).fire a) (fun _ => rfl) (fun _ => rfl) (fun _ _ _ _ => rfl)
    fun m' => ?_
  simp only [candidate_singleton, h, List.mem_map]

theorem Step.alt_left (hg : moves g c = []) (hs : Step {e} c t T) : Step {.alt e g} c t T := by
  have h := hs.of_moves_eq (g := .alt e g) id [] (by simp [moves, hg, Move.under, Move.fire])
  simpa using h

theorem Step.alt_right (he : moves e c = []) (hs : Step {g} c t T) : Step {.alt e g} c t T := by
  have h := hs.of_moves_eq (g := .alt e g) id [] (by simp [moves, he, Move.under, Move.fire])
  simpa using h

theorem Step.entering (a : Nat) (hs : Step {e} c t T) : Step {.entering a e} c (a :: t) T := by
  have h := hs.of_moves_eq (g := .entering a e) id [a] rfl
  simpa using h

theorem Step.star (he : out e = none) (hs : Step {e} c t T) :
    Step {.star e} c t ((Exp.seq · (.star e)) '' T) := by
  have h := hs.of_moves_eq (g := .star e) (Exp.seq · (.star e)) [] (by simp [moves, he])
  simpa using h

theorem Step.prior_entering (n v : Nat) (hs : Step {e} c t T)
    (hp : ∀ m ∈ moves e c, m.priors = []) : Step {.prior .entering n v e} c t T := by
  have h := hs.of_candidates (R := {.prior .entering n v e}) id [] (.weigh n v) (fun _ => rfl) (fun _ => rfl)
    (fun m m' hm hm' => by
      rw [candidate_singleton] at hm hm'
      simp [Move.below, Move.weigh, hp m hm, hp m' hm'])
    (fun m' => by simp [candidate_singleton, moves])
  simpa using h

theorem Step.prior_all (n v : Nat) (hs : Step S c t T) (hp : ∀ e ∈ S, ∀ m ∈ moves e c, m.priors = []) :
    Step (Exp.prior .all n v '' S) c t (Exp.prior .all n v '' T) := by
  refine hs.of_candidates _ [] (fun m => (m.under (.prior .all n v)).weigh n v) (fun _ => rfl) (fun _ => rfl)
    (fun m m' hm hm' => ?_) fun m' => ?_
  · obtain ⟨e, he, hm⟩ := hm
    obtain ⟨e', he', hm'⟩ := hm'
    simp [Move.below, Move.weigh, Move.under, hp e he m hm, hp e' he' m' hm']
  · constructor
    · rintro ⟨_, ⟨e, he, rfl⟩, hm'⟩
      obtain ⟨m, hm, rfl⟩ := List.mem_map.mp hm'
      exact ⟨m, ⟨e, he, hm⟩, rfl⟩
    · rintro ⟨m, ⟨e, he, hm⟩, rfl⟩
      exact ⟨_, ⟨e, he, rfl⟩, List.mem_map_of_mem hm⟩

theorem Step.of_handover {S' : States} (hF : Final R) (ho : ∀ i, i ∈ o ↔ Leaves R i) (hs : Step {f} c t T)
    (hk : ∀ m', Kept S' c m' ↔ ∃ r ∈ R, ∃ o', out r = some o' ∧ ∃ m, Kept {f} c m ∧ m.fire o' = m') :
    Step S' c (o ++ t) T := by
  obtain ⟨r₀, hr₀, ho₀⟩ := hF
  obtain ⟨o₀, ho₀⟩ := Option.isSome_iff_exists.mp ho₀
  refine ⟨hs.nonempty, ?_, fun i => ?_⟩
  · rw [← hs.after_eq]
    ext x
    constructor
    · rintro ⟨m', hm', rfl⟩
      obtain ⟨r, -, o', -, m, hm, rfl⟩ := (hk m').mp hm'
      exact ⟨m, hm, rfl⟩
    · rintro ⟨m, hm, rfl⟩
      exact ⟨m.fire o₀, (hk _).mpr ⟨r₀, hr₀, o₀, ho₀, m, hm, rfl⟩, rfl⟩
  · rw [List.mem_append, ho, hs.fires_iff]
    constructor
    · rintro (⟨r, hr, o', ho', hi⟩ | ⟨m, hm, hi⟩)
      · rw [← hs.after_eq] at hs
        obtain ⟨_, m, hm, rfl⟩ := hs.nonempty
        exact ⟨m.fire o', (hk _).mpr ⟨r, hr, o', ho', m, hm, rfl⟩, List.mem_append_left _ hi⟩
      · exact ⟨m.fire o₀, (hk _).mpr ⟨r₀, hr₀, o₀, ho₀, m, hm, rfl⟩, List.mem_append_right _ hi⟩
    · rintro ⟨m', hm', hi⟩
      obtain ⟨r, hr, o', ho', m, hm, rfl⟩ := (hk m').mp hm'
      obtain hi | hi := List.mem_append.mp hi
      · exact .inl ⟨r, hr, o', ho', hi⟩
      · exact .inr ⟨m, hm, hi⟩

/-- The first machine of a concatenation cannot go on, and is left. -/
theorem Step.handover (hF : Final R) (ho : ∀ i, i ∈ o ↔ Leaves R i) (hstuck : Stuck R c)
    (hs : Step {f} c t T) : Step ((Exp.seq · f) '' R) c (o ++ t) T := by
  have hc : ∀ m', Candidate ((Exp.seq · f) '' R) c m' ↔
      ∃ r ∈ R, ∃ o', out r = some o' ∧ ∃ m, Candidate {f} c m ∧ m.fire o' = m' := by
    intro m'
    simp only [candidate_singleton]
    constructor
    · rintro ⟨_, ⟨r, hr, rfl⟩, hm'⟩
      cases hor : out r with
      | none => simp [moves, hor, hstuck r hr] at hm'
      | some o' =>
        simp only [moves, hor, hstuck r hr, List.map_nil, List.nil_append, Option.elim_some,
          List.mem_map] at hm'
        exact ⟨r, hr, o', hor, hm'⟩
    · rintro ⟨r, hr, o', hor, m, hm, rfl⟩
      refine ⟨_, ⟨r, hr, rfl⟩, ?_⟩
      simp only [moves, hor, Option.elim_some]
      exact List.mem_append_right _ (List.mem_map_of_mem hm)
  refine Step.of_handover hF ho hs fun m' => ?_
  constructor
  · rintro ⟨hm', hmax⟩
    obtain ⟨r, hr, o', hor, m, hm, rfl⟩ := (hc m').mp hm'
    exact ⟨r, hr, o', hor, m, ⟨hm, fun n hn => hmax (n.fire o') ((hc _).mpr ⟨r, hr, o', hor, n, hn, rfl⟩)⟩, rfl⟩
  · rintro ⟨r, hr, o', hor, m, ⟨hm, hmax⟩, rfl⟩
    refine ⟨(hc _).mpr ⟨r, hr, o', hor, m, hm, rfl⟩, fun n' hn' => ?_⟩
    obtain ⟨-, -, o'', -, n, hn, rfl⟩ := (hc n').mp hn'
    exact hmax n hn

/-- The first machine of `e :> f` could go on, but the second one takes over. -/
theorem Step.guarded (n : Nat) (hF : Final R) (ho : ∀ i, i ∈ o ↔ Leaves R i) (hs : Step {f} c t T)
    (hR : ∀ e ∈ R, ∀ m ∈ moves e c, m.priors = []) (hf : ∀ m ∈ moves f c, m.priors = []) :
    Step ((Exp.seq · (.prior .entering n 1 f)) '' (Exp.prior .all n 0 '' R)) c (o ++ t) T := by
  obtain ⟨r₀, hr₀, ho₀⟩ := hF
  obtain ⟨o₀, ho₀⟩ := Option.isSome_iff_exists.mp ho₀
  have hc : ∀ m', Candidate ((Exp.seq · (.prior .entering n 1 f)) '' (Exp.prior .all n 0 '' R)) c m' ↔
      (∃ r ∈ R, ∃ m ∈ moves r c, ((m.under (.prior .all n 0)).weigh n 0).under
        (.seq · (.prior .entering n 1 f)) = m') ∨
      ∃ r ∈ R, ∃ o', out r = some o' ∧ ∃ m ∈ moves f c, (m.weigh n 1).fire o' = m' := by
    intro m'
    simp only [Candidate, Set.mem_image, exists_exists_and_eq_and, moves, out, List.mem_append, List.mem_map]
    constructor
    · rintro ⟨r, hr, ⟨m, hm, rfl⟩ | hm'⟩
      · exact .inl ⟨r, hr, m, hm, rfl⟩
      · cases hor : out r with
        | none => simp [hor] at hm'
        | some o' =>
          simp only [hor, Option.elim_some, List.mem_map] at hm'
          obtain ⟨_, ⟨m, hm, rfl⟩, rfl⟩ := hm'
          exact .inr ⟨r, hr, o', hor, m, hm, rfl⟩
    · rintro (⟨r, hr, m, hm, rfl⟩ | ⟨r, hr, o', hor, m, hm, rfl⟩)
      · exact ⟨r, hr, .inl ⟨m, hm, rfl⟩⟩
      · refine ⟨r, hr, .inr ?_⟩
        simp only [hor, Option.elim_some, List.mem_map]
        exact ⟨_, ⟨m, hm, rfl⟩, rfl⟩
  have hs' := hs.prior_entering n 1 hf
  obtain ⟨m₀, hm₀⟩ : ∃ m₀, m₀ ∈ moves f c := by
    have hne := hs.nonempty
    rw [← hs.after_eq] at hne
    obtain ⟨_, m, hm, -⟩ := hne
    exact ⟨m, candidate_singleton.mp hm.1⟩
  refine Step.of_handover ⟨r₀, hr₀, by simp [ho₀]⟩ ho hs' fun m' => ?_
  constructor
  · rintro ⟨hm', hmax⟩
    obtain ⟨r, hr, m, hm, rfl⟩ | ⟨r, hr, o', hor, m, hm, rfl⟩ := (hc m').mp hm'
    · have hb := hmax _ ((hc _).mpr (.inr ⟨r₀, hr₀, o₀, ho₀, m₀, hm₀, rfl⟩))
      simp [Move.below, Move.under, Move.weigh, Move.fire, hR r hr m hm, hf m₀ hm₀] at hb
    · refine ⟨r, hr, o', hor, m.weigh n 1, ⟨candidate_singleton.mpr (List.mem_map_of_mem hm), ?_⟩, rfl⟩
      intro x hx
      obtain ⟨y, hy, rfl⟩ := List.mem_map.mp (candidate_singleton.mp hx)
      simp [Move.below, Move.weigh, hf m hm, hf y hy]
  · rintro ⟨r, hr, o', hor, m, ⟨hm, -⟩, rfl⟩
    obtain ⟨x, hx, rfl⟩ := List.mem_map.mp (candidate_singleton.mp hm)
    refine ⟨(hc _).mpr (.inr ⟨r, hr, o', hor, x, hx, rfl⟩), fun y hy => ?_⟩
    obtain ⟨r', hr', z, hz, rfl⟩ | ⟨r', hr', o'', hor', z, hz, rfl⟩ := (hc y).mp hy
    · simp [Move.below, Move.under, Move.weigh, Move.fire, hR r' hr' z hz, hf x hx]
    · simp [Move.below, Move.weigh, Move.fire, hf x hx, hf z hz]

end Steps

/-- An expression without priorities. -/
def Plain : Exp Nat → Prop
  | .eps | .chars _ => True
  | .seq e f | .alt e f => Plain e ∧ Plain f
  | .star e | .entering _ e | .finishing _ e | .leaving _ e => Plain e
  | .prior _ _ _ _ => False

theorem plain_stamp {A : Type} {e : Exp A} (h : e.simple = true) (k : Nat) : Plain (e.stamp k) := by
  induction e generalizing k with
  | eps => trivial
  | chars p => trivial
  | seq e f ihe ihf | alt e f ihe ihf =>
    rw [Exp.simple, Bool.and_eq_true] at h
    exact ⟨ihe h.1 _, ihf h.2 _⟩
  | star e ih | entering a e ih | finishing a e ih | leaving a e ih => exact ih h _
  | prior s n v e => cases h

theorem Plain.move {e : Exp Nat} (h : Plain e) {c : UInt8} {m : Move} (hm : m ∈ moves e c) :
    m.priors = [] ∧ Plain m.rest := by
  induction e generalizing m with
  | eps => simp [moves] at hm
  | chars p =>
    simp only [moves] at hm
    split at hm
    · obtain rfl := List.mem_singleton.mp hm
      exact ⟨rfl, trivial⟩
    · simp at hm
  | seq e f ihe ihf =>
    obtain hm | hm := List.mem_append.mp hm
    · obtain ⟨n, hn, rfl⟩ := List.mem_map.mp hm
      exact ⟨(ihe h.1 hn).1, (ihe h.1 hn).2, h.2⟩
    · cases ho : out e with
      | none => simp [ho] at hm
      | some o =>
        rw [ho] at hm
        obtain ⟨n, hn, rfl⟩ := List.mem_map.mp hm
        exact ⟨(ihf h.2 hn).1, (ihf h.2 hn).2⟩
  | alt e f ihe ihf =>
    obtain hm | hm := List.mem_append.mp hm
    · exact ihe h.1 hm
    · exact ihf h.2 hm
  | star e ih =>
    obtain ⟨n, hn, rfl⟩ := List.mem_map.mp hm
    exact ⟨(ih h hn).1, (ih h hn).2, h⟩
  | entering a e ih =>
    obtain ⟨n, hn, rfl⟩ := List.mem_map.mp hm
    exact ⟨(ih h hn).1, (ih h hn).2⟩
  | finishing a e ih =>
    obtain ⟨n, hn, rfl⟩ := List.mem_map.mp hm
    exact ⟨(ih h hn).1, (ih h hn).2⟩
  | leaving a e ih =>
    obtain ⟨n, hn, rfl⟩ := List.mem_map.mp hm
    exact ⟨(ih h hn).1, (ih h hn).2⟩
  | prior s n v e => exact absurd h id

section Runs

variable {Q P : UInt8 → Prop} {S T U : States} {w w' : List UInt8} {τ τ' : List (List Nat)} {f : Exp Nat}

theorem Run.mono (hQ : ∀ c, Q c → P c) (h : Run Q S w τ T) : Run P S w τ T := by
  induction h with
  | nil S => exact .nil S
  | cons hf hs _ ih => exact .cons (fun h => hQ _ (hf h)) hs ih

theorem Run.append (h : Run Q S w τ T) (h' : Run Q T w' τ' U) : Run Q S (w ++ w') (τ ++ τ') U := by
  induction h with
  | nil S => exact h'
  | cons hf hs _ ih => exact .cons hf hs (ih h')

theorem Run.alt_left {c : UInt8} {g : Exp Nat} (hg : moves g c = []) (hQ : (out (.alt e g)).isSome = true → Q c)
    (h : Run Q {e} (c :: w) τ U) : Run Q {.alt e g} (c :: w) τ U := by
  cases h with
  | cons hf hs hr =>
    refine .cons (fun h => hQ ?_) (hs.alt_left hg) hr
    obtain ⟨_, rfl, ho⟩ := h
    exact ho

theorem Run.split (h : Run Q S (w ++ w') τ U) :
    ∃ σ σ' T, τ = σ ++ σ' ∧ σ.length = w.length ∧ Run Q S w σ T ∧ Run Q T w' σ' U := by
  induction w generalizing S τ with
  | nil => exact ⟨[], τ, S, rfl, rfl, .nil S, h⟩
  | cons c w ih =>
    cases h with
    | cons hf hs hr =>
      obtain ⟨σ, σ', T, rfl, hlen, hw, hw'⟩ := ih hr
      exact ⟨_ :: σ, σ', T, rfl, congrArg (· + 1) hlen, .cons hf hs hw, hw'⟩

theorem final_image {K : Exp Nat → Exp Nat} (hK : ∀ e, (out (K e)).isSome = true → (out e).isSome = true)
    (h : Final (K '' S)) : Final S := by
  obtain ⟨_, ⟨e, he, rfl⟩, ho⟩ := h
  exact ⟨e, he, hK e ho⟩

theorem final_seq (h : Final ((Exp.seq · f) '' S)) : Final S ∧ (out f).isSome = true := by
  obtain ⟨_, ⟨e, he, rfl⟩, ho⟩ := h
  cases hoe : out e with
  | none => simp [out, hoe] at ho
  | some o =>
    refine ⟨⟨e, he, by simp [hoe]⟩, ?_⟩
    simpa [out, hoe] using ho

theorem Run.leaving (a : Nat) (h : Run Q S w τ T) : Run Q (Exp.leaving a '' S) w τ (Exp.leaving a '' T) := by
  induction h with
  | nil S => exact .nil _
  | cons hf hs _ ih =>
    refine .cons (fun h => hf (final_image (fun e he => ?_) h)) (hs.leaving a) ih
    simpa [out] using he

theorem Run.seq (hq : ∀ c, Q c → moves f c = []) (hQ : ∀ c, (out f).isSome = true → Q c → P c)
    (h : Run Q S w τ T) : Run P ((Exp.seq · f) '' S) w τ ((Exp.seq · f) '' T) := by
  induction h with
  | nil S => exact .nil _
  | cons hf hs _ ih =>
    refine .cons (fun h => ?_) (hs.seq fun h => hq _ (hf h)) ih
    obtain ⟨hS, ho⟩ := final_seq h
    exact hQ _ ho (hf hS)

theorem Step.plain {c : UInt8} {t : List Nat} (hs : Step S c t T) (hS : ∀ e ∈ S, Plain e) :
    ∀ e ∈ T, Plain e := by
  intro r hr
  rw [← hs.after_eq] at hr
  obtain ⟨m, ⟨⟨e, he, hm⟩, -⟩, rfl⟩ := hr
  exact ((hS e he).move hm).2

theorem Run.plain (h : Run Q S w τ T) (hS : ∀ e ∈ S, Plain e) : ∀ e ∈ T, Plain e := by
  induction h with
  | nil S => exact hS
  | cons hf hs _ ih => exact ih (hs.plain hS)

theorem Run.prior_all (n v : Nat) (h : Run Q S w τ T) (hS : ∀ e ∈ S, Plain e) :
    Run Q (Exp.prior .all n v '' S) w τ (Exp.prior .all n v '' T) := by
  induction h with
  | nil S => exact .nil _
  | cons hf hs _ ih =>
    refine .cons (fun h => hf (final_image (K := .prior .all n v) (fun e he => he) h)) ?_ (ih (hs.plain hS))
    exact hs.prior_all n v fun e he m hm => ((hS e he).move hm).1

end Runs

def silent (w : List UInt8) : List (List Nat) := List.replicate w.length []

theorem silent_cons (c : UInt8) (w : List UInt8) : silent (c :: w) = [] :: silent w := rfl

theorem silent_append (w w' : List UInt8) : silent (w ++ w') = silent w ++ silent w' := by
  simp only [silent, List.length_append, List.replicate_append_replicate]

/-- From the begin of an expression a text is read to a final state with the leaving
actions `o`, in which no byte of `F` is expected. -/
def Scans (Q : UInt8 → Prop) (e : Exp Nat) (w : List UInt8) (τ : List (List Nat)) (o : List Nat)
    (F : UInt8 → Prop) : Prop :=
  ∃ T, Run Q {e} w τ T ∧ Final T ∧ (∀ i, i ∈ o ↔ Leaves T i) ∧ ∀ c, F c → Stuck T c

section Rules

variable {Q P R F G : UInt8 → Prop} {e f g : Exp Nat} {c : UInt8} {w w' : List UInt8}
  {t : List Nat} {τ τ' : List (List Nat)} {o u : List Nat}

theorem stuck_singleton : Stuck {e} c ↔ moves e c = [] := by
  simp [Stuck]

theorem leaves_singleton (h : out e = some o) (i : Nat) : i ∈ o ↔ Leaves {e} i := by
  simp [Leaves, h]

theorem Scans.nil (ho : out e = some o) (hF : ∀ c, F c → moves e c = []) : Scans Q e [] [] o F :=
  ⟨{e}, .nil _, ⟨e, rfl, by simp [ho]⟩, leaves_singleton ho, fun c hc => stuck_singleton.mpr (hF c hc)⟩

theorem Scans.step (hQ : (out e).isSome = true → Q c) (hs : Step {e} c t {f}) (h : Scans Q f w τ o F) :
    Scans Q e (c :: w) (t :: τ) o F := by
  obtain ⟨T, hr, hrest⟩ := h
  refine ⟨T, .cons (fun hf => hQ ?_) hs hr, hrest⟩
  obtain ⟨_, rfl, ho⟩ := hf
  exact ho

theorem Scans.chars {p : UInt8 → Bool} (hp : p c = true) : Scans Q (.chars p) [c] [[]] [] F :=
  Scans.step (by simp [out]) (Step.chars hp) (Scans.nil rfl fun _ _ => rfl)

theorem Scans.enter {a : List Nat} (h : Scans Q e (c :: w) (t :: τ) o F)
    (hs : ∀ T, Step {e} c t T → Step {g} c (a ++ t) T) (hQ : (out g).isSome = true → Q c) :
    Scans Q g (c :: w) ((a ++ t) :: τ) o F := by
  obtain ⟨T, hr, hrest⟩ := h
  cases hr with
  | cons hf hs' hr =>
    refine ⟨T, .cons (fun hfin => hQ ?_) (hs _ hs') hr, hrest⟩
    obtain ⟨_, rfl, ho⟩ := hfin
    exact ho

theorem Scans.first (h : Scans Q e (c :: w) τ o F) : moves e c ≠ [] := by
  obtain ⟨T, hr, -⟩ := h
  cases hr with
  | cons hf hs hr =>
    have hne := hs.nonempty
    rw [← hs.after_eq] at hne
    obtain ⟨_, m, hm, -⟩ := hne
    exact List.ne_nil_of_mem (candidate_singleton.mp hm.1)

theorem Scans.entering (a : Nat) (h : Scans Q e (c :: w) (t :: τ) o F) :
    Scans Q (.entering a e) (c :: w) ((a :: t) :: τ) o F := by
  have hQ : (out e).isSome = true → Q c := by
    obtain ⟨T, hr, -⟩ := h
    cases hr with
    | cons hf hs hr => exact fun ho => hf ⟨e, rfl, ho⟩
  exact h.enter (a := [a]) (fun _ hs => hs.entering a) fun ho => hQ (by simpa [out] using ho)

theorem Scans.alt_left (hg : moves g c = []) (hQ : (out (.alt e g)).isSome = true → Q c)
    (h : Scans Q e (c :: w) (t :: τ) o F) : Scans Q (.alt e g) (c :: w) (t :: τ) o F :=
  h.enter (a := []) (fun _ hs => hs.alt_left hg) hQ

theorem Scans.alt_right (he : moves e c = []) (hQ : (out (.alt e g)).isSome = true → Q c)
    (h : Scans Q g (c :: w) (t :: τ) o F) : Scans Q (.alt e g) (c :: w) (t :: τ) o F :=
  h.enter (a := []) (fun _ hs => hs.alt_right he) hQ

theorem Scans.leaving (a : Nat) (h : Scans Q e w τ o F) : Scans Q (.leaving a e) w τ (o ++ [a]) F := by
  obtain ⟨T, hr, ⟨r, hrT, hor⟩, ho, hF⟩ := h
  obtain ⟨o₀, ho₀⟩ := Option.isSome_iff_exists.mp hor
  have hr' := hr.leaving a
  rw [Set.image_singleton] at hr'
  refine ⟨_, hr', ⟨_, ⟨r, hrT, rfl⟩, by simp [out, hor]⟩, fun i => ?_, ?_⟩
  · rw [List.mem_append, ho, List.mem_singleton]
    constructor
    · rintro (⟨e, he, u, ho', hi⟩ | rfl)
      · exact ⟨_, ⟨e, he, rfl⟩, u ++ [a], by simp [out, ho'], by simp [hi]⟩
      · exact ⟨_, ⟨r, hrT, rfl⟩, o₀ ++ [i], by simp [out, ho₀], by simp⟩
    · rintro ⟨_, ⟨e, he, rfl⟩, u, ho', hi⟩
      obtain ⟨u', ho'', rfl⟩ := Option.map_eq_some_iff.mp ho'
      obtain hi | hi := List.mem_append.mp hi
      · exact .inl ⟨e, he, u', ho'', hi⟩
      · exact .inr (List.mem_singleton.mp hi)
  · rintro c hc _ ⟨e, he, rfl⟩
    simp [moves, hF c hc e he]

theorem Scans.seq (h : Scans Q e w τ o F) (h' : Scans P f (c :: w') (t :: τ') u G) (hc : F c)
    (hq : ∀ c, Q c → moves f c = []) (hQ : ∀ c, (out f).isSome = true → Q c → R c)
    (hP : ∀ c, P c → R c) : Scans R (.seq e f) (w ++ c :: w') (τ ++ (o ++ t) :: τ') u G := by
  obtain ⟨T, hr, hT, ho, hF⟩ := h
  obtain ⟨U, hr', hrest⟩ := h'
  have hl := hr.seq hq hQ
  rw [Set.image_singleton] at hl
  cases hr' with
  | cons hf hs hr' =>
    refine ⟨U, hl.append (.cons (fun hfin => hP c (hf ?_)) (hs.handover hT ho (hF c hc)) (hr'.mono hP)), hrest⟩
    exact ⟨f, rfl, (final_seq hfin).2⟩

theorem Scans.seq_nil (h : Scans Q e w τ o F) (hf : out f = some u) (hq : ∀ c, Q c → moves f c = [])
    (hG : ∀ c, G c → F c ∧ moves f c = []) : Scans Q (.seq e f) w τ (o ++ u) G := by
  obtain ⟨T, hr, ⟨r, hrT, hor⟩, ho, hF⟩ := h
  obtain ⟨o₀, ho₀⟩ := Option.isSome_iff_exists.mp hor
  have hl := hr.seq hq fun _ _ hc => hc
  rw [Set.image_singleton] at hl
  refine ⟨_, hl, ⟨_, ⟨r, hrT, rfl⟩, by simp [out, ho₀, hf]⟩, fun i => ?_, ?_⟩
  · rw [List.mem_append, ho]
    constructor
    · rintro (⟨x, hx, u', ho'', hi⟩ | hi)
      · exact ⟨_, ⟨x, hx, rfl⟩, u' ++ u, by simp [out, ho'', hf], by simp [hi]⟩
      · exact ⟨_, ⟨r, hrT, rfl⟩, o₀ ++ u, by simp [out, ho₀, hf], by simp [hi]⟩
    · rintro ⟨_, ⟨x, hx, rfl⟩, u', ho'', hi⟩
      cases hox : out x with
      | none => simp [out, hox] at ho''
      | some o₁ =>
        obtain rfl : o₁ ++ u = u' := by simpa [out, hox, hf] using ho''
        exact (List.mem_append.mp hi).imp_left fun hi => ⟨x, hx, o₁, hox, hi⟩
  · rintro c hc _ ⟨x, hx, rfl⟩
    obtain ⟨hcF, hcf⟩ := hG c hc
    cases hox : out x <;> simp [moves, hox, hF c hcF x hx, hcf]

theorem Scans.mono (h : Scans Q e w τ o F) (hQ : ∀ c, Q c → P c) (hF : ∀ c, G c → F c) :
    Scans P e w τ o G := by
  obtain ⟨T, hr, hT, ho, hstuck⟩ := h
  exact ⟨T, hr.mono hQ, hT, ho, fun c hc => hstuck c (hF c hc)⟩

theorem Scans.star_cons (he : out e = none) (h : Scans Q e (c :: w) τ [] F) (hQ : ∀ c, Q c → moves e c = [])
    (hP : ∀ c, Q c → P c) (hc : P c) (hF : ∀ c, moves e c ≠ [] → F c)
    (hG : ∀ c, G c → F c) (h' : Scans P (.star e) w' τ' [] G) :
    Scans P (.star e) (c :: w ++ w') (τ ++ τ') [] G := by
  obtain ⟨T, hr, ⟨r, hrT, hor⟩, ho, hstuck⟩ := h
  obtain ⟨U, hr', hU, ho', hstuck'⟩ := h'
  obtain ⟨o₀, ho₀⟩ := Option.isSome_iff_exists.mp hor
  have hq : ∀ c, Q c → moves (.star e) c = [] := fun c hc => moves_star_eq_nil (hQ c hc)
  cases hr with
  | cons hf hs hr =>
    have hl := Run.cons (Q := P) (fun _ => hc) (hs.star he) (hr.seq hq fun c _ hc => hP c hc)
    have hF₀ : Final T := ⟨r, hrT, hor⟩
    cases hr' with
    | nil =>
      refine ⟨_, hl.append (.nil _), ⟨_, ⟨r, hrT, rfl⟩, by simp [out, ho₀, he]⟩, fun i => ?_, ?_⟩
      · constructor
        · simp
        · rintro ⟨_, ⟨x, hx, rfl⟩, u', ho'', hi⟩
          cases hox : out x with
          | none => simp [out, hox] at ho''
          | some o₁ =>
            obtain rfl : o₁ = u' := by simpa [out, hox, he] using ho''
            exact (ho i).mpr ⟨x, hx, o₁, hox, hi⟩
      · rintro c hcF _ ⟨x, hx, rfl⟩
        have hstar := hstuck' c hcF (.star e) rfl
        cases hox : out x <;> simp [moves, hox, hstuck c (hG c hcF) x hx] at hstar ⊢
        exact hstar
    | @cons _ T₁ _ c' w'' t' τ'' hf' hs' hr' =>
      have hc' : F c' := by
        refine hF c' fun hm => ?_
        have hne := hs'.nonempty
        rw [← hs'.after_eq] at hne
        obtain ⟨_, m, hm', -⟩ := hne
        have := candidate_singleton.mp hm'.1
        rw [moves_star_eq_nil hm] at this
        cases this
      have hh := hs'.handover hF₀ ho (hstuck c' hc')
      rw [List.nil_append] at hh
      exact ⟨U, hl.append (.cons (fun _ => hf' ⟨_, rfl, rfl⟩) hh hr'), hU, ho', hstuck'⟩

/-- `e :> f`: the second machine takes over with its first byte. -/
theorem Scans.guarded (n : Nat) (he : Plain e) (hf : Plain f) (h : Scans Q e w τ o F)
    (h' : Scans P f (c :: w') (t :: τ') u G) (hq : ∀ c, Q c → moves f c = []) (hof : out f = none) :
    Scans P (.entryGuarded n e f) (w ++ c :: w') (τ ++ (o ++ t) :: τ') u G := by
  obtain ⟨T, hr, hT, ho, -⟩ := h
  obtain ⟨U, hr', hrest⟩ := h'
  have hplain : ∀ x ∈ ({e} : States), Plain x := by
    rintro x rfl
    exact he
  have hp := (hr.prior_all n 0 hplain).seq (f := .prior .entering n 1 f) (P := P)
    (fun c hc => by simp [moves, hq c hc]) (fun c ho _ => by simp [out, hof] at ho)
  rw [Set.image_singleton, Set.image_singleton] at hp
  cases hr' with
  | cons hf' hs hr' =>
    refine ⟨U, hp.append (.cons (fun hfin => ?_) (hs.guarded n hT ho ?_ fun m hm => (hf.move hm).1) hr'), hrest⟩
    · have := (final_seq hfin).2
      simp [out, hof] at this
    · exact fun x hx m hm => ((hr.plain hplain x hx).move hm).1

theorem Scans.congr_out (h : Scans Q e w τ o F) (ho : ∀ i, i ∈ u ↔ i ∈ o) : Scans Q e w τ u F := by
  obtain ⟨T, hr, hT, hT', hF⟩ := h
  exact ⟨T, hr, hT, fun i => (ho i).trans (hT' i), hF⟩

theorem Scans.seq_quiet (h : Scans Q e w τ [] F) (h' : Scans P f w' τ' u G) (hw : ∀ c ∈ w'.head?, F c)
    (hF : ∀ c, G c → F c) (hq : ∀ c, Q c → moves f c = []) (hQ : ∀ c, (out f).isSome = true → Q c → R c)
    (hP : ∀ c, P c → R c) : Scans R (.seq e f) (w ++ w') (τ ++ τ') u G := by
  obtain ⟨U, hr', hU, ho', hstuck⟩ := h'
  cases hr' with
  | nil =>
    obtain ⟨_, rfl, hof⟩ := hU
    obtain ⟨o₀, ho₀⟩ := Option.isSome_iff_exists.mp hof
    have hs := h.seq_nil ho₀ hq (G := G) fun c hc => ⟨hF c hc, stuck_singleton.mp (hstuck c hc)⟩
    rw [List.append_nil, List.append_nil]
    obtain ⟨T, hr, hrest⟩ := hs
    have hQ₀ : ∀ c, Q c → R c := fun c hc => hQ c hof hc
    refine Scans.congr_out ⟨T, hr.mono hQ₀, hrest⟩ fun i => ?_
    rw [List.nil_append, ho']
    exact (leaves_singleton ho₀ i).symm
  | @cons _ _ _ c w'' t τ'' hf hs hr' =>
    have hs' : Scans P f (c :: w'') (t :: τ'') u G := ⟨U, .cons hf hs hr', hU, ho', hstuck⟩
    exact h.seq hs' (hw c rfl) hq hQ hP

theorem Scans.text {w : List UInt8} (h : w ≠ []) :
    Scans Q (.text w) w (silent w) [] F := by
  induction w with
  | nil => exact absurd rfl h
  | cons c w ih =>
    cases w with
    | nil => exact Scans.chars (by simp)
    | cons d w =>
      have hb : Scans (fun _ => False) (.byte c) [c] [[]] [] fun _ => True := Scans.chars (by simp)
      exact hb.seq_quiet (ih (by simp)) (fun _ _ => trivial) (fun _ _ => trivial) (fun _ h => h.elim)
        (fun _ _ h => h.elim) fun _ h => h

theorem Step.of_plain {S T : States} (hp : ∀ e ∈ S, Plain e) (hne : T.Nonempty)
    (hT : ∀ r, r ∈ T ↔ ∃ e ∈ S, ∃ m ∈ moves e c, m.rest = r)
    (ht : ∀ i, i ∈ t ↔ ∃ e ∈ S, ∃ m ∈ moves e c, i ∈ m.fires) : Step S c t T := by
  have hk : ∀ m, Kept S c m ↔ ∃ e ∈ S, m ∈ moves e c := by
    intro m
    refine ⟨fun h => h.1, fun h => ⟨h, fun m' _ => ?_⟩⟩
    obtain ⟨e, he, hm⟩ := h
    simp [Move.below, ((hp e he).move hm).1]
  refine ⟨hne, ?_, fun i => ?_⟩
  · ext r
    rw [hT]
    simp only [after, Set.mem_ofPred_eq, hk]
    constructor
    · rintro ⟨m, ⟨e, he, hm⟩, rfl⟩
      exact ⟨e, he, m, hm, rfl⟩
    · rintro ⟨e, he, m, hm, rfl⟩
      exact ⟨m, ⟨e, he, hm⟩, rfl⟩
  · rw [ht]
    simp only [Fires, hk]
    constructor
    · rintro ⟨e, he, m, hm, hi⟩
      exact ⟨m, ⟨e, he, hm⟩, hi⟩
    · rintro ⟨m, ⟨e, he, hm⟩, hi⟩
      exact ⟨e, he, m, hm, hi⟩

theorem Scans.alt_dead (he : Plain e) (hg : Plain g) (h : Scans Q g (c :: w) (t :: τ) o F)
    (hdead : ∀ m ∈ moves e c, m.fires = [] ∧ out m.rest = none)
    (hnext : ∀ m ∈ moves e c, ∀ d ∈ w.head?, moves m.rest d = [])
    (hF : ∀ d, G d → F d ∧ ∀ m ∈ moves e c, moves m.rest d = [])
    (hQ : (out (.alt e g)).isSome = true → Q c) : Scans Q (.alt e g) (c :: w) (t :: τ) o G := by
  obtain ⟨U, hr, ⟨r, hrU, hor⟩, ho, hstuck⟩ := h
  have hP : Final {Exp.alt e g} → Q c := by
    rintro ⟨_, rfl, hout⟩
    exact hQ hout
  cases hr with
  | @cons _ T _ _ _ _ _ hf hs hr =>
    have hT : ∀ r, r ∈ T ↔ ∃ m ∈ moves g c, m.rest = r := by
      intro r
      rw [← hs.after_eq]
      constructor
      · rintro ⟨m, hm, rfl⟩
        exact ⟨m, candidate_singleton.mp hm.1, rfl⟩
      · rintro ⟨m, hm, rfl⟩
        exact ⟨m, ⟨candidate_singleton.mpr hm, fun m' _ => by simp [Move.below, (hg.move hm).1]⟩, rfl⟩
    have ht : ∀ i, i ∈ t ↔ ∃ m ∈ moves g c, i ∈ m.fires := by
      intro i
      rw [hs.fires_iff]
      constructor
      · rintro ⟨m, hm, hi⟩
        exact ⟨m, candidate_singleton.mp hm.1, hi⟩
      · rintro ⟨m, hm, hi⟩
        exact ⟨m, ⟨candidate_singleton.mpr hm, fun m' _ => by simp [Move.below, (hg.move hm).1]⟩, hi⟩
    let D : States := {x | ∃ m ∈ moves e c, m.rest = x}
    have hboth : Step {.alt e g} c t (D ∪ T) := by
      refine Step.of_plain (by rintro _ rfl; exact ⟨he, hg⟩) (hs.nonempty.mono Set.subset_union_right)
        (fun r => ?_) fun i => ?_
      · simp only [Set.mem_union, hT, Set.mem_singleton_iff, exists_eq_left, moves, List.mem_append, D,
          Set.mem_ofPred_eq, or_and_right, exists_or]
      · simp only [ht, Set.mem_singleton_iff, exists_eq_left, moves, List.mem_append, or_and_right, exists_or]
        constructor
        · exact .inr
        · rintro (⟨m, hm, hi⟩ | h)
          · rw [(hdead m hm).1] at hi
            cases hi
          · exact h
    cases hr with
    | nil =>
      refine ⟨_, .cons hP hboth (.nil _), ⟨r, .inr hrU, hor⟩, fun i => ?_, ?_⟩
      · rw [ho]
        constructor
        · rintro ⟨x, hx, hi⟩
          exact ⟨x, .inr hx, hi⟩
        · rintro ⟨x, ⟨m, hm, rfl⟩ | hx, u, ho', hi⟩
          · rw [(hdead m hm).2] at ho'
            cases ho'
          · exact ⟨x, hx, u, ho', hi⟩
      · rintro d hd x (⟨m, hm, rfl⟩ | hx)
        · exact (hF d hd).2 m hm
        · exact hstuck d (hF d hd).1 x hx
    | @cons _ T₁ _ d w' t' τ' hf' hs' hr' =>
      have hD : Stuck D d := by
        rintro _ ⟨m, hm, rfl⟩
        exact hnext m hm d rfl
      have hcand : ∀ m, Candidate (D ∪ T) d m ↔ Candidate T d m := by
        intro m
        constructor
        · rintro ⟨x, hx | hx, hm⟩
          · rw [hD x hx] at hm
            cases hm
          · exact ⟨x, hx, hm⟩
        · rintro ⟨x, hx, hm⟩
          exact ⟨x, .inr hx, hm⟩
      have hk : ∀ m, Kept (D ∪ T) d m ↔ Kept T d m := fun m => by
        simp only [Kept, hcand]
      have hs'' : Step (D ∪ T) d t' T₁ := by
        refine ⟨hs'.nonempty, ?_, fun i => ?_⟩
        · rw [← hs'.after_eq]
          ext r
          simp only [after, Set.mem_ofPred_eq, hk]
        · rw [hs'.fires_iff]
          simp only [Fires, hk]
      refine ⟨U, .cons hP hboth (.cons (fun hfin => hf' ?_) hs'' hr'), ⟨r, hrU, hor⟩, ho, fun d hd =>
        hstuck d (hF d hd).1⟩
      obtain ⟨x, ⟨m, hm, rfl⟩ | hx, hox⟩ := hfin
      · rw [(hdead m hm).2] at hox
        cases hox
      · exact ⟨x, hx, hox⟩

theorem Scans.upTo {p : UInt8 → Bool} {n : Nat} (hn : w.length ≤ n) (hw : ∀ c ∈ w, p c = true)
    (hF : ∀ c, F c → p c = false) :
    Scans (p · = true) (.upTo n (.chars p)) w (silent w) [] F := by
  induction w generalizing n with
  | nil => exact Scans.nil (out_upTo n p) fun c hc => moves_upTo (hF c hc)
  | cons c w ih =>
    obtain ⟨hc, hw⟩ := List.forall_mem_cons.mp hw
    cases n with
    | zero => simp at hn
    | succ n =>
      have hb : Scans (fun _ => False) (.chars p) [c] [[]] [] fun _ => True := Scans.chars hc
      have hs := hb.seq_quiet (ih (by simpa using hn) hw) (fun _ _ => trivial) (fun _ _ => trivial)
        (fun _ h => h.elim) (fun _ _ h => h.elim) fun _ h => h
      exact hs.alt_left rfl fun _ => hc

theorem Scans.star_chars {p : UInt8 → Bool} (hw : ∀ c ∈ w, p c = true) (hF : ∀ c, F c → p c = false) :
    Scans (p · = true) (.star (.chars p)) w (silent w) [] F := by
  induction w with
  | nil => exact Scans.nil rfl fun c hc => by simp [moves, hF c hc]
  | cons c w ih =>
    obtain ⟨hc, hw⟩ := List.forall_mem_cons.mp hw
    have hb : Scans (fun _ => False) (.chars p) [c] [[]] [] fun _ => True := Scans.chars hc
    exact Scans.star_cons rfl hb (fun _ h => h.elim) (fun _ h => h.elim) hc (fun _ _ => trivial)
      (fun _ _ => trivial) (ih hw)

end Rules

section Scanning

open Scanner

variable {A P L K : Type} [DecidableEq A] [DecidableEq P] [DecidableEq L] {op : A → Op P L K}

def actions (table : List A) (t : List Nat) : List A := pick table t.contains

theorem kept_of_step {S : Config} {c : UInt8} {t : List Nat} {T : States} (hs : Step {x | x ∈ S} c t T) :
    {x | x ∈ (kept S c).map Move.rest} = T ∧ (kept S c).isEmpty = false ∧
      (fun i => (kept S c).any fun m => m.fires.contains i) = t.contains := by
  have hk : ∀ m, m ∈ kept S c ↔ Kept {x | x ∈ S} c m := by
    intro m
    simp only [kept, candidates, List.mem_filter, List.mem_flatMap, List.all_eq_true, Kept, Candidate,
      Set.mem_ofPred_eq, Bool.not_eq_true', forall_exists_index, and_imp]
  have hafter : {x | x ∈ (kept S c).map Move.rest} = T := by
    rw [← hs.after_eq]
    ext r
    simp only [after, Set.mem_ofPred_eq, List.mem_map, hk]
  refine ⟨hafter, ?_, ?_⟩
  · obtain ⟨r, hr⟩ := hs.nonempty
    rw [← hafter] at hr
    obtain ⟨m, hm, -⟩ := List.mem_map.mp hr
    simpa using List.ne_nil_of_mem hm
  · funext i
    rw [Bool.eq_iff_iff, List.any_eq_true, List.contains_iff_mem, hs.fires_iff]
    simp only [hk, List.contains_iff_mem, Fires]

theorem next_of_step (table : List A) (done : A) {S : Config} {c : UInt8} {t : List Nat} {T : States}
    (hs : Step {x | x ∈ S} c t T) :
    ∃ S', {x | x ∈ S'} = T ∧
      next table done S c = some (S', actions table t ++ if isFinal S' then [done] else []) := by
  obtain ⟨hafter, hne, hfires⟩ := kept_of_step hs
  exact ⟨_, hafter, by simp only [next, hne, Bool.false_eq_true, if_false, hfires, actions]⟩

theorem isFinal_iff {S : Config} : isFinal S = true ↔ Final {x | x ∈ S} := by
  simp [isFinal, Final]

def perform (op : A → Op P L K) (data : List UInt8) : Nat → List (List A) → Regs P L → Regs P L × List (Event K)
  | _, [], g => (g, [])
  | p, as :: τ, g =>
    let t := runOps data p (as.map op) g
    let u := perform op data (p + 1) τ t.1
    (u.1, t.2 ++ u.2)

variable (op) in
omit [DecidableEq A] in
theorem perform_append (data : List UInt8) (p : Nat) (τ τ' : List (List A)) (g : Regs P L) :
    perform op data p (τ ++ τ') g =
      ((perform op data (p + τ.length) τ' (perform op data p τ g).1).1,
        (perform op data p τ g).2 ++ (perform op data (p + τ.length) τ' (perform op data p τ g).1).2) := by
  induction τ generalizing p g with
  | nil => simp [perform]
  | cons as τ ih =>
    have hp : p + 1 + τ.length = p + (τ.length + 1) := by omega
    simp only [List.cons_append, perform, ih, List.length_cons, hp, List.append_assoc]

omit [DecidableEq A] in
theorem perform_silent (data : List UInt8) (p n : Nat) (g : Regs P L) :
    perform op data p (List.replicate n []) g = (g, []) := by
  induction n generalizing p with
  | zero => rfl
  | succ n ih => simp [List.replicate_succ, perform, runOps, ih]

omit [DecidableEq A] in
theorem runOps_stop (data : List UInt8) (p : Nat) (os : List (Op P L K)) (h : ∀ o ∈ os, o.isStop = false)
    (g : Regs P L) {o : Op P L K} (ho : o.isStop = true) : runOps data p (os ++ [o]) g = runOps data p os g := by
  induction os generalizing g with
  | nil => simp [runOps, ho]
  | cons x os ih =>
    have hx := h x (List.mem_cons_self ..)
    have hrest := ih (fun y hy => h y (List.mem_cons_of_mem _ hy))
    simp only [List.cons_append, runOps, hx, Bool.false_eq_true, if_false, hrest]

variable {e : Exp A} {done : A} {hdone : (op done).isStop = true}
  {hstop : ∀ a ∈ e.table, (op a).isStop = false}

omit [DecidableEq P] [DecidableEq L] in
theorem actions_running (hstop : ∀ a ∈ e.table, (op a).isStop = false) (t : List Nat) :
    ∀ o ∈ (actions e.table t).map op, o.isStop = false := by
  intro o ho
  obtain ⟨a, ha, rfl⟩ := List.mem_map.mp ho
  exact hstop a (mem_pick ha)

variable (hdone hstop)

theorem scan_step (data : List UInt8) {S : Config} {T : States} {c : UInt8} {t : List Nat}
    (hs : Step {x | x ∈ S} c t T) (hT : ¬ Final T) (g : Regs P L) (p : Nat) (rest : List UInt8) :
    ∃ S', {x | x ∈ S'} = T ∧
      scan (machine e done hdone hstop) data S g p (c :: rest) =
        let u := runOps data p ((actions e.table t).map op) g
        let o := scan (machine e done hdone hstop) data S' u.1 (p + 1) rest
        { o with events := u.2 ++ o.events } := by
  obtain ⟨S', hS', hnext⟩ := next_of_step e.table done hs
  have hfinal : isFinal S' = false := by
    rw [← Bool.not_eq_true, isFinal_iff, hS']
    exact hT
  rw [hfinal, if_neg Bool.false_ne_true, List.append_nil] at hnext
  have hany : ((actions e.table t).map op).any Op.isStop = false := by
    rw [List.any_eq_false]
    exact fun o ho => by simp [actions_running hstop t o ho]
  have hnext' : (machine e done hdone hstop).next S c = some (S', actions e.table t) := hnext
  refine ⟨S', hS', ?_⟩
  simp only [scan, hnext', hany, Bool.false_eq_true, if_false]

theorem scan_final (data : List UInt8) {S : Config} {T : States} {c : UInt8} {t : List Nat}
    (hs : Step {x | x ∈ S} c t T) (hT : Final T) (g : Regs P L) (p : Nat) (rest : List UInt8) :
    ∃ S', isFinal S' = true ∧
      scan (machine e done hdone hstop) data S g p (c :: rest) =
        ⟨some S', true, (runOps data p ((actions e.table t).map op) g).1,
          (runOps data p ((actions e.table t).map op) g).2, p + 1⟩ := by
  obtain ⟨S', hS', hnext⟩ := next_of_step e.table done hs
  have hfinal : isFinal S' = true := by rwa [isFinal_iff, hS']
  rw [hfinal, if_pos rfl] at hnext
  have hnext' : (machine e done hdone hstop).next S c = some (S', actions e.table t ++ [done]) := hnext
  have hany : ((actions e.table t ++ [done]).map op).any Op.isStop = true := by simp [hdone]
  have hops := runOps_stop data p _ (actions_running hstop t) g hdone
  rw [List.map_append, List.map_singleton] at hany
  refine ⟨S', hfinal, ?_⟩
  simp only [scan, hnext', List.map_append, List.map_singleton, hany, if_true, hops]

theorem scan_run (data : List UInt8) {Q : UInt8 → Prop} (hQ : ∀ c, ¬ Q c) {S : Config} {S₀ T : States}
    {w : List UInt8} {τ : List (List Nat)} (h : Run Q S₀ w τ T) (hS : {x | x ∈ S} = S₀) (hT : ¬ Final T)
    (g : Regs P L) (p : Nat) (rest : List UInt8) :
    ∃ S', {x | x ∈ S'} = T ∧
      scan (machine e done hdone hstop) data S g p (w ++ rest) =
        let u := perform op data p (τ.map (actions e.table)) g
        let o := scan (machine e done hdone hstop) data S' u.1 (p + w.length) rest
        { o with events := u.2 ++ o.events } := by
  induction h generalizing S g p with
  | nil S₀ => exact ⟨S, hS, rfl⟩
  | @cons S₀ T₁ U c w t τ hf hs hr ih =>
    subst hS
    have hT₁ : ¬ Final T₁ := by
      cases hr with
      | nil => exact hT
      | cons hf' _ _ => exact fun h => hQ _ (hf' h)
    obtain ⟨S₁, hS₁, hscan₁⟩ := scan_step hdone hstop data hs hT₁ g p (w ++ rest)
    obtain ⟨S', hS', hscan⟩ := ih hS₁ hT (runOps data p ((actions e.table t).map op) g).1 (p + 1)
    refine ⟨S', hS', ?_⟩
    have hlen : p + 1 + w.length = p + (w.length + 1) := by omega
    rw [List.cons_append, hscan₁]
    simp only [hscan, List.map_cons, perform, List.length_cons, hlen, List.append_assoc]

/-- A run to a final state that meets none on the way is a whole scan. -/
theorem scan_complete (data : List UInt8) {Q : UInt8 → Prop} (hQ : ∀ c, ¬ Q c) {S : Config} {S₀ T : States}
    {w : List UInt8} {τ : List (List Nat)} (h : Run Q S₀ w τ T) (hS : {x | x ∈ S} = S₀) (hT : Final T)
    (hw : w ≠ []) (g : Regs P L) (p : Nat) (rest : List UInt8) :
    ∃ S', isFinal S' = true ∧
      scan (machine e done hdone hstop) data S g p (w ++ rest) =
        ⟨some S', true, (perform op data p (τ.map (actions e.table)) g).1,
          (perform op data p (τ.map (actions e.table)) g).2, p + w.length⟩ := by
  induction h generalizing S g p with
  | nil S₀ => exact absurd rfl hw
  | @cons S₀ T₁ U c w t τ hf hs hr ih =>
    subst hS
    cases hr with
    | nil =>
      obtain ⟨S', hS', hscan⟩ := scan_final hdone hstop data hs hT g p rest
      refine ⟨S', hS', ?_⟩
      simpa [perform] using hscan
    | cons hf' hs' hr' =>
      obtain ⟨S₁, hS₁, hscan₁⟩ := scan_step hdone hstop data hs (fun h => hQ _ (hf' h)) g p
        (_ ++ rest)
      obtain ⟨S', hS', hscan⟩ := ih hS₁ hT (by simp) (runOps data p ((actions e.table t).map op) g).1 (p + 1)
      refine ⟨S', hS', ?_⟩
      have hlen : ∀ n, p + 1 + n = p + (n + 1) := fun n => by omega
      rw [List.cons_append, hscan₁]
      simp only [hscan, List.map_cons, perform, List.length_cons, hlen]

end Scanning

end Windgent.Ragel
