import Windgent.Ragel.Language

namespace Windgent.Ragel

def Exp.bare {A : Type} : Exp A → Bool
  | .eps | .chars _ => true
  | .seq e f | .alt e f => e.bare && f.bare
  | .star e => e.bare
  | .entering _ _ | .finishing _ _ | .leaving _ _ | .prior _ _ _ _ => false

/-- The embeddings on the bytes of `v`, behind `u`. -/
def Traced (e : Exp Nat) : List UInt8 → List UInt8 → List (List Nat) → Prop
  | _, [], [] => True
  | u, c :: v, t :: τ => (∀ i, i ∈ t ↔ FiresAt e u c i) ∧ Traced e (u ++ [c]) v τ
  | _, _, _ => False

section Bare

variable {e : Exp Nat} {c : UInt8} {m : Move} {w : List UInt8} {i : Nat}

theorem bare_plain (h : e.bare = true) : Plain e := by
  induction e with
  | eps => trivial
  | chars p => trivial
  | seq e f ihe ihf | alt e f ihe ihf =>
    rw [Exp.bare, Bool.and_eq_true] at h
    exact ⟨ihe h.1, ihf h.2⟩
  | star e ih => exact ih h
  | entering a e ih | finishing a e ih | leaving a e ih | prior s n v e ih => cases h

theorem bare_out (h : e.bare = true) {o : List Nat} (ho : out e = some o) : o = [] := by
  induction e generalizing o with
  | eps => simpa [out, eq_comm] using ho
  | chars p => cases ho
  | seq e f ihe ihf =>
    rw [Exp.bare, Bool.and_eq_true] at h
    obtain ⟨o₁, ho₁, o₂, ho₂, rfl⟩ : ∃ o₁, out e = some o₁ ∧ ∃ o₂, out f = some o₂ ∧ o₁ ++ o₂ = o := by
      simpa [out, Option.bind_eq_some_iff] using ho
    rw [ihe h.1 ho₁, ihf h.2 ho₂, List.append_nil]
  | alt e f ihe ihf =>
    rw [Exp.bare, Bool.and_eq_true] at h
    cases hoe : out e with
    | none =>
      rw [out, hoe] at ho
      exact ihf h.2 ho
    | some o₁ =>
      cases hof : out f with
      | none =>
        rw [out, hoe, hof, Option.some.injEq] at ho
        exact ho ▸ ihe h.1 hoe
      | some o₂ =>
        rw [out, hoe, hof, Option.some.injEq] at ho
        rw [← ho, ihe h.1 hoe, ihf h.2 hof, List.append_nil]
  | star e ih =>
    rw [out, Option.some.injEq] at ho
    cases hoe : out e with
    | none => simpa [hoe, eq_comm] using ho
    | some o₁ => simpa [hoe, ih h hoe, eq_comm] using ho
  | entering a e ih | finishing a e ih | leaving a e ih | prior s n v e ih => cases h

theorem bare_move (h : e.bare = true) (hm : m ∈ moves e c) : m.fires = [] ∧ m.rest.bare = true := by
  induction e generalizing m with
  | eps => simp [moves] at hm
  | chars p =>
    simp only [moves] at hm
    split at hm
    · obtain rfl := List.mem_singleton.mp hm
      exact ⟨rfl, rfl⟩
    · simp at hm
  | seq e f ihe ihf =>
    rw [Exp.bare, Bool.and_eq_true] at h
    obtain hm | hm := List.mem_append.mp hm
    · obtain ⟨n, hn, rfl⟩ := List.mem_map.mp hm
      exact ⟨(ihe h.1 hn).1, by simp [Move.under, Exp.bare, (ihe h.1 hn).2, h.2]⟩
    · cases ho : out e with
      | none => simp [ho] at hm
      | some o =>
        rw [ho] at hm
        obtain ⟨n, hn, rfl⟩ := List.mem_map.mp hm
        exact ⟨by simp [Move.fire, (ihf h.2 hn).1, bare_out h.1 ho], (ihf h.2 hn).2⟩
  | alt e f ihe ihf =>
    rw [Exp.bare, Bool.and_eq_true] at h
    obtain hm | hm := List.mem_append.mp hm
    · exact ihe h.1 hm
    · exact ihf h.2 hm
  | star e ih =>
    obtain ⟨n, hn, rfl⟩ := List.mem_map.mp hm
    have he : e.bare = true := h
    have ho : (out e).getD [] = [] := by
      cases hoe : out e with
      | none => rfl
      | some o => exact bare_out he hoe
    exact ⟨by simp [Move.fire, Move.under, (ih he hn).1, ho],
      by simp [Move.fire, Move.under, Exp.bare, (ih he hn).2, he]⟩
  | entering a e ih | finishing a e ih | leaving a e ih | prior s n v e ih => cases h

theorem Goes.bare {r : Exp Nat} (hg : Goes e w r) (h : e.bare = true) : r.bare = true := by
  induction hg with
  | nil e => exact h
  | cons hm _ ih => exact ih (bare_move h hm).2

theorem bare_not_firesAt (h : e.bare = true) : ¬ FiresAt e w c i := by
  rintro ⟨r, hr, m, hm, hi⟩
  rw [(bare_move (hr.bare h) hm).1] at hi
  cases hi

theorem bare_not_leavesAt (h : e.bare = true) : ¬ LeavesAt e w i := by
  rintro ⟨r, hr, o, ho, hi⟩
  rw [bare_out (hr.bare h) ho] at hi
  cases hi

theorem accepts_opt : Accepts e.opt w ↔ Accepts e w ∨ w = [] := by
  rw [Exp.opt, accepts_alt, accepts_iff (e := .eps) trivial, lang, Language.mem_one]

theorem firesAt_opt : FiresAt e.opt w c i ↔ FiresAt e w c i := by
  rw [Exp.opt, firesAt_alt, or_iff_left (bare_not_firesAt (e := .eps) rfl)]

theorem leavesAt_opt : LeavesAt e.opt w i ↔ LeavesAt e w i := by
  rw [Exp.opt, leavesAt_alt, or_iff_left (bare_not_leavesAt (e := .eps) rfl)]

variable {b : UInt8}

theorem accepts_byte : Accepts (.byte b) w ↔ w = [b] := by
  rw [accepts_iff (e := .byte b) trivial, mem_lang_byte]

theorem accepts_byte_seq : Accepts (.seq (.byte b) e) w ↔ ∃ v, w = b :: v ∧ Accepts e v := by
  simp only [accepts_seq, accepts_byte]
  constructor
  · rintro ⟨_, v, rfl, rfl, hv⟩
    exact ⟨v, rfl, hv⟩
  · rintro ⟨v, rfl, hv⟩
    exact ⟨[b], v, rfl, rfl, hv⟩

theorem firesAt_byte_seq : FiresAt (.seq (.byte b) e) w c i ↔ ∃ v, w = b :: v ∧ FiresAt e v c i := by
  rw [firesAt_seq, or_iff_right (bare_not_firesAt rfl), or_iff_right fun h => bare_not_leavesAt rfl h.1]
  simp only [accepts_byte]
  constructor
  · rintro ⟨_, v, rfl, rfl, hv⟩
    exact ⟨v, rfl, hv⟩
  · rintro ⟨v, rfl, hv⟩
    exact ⟨[b], v, rfl, rfl, hv⟩

theorem leavesAt_byte_seq : LeavesAt (.seq (.byte b) e) w i ↔ ∃ v, w = b :: v ∧ LeavesAt e v i := by
  rw [leavesAt_seq, or_iff_right fun h => bare_not_leavesAt rfl h.1]
  simp only [accepts_byte]
  constructor
  · rintro ⟨_, v, rfl, rfl, hv⟩
    exact ⟨v, rfl, hv⟩
  · rintro ⟨v, rfl, hv⟩
    exact ⟨[b], v, rfl, rfl, hv⟩

theorem leavesAt_seq_byte : ¬ LeavesAt (.seq e (.byte b)) w i := by
  rw [leavesAt_seq]
  rintro (⟨-, h⟩ | ⟨u, v, -, -, h⟩)
  · cases h
  · exact bare_not_leavesAt rfl h

theorem firesAt_seq_byte :
    FiresAt (.seq e (.byte b)) w c i ↔ FiresAt e w c i ∨ (LeavesAt e w i ∧ c = b) := by
  have hr : Reads (.byte b) [c] ↔ c = b := by
    rw [reads_singleton]
    simp [Exp.byte, moves]
  rw [firesAt_seq, hr]
  refine or_congr_right (or_iff_left ?_)
  rintro ⟨u, v, -, -, h⟩
  exact bare_not_firesAt rfl h

end Bare

section Traces

variable {Q F : UInt8 → Prop} {e g : Exp Nat} {u v v' w : List UInt8} {τ τ' : List (List Nat)} {o : List Nat}

theorem Goes.plain {r : Exp Nat} (hg : Goes e w r) (h : Plain e) : Plain r := by
  induction hg with
  | nil e => exact h
  | cons hm _ ih => exact ih (h.move hm).2

theorem Traced.append (h : Traced e u v τ) (h' : Traced e (u ++ v) v' τ') : Traced e u (v ++ v') (τ ++ τ') := by
  induction v generalizing u τ with
  | nil =>
    cases τ with
    | nil => simpa using h'
    | cons t τ => cases h
  | cons c v ih =>
    cases τ with
    | nil => cases h
    | cons t τ => exact ⟨h.1, ih h.2 (by simpa using h')⟩

theorem Traced.congr {u' : List UInt8} (h : Traced e u v τ)
    (hf : ∀ x c y, v = x ++ c :: y → ∀ i, FiresAt g (u' ++ x) c i ↔ FiresAt e (u ++ x) c i) : Traced g u' v τ := by
  induction v generalizing u u' τ with
  | nil =>
    cases τ with
    | nil => trivial
    | cons t τ => cases h
  | cons c v ih =>
    cases τ with
    | nil => cases h
    | cons t τ =>
      refine ⟨fun i => ?_, ih h.2 fun x d y hv i => ?_⟩
      · have hi := hf [] c v rfl i
        rw [List.append_nil, List.append_nil] at hi
        rw [h.1, hi]
      · have hi := hf (c :: x) d y (by rw [hv]; rfl) i
        simpa using hi

theorem traced_silent (h : ∀ x c y, v = x ++ c :: y → ∀ i, ¬ FiresAt e (u ++ x) c i) :
    Traced e u v (silent v) := by
  induction v generalizing u with
  | nil => trivial
  | cons c v ih =>
    refine ⟨fun i => ⟨fun hi => (nomatch hi), fun hi => ?_⟩, ih fun x d y hv i hi => ?_⟩
    · exact absurd hi (by simpa using h [] c v rfl i)
    · exact h (c :: x) d y (by rw [hv]; rfl) i (by simpa using hi)

theorem run_of_traced (he : Plain e) (hr : Reads e (u ++ v)) (hτ : Traced e u v τ)
    (hQ : ∀ x c y, v = x ++ c :: y → Accepts e (u ++ x) → Q c) :
    Run Q {r | Goes e u r} v τ {r | Goes e (u ++ v) r} := by
  induction v generalizing u τ with
  | nil =>
    cases τ with
    | nil => simpa using Run.nil _
    | cons t τ => cases hτ
  | cons c v ih =>
    cases τ with
    | nil => cases hτ
    | cons t τ =>
      have happ : u ++ c :: v = u ++ [c] ++ v := by simp
      refine .cons (fun hf => ?_)
        (Step.of_plain (T := {r | Goes e (u ++ [c]) r}) (fun x hx => Goes.plain hx he) ?_ ?_ ?_) ?_
      · obtain ⟨r, hr, ho⟩ := hf
        exact hQ [] c v rfl ⟨r, by simpa using hr, ho⟩
      · obtain ⟨r, hr⟩ := hr
        rw [happ] at hr
        obtain ⟨x, hx, -⟩ := goes_append.mp hr
        exact ⟨x, hx⟩
      · intro r
        exact goes_concat
      · exact hτ.1
      · rw [happ]
        rw [happ] at hr
        exact ih hr hτ.2 fun x d y hv ha => hQ (c :: x) d y (by rw [hv]; rfl) (by simpa using ha)

/-- The rules of `Scans` from the paths of a machine without priorities. -/
theorem Scans.of_traced (he : Plain e) (ha : Accepts e w) (hτ : Traced e [] w τ) (ho : ∀ i, i ∈ o ↔ LeavesAt e w i)
    (hQ : ∀ x c y, w = x ++ c :: y → Accepts e x → Q c) (hF : ∀ c, F c → ¬ Reads e (w ++ [c])) :
    Scans Q e w τ o F := by
  obtain ⟨r, hr, hor⟩ := ha
  have hrun := run_of_traced he ⟨r, by simpa using hr⟩ hτ hQ
  have hstart : {r | Goes e [] r} = {e} := by
    ext x
    exact goes_nil
  rw [hstart, List.nil_append] at hrun
  refine ⟨_, hrun, ⟨r, hr, hor⟩, ho, fun c hc x hx => ?_⟩
  by_contra hne
  obtain ⟨m, hm⟩ := List.exists_mem_of_ne_nil _ hne
  exact hF c hc ⟨m.rest, goes_concat.mpr ⟨x, hx, m, hm, rfl⟩⟩

theorem Scans.of_lang (he : e.bare = true) (hw : w ∈ lang e) (hQ : ∀ c, alphabet e c = true → Q c)
    (hF : ∀ c, F c → alphabet e c = false) : Scans Q e w (silent w) [] F := by
  have hp := bare_plain he
  refine Scans.of_traced hp ((accepts_iff hp).mpr hw) (traced_silent fun _ _ _ _ _ => bare_not_firesAt he)
    (fun i => ⟨fun hi => (nomatch hi), fun hi => absurd hi (bare_not_leavesAt he)⟩) (fun x c y hxy _ => ?_)
    fun c hc => not_reads (hF c hc) (by simp)
  refine hQ c (mem_alphabet hw ?_)
  rw [hxy]
  exact List.mem_append_right _ List.mem_cons_self

theorem Traced.entering {a : Nat} {c : UInt8} {t : List Nat} (hr : Reads e [c]) (h : Traced e [] (c :: w) (t :: τ)) :
    Traced (.entering a e) [] (c :: w) ((a :: t) :: τ) := by
  refine ⟨fun i => ?_, h.2.congr fun x d y _ i => ?_⟩
  · rw [List.mem_cons, firesAt_entering, h.1]
    simp [hr]
  · simp [firesAt_entering]

theorem Run.traced (he : Plain e) {S T : States} (h : Run Q S v τ T) (hS : S = {r | Goes e u r}) :
    Traced e u v τ ∧ T = {r | Goes e (u ++ v) r} ∧ ∀ x c y, v = x ++ c :: y → Accepts e (u ++ x) → Q c := by
  induction h generalizing u with
  | nil S => exact ⟨trivial, by simpa using hS, fun x c y hv => by simp at hv⟩
  | @cons S T U c w t τ hf hs hr ih =>
    subst hS
    have hk : ∀ m, Kept {r | Goes e u r} c m ↔ ∃ x, Goes e u x ∧ m ∈ moves x c := by
      intro m
      refine ⟨fun h => h.1, fun h => ⟨h, fun m' _ => ?_⟩⟩
      obtain ⟨x, hx, hm⟩ := h
      simp [Move.below, ((hx.plain he).move hm).1]
    have hT : T = {r | Goes e (u ++ [c]) r} := by
      rw [← hs.after_eq]
      ext r
      simp only [after, Set.mem_ofPred_eq, hk, goes_concat]
      constructor
      · rintro ⟨m, ⟨x, hx, hm⟩, rfl⟩
        exact ⟨x, hx, m, hm, rfl⟩
      · rintro ⟨x, hx, m, hm, rfl⟩
        exact ⟨m, ⟨x, hx, hm⟩, rfl⟩
    obtain ⟨hτ, hU, hQ⟩ := ih hT
    refine ⟨⟨fun i => ?_, hτ⟩, by rw [hU]; simp, fun x d y hxy ha => ?_⟩
    · rw [hs.fires_iff]
      simp only [Fires, hk, FiresAt]
      constructor
      · rintro ⟨m, ⟨x, hx, hm⟩, hi⟩
        exact ⟨x, hx, m, hm, hi⟩
      · rintro ⟨x, hx, m, hm, hi⟩
        exact ⟨m, ⟨x, hx, hm⟩, hi⟩
    · cases x with
      | nil =>
        obtain ⟨rfl, -⟩ := List.cons.inj hxy
        obtain ⟨r, hr, ho⟩ := ha
        exact hf ⟨r, by simpa using hr, ho⟩
      | cons b x =>
        obtain ⟨rfl, hw⟩ := List.cons.inj hxy
        exact hQ x d y hw (by simpa using ha)

theorem Scans.alt_ghost {G : UInt8 → Prop} (he : Plain e) (hg : Plain g) (h : Scans Q e w τ o F)
    (hfires : ∀ x c y, w = x ++ c :: y → ∀ i, ¬ FiresAt g x c i) (hleaves : ∀ i, ¬ LeavesAt g w i)
    (hQ : ∀ x c y, w = x ++ c :: y → Accepts g x → Q c) (hG : ∀ c, G c → F c ∧ ¬ Reads g (w ++ [c])) :
    Scans Q (.alt e g) w τ o G := by
  obtain ⟨T, hr, ⟨r, hrT, hor⟩, ho, hstuck⟩ := h
  have hstart : ({e} : States) = {r | Goes e [] r} := by
    ext x
    exact goes_nil.symm
  obtain ⟨hτ, rfl, hQe⟩ := hr.traced he hstart
  refine Scans.of_traced ⟨he, hg⟩ (accepts_alt.mpr (.inl ⟨r, hrT, hor⟩)) ?_ (fun i => ?_) ?_ fun c hc hreads => ?_
  · refine hτ.congr fun x c y hw i => ?_
    rw [List.nil_append, firesAt_alt, or_iff_left (hfires x c y hw i)]
  · rw [leavesAt_alt, or_iff_left (hleaves i)]
    exact ho i
  · intro x c y hw ha
    obtain ha | ha := accepts_alt.mp ha
    · exact hQe x c y hw ha
    · exact hQ x c y hw ha
  · obtain ⟨hcF, hcg⟩ := hG c hc
    obtain ⟨r', hr'⟩ := ((reads_alt (by simp)).mp hreads).resolve_right hcg
    obtain ⟨x, hx, m, hm, -⟩ := goes_concat.mp hr'
    rw [hstuck c hcF x hx] at hm
    cases hm

/-- A whole text with its embeddings, the leaving ones last. -/
def Covers (Q : UInt8 → Prop) (e : Exp Nat) (w : List UInt8) (τ : List (List Nat)) (F : UInt8 → Prop) : Prop :=
  ∃ σ o, τ = σ ++ [o] ∧ Scans Q e w σ o F

theorem covers_iff : Covers Q e w (τ ++ [o]) F ↔ Scans Q e w τ o F := by
  constructor
  · rintro ⟨σ, u, heq, h⟩
    obtain ⟨rfl, rfl⟩ : τ = σ ∧ o = u := by simpa using heq
    exact h
  · exact fun h => ⟨τ, o, rfl, h⟩

theorem Covers.nil (ho : out e = some o) (hF : ∀ c, F c → moves e c = []) : Covers Q e [] [o] F :=
  ⟨[], o, rfl, Scans.nil ho hF⟩

theorem Covers.of_lang (he : e.bare = true) (hw : w ∈ lang e) (hQ : ∀ c, alphabet e c = true → Q c)
    (hF : ∀ c, F c → alphabet e c = false) : Covers Q e w (silent w ++ [[]]) F :=
  ⟨_, _, rfl, Scans.of_lang he hw hQ hF⟩

theorem Covers.entering {c : UInt8} {t : List Nat} (a : Nat) (h : Covers Q e (c :: w) (t :: τ) F) :
    Covers Q (.entering a e) (c :: w) ((a :: t) :: τ) F := by
  obtain ⟨σ, o, heq, h⟩ := h
  cases σ with
  | nil =>
    obtain ⟨T, hr, -⟩ := h
    cases hr
  | cons t' σ =>
    obtain ⟨rfl, rfl⟩ := List.cons.inj heq
    exact ⟨(a :: t) :: σ, o, rfl, h.entering a⟩

theorem Covers.leaving (a : Nat) (h : Covers Q e w (τ ++ [o]) F) : Covers Q (.leaving a e) w (τ ++ [o ++ [a]]) F :=
  covers_iff.mpr ((covers_iff.mp h).leaving a)

theorem Covers.seq {P R G : UInt8 → Prop} {f : Exp Nat} {w' : List UInt8} {t : List Nat}
    (h : Covers Q e w (τ ++ [o]) F) (h' : Covers P f w' (t :: τ') G)
    (hw : ∀ c ∈ w'.head?, F c) (hG : ∀ c, G c → F c) (hq : ∀ c, Q c → moves f c = [])
    (hQ : ∀ c, (out f).isSome = true → Q c → R c) (hP : ∀ c, P c → R c) :
    Covers R (.seq e f) (w ++ w') (τ ++ (o ++ t) :: τ') G := by
  have h := covers_iff.mp h
  obtain ⟨σ, u, heq, h'⟩ := h'
  cases w' with
  | nil =>
    obtain ⟨T, hr, hT, ho, hstuck⟩ := h'
    cases hr with
    | nil =>
      obtain ⟨x, hx, hof⟩ := hT
      rw [Set.mem_singleton_iff.mp hx] at hof
      obtain ⟨o₀, ho₀⟩ := Option.isSome_iff_exists.mp hof
      obtain ⟨rfl, rfl⟩ : t = u ∧ τ' = [] := by simpa using heq
      have hs := h.seq_nil ho₀ hq (G := G) fun c hc => ⟨hG c hc, stuck_singleton.mp (hstuck c hc)⟩
      have hs' : Scans R (.seq e f) w τ (o ++ t) G := by
        refine Scans.congr_out (hs.mono (fun c hc => hQ c hof hc) fun _ hc => hc) fun i => ?_
        rw [List.mem_append, List.mem_append, ho]
        exact or_congr_right (leaves_singleton ho₀ i).symm
      rw [List.append_nil]
      exact ⟨τ, o ++ t, rfl, hs'⟩
  | cons c w' =>
    cases σ with
    | nil =>
      obtain ⟨T, hr, -⟩ := h'
      cases hr
    | cons t' σ =>
      obtain ⟨rfl, rfl⟩ := List.cons.inj heq
      exact ⟨τ ++ (o ++ t) :: σ, u, by simp, h.seq h' (hw c rfl) hq hQ hP⟩

theorem Covers.seq_silent {P R G : UInt8 → Prop} {f : Exp Nat} {w' : List UInt8}
    (h : Covers Q e w (τ ++ [[]]) F) (h' : Covers P f w' τ' G)
    (hw : ∀ c ∈ w'.head?, F c) (hG : ∀ c, G c → F c) (hq : ∀ c, Q c → moves f c = [])
    (hQ : ∀ c, (out f).isSome = true → Q c → R c) (hP : ∀ c, P c → R c) :
    Covers R (.seq e f) (w ++ w') (τ ++ τ') G := by
  cases τ' with
  | nil =>
    obtain ⟨σ, o, heq, -⟩ := h'
    simp at heq
  | cons t τ' => exact h.seq h' hw hG hq hQ hP

theorem Covers.seq_append {P R G : UInt8 → Prop} {f : Exp Nat} {w' : List UInt8}
    (h : Covers Q e w τ F) (h' : Covers P f w' ([] :: τ') G)
    (hw : ∀ c ∈ w'.head?, F c) (hG : ∀ c, G c → F c) (hq : ∀ c, Q c → moves f c = [])
    (hQ : ∀ c, (out f).isSome = true → Q c → R c) (hP : ∀ c, P c → R c) :
    Covers R (.seq e f) (w ++ w') (τ ++ τ') G := by
  obtain ⟨σ, o, rfl, h⟩ := h
  have hs := (covers_iff.mpr h).seq h' hw hG hq hQ hP
  rwa [List.append_nil, ← List.singleton_append, ← List.append_assoc] at hs

theorem Covers.accepts (he : Plain e) (h : Covers Q e w τ F) : Accepts e w := by
  obtain ⟨σ, o, rfl, T, hr, ⟨r, hrT, ho⟩, -⟩ := h
  have hstart : ({e} : States) = {r | Goes e [] r} := by
    ext x
    exact goes_nil.symm
  obtain ⟨-, rfl, -⟩ := hr.traced he hstart
  exact ⟨r, hrT, ho⟩

theorem Covers.alt_bare (he : Plain e) (hg : g.bare = true) (h : Covers Q e w τ F) (hQ : ∀ c ∈ w, Q c)
    (hF : ∀ c, F c → alphabet g c = false) : Covers Q (.alt e g) w τ F := by
  obtain ⟨σ, o, rfl, h⟩ := h
  refine ⟨σ, o, rfl, h.alt_ghost he (bare_plain hg) (fun _ _ _ _ _ => bare_not_firesAt hg)
    (fun _ => bare_not_leavesAt hg) (fun x c y hw _ => hQ c ?_) fun c hc => ⟨hc, not_reads (hF c hc) (by simp)⟩⟩
  rw [hw]
  exact List.mem_append_right _ List.mem_cons_self

theorem Covers.marked {i k : Nat} (he : e.bare = true) (hw : w ∈ lang e) (hne : w ≠ [])
    (hQ : ∀ c, alphabet e c = true → Q c) (hF : ∀ c, F c → alphabet e c = false) :
    Covers Q (.leaving k (.entering i e)) w ([i] :: silent w.tail ++ [[k]]) F := by
  obtain ⟨c, w, rfl⟩ := List.exists_cons_of_ne_nil hne
  have h : Covers Q (.entering i e) (c :: w) ([i] :: silent w ++ [[]]) F := (Covers.of_lang he hw hQ hF).entering i
  exact h.leaving k

end Traces

section Exec

variable {A σ : Type} [DecidableEq A]

def transit (table : List A) (S : Config) (c : UInt8) : Option (Config × List A) :=
  let ms := kept S c
  if ms.isEmpty then none
  else some (ms.map Move.rest, pick table fun i => ms.any fun m => m.fires.contains i)

/-- The leaving actions of a state, performed at the end of the data. -/
def atEof (table : List A) (S : Config) : List A := pick table fun i => S.any fun e => ((out e).getD []).contains i

def runActs (act : A → Nat → σ → Option σ) (p : Nat) (as : List A) (s : σ) : Option σ :=
  as.foldlM (fun s a => act a p s) s

/-- `write exec` on data that end at `eof`: the last state, where `none` is the error state. -/
def exec (table : List A) (act : A → Nat → σ → Option σ) : Config → Nat → List UInt8 → σ → Option (Option Config × σ)
  | S, p, [], s => (runActs act p (atEof table S) s).map (some S, ·)
  | S, p, c :: w, s =>
    match transit table S c with
    | none => some (none, s)
    | some (S', as) => (runActs act p as s).bind (exec table act S' (p + 1) w)

def runAll (act : A → Nat → σ → Option σ) : Nat → List (List A) → σ → Option σ
  | _, [], s => some s
  | p, as :: τ, s => (runActs act p as s).bind (runAll act (p + 1) τ)

theorem transit_of_step (table : List A) {S : Config} {c : UInt8} {t : List Nat} {T : States}
    (hs : Step {x | x ∈ S} c t T) :
    ∃ S', {x | x ∈ S'} = T ∧ transit table S c = some (S', actions table t) := by
  obtain ⟨hafter, hne, hfires⟩ := kept_of_step hs
  exact ⟨_, hafter, by simp only [transit, hne, Bool.false_eq_true, if_false, hfires, actions]⟩

theorem atEof_eq (table : List A) {S : Config} {o : List Nat} (ho : ∀ i, i ∈ o ↔ Leaves {x | x ∈ S} i) :
    atEof table S = actions table o := by
  have hfun : (fun i => S.any fun e => ((out e).getD []).contains i) = o.contains := by
    funext i
    rw [Bool.eq_iff_iff, List.any_eq_true, List.contains_iff_mem, ho]
    constructor
    · rintro ⟨e, he, hi⟩
      cases hoe : out e with
      | none => simp [hoe] at hi
      | some u => exact ⟨e, he, u, hoe, by simpa [hoe] using hi⟩
    · rintro ⟨e, he, u, hoe, hi⟩
      exact ⟨e, he, by simpa [hoe] using hi⟩
  rw [atEof, hfun, actions]

variable (act : A → Nat → σ → Option σ)

omit [DecidableEq A] in
theorem runAll_append (p : Nat) (τ τ' : List (List A)) (s : σ) :
    runAll act p (τ ++ τ') s = (runAll act p τ s).bind (runAll act (p + τ.length) τ') := by
  induction τ generalizing p s with
  | nil => rfl
  | cons as τ ih =>
    have hp : p + 1 + τ.length = p + (τ.length + 1) := by omega
    simp only [List.cons_append, runAll, List.length_cons, Option.bind_assoc]
    congr 1
    funext s'
    rw [ih, hp]

omit [DecidableEq A] in
theorem runAll_silent (p n : Nat) (s : σ) : runAll act p (List.replicate n []) s = some s := by
  induction n generalizing p with
  | zero => rfl
  | succ n ih => exact ih (p + 1)

theorem exec_of_run (table : List A) {Q : UInt8 → Prop} {S : Config} {S₀ T : States} {w : List UInt8}
    {τ : List (List Nat)} {o : List Nat} (h : Run Q S₀ w τ T) (hS : {x | x ∈ S} = S₀)
    (ho : ∀ i, i ∈ o ↔ Leaves T i) :
    ∃ S', {x | x ∈ S'} = T ∧ ∀ p s, exec table act S p w s =
      (runAll act p ((τ ++ [o]).map (actions table)) s).map (some S', ·) := by
  induction h generalizing S with
  | nil S₀ =>
    subst hS
    refine ⟨S, rfl, fun p s => ?_⟩
    rw [exec, atEof_eq table ho]
    simp [runAll]
  | @cons S₀ T₁ U c w t τ hf hs hr ih =>
    subst hS
    obtain ⟨S₁, hS₁, ht⟩ := transit_of_step table hs
    obtain ⟨S', hS', hexec⟩ := ih hS₁ ho
    refine ⟨S', hS', fun p s => ?_⟩
    simp only [exec, ht, List.cons_append, List.map_cons, runAll, Option.map_bind]
    congr 1
    funext s'
    exact hexec (p + 1) s'

/-- A text that is read from the begin to a final state. -/
theorem exec_of_covers {e : Exp A} {Q F : UInt8 → Prop} {w : List UInt8} {τ : List (List Nat)}
    (h : Covers Q (e.stamp 0) w τ F) (s : σ) :
    ∃ S', isFinal S' = true ∧ exec e.table act [e.stamp 0] 0 w s =
      (runAll act 0 (τ.map (actions e.table)) s).map (some S', ·) := by
  obtain ⟨τ, o, rfl, T, hr, hT, ho, -⟩ := h
  obtain ⟨S', rfl, hexec⟩ := exec_of_run act e.table (S := [e.stamp 0]) hr (by simp) ho
  exact ⟨S', isFinal_iff.mpr hT, hexec 0 s⟩

end Exec

def accepted {A : Type} (e : Exp A) (w : List UInt8) : Bool :=
  isFinal (w.foldl (fun S c => (candidates S c).map Move.rest) [e.stamp 0])

theorem accepts_of_isFinal {S : Config} {w : List UInt8}
    (h : isFinal (w.foldl (fun S c => (candidates S c).map Move.rest) S) = true) : ∃ e ∈ S, Accepts e w := by
  induction w generalizing S with
  | nil =>
    obtain ⟨e, he, ho⟩ := List.any_eq_true.mp h
    exact ⟨e, he, accepts_nil.mpr ho⟩
  | cons c w ih =>
    obtain ⟨r, hr, ha⟩ := ih h
    obtain ⟨m, hm, rfl⟩ := List.mem_map.mp hr
    obtain ⟨e, he, hm⟩ := List.mem_flatMap.mp hm
    exact ⟨e, he, accepts_cons.mpr ⟨m, hm, ha⟩⟩

theorem mem_lang_of_matches {A : Type} {e : Exp A} {w : List UInt8} (he : e.simple = true)
    (h : accepted e w = true) : w ∈ lang e := by
  obtain ⟨x, hx, ha⟩ := accepts_of_isFinal h
  obtain rfl := List.mem_singleton.mp hx
  rwa [accepts_iff (plain_stamp he 0), lang_stamp] at ha

end Windgent.Ragel
