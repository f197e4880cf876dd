import Windgent.Ragel.Parallel
import Windgent.Http.Http11

namespace Windgent.Http.Http11

open Ragel

/-- A text of `pchar` and of the bytes `extra`. -/
inductive Pchars (relaxed : Bool) (extra : UInt8 → Bool) : List UInt8 → Prop
  | nil : Pchars relaxed extra []
  | byte {c : UInt8} {s : List UInt8} (hc : (plain relaxed c || extra c) = true)
      (h : Pchars relaxed extra s) : Pchars relaxed extra (c :: s)
  | pct {x y : UInt8} {s : List UInt8} (hx : xdigit x = true) (hy : xdigit y = true)
      (h : Pchars relaxed extra s) : Pchars relaxed extra (37 :: x :: y :: s)

def IsPath (relaxed : Bool) (path : List UInt8) : Prop :=
  ∃ s, path = 47 :: s ∧ s.head? ≠ some 47 ∧ Pchars relaxed (· = 47) s

/-- The bytes that a `pchar` or an extra byte may begin with. -/
def Starts (relaxed : Bool) (extra : UInt8 → Bool) (c : UInt8) : Prop :=
  (plain relaxed c || extra c) = true ∨ c = 37

section Uri

variable {relaxed : Bool} {k : Nat} {Q F : UInt8 → Prop} {extra : UInt8 → Bool} {w : List UInt8} {U : Exp Nat}

structure Units (relaxed : Bool) (extra : UInt8 → Bool) (U : Exp Nat) : Prop where
  out_eq : out U = none
  byte : ∀ c, (plain relaxed c || extra c) = true →
    Scans (fun _ => False) U [c] [[]] [] fun _ => True
  pct : ∀ x y, xdigit x = true → xdigit y = true →
    Scans (fun _ => False) U [37, x, y] [[], [], []] [] fun _ => True
  starts : ∀ c, ¬ Starts relaxed extra c → moves U c = []

theorem Units.star (hU : Units relaxed extra U) (h : Pchars relaxed extra w)
    (hQ : ∀ c, Starts relaxed extra c → Q c) (hF : ∀ c, F c → ¬ Starts relaxed extra c) :
    Scans Q (.star U) w (silent w) [] F := by
  induction h with
  | nil => exact Scans.nil (by simp [out, hU.out_eq]) fun c hc => moves_star_eq_nil (hU.starts c (hF c hc))
  | byte hc _ ih =>
    exact Scans.star_cons hU.out_eq (hU.byte _ hc) (fun _ h => h.elim) (fun _ h => h.elim) (hQ _ (.inl hc))
      (fun _ _ => trivial) (fun _ _ => trivial) ih
  | pct hx hy _ ih =>
    exact Scans.star_cons hU.out_eq (hU.pct _ _ hx hy) (fun _ h => h.elim) (fun _ h => h.elim)
      (hQ _ (.inr rfl)) (fun _ _ => trivial) (fun _ _ => trivial) ih

theorem plain_percent (relaxed : Bool) : plain relaxed 37 = false := by
  cases relaxed <;> decide

theorem scans_pctEncoded {x y : UInt8} (hx : xdigit x = true) (hy : xdigit y = true) :
    Scans (fun _ => False) (pctEncoded.stamp k) [37, x, y] [[], [], []] [] fun _ => True := by
  have hp : Scans (fun _ => False) (.byte 37) [37] [[]] [] fun _ => True := Scans.chars (by simp)
  have hX : Scans (fun _ => False) (.chars xdigit) [x] [[]] [] fun _ => True := Scans.chars hx
  have hY : Scans (fun _ => False) (.chars xdigit) [y] [[]] [] fun _ => True := Scans.chars hy
  have hXY := hX.seq_quiet (R := fun _ => False) hY (fun _ _ => trivial) (fun _ _ => trivial)
    (fun _ h => h.elim) (fun _ _ h => h.elim) fun _ h => h
  exact hp.seq_quiet hXY (fun _ _ => trivial) (fun _ _ => trivial) (fun _ h => h.elim) (fun _ _ h => h.elim)
    fun _ h => h

theorem moves_pctEncoded {c : UInt8} (h : c ≠ 37) : moves (pctEncoded.stamp k) c = [] := by
  have hb : bytes "%" = [37] := by decide
  simp [pctEncoded, lit, hb, Exp.text, Exp.byte, Exp.stamp, moves, out, h]

theorem pchar_units : Units relaxed (fun _ => false) ((pchar relaxed).stamp k) where
  out_eq := rfl
  byte c hc := by
    rw [Bool.or_false] at hc
    have hne : c ≠ 37 := by
      rintro rfl
      rw [plain_percent] at hc
      cases hc
    exact (Scans.chars hc).alt_left (moves_pctEncoded hne) fun h => by cases h
  pct x y hx hy := by
    exact (scans_pctEncoded hx hy).alt_right (moves_chars_eq_nil (plain_percent relaxed)) fun h => by cases h
  starts c hc := by
    rw [Starts, Bool.or_false, not_or, Bool.not_eq_true] at hc
    have hp : moves ((pchar relaxed).stamp k) c =
      moves (.chars (plain relaxed)) c ++ moves (pctEncoded.stamp k) c := rfl
    rw [hp, moves_pctEncoded hc.2, moves_chars_eq_nil hc.1, List.append_nil]

theorem queryChar_units : Units relaxed (oneOf "/?") ((queryChar relaxed).stamp k) where
  out_eq := rfl
  byte c hc := by
    cases hp : plain relaxed c with
    | true =>
      have hs := pchar_units (k := k) |>.byte c (by simpa using hp)
      have hx : oneOf "/?" c = false := by
        by_contra hx
        rw [Bool.not_eq_false] at hx
        have hm : c = 47 ∨ c = 63 := by simpa [oneOf, show bytes "/?" = [47, 63] by decide] using hx
        obtain rfl | rfl := hm <;> cases relaxed <;> exact absurd hp (by decide)
      exact hs.alt_left (moves_chars_eq_nil hx) fun h => by cases h
    | false =>
      rw [hp, Bool.false_or] at hc
      refine (Scans.chars hc).alt_right (pchar_units.starts c ?_) fun h => by cases h
      rintro (h | rfl)
      · simp [hp] at h
      · exact absurd hc (by decide)
  pct x y hx hy := by
    exact (pchar_units.pct x y hx hy).alt_left (moves_chars_eq_nil (by decide)) fun h => by cases h
  starts c hc := by
    have hp : moves ((queryChar relaxed).stamp k) c =
      moves ((pchar relaxed).stamp k) c ++ moves (.chars (oneOf "/?")) c := rfl
    rw [Starts, Bool.or_eq_true, not_or, not_or, Bool.not_eq_true, Bool.not_eq_true] at hc
    obtain ⟨⟨hplain, hextra⟩, hpct⟩ := hc
    rw [hp, pchar_units.starts c (by simp [Starts, hplain, hpct]), moves_chars_eq_nil hextra, List.append_nil]

theorem not_starts_slash : ¬ Starts relaxed (fun _ => false) 47 := by
  cases relaxed <;> unfold Starts <;> decide

theorem Pchars.split {s : List UInt8} (h : Pchars relaxed (· = 47) s) :
    ∃ (u : List UInt8) (vs : List (List UInt8)), s = u ++ vs.flatMap (47 :: ·) ∧ Pchars relaxed (fun _ => false) u ∧
      ∀ v ∈ vs, Pchars relaxed (fun _ => false) v := by
  induction h with
  | nil => exact ⟨[], [], rfl, .nil, by simp⟩
  | @byte c s hc _ ih =>
    obtain ⟨u, vs, rfl, hu, hvs⟩ := ih
    by_cases hs : c = 47
    · subst hs
      exact ⟨[], u :: vs, rfl, .nil, List.forall_mem_cons.mpr ⟨hu, hvs⟩⟩
    · exact ⟨c :: u, vs, rfl, .byte (by simpa [hs] using hc) hu, hvs⟩
  | pct hx hy _ ih =>
    obtain ⟨u, vs, rfl, hu, hvs⟩ := ih
    exact ⟨_ :: _ :: _ :: u, vs, rfl, .pct hx hy hu, hvs⟩

theorem moves_slash {c : UInt8} (h : c ≠ 47) (f : Exp Nat) : moves (.seq (.text (bytes "/")) f) c = [] := by
  have hb : bytes "/" = [47] := by decide
  simp [hb, Exp.text, Exp.byte, moves, out, h]

theorem scans_segment {v : List UInt8} (h : Pchars relaxed (fun _ => false) v) :
    Scans (Starts relaxed fun _ => false) (.seq (.text (bytes "/")) (.star ((pchar relaxed).stamp k)))
      (47 :: v) (silent (47 :: v)) [] fun c => ¬ Starts relaxed (fun _ => false) c := by
  have hslash : Scans (fun _ => False) (.text (bytes "/")) [47] (silent [47]) [] fun _ => True :=
    Scans.text (w := [47]) (by simp)
  exact hslash.seq_quiet (pchar_units.star h (fun _ h => h) fun _ h => h) (fun _ _ => trivial)
    (fun _ _ => trivial) (fun _ h => h.elim) (fun _ _ h => h.elim) fun _ h => h

theorem scans_segments {vs : List (List UInt8)} (h : ∀ v ∈ vs, Pchars relaxed (fun _ => false) v) :
    Scans (fun c => Starts relaxed (fun _ => false) c ∨ c = 47) ((segments relaxed).stamp k)
      (vs.flatMap (47 :: ·)) (silent (vs.flatMap (47 :: ·))) []
      fun c => ¬ Starts relaxed (fun _ => false) c ∧ c ≠ 47 := by
  induction vs with
  | nil =>
    exact Scans.nil rfl fun c hc => moves_star_eq_nil (moves_slash hc.2 _)
  | cons v vs ih =>
    obtain ⟨hv, hvs⟩ := List.forall_mem_cons.mp h
    have hs := Scans.star_cons (P := fun c => Starts relaxed (fun _ => false) c ∨ c = 47)
      (G := fun c => ¬ Starts relaxed (fun _ => false) c ∧ c ≠ 47) rfl (scans_segment (k := k) hv)
      (fun c hc => moves_slash (by rintro rfl; exact not_starts_slash hc) _) (fun _ h => .inl h) (.inr rfl)
      (fun c hc => ?_) (fun _ h => h.1) (ih hvs)
    · rw [List.flatMap_cons, silent_append]
      exact hs
    · have hc47 : c = 47 := by
        by_contra hne
        exact hc (moves_slash hne _)
      rw [hc47]
      exact not_starts_slash

theorem scans_segmentNz {u : List UInt8} (h : Pchars relaxed (fun _ => false) u) (hne : u ≠ []) :
    Scans (Starts relaxed fun _ => false) ((segmentNz relaxed).stamp k) u (silent u) []
      fun c => ¬ Starts relaxed (fun _ => false) c := by
  cases h with
  | nil => exact absurd rfl hne
  | byte hc hs =>
    exact (pchar_units.byte _ hc).seq_quiet (pchar_units.star hs (fun _ h => h) fun _ h => h)
      (fun _ _ => trivial) (fun _ _ => trivial) (fun _ h => h.elim) (fun _ _ h => h.elim) fun _ h => h
  | pct hx hy hs =>
    exact (pchar_units.pct _ _ hx hy).seq_quiet (pchar_units.star hs (fun _ h => h) fun _ h => h)
      (fun _ _ => trivial) (fun _ _ => trivial) (fun _ h => h.elim) (fun _ _ h => h.elim) fun _ h => h

theorem moves_segmentNz {c : UInt8} (h : ¬ Starts relaxed (fun _ => false) c) :
    moves ((segmentNz relaxed).stamp k) c = [] := by
  have hm : moves ((pchar relaxed).stamp k) c = [] := pchar_units.starts c h
  have ho : out ((pchar relaxed).stamp k) = none := rfl
  have hs : (segmentNz relaxed).stamp k =
    .seq ((pchar relaxed).stamp k) (.star ((pchar relaxed).stamp (k + (pchar relaxed).table.length))) := rfl
  simp [hs, moves, hm, ho]

theorem scans_pathRest {s : List UInt8} (hhead : s.head? ≠ some 47) (h : Pchars relaxed (· = 47) s) :
    Scans (fun c => Starts relaxed (fun _ => false) c ∨ c = 47)
      ((Exp.opt (.seq (segmentNz relaxed) (segments relaxed))).stamp k) s (silent s) []
      fun c => ¬ Starts relaxed (fun _ => false) c ∧ c ≠ 47 := by
  obtain ⟨u, vs, rfl, hu, hvs⟩ := h.split
  cases u with
  | nil =>
    have hvs : vs = [] := by
      cases vs with
      | nil => rfl
      | cons v vs => simp at hhead
    subst hvs
    refine Scans.nil rfl fun c hc => ?_
    have ho : out ((segmentNz relaxed).stamp k) = none := rfl
    simp [Exp.opt, Exp.stamp, moves, moves_segmentNz hc.1, ho]
  | cons c u =>
    have hnext : ∀ d ∈ (vs.flatMap (47 :: ·)).head?, ¬ Starts relaxed (fun _ => false) d := by
      intro d hd
      have hd47 : d = 47 := by
        cases vs with
        | nil => simp at hd
        | cons v vs => simpa using hd.symm
      rw [hd47]
      exact not_starts_slash
    have hstart : Starts relaxed (fun _ => false) c := by
      by_contra hc
      exact (scans_segmentNz (k := k) hu (by simp)).first (moves_segmentNz hc)
    rw [silent_append]
    refine Scans.alt_left rfl (fun _ => .inl hstart) ?_
    exact (scans_segmentNz hu (by simp)).seq_quiet (scans_segments hvs) hnext (fun _ h => h.1)
      (fun d hd => moves_star_eq_nil (moves_slash (by rintro rfl; exact not_starts_slash hd) _))
      (fun _ _ h => .inl h) fun _ h => h

theorem scans_pathAbsolute {path : List UInt8} (h : IsPath relaxed path) :
    Scans (fun c => Starts relaxed (fun _ => false) c ∨ c = 47) ((pathAbsolute relaxed).stamp k)
      path (silent path) [] fun c => ¬ Starts relaxed (fun _ => false) c ∧ c ≠ 47 := by
  obtain ⟨s, rfl, hhead, hs⟩ := h
  have hslash : Scans (fun _ => False) (.text (bytes "/")) [47] (silent [47]) [] fun _ => True :=
    Scans.text (w := [47]) (by simp)
  exact hslash.seq_quiet (scans_pathRest hhead hs) (fun _ _ => trivial) (fun _ _ => trivial)
    (fun _ h => h.elim) (fun _ _ h => h.elim) fun _ h => h

theorem moves_pathNoscheme (k : Nat) :
    moves ((Exp.alt (pathNoscheme relaxed) pathEmpty).stamp k) 47 = [] := by
  have hu : unreserved 47 = false := by decide
  have hs : subDelims relaxed 47 = false := by cases relaxed <;> decide
  have hp : ∀ j, moves (pctEncoded.stamp j) 47 = [] := fun j => moves_pctEncoded (by decide)
  have ho : ∀ j, out (pctEncoded.stamp j) = none := fun j => rfl
  simp [pathNoscheme, pathEmpty, segmentNzNc, Exp.plus, Exp.stamp, moves, out, hu, hs, hp, ho]

theorem scans_relativePart {path : List UInt8} (h : IsPath relaxed path) :
    Scans (fun c => Starts relaxed (fun _ => false) c ∨ c = 47) ((relativePart relaxed).stamp k)
      path (silent path) [] fun c => ¬ Starts relaxed (fun _ => false) c ∧ c ≠ 47 := by
  have habs := scans_pathAbsolute (k := k + (Exp.table (.cat [lit "//", authority relaxed,
    pathAbempty relaxed])).length) h
  obtain ⟨s, rfl, hhead, -⟩ := h
  obtain ⟨X, hX⟩ : ∃ X, (Exp.cat [lit "//", authority relaxed, pathAbempty relaxed]).stamp k =
      .seq (.text [47, 47]) X := ⟨_, rfl⟩
  have hfirst : moves (.seq (.text [47, 47]) X) 47 = [⟨.seq (.seq .eps (.byte 47)) X, [], []⟩] := by
    simp [Exp.text, Exp.byte, moves, out, Move.under]
  have hnext : ∀ d, d ≠ 47 → moves (.seq (.seq .eps (.byte 47)) X) d = [] := fun d hd => by
    simp [Exp.byte, moves, out, hd]
  refine Scans.alt_dead (plain_stamp (by cases relaxed <;> rfl) _) (plain_stamp (by cases relaxed <;> rfl) _)
    (habs.alt_left (moves_pathNoscheme _) fun _ => .inr rfl) ?_ ?_ ?_ fun _ => .inr rfl
  all_goals rw [hX, hfirst]
  · intro m hm
    obtain rfl := List.mem_singleton.mp hm
    exact ⟨rfl, rfl⟩
  · intro m hm d hd
    obtain rfl := List.mem_singleton.mp hm
    exact hnext d fun h47 => hhead (h47 ▸ hd)
  · intro d hd
    refine ⟨hd, fun m hm => ?_⟩
    obtain rfl := List.mem_singleton.mp hm
    exact hnext d hd.2

theorem Starts.mono {c : UInt8} (h : Starts relaxed (fun _ => false) c) : Starts relaxed extra c := by
  obtain h | h := h
  · exact .inl (by rw [Bool.or_eq_true]; exact .inl (by simpa using h))
  · exact .inr h

theorem starts_slash : Starts relaxed (oneOf "/?") 47 := .inl (by simp [show oneOf "/?" 47 = true by decide])

theorem starts_question : Starts relaxed (oneOf "/?") 63 := .inl (by simp [show oneOf "/?" 63 = true by decide])

theorem not_starts {c : UInt8} (h : ¬ Starts relaxed (oneOf "/?") c) :
    (¬ Starts relaxed (fun _ => false) c ∧ c ≠ 47) ∧ c ≠ 63 := by
  refine ⟨⟨fun hc => h hc.mono, ?_⟩, ?_⟩
  · rintro rfl
    exact h starts_slash
  · rintro rfl
    exact h starts_question

def part (lead : UInt8) (s : List UInt8) : List UInt8 := if s = [] then [] else lead :: s

/-- The embeddings of such a part, with `o` on its first byte and `t` on the second one. -/
def partTrace (o t : List Nat) (s : List UInt8) : List (List Nat) := if s = [] then [] else o :: t :: silent s.tail

theorem scans_query {q : List UInt8} (h : Pchars relaxed (oneOf "/?") q) (hne : q ≠ []) :
    Scans (Starts relaxed (oneOf "/?"))
      (.opt (.seq (.leaving 11 (.text [63])) (.leaving 12 (.star ((queryChar relaxed).stamp k)))))
      (63 :: q) ([] :: [11] :: silent q.tail) [12] fun c => ¬ Starts relaxed (oneOf "/?") c := by
  obtain ⟨c, q, rfl⟩ := List.exists_cons_of_ne_nil hne
  have hmark : Scans (fun _ => False) (.leaving 11 (.text [63])) [63] [[]] [11] fun _ => True :=
    (Scans.text (w := [63]) (by simp)).leaving 11
  have hq : Scans (Starts relaxed (oneOf "/?")) (.leaving 12 (.star ((queryChar relaxed).stamp k))) (c :: q)
      ([] :: silent q) [12] fun c => ¬ Starts relaxed (oneOf "/?") c :=
    (queryChar_units.star h (fun _ h => h) fun _ h => h).leaving 12
  have hs := hmark.seq hq trivial (fun _ h => h.elim) (fun _ _ h => h.elim) fun _ h => h
  exact hs.alt_left rfl fun _ => starts_question

theorem moves_query {c : UInt8} (h : c ≠ 63) (X : Exp Nat) :
    moves (.opt (.seq (.leaving 11 (.text [63])) X)) c = [] := by
  simp [Exp.opt, Exp.text, Exp.byte, moves, out, h]

theorem scans_target {j : Nat} {path q : List UInt8} (hp : IsPath relaxed path) (hq : Pchars relaxed (oneOf "/?") q) :
    Scans (Starts relaxed (oneOf "/?"))
      (.leaving 13 (.entering 9 (.seq (.leaving 10 ((relativePart relaxed).stamp k))
        (.opt (.seq (.leaving 11 (.text [63])) (.leaving 12 (.star ((queryChar relaxed).stamp j))))))))
      (path ++ part 63 q) ([9] :: silent path.tail ++ partTrace [10] [11] q)
      (if q = [] then [10, 13] else [12, 13]) fun c => ¬ Starts relaxed (oneOf "/?") c := by
  have hpath := (scans_relativePart (k := k) hp).leaving 10
  have hslash : ∀ c, Starts relaxed (fun _ => false) c ∨ c = 47 → Starts relaxed (oneOf "/?") c := by
    rintro c (hc | rfl)
    · exact hc.mono
    · exact starts_slash
  have hquestion : ∀ c, Starts relaxed (fun _ => false) c ∨ c = 47 → c ≠ 63 := by
    rintro c hc rfl
    obtain hc | hc := hc
    · revert hc
      cases relaxed <;> unfold Starts <;> decide
    · cases hc
  obtain ⟨s, rfl, -, -⟩ := hp
  rw [silent_cons] at hpath
  by_cases hne : q = []
  · subst hne
    have hs := (hpath.seq_nil (f := .opt (.seq (.leaving 11 (.text [63]))
        (.leaving 12 (.star ((queryChar relaxed).stamp j))))) (u := [])
      (G := fun c => ¬ Starts relaxed (oneOf "/?") c) rfl (fun c hc => moves_query (hquestion c hc) _)
      fun c hc => ⟨(not_starts hc).1, moves_query (not_starts hc).2 _⟩).mono hslash fun _ h => h
    simpa [part, partTrace] using (hs.entering 9).leaving 13
  · have hs := hpath.seq (scans_query (k := j) hq hne) (by
      refine ⟨?_, by decide⟩
      cases relaxed <;> unfold Starts <;> decide) (fun c hc => moves_query (hquestion c hc) _)
      (fun c _ hc => hslash c hc) fun _ h => h
    simpa [part, partTrace, hne] using (hs.entering 9).leaving 13

theorem scans_fragment {fr : List UInt8} (h : Pchars relaxed (oneOf "/?") fr) (hne : fr ≠ []) :
    Scans (fun c => Starts relaxed (oneOf "/?") c ∨ c = 35)
      (.opt (.seq (.text [35]) (.leaving 15 (.entering 14 (.star ((queryChar relaxed).stamp k))))))
      (35 :: fr) ([] :: [14] :: silent fr.tail) [15] fun c => ¬ Starts relaxed (oneOf "/?") c ∧ c ≠ 35 := by
  obtain ⟨c, fr, rfl⟩ := List.exists_cons_of_ne_nil hne
  have hmark : Scans (fun _ => False) (.text [35]) [35] [[]] [] fun _ => True := Scans.text (w := [35]) (by simp)
  have hfr : Scans (fun c => Starts relaxed (oneOf "/?") c ∨ c = 35)
      (.leaving 15 (.entering 14 (.star ((queryChar relaxed).stamp k)))) (c :: fr) ([14] :: silent fr) [15]
      fun c => ¬ Starts relaxed (oneOf "/?") c ∧ c ≠ 35 :=
    ((queryChar_units.star h (fun _ h => .inl h) fun _ h => h.1).entering 14).leaving 15
  have hs := hmark.seq_quiet hfr (fun _ _ => trivial) (fun _ _ => trivial) (fun _ h => h.elim)
    (fun _ _ h => h.elim) fun _ h => h
  exact hs.alt_left rfl fun _ => .inr rfl

theorem moves_fragment {c : UInt8} (h : c ≠ 35) (X : Exp Nat) :
    moves (.opt (.seq (.text [35]) X)) c = [] := by
  simp [Exp.opt, Exp.text, Exp.byte, moves, out, h]

theorem not_starts_hash : ¬ Starts relaxed (oneOf "/?") 35 := by
  cases relaxed <;> unfold Starts <;> decide

/-- The actions that the end of the path and the query leaves to the next byte. -/
def targetOut (q : List UInt8) : List Nat := if q = [] then [10, 13] else [12, 13]

theorem relativeRef_stamp : (relativeRef relaxed).stamp 9 =
    .seq (.leaving 13 (.entering 9 (.seq (.leaving 10 ((relativePart relaxed).stamp 10))
        (.opt (.seq (.leaving 11 (.text [63])) (.leaving 12 (.star ((queryChar relaxed).stamp 12))))))))
      (.opt (.seq (.text [35]) (.leaving 15 (.entering 14 (.star ((queryChar relaxed).stamp 15)))))) := by
  have hpart : (relativePart relaxed).table.length = 0 := by
    revert relaxed
    decide +kernel
  have hchar : (queryChar relaxed).table.length = 0 := by
    revert relaxed
    decide +kernel
  have hb63 : bytes "?" = [63] := by decide
  have hb35 : bytes "#" = [35] := by decide
  simp only [relativeRef, reference, query, fragment, lit, hb63, hb35, Exp.opt, Exp.stamp, Exp.stamp_text, Exp.table,
    Exp.table_text, List.length_append, List.length_cons, List.length_nil, hpart, hchar]

theorem scans_relativeRef {path q fr : List UInt8} (hp : IsPath relaxed path)
    (hq : Pchars relaxed (oneOf "/?") q) (hfr : Pchars relaxed (oneOf "/?") fr) :
    Scans (fun c => Starts relaxed (oneOf "/?") c ∨ c = 35) ((relativeRef relaxed).stamp 9)
      (path ++ part 63 q ++ part 35 fr)
      ([9] :: silent path.tail ++ partTrace [10] [11] q ++ partTrace (targetOut q) [14] fr)
      (if fr = [] then targetOut q else [15]) fun c => ¬ Starts relaxed (oneOf "/?") c ∧ c ≠ 35 := by
  have htarget := scans_target (k := 10) (j := 12) hp hq
  rw [relativeRef_stamp]
  by_cases hne : fr = []
  · subst hne
    have hs := (htarget.seq_nil (f := .opt (.seq (.text [35]) (.leaving 15 (.entering 14
        (.star ((queryChar relaxed).stamp 15)))))) (u := [])
      (G := fun c => ¬ Starts relaxed (oneOf "/?") c ∧ c ≠ 35) rfl
      (fun c hc => moves_fragment (by rintro rfl; exact not_starts_hash hc) _)
      fun c hc => ⟨hc.1, moves_fragment hc.2 _⟩).mono (P := fun c => Starts relaxed (oneOf "/?") c ∨ c = 35)
      (fun _ h => .inl h) fun _ h => h
    simpa [part, partTrace, targetOut] using hs
  · have hs := htarget.seq (R := fun c => Starts relaxed (oneOf "/?") c ∨ c = 35)
      (scans_fragment (k := 15) hfr hne) not_starts_hash
      (fun c hc => moves_fragment (by rintro rfl; exact not_starts_hash hc) _) (fun _ _ h => .inl h) fun _ h => h
    simpa [part, partTrace, targetOut, hne] using hs

end Uri

theorem scans_method {m : List UInt8} (hne : m ≠ []) (hlen : m.length ≤ 20) (hm : ∀ c ∈ m, methodChar c = true) :
    Scans (methodChar · = true) (method.stamp 0) m ([0] :: silent m.tail) [1]
      fun c => methodChar c = false := by
  obtain ⟨c, m, rfl⟩ := List.exists_cons_of_ne_nil hne
  obtain ⟨hc, hm⟩ := List.forall_mem_cons.mp hm
  have hfirst : Scans (fun _ => False) (.chars methodChar) [c] [[]] [] fun _ => True := Scans.chars hc
  have hrest : m.length ≤ 19 := by
    rw [List.length_cons] at hlen
    omega
  have hs := hfirst.seq_quiet (Scans.upTo hrest hm fun _ h => h) (fun _ _ => trivial)
    (fun _ _ => trivial) (fun _ h => h.elim) (fun _ _ h => h.elim) fun _ h => h
  exact (hs.entering 0).leaving 1

theorem scans_httpVersion {d : UInt8} (hd : oneOf "01" d = true) :
    Scans (fun _ => False) (httpVersion.stamp 16) (bytes "HTTP/1." ++ [d]) ([16] :: silent (bytes "TTP/1." ++ [d]))
      [17] fun _ => True := by
  have hname : Scans (fun _ => False) (.text (bytes "HTTP/")) (bytes "HTTP/") (silent (bytes "HTTP/")) []
    fun _ => True := Scans.text (by decide)
  have hone : Scans (fun _ => False) (.text (bytes "1.")) (bytes "1.") (silent (bytes "1.")) [] fun _ => True :=
    Scans.text (by decide)
  have hdigit : Scans (fun _ => False) (.chars (oneOf "01")) [d] [[]] [] fun _ => True := Scans.chars hd
  have hnumber := hone.seq_quiet (R := fun _ => False) hdigit (fun _ _ => trivial) (fun _ _ => trivial)
    (fun _ h => h.elim) (fun _ _ h => h.elim) fun _ h => h
  have hs := hname.seq_quiet (R := fun _ => False) hnumber (fun _ _ => trivial) (fun _ _ => trivial)
    (fun _ h => h.elim) (fun _ _ h => h.elim) fun _ h => h
  exact (hs.entering 16).leaving 17

theorem scans_crlf (k : Nat) :
    Scans (fun _ => False) (crlf.stamp k) [13, 10] [[], []] [] fun _ => True := by
  have hs : Scans (fun _ => False) (.text [13, 10]) [13, 10] [[], []] [] fun _ => True :=
    Scans.text (w := [13, 10]) (by simp)
  exact hs.alt_left rfl fun h => by cases h

theorem moves_crlf {c : UInt8} (hr : c ≠ 13) (hn : c ≠ 10) (k : Nat) : moves (crlf.stamp k) c = [] := by
  have hc : crlf.stamp k = .alt (.text [13, 10]) (.text [10]) := rfl
  simp [hc, Exp.text, Exp.byte, moves, out, hr, hn]

theorem scans_blank : Scans (fun _ => False) (.text (bytes " ")) [32] [[]] [] fun _ => True :=
  Scans.text (w := [32]) (by simp)

theorem moves_blank {c : UInt8} (h : c ≠ 32) (X : Exp Nat) : moves (.seq (.text (bytes " ")) X) c = [] := by
  have hb : bytes " " = [32] := by decide
  simp [hb, Exp.text, Exp.byte, moves, out, h]

/-- The parts of a request line. -/
structure Line (relaxed : Bool) where
  method : List UInt8
  path : List UInt8
  query : List UInt8
  fragment : List UInt8
  minor : UInt8
  method_ne : method ≠ []
  method_le : method.length ≤ 20
  method_chars : ∀ c ∈ method, methodChar c = true
  path_ok : IsPath relaxed path
  query_ok : Pchars relaxed (oneOf "/?") query
  fragment_ok : Pchars relaxed (oneOf "/?") fragment
  minor_ok : oneOf "01" minor = true

section Line

variable {relaxed : Bool}

def Line.target (l : Line relaxed) : List UInt8 := l.path ++ part 63 l.query ++ part 35 l.fragment

def Line.targetTrace (l : Line relaxed) : List (List Nat) :=
  [9] :: silent l.path.tail ++ partTrace [10] [11] l.query ++ partTrace (targetOut l.query) [14] l.fragment

def Line.version (l : Line relaxed) : List UInt8 := bytes "HTTP/1." ++ [l.minor]

def Line.text (l : Line relaxed) : List UInt8 :=
  l.method ++ 32 :: (l.target ++ 32 :: (l.version ++ [13, 10]))

def Line.trace (l : Line relaxed) : List (List Nat) :=
  [0] :: silent l.method.tail ++ [1] ::
    (l.targetTrace ++ (if l.fragment = [] then targetOut l.query else [15]) ::
      ([16] :: silent l.version.tail ++ [[17], []]))

theorem uri_actions (relaxed : Bool) :
    (uri relaxed).table.length = 7 ∧ (relativeRef relaxed).table.length = 7 := by
  revert relaxed
  decide +kernel

theorem requestLine_stamp : (requestLine relaxed).stamp 0 =
    .seq (method.stamp 0) (.seq (.text (bytes " ")) (.seq (.alt ((uri relaxed).stamp 2) ((relativeRef relaxed).stamp 9))
      (.seq (.text (bytes " ")) (.seq (httpVersion.stamp 16) (crlf.stamp 18))))) := by
  have hmethod : method.table.length = 2 := rfl
  obtain ⟨huri, href⟩ := uri_actions relaxed
  have hversion : httpVersion.table.length = 2 := rfl
  simp only [requestLine, Exp.cat, uriReference, lit, Exp.stamp, Exp.stamp_text, Exp.table, Exp.table_text,
    List.length_append, hmethod, huri, href, hversion, List.length_nil]

theorem moves_uri_slash : moves ((uri relaxed).stamp 2) 47 = [] := by
  have hu : (uri relaxed).stamp 2 = .seq (.seq (.chars alpha)
      (.star (.chars fun c => alpha c || digit c || oneOf "+-." c)))
    (.seq (.text (bytes ":")) ((reference relaxed (hierPart relaxed)).stamp 2)) := rfl
  have ha : alpha 47 = false := by decide
  simp [hu, moves, out, ha]

theorem scans_requestLine (l : Line relaxed) :
    Scans (fun _ => False) ((requestLine relaxed).stamp 0) l.text l.trace [] fun _ => True := by
  have hversion := (scans_httpVersion l.minor_ok).seq (R := fun _ => False) (scans_crlf 18) trivial
    (fun _ h => h.elim) (fun _ _ h => h.elim) fun _ h => h
  have hsecond := scans_blank.seq_quiet (R := fun _ => False) hversion (fun _ _ => trivial) (fun _ _ => trivial)
    (fun _ h => h.elim) (fun _ _ h => h.elim) fun _ h => h
  have hreference : Scans (fun c => Starts relaxed (oneOf "/?") c ∨ c = 35)
      (.alt ((uri relaxed).stamp 2) ((relativeRef relaxed).stamp 9)) l.target l.targetTrace
      (if l.fragment = [] then targetOut l.query else [15]) fun c => ¬ Starts relaxed (oneOf "/?") c ∧ c ≠ 35 := by
    have htarget := scans_relativeRef l.path_ok l.query_ok l.fragment_ok
    obtain ⟨s, hs, -, -⟩ := l.path_ok
    rw [Line.target, Line.targetTrace]
    rw [hs] at htarget ⊢
    exact htarget.alt_right moves_uri_slash fun _ => .inl starts_slash
  have hblank : ¬ Starts relaxed (oneOf "/?") 32 := by
    cases relaxed <;> unfold Starts <;> decide
  have hrest := hreference.seq (R := fun _ => False) hsecond ⟨hblank, by decide⟩
    (fun c hc => moves_blank (by rintro rfl; exact hc.elim hblank (by decide)) _) (fun _ h => by cases h)
    fun _ h => h
  have htail := scans_blank.seq_quiet (R := fun _ => False) hrest (fun _ _ => trivial) (fun _ _ => trivial)
    (fun _ h => h.elim) (fun _ _ h => h.elim) fun _ h => h
  have hline := (scans_method l.method_ne l.method_le l.method_chars).seq (R := fun _ => False) htail
    (by decide) (fun c hc => moves_blank (by rintro rfl; exact absurd hc (by decide)) _) (fun _ h => by cases h)
    fun _ h => h
  rw [requestLine_stamp]
  simpa [Line.text, Line.trace, Line.version, bytes] using hline

end Line

section Value

variable {c : UInt8}

/-- Inside a stretch of blanks. -/
def blanks : Exp Nat := .seq .eps (.star (.chars blank))

/-- Inside a value, behind a byte or inside a stretch of blanks. -/
def inValue (e : Exp Nat) : Exp Nat := .leaving 21 (.seq e (.star (content.stamp 21)))

def printable (c : UInt8) : Bool := 32 ≤ c && c ≠ 127

theorem printable_ne (h : printable c = true) : httpCtl c = false ∧ c ≠ 13 ∧ c ≠ 10 := by
  refine ⟨?_, ?_, ?_⟩
  · rw [Bool.eq_false_iff]
    intro hc
    obtain rfl | rfl : c = 0 ∨ c = 127 := by simpa [httpCtl] using hc
    · exact absurd h (by decide)
    · exact absurd h (by decide)
  · rintro rfl
    exact absurd h (by decide)
  · rintro rfl
    exact absurd h (by decide)

theorem moves_lws (h : printable c = true) (k : Nat) :
    moves (lws.stamp k) c = if blank c then [⟨blanks, [], []⟩] else [] := by
  obtain ⟨-, hr, hn⟩ := printable_ne h
  have hl : lws.stamp k = .seq (.alt (crlf.stamp k) .eps) (.seq (.chars blank) (.star (.chars blank))) := rfl
  have ho : out (crlf.stamp k) = none := rfl
  cases hb : blank c <;> simp [hl, moves, out, ho, moves_crlf hr hn, hb, blanks, Move.under, Move.fire]

theorem moves_content (h : printable c = true) (k : Nat) :
    moves (content.stamp k) c = ⟨.eps, [], []⟩ :: if blank c then [⟨blanks, [], []⟩] else [] := by
  have hc : content.stamp k = .alt (.chars fun c => !httpCtl c) (lws.stamp k) := rfl
  simp [hc, moves, (printable_ne h).1, moves_lws h]

theorem moves_blanks : moves blanks c = if blank c then [⟨blanks, [], []⟩] else [] := by
  cases hb : blank c <;> simp [blanks, moves, out, hb, Move.under, Move.fire]

theorem moves_inValue_eps (h : printable c = true) :
    moves (inValue .eps) c =
      ⟨inValue .eps, [], []⟩ :: if blank c then [⟨inValue blanks, [], []⟩] else [] := by
  have ho : out (content.stamp 21) = none := rfl
  cases hb : blank c <;> simp [inValue, moves, out, ho, moves_content h, hb, Move.under, Move.fire]

theorem moves_inValue_blanks (h : printable c = true) :
    moves (inValue blanks) c = (if blank c then [⟨inValue blanks, [], []⟩] else []) ++
      ⟨inValue .eps, [], []⟩ :: if blank c then [⟨inValue blanks, [], []⟩] else [] := by
  have ho : out (content.stamp 21) = none := rfl
  have hob : out blanks = some [] := rfl
  cases hb : blank c <;> simp [inValue, moves, ho, hob, moves_content h, moves_blanks, hb, Move.under, Move.fire]

/-- The states inside a value. -/
structure InValue (V : States) : Prop where
  mem : inValue .eps ∈ V
  only : ∀ x ∈ V, x = inValue .eps ∨ x = inValue blanks

theorem plain_inValue {e : Exp Nat} (h : Plain e) : Plain (inValue e) :=
  ⟨h, plain_stamp (by decide) 21⟩

theorem InValue.plain {V : States} (h : InValue V) : ∀ x ∈ V, Plain x := by
  intro x hx
  obtain rfl | rfl := h.only x hx
  · exact plain_inValue trivial
  · exact plain_inValue ⟨trivial, trivial⟩

theorem InValue.step {V : States} (h : InValue V) (hc : printable c = true) : ∃ V', Step V c [] V' ∧ InValue V' := by
  have hrest : ∀ x ∈ V, ∀ m ∈ moves x c, m.fires = [] ∧ (m.rest = inValue .eps ∨ m.rest = inValue blanks) := by
    intro x hx m hm
    obtain rfl | rfl := h.only x hx
    · rw [moves_inValue_eps hc] at hm
      cases hb : blank c <;> simp [hb] at hm
      · simp [hm]
      · obtain rfl | rfl := hm <;> simp
    · rw [moves_inValue_blanks hc] at hm
      cases hb : blank c <;> simp [hb] at hm
      · simp [hm]
      · obtain rfl | rfl | rfl := hm <;> simp
  have hmem : ∃ m ∈ moves (inValue .eps) c, m.rest = inValue .eps := by
    rw [moves_inValue_eps hc]
    exact ⟨_, List.mem_cons_self .., rfl⟩
  refine ⟨{r | ∃ x ∈ V, ∃ m ∈ moves x c, m.rest = r}, Step.of_plain h.plain ⟨_, _, h.mem, hmem⟩ (fun r => Iff.rfl)
    fun i => ?_, ⟨_, h.mem, hmem⟩, ?_⟩
  · simp only [List.not_mem_nil, false_iff]
    rintro ⟨x, hx, m, hm, hi⟩
    rw [(hrest x hx m hm).1] at hi
    cases hi
  · rintro _ ⟨x, hx, m, hm, rfl⟩
    exact (hrest x hx m hm).2

theorem InValue.run {V : States} (h : InValue V) {w : List UInt8} (hw : ∀ c ∈ w, printable c = true) :
    ∃ V', Run (printable · = true) V w (silent w) V' ∧ InValue V' := by
  induction w generalizing V with
  | nil => exact ⟨V, .nil V, h⟩
  | cons c w ih =>
    obtain ⟨hc, hw⟩ := List.forall_mem_cons.mp hw
    obtain ⟨V₁, hs, h₁⟩ := h.step hc
    obtain ⟨V', hr, h'⟩ := ih h₁ hw
    exact ⟨V', .cons (fun _ => hc) hs hr, h'⟩

theorem InValue.final {V : States} (h : InValue V) : Final V ∧ ∀ i, i ∈ [21] ↔ Leaves V i := by
  have ho : ∀ x ∈ V, out x = some [21] := by
    intro x hx
    obtain rfl | rfl := h.only x hx <;> rfl
  refine ⟨⟨_, h.mem, rfl⟩, fun i => ⟨fun hi => ⟨_, h.mem, [21], rfl, hi⟩, ?_⟩⟩
  rintro ⟨x, hx, o, hox, hi⟩
  rw [ho x hx] at hox
  exact Option.some.inj hox ▸ hi

/-- The blank behind the colon may be the begin of the value as well, so that `start_value`
is executed again at the byte behind it. -/
theorem scans_value {v : List UInt8} (hne : v ≠ []) (hv : ∀ c ∈ v, printable c = true)
    (hhead : ∀ c ∈ v.head?, blank c = false) :
    Scans (printable · = true) (.seq (.star (lws.stamp 20)) (fieldValue.stamp 20)) (32 :: v)
      ([20] :: [20] :: silent v.tail) [21] fun _ => False := by
  obtain ⟨c, v, rfl⟩ := List.exists_cons_of_ne_nil hne
  obtain ⟨hc, hv⟩ := List.forall_mem_cons.mp hv
  have hblank : blank c = false := hhead c rfl
  have hfv : fieldValue.stamp 20 = .leaving 21 (.entering 20 (.star (content.stamp 21))) := rfl
  have ho : out (content.stamp 21) = none := rfl
  have hol : out (lws.stamp 20) = none := rfl
  have hctl : printable 32 = true := by decide
  have hb32 : blank 32 = true := by decide
  have hplain : ∀ X, Plain X → Plain (.seq X (fieldValue.stamp 20)) := fun X hX =>
    ⟨hX, plain_stamp (by decide) 20⟩
  let X : Exp Nat := .seq (.seq blanks (.star (lws.stamp 20))) (fieldValue.stamp 20)
  have hm₀ : moves (.seq (.star (lws.stamp 20)) (fieldValue.stamp 20)) 32 =
      [⟨X, [], []⟩, ⟨inValue .eps, [20], []⟩, ⟨inValue blanks, [20], []⟩] := by
    simp [hfv, moves, out, ho, hol, moves_lws hctl, moves_content hctl, hb32, Move.under, Move.fire, X, inValue]
  have hmX : moves X c = [⟨inValue .eps, [20], []⟩] := by
    have hob : out blanks = some [] := rfl
    simp [X, hfv, moves, out, ho, hol, hob, moves_lws hc, moves_content hc, moves_blanks, hblank, Move.under,
      Move.fire, inValue]
  have hs₀ : Step {.seq (.star (lws.stamp 20)) (fieldValue.stamp 20)} 32 [20] {X, inValue .eps, inValue blanks} := by
    refine Step.of_plain (by rintro _ rfl; exact hplain _ (plain_stamp (by decide) 20)) ⟨X, .inl rfl⟩
      (fun r => ?_) fun i => ?_
    · simp [hm₀, eq_comm]
    · simp [hm₀]
  have hpX : Plain X := hplain _ ⟨⟨trivial, trivial⟩, plain_stamp (e := lws) (by decide) 20⟩
  have hs₁ : Step {X, inValue .eps, inValue blanks} c [20] {inValue .eps} := by
    refine Step.of_plain ?_ ⟨_, rfl⟩ (fun r => ?_) fun i => ?_
    · rintro _ (rfl | rfl | rfl)
      · exact hpX
      · exact plain_inValue trivial
      · exact plain_inValue ⟨trivial, trivial⟩
    · simp [hmX, moves_inValue_eps hc, moves_inValue_blanks hc, hblank, eq_comm]
    · simp [hmX, moves_inValue_eps hc, moves_inValue_blanks hc, hblank]
  obtain ⟨V, hr, hV⟩ := InValue.run (V := {inValue .eps}) ⟨rfl, fun x hx => .inl hx⟩ hv
  exact ⟨V, .cons (fun _ => hctl) hs₀ (.cons (fun _ => hc) hs₁ hr), hV.final.1, hV.final.2, fun _ h => h.elim⟩

end Value

structure Field where
  name : List UInt8
  value : List UInt8
  name_ne : name ≠ []
  name_token : ∀ c ∈ name, token c = true
  value_ne : value ≠ []
  value_printable : ∀ c ∈ value, printable c = true
  value_head : ∀ c ∈ value.head?, blank c = false

def Field.text (f : Field) : List UInt8 := f.name ++ 58 :: 32 :: f.value ++ [13, 10]

def Field.trace (f : Field) : List (List Nat) :=
  [18] :: silent f.name.tail ++ [19] :: [20] :: [20] :: silent f.value.tail ++ [[21], []]

theorem messageHeader_stamp : messageHeader.stamp 18 =
    .entryGuarded 0 (.seq (.leaving 19 (.entering 18 (.plus (.chars token)))) (.seq (.text [58])
      (.seq (.star (lws.stamp 20)) (fieldValue.stamp 20)))) (crlf.stamp 22) := rfl

theorem scans_fieldName {name : List UInt8} (hne : name ≠ []) (h : ∀ c ∈ name, token c = true) :
    Scans (token · = true) (.leaving 19 (.entering 18 (.plus (.chars token)))) name ([18] :: silent name.tail) [19]
      fun c => token c = false := by
  obtain ⟨c, name, rfl⟩ := List.exists_cons_of_ne_nil hne
  obtain ⟨hc, h⟩ := List.forall_mem_cons.mp h
  have hfirst : Scans (fun _ => False) (.chars token) [c] [[]] [] fun _ => True := Scans.chars hc
  have hs := hfirst.seq_quiet (Scans.star_chars h fun _ h => h) (fun _ _ => trivial) (fun _ _ => trivial)
    (fun _ h => h.elim) (fun _ _ h => h.elim) fun _ h => h
  exact (hs.entering 18).leaving 19

theorem scans_messageHeader (f : Field) :
    Scans (fun _ => False) (messageHeader.stamp 18) f.text f.trace [] fun _ => True := by
  have hcolon : Scans (fun _ => False) (.text [58]) [58] [[]] [] fun _ => True := Scans.text (w := [58]) (by simp)
  have hvalue := hcolon.seq_quiet (scans_value f.value_ne f.value_printable f.value_head) (fun _ _ => trivial)
    (fun _ _ => trivial) (fun _ h => h.elim) (fun _ _ h => h.elim) fun _ h => h
  have hcut : ∀ c, token c = true → c ≠ 58 := by
    rintro c hc rfl
    exact absurd hc (by decide)
  have hname := (scans_fieldName f.name_ne f.name_token).seq (R := (printable · = true)) hvalue (by decide)
    (fun c hc => by simp [Exp.text, Exp.byte, moves, out, hcut c hc]) (fun _ h => by cases h) fun _ h => h
  have hplain : Plain (.seq (.leaving 19 (.entering 18 (.plus (.chars token)))) (.seq (.text [58])
      (.seq (.star (lws.stamp 20)) (fieldValue.stamp 20)))) :=
    ⟨⟨trivial, trivial⟩, trivial, plain_stamp (e := .star lws) (by decide) 20, plain_stamp (by decide) 20⟩
  have hs := Scans.guarded 0 hplain (plain_stamp (by decide) 22) hname (scans_crlf 22)
    (fun c hc => moves_crlf (printable_ne hc).2.1 (printable_ne hc).2.2 22) rfl
  rw [messageHeader_stamp]
  simpa [Field.text, Field.trace] using hs

section Boundary

variable {S T V : States} {w e : List UInt8} {τ : List (List Nat)} {f : Field}

def headers : Exp Nat := .seq (.plus (messageHeader.stamp 18)) (crlf.stamp 22)

/-- What the grammar expects behind a line: a header line or the empty line. -/
def Boundary (S : States) : Prop := ∀ c m, Candidate S c m ↔ Candidate ({headers} ∪ {crlf.stamp 22}) c m

theorem scans_line {x : Exp Nat} (h : Scans (fun _ => False) x w τ [] fun _ => True) :
    ∃ V, Run (fun _ => False) {.seq (.seq x (.star (messageHeader.stamp 18))) (crlf.stamp 22)} w τ V ∧ Boundary V ∧
      ¬ Final V := by
  obtain ⟨T, hr, ⟨r₀, hr₀, hor₀⟩, ho, hstuck⟩ := h
  have hbody := (hr.seq (P := fun _ => False) (f := .star (messageHeader.stamp 18)) (fun _ h => h.elim)
    fun _ _ h => h).seq (P := fun _ => False) (f := crlf.stamp 22) (fun _ h => h.elim) fun _ _ h => h
  rw [Set.image_singleton, Set.image_singleton] at hbody
  have hout : ∀ r ∈ T, ∀ o, out r = some o → o = [] := fun r hr o hor =>
    List.eq_nil_iff_forall_not_mem.mpr fun i hi => by simpa using (ho i).mpr ⟨r, hr, o, hor, hi⟩
  have hnone : out (messageHeader.stamp 18) = none := rfl
  have hfire : Move.fire [] = id := rfl
  have hmoves : ∀ r ∈ T, ∀ c, moves (.seq (.seq r (.star (messageHeader.stamp 18))) (crlf.stamp 22)) c =
      if (out r).isSome then moves headers c ++ moves (crlf.stamp 22) c else [] := by
    intro r hr c
    cases hor : out r with
    | none => simp [moves, out, hor, hstuck c trivial r hr]
    | some o =>
      obtain rfl := hout r hr o hor
      simp [moves, out, hor, hstuck c trivial r hr, hnone, hfire, headers, Exp.plus]
  refine ⟨_, hbody, fun c m => ?_, ?_⟩
  · simp only [Candidate, Set.mem_image, exists_exists_and_eq_and, Set.mem_union, Set.mem_singleton_iff,
      or_and_right, exists_or, exists_eq_left]
    constructor
    · rintro ⟨r, hr, hm⟩
      rw [hmoves r hr] at hm
      split at hm
      · exact List.mem_append.mp hm
      · cases hm
    · intro hm
      refine ⟨r₀, hr₀, ?_⟩
      rw [hmoves r₀ hr₀, if_pos hor₀]
      exact List.mem_append.mpr hm
  · intro hfin
    cases (final_seq hfin).2

/-- A name that is taken for the end of the header block. -/
def endsBlock (name : List UInt8) : Bool := [10].isPrefixOf name || [13, 10].isPrefixOf name

def IsEnd (eol : List UInt8) : Prop := eol = [13, 10] ∨ eol = [10]

theorem IsEnd.run (h : IsEnd e) : ∃ T, Run (fun _ => False) {headers} e ([18] :: silent e.tail) T := by
  have hne : e ≠ [] := by obtain rfl | rfl := h <;> simp
  have htoken : ∀ c ∈ e, token c = true := by
    obtain rfl | rfl := h <;> exact List.all_eq_true.mp (by decide +kernel)
  obtain ⟨T, hr, -⟩ := scans_fieldName hne htoken
  have hcolon : ∀ c, token c = true → moves (.seq (.text [58]) (.seq (.star (lws.stamp 20)) (fieldValue.stamp 20))) c =
      [] := by
    intro c hc
    have hcut : c ≠ 58 := by
      rintro rfl
      exact absurd hc (by decide)
    simp [Exp.text, Exp.byte, moves, out, hcut]
  have hname := hr.seq (P := fun _ => False) hcolon fun _ h => by cases h
  have hplain : Plain (.seq (.leaving 19 (.entering 18 (.plus (.chars token)))) (.seq (.text [58])
      (.seq (.star (lws.stamp 20)) (fieldValue.stamp 20)))) :=
    ⟨⟨trivial, trivial⟩, trivial, plain_stamp (e := .star lws) (by decide) 20, plain_stamp (by decide) 20⟩
  rw [Set.image_singleton] at hname
  have hheader := (hname.prior_all 0 0 (by rintro _ rfl; exact hplain)).seq (P := fun _ => False)
    (f := .prior .entering 0 1 (crlf.stamp 22)) (fun _ h => h.elim) fun _ _ h => h
  have hrest := (hheader.seq (P := fun _ => False) (f := .star (messageHeader.stamp 18)) (fun _ h => h.elim)
    fun _ _ h => h).seq (P := fun _ => False) (f := crlf.stamp 22) (fun _ h => h.elim) fun _ _ h => h
  rw [Set.image_singleton, Set.image_singleton, Set.image_singleton, Set.image_singleton] at hrest
  exact ⟨_, hrest⟩

theorem IsEnd.beside (h : IsEnd e) : ∃ U, Beside {crlf.stamp 22} e (silent e) U ∧ Final U := by
  have hstart : {x | x ∈ [crlf.stamp 22]} = ({crlf.stamp 22} : States) := by
    ext x
    simp
  have hquiet : ∃ B, quietly [crlf.stamp 22] e = some B ∧ isFinal B = true := by
    obtain rfl | rfl := h
    · exact ⟨_, rfl, rfl⟩
    · exact ⟨_, rfl, rfl⟩
  obtain ⟨B, hB, hfinal⟩ := hquiet
  exact ⟨_, hstart ▸ Beside.quietly hB, isFinal_iff.mp hfinal⟩

theorem beside_name (h : endsBlock f.name = false) (rest : List UInt8) :
    Beside {crlf.stamp 22} (f.text ++ rest) (silent (f.text ++ rest)) ∅ := by
  have hcrlf : crlf.stamp 22 = .alt (.text [13, 10]) (.text [10]) := rfl
  have hfinal : ∀ e : Exp Nat, out e = none → ¬ Final {e} := by
    rintro e he ⟨_, rfl, ho⟩
    simp [he] at ho
  obtain ⟨c, name, hname⟩ := List.exists_cons_of_ne_nil f.name_ne
  obtain ⟨d, w, hw⟩ : ∃ d w, name ++ 58 :: 32 :: f.value ++ [13, 10] ++ rest = d :: w :=
    List.exists_cons_of_ne_nil (by simp)
  have htext : f.text ++ rest = c :: d :: w := by
    rw [← hw, Field.text, hname]
    simp
  rw [hname, endsBlock] at h
  rw [htext]
  by_cases hr : c = 13
  · subst hr
    have hd : d ≠ 10 := by
      rintro rfl
      cases name with
      | nil => simp at hw
      | cons b name =>
        obtain ⟨rfl, -⟩ := List.cons.inj hw
        simp at h
    have hm : moves (crlf.stamp 22) 13 = [⟨.seq .eps (.byte 10), [], []⟩] := by
      simp [hcrlf, Exp.text, Exp.byte, moves, out, Move.under]
    have hahead : ahead {crlf.stamp 22} 13 = {.seq .eps (.byte 10)} := by
      ext x
      simp [ahead, hm, eq_comm]
    refine .cons (hfinal _ rfl) (fun i => by simp [hm]) (hahead ▸ Beside.stuck (hfinal _ rfl) ?_ w)
    exact stuck_singleton.mpr (by simp [Exp.byte, moves, out, hd])
  · have hn : c ≠ 10 := by
      rintro rfl
      simp at h
    exact Beside.stuck (hfinal _ rfl) (stuck_singleton.mpr (moves_crlf hr hn 22)) _

/-- Header lines and the end of the block, by induction on the lines. -/
theorem run_fields {fs : List Field} (hfs : ∀ f ∈ fs, endsBlock f.name = false) (h : IsEnd e) :
    ∃ T, Run (fun _ => False) ({headers} ∪ {crlf.stamp 22}) (fs.flatMap Field.text ++ e)
      (fs.flatMap Field.trace ++ ([18] :: silent e.tail)) T ∧ Final T := by
  have hplain : ∀ x ∈ ({crlf.stamp 22} : States), Plain x := by
    rintro _ rfl
    exact plain_stamp (by decide) 22
  induction fs with
  | nil =>
    obtain ⟨T, hr⟩ := h.run
    obtain ⟨U, hb, r, hr', hor⟩ := h.beside
    have hu := hr.union hplain hb
    rw [both_silent hr.length] at hu
    exact ⟨_, hu, r, .inr hr', hor⟩
  | cons f fs ih =>
    obtain ⟨hf, hfs⟩ := List.forall_mem_cons.mp hfs
    obtain ⟨V, hr, hV, hfinal⟩ := scans_line (scans_messageHeader f)
    obtain ⟨T, hrest, r, hrT, hor⟩ := ih hfs
    obtain ⟨c, w, hw⟩ : ∃ c w, fs.flatMap Field.text ++ e = c :: w := by
      apply List.exists_cons_of_ne_nil
      obtain rfl | rfl := h <;> simp
    rw [hw] at hrest
    have hall := hr.append (hrest.congr (hV c) fun hfin => hfinal hfin)
    rw [← hw] at hall
    have hu := hall.union hplain (beside_name hf _)
    rw [both_silent hall.length] at hu
    rw [List.flatMap_cons, List.flatMap_cons, List.append_assoc, List.append_assoc]
    exact ⟨_, hu, r, .inl hrT, hor⟩

end Boundary

section Head

variable {relaxed : Bool}

theorem main_stamp : (main relaxed).stamp 0 =
    .alt (.seq (.seq ((requestLine relaxed).stamp 0) (.star (messageHeader.stamp 18))) (crlf.stamp 22))
      ((socketRequest relaxed).stamp 22) := by
  have hline : (requestLine relaxed).table.length = 18 := by
    have hmethod : method.table.length = 2 := rfl
    obtain ⟨huri, href⟩ := uri_actions relaxed
    have hversion : httpVersion.table.length = 2 := rfl
    have hcrlf : crlf.table.length = 0 := rfl
    simp only [requestLine, Exp.cat, uriReference, lit, Exp.table, Exp.table_text, List.length_append, hmethod, huri,
      href, hversion, hcrlf, List.length_nil]
  have hheader : messageHeader.table.length = 4 := rfl
  have hcrlf : crlf.table.length = 0 := rfl
  simp only [main, request, Exp.stamp, Exp.table, List.length_append, hline, hheader, hcrlf]

theorem moves_socketRequest {c : UInt8} (h : methodChar c = true) (k : Nat) :
    moves ((socketRequest relaxed).stamp k) c = [] := by
  have h60 : c ≠ 60 := by
    rintro rfl
    exact absurd h (by decide)
  have h64 : c ≠ 64 := by
    rintro rfl
    exact absurd h (by decide)
  have hb60 : bytes "<" = [60] := by decide
  have hb64 : bytes "@" = [64] := by decide
  simp [socketRequest, socketXml, socketXmlData, socketJson, socketJsonStart, Exp.finishGuarded, Exp.cat, lit, hb60,
    hb64, Exp.text, Exp.byte, Exp.stamp, moves, out, h60, h64]

/-- A request line, header lines and the end of the block, from the start of the machine. -/
theorem run_head (l : Line relaxed) {fs : List Field} (hfs : ∀ f ∈ fs, endsBlock f.name = false) {e : List UInt8}
    (he : IsEnd e) : ∃ T, Run (fun _ => False) {(main relaxed).stamp 0} (l.text ++ fs.flatMap Field.text ++ e)
      (l.trace ++ fs.flatMap Field.trace ++ ([18] :: silent e.tail)) T ∧ Final T := by
  obtain ⟨V, hr, hV, hfinal⟩ := scans_line (scans_requestLine l)
  obtain ⟨T, hrest, hT⟩ := run_fields hfs he
  obtain ⟨c, w, hw⟩ : ∃ c w, fs.flatMap Field.text ++ e = c :: w := by
    apply List.exists_cons_of_ne_nil
    obtain rfl | rfl := he <;> simp
  rw [hw] at hrest
  have hall := hr.append (hrest.congr (hV c) fun hfin => hfinal hfin)
  rw [← hw, ← List.append_assoc, ← List.append_assoc] at hall
  obtain ⟨d, m, hm⟩ := List.exists_cons_of_ne_nil l.method_ne
  have hd : methodChar d = true := l.method_chars d (by simp [hm])
  obtain ⟨w', hw'⟩ : ∃ w', l.text ++ fs.flatMap Field.text ++ e = d :: w' := by
    rw [Line.text, hm]
    exact ⟨_, rfl⟩
  have hout : (out ((main relaxed).stamp 0)).isSome = true → False := by
    rw [main_stamp]
    exact fun h => by cases h
  rw [main_stamp] at hout ⊢
  rw [hw'] at hall ⊢
  exact ⟨T, hall.alt_left (moves_socketRequest hd 22) hout, hT⟩

end Head

end Windgent.Http.Http11
