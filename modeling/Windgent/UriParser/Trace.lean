import Windgent.UriParser.Authority

namespace Windgent.UriParser

open Ragel
open Http (bytes atoi)
open Http.Http11 (digit)

def pathAt : Exp Nat := .leaving 9 (.entering 8 pathAbempty)

def optAt (b : UInt8) (i k : Nat) : Exp Nat := .opt (.seq (.byte b) (.leaving k (.entering i queryText)))

def hierAt : Exp Nat :=
  .alt (.alt (.alt (.seq (lit "//") (.seq authorityAt pathAt)) pathAbsolute) pathRootless) pathEmpty

def uriAt : Exp Nat :=
  .seq (.leaving 1 (.entering 0 schemeText)) (.seq (lit ":") (.seq hierAt (.seq (optAt 63 10 11) (optAt 35 12 13))))

theorem stamp_uriReference : uriReference.stamp 0 = .alt uriAt (relativeRef.stamp 14) := rfl

section Tail

variable {b : UInt8} {i k : Nat}

def optText (b : UInt8) : Option (List UInt8) → List UInt8
  | none => []
  | some x => b :: x

def optTrace (i k : Nat) : Option (List UInt8) → List (List Nat)
  | none => []
  | some x => [i] :: silent x.tail ++ [[k]]

def OptText (x : Option (List UInt8)) : Prop := ∀ t ∈ x, t ≠ [] ∧ t ∈ lang (queryText : Exp Nat)

theorem moves_optAt {c : UInt8} (h : c ≠ b) : moves (optAt b i k) c = [] := by
  simp [optAt, Exp.opt, Exp.byte, moves, out, h]

theorem plain_optAt : Plain (optAt b i k) := plain_stamp (e := optAt b i k) (by rfl) 0

theorem covers_optAt {Q F : UInt8 → Prop} {x : Option (List UInt8)} (hx : OptText x)
    (hQ : ∀ c, c = b ∨ alphabet (queryText : Exp Nat) c = true → Q c)
    (hF : ∀ c, F c → c ≠ b ∧ alphabet (queryText : Exp Nat) c = false) :
    Covers Q (optAt b i k) (optText b x) ([] :: optTrace i k x) F := by
  cases x with
  | none => exact Covers.nil rfl fun c hc => moves_optAt (hF c hc).1
  | some x =>
    obtain ⟨hne, hl⟩ := hx x rfl
    have hb : Covers (fun _ => False) (.byte b) [b] ([[]] ++ [[]]) fun _ => True :=
      covers_iff.mpr (Scans.chars (by simp))
    have hm : Covers Q (.leaving k (.entering i queryText)) x ([i] :: silent x.tail ++ [[k]]) F :=
      Covers.marked rfl hl hne (fun c hc => hQ c (.inr hc)) fun c hc => (hF c hc).2
    have hs := hb.seq hm (R := Q) (fun _ _ => trivial) (fun _ _ => trivial) (fun _ h => h.elim)
      (fun _ _ h => h.elim) fun _ h => h
    refine Covers.alt_bare (plain_stamp (e := Exp.seq (.byte b) (.leaving k (.entering i queryText))) (by rfl) 0) rfl hs
      (fun c hc => hQ c ?_) fun _ _ => rfl
    obtain rfl | hc := List.mem_cons.mp hc
    · exact .inl rfl
    · exact .inr (mem_alphabet hl hc)

theorem covers_tail {q f : Option (List UInt8)} (hq : OptText q) (hf : OptText f) :
    Covers (fun _ => True) (.seq (optAt 63 10 11) (optAt 35 12 13)) (optText 63 q ++ optText 35 f)
      ([] :: (optTrace 10 11 q ++ optTrace 12 13 f)) fun _ => False := by
  have hcut : ∀ c : UInt8, c = 63 ∨ alphabet (queryText : Exp Nat) c = true → c ≠ 35 := by
    rintro c (rfl | hc) hc'
    · exact absurd hc' (by decide)
    · rw [hc'] at hc
      cases hc
  have h₁ : Covers (· ≠ 35) (optAt 63 10 11) (optText 63 q) ([] :: optTrace 10 11 q) (· = 35) := by
    refine covers_optAt hq hcut ?_
    rintro c rfl
    exact ⟨by decide, rfl⟩
  have h₂ : Covers (fun _ => True) (optAt 35 12 13) (optText 35 f) ([] :: optTrace 12 13 f) fun _ => False :=
    covers_optAt hf (fun _ _ => trivial) fun _ h => h.elim
  have hhead : ∀ c ∈ (optText 35 f).head?, c = 35 := by
    cases f with
    | none => simp [optText]
    | some f => simp [optText]
  have hjoin : ∀ τ o, Covers (· ≠ 35) (optAt 63 10 11) (optText 63 q) (τ ++ [o]) (· = 35) →
      Covers (fun _ => True) (.seq (optAt 63 10 11) (optAt 35 12 13)) (optText 63 q ++ optText 35 f)
        (τ ++ (o ++ []) :: optTrace 12 13 f) fun _ => False := fun τ o h =>
    h.seq h₂ hhead (fun _ h => h.elim) (fun _ hc => moves_optAt hc) (fun _ _ _ => trivial) fun _ _ => trivial
  cases q with
  | none => exact hjoin [] [] h₁
  | some q => simpa [optTrace] using hjoin ([] :: [10] :: silent q.tail) [11] h₁

end Tail

section Whole

variable {s path : List UInt8} {q f : Option (List UInt8)}

def pathFirst : List UInt8 → List Nat
  | [] => [8, 9]
  | _ :: _ => [8]

def pathRest : List UInt8 → List (List Nat)
  | [] => []
  | _ :: x => silent x ++ [[9]]

def EndsPath (c : UInt8) : Prop := c = 63 ∨ c = 35

theorem alphabet_pathAt {c : UInt8} (h : EndsPath c) : alphabet pathAt c = false := by
  obtain rfl | rfl := h <;> rfl

theorem covers_pathAt (h : path ∈ lang (pathAbempty : Exp Nat)) :
    Covers (fun c => ¬ EndsPath c) pathAt path (pathFirst path :: pathRest path) EndsPath := by
  cases path with
  | nil =>
    refine Covers.nil rfl ?_
    rintro c (rfl | rfl)
    · rfl
    · rfl
  | cons c path =>
    refine Covers.marked rfl h (by simp) (fun c hc he => ?_) fun c hc => alphabet_pathAt hc
    have hc' : alphabet pathAt c = true := hc
    rw [alphabet_pathAt he] at hc'
    cases hc'

theorem moves_pathAt {c : UInt8} (h : c ≠ 47) : moves pathAt c = [] := by
  have hp : pathAt =
      .leaving 9 (.entering 8 (.seq (.opt (.seq (.byte 47) segment)) (.star (.seq (.byte 47) segment)))) :=
    rfl
  simp [hp, Exp.opt, Exp.byte, moves, out, h]

theorem plain_pathAt : Plain pathAt := plain_stamp (e := pathAt) (by rfl) 0

theorem path_head (h : path ∈ lang (pathAbempty : Exp Nat)) : ∀ c ∈ path.head?, c = 47 := by
  cases path with
  | nil => simp
  | cons d path =>
    have ha : Accepts pathAt (d :: path) := (accepts_iff plain_pathAt).mpr h
    have hr : Reads pathAt [d] := Accepts.reads (v := path) ha
    intro c hc
    obtain rfl : d = c := by simpa using hc
    by_contra hne
    exact reads_singleton.mp hr (moves_pathAt hne)

variable {a : List UInt8} {τ : List (List Nat)} {l : Nat}

theorem covers_hierAt (ha : Covers (fun c => ¬ EndsAuthority c) authorityAt a (τ ++ [[l]]) EndsAuthority)
    (hpath : path ∈ lang (pathAbempty : Exp Nat)) :
    Covers (fun c => ¬ EndsPath c) hierAt (bytes "//" ++ (a ++ path))
      ([[], []] ++ (τ ++ (l :: pathFirst path) :: pathRest path)) EndsPath := by
  have hends : ∀ c, EndsPath c → EndsAuthority c := fun c hc => .inr hc
  have hap : Covers (fun c => ¬ EndsPath c) (.seq authorityAt pathAt) (a ++ path)
      (τ ++ (l :: pathFirst path) :: pathRest path) EndsPath :=
    ha.seq (covers_pathAt hpath) (fun c hc => .inl (path_head hpath c hc)) hends
      (fun c hc => moves_pathAt fun h => hc (.inl h)) (fun c _ hc h => hc (hends c h)) fun _ h => h
  have hslash : Covers (fun _ => False) (lit "//") (bytes "//") ([[], []] ++ [[]]) fun _ => True :=
    covers_iff.mpr (Scans.text (by simp [bytes]))
  have hseq := hslash.seq_silent hap (R := fun c => ¬ EndsPath c) (fun _ _ => trivial) (fun _ _ => trivial)
    (fun _ h => h.elim) (fun _ _ h => h.elim) fun _ h => h
  have hplain : Plain (.seq (lit "//") (.seq authorityAt pathAt)) :=
    plain_stamp (e := Exp.seq (lit "//") (.seq authorityAt pathAt)) (by rfl) 0
  have hQ : ∀ c ∈ bytes "//" ++ (a ++ path), ¬ EndsPath c := by
    intro c hc he
    refine not_reads (e := .seq (lit "//") (.seq authorityAt pathAt)) ?_ hc
      (Accepts.reads (v := []) (by simpa using hseq.accepts hplain))
    obtain rfl | rfl := he <;> rfl
  have h₁ := hseq.alt_bare hplain (g := pathAbsolute) rfl hQ (by rintro c (rfl | rfl) <;> rfl)
  have hplain₁ : Plain (.alt (.seq (lit "//") (.seq authorityAt pathAt)) pathAbsolute) := ⟨hplain, bare_plain rfl⟩
  have h₂ := h₁.alt_bare hplain₁ (g := pathRootless) rfl hQ (by rintro c (rfl | rfl) <;> rfl)
  have hplain₂ : Plain (.alt (.alt (.seq (lit "//") (.seq authorityAt pathAt)) pathAbsolute) pathRootless) :=
    ⟨hplain₁, bare_plain rfl⟩
  exact h₂.alt_bare hplain₂ (g := pathEmpty) rfl hQ fun _ _ => rfl

theorem optText_head {b c : UInt8} {x : Option (List UInt8)} {r : List UInt8} (hr : ∀ d ∈ r.head?, EndsPath d)
    (hb : EndsPath b) (hc : c ∈ (optText b x ++ r).head?) : EndsPath c := by
  cases x with
  | none => exact hr c hc
  | some x =>
    obtain rfl : b = c := by simpa [optText] using hc
    exact hb

theorem covers_uriAt (hs : s ∈ lang (schemeText : Exp Nat))
    (ha : Covers (fun c => ¬ EndsAuthority c) authorityAt a (τ ++ [[l]]) EndsAuthority)
    (hpath : path ∈ lang (pathAbempty : Exp Nat)) (hq : OptText q) (hf : OptText f) :
    Covers (fun _ => True) uriAt (s ++ (bytes "://" ++ (a ++ path) ++ (optText 63 q ++ optText 35 f)))
      ([0] :: silent s.tail ++ [[1]] ++ ([[], []] ++ (τ ++ (l :: pathFirst path) :: pathRest path) ++
        (optTrace 10 11 q ++ optTrace 12 13 f))) fun _ => False := by
  have hhead : ∀ c ∈ (optText 63 q ++ optText 35 f).head?, EndsPath c := fun c hc =>
    optText_head (fun d hd => by simpa using optText_head (r := []) (by simp) (.inr rfl) (by simpa using hd))
      (.inl rfl) hc
  have hmoves : ∀ c, ¬ EndsPath c → moves (.seq (optAt 63 10 11) (optAt 35 12 13)) c = [] := by
    intro c hc
    have h₁ : moves (optAt 63 10 11) c = [] := moves_optAt fun h => hc (.inl h)
    have h₂ : moves (optAt 35 12 13) c = [] := moves_optAt fun h => hc (.inr h)
    have ho : out (optAt 63 10 11) = some [] := rfl
    simp [moves, h₁, h₂, ho]
  have hht := (covers_hierAt ha hpath).seq_append (covers_tail hq hf) (R := fun _ => True) hhead
    (fun _ h => h.elim) hmoves (fun _ _ _ => trivial) fun _ _ => trivial
  have hcolon : Covers (fun _ => False) (lit ":") (bytes ":") ([[]] ++ [[]]) fun _ => True :=
    covers_iff.mpr (Scans.text (by simp [bytes]))
  have hch := hcolon.seq_silent hht (R := fun _ => True) (fun _ _ => trivial) (fun _ _ => trivial)
    (fun _ h => h.elim) (fun _ _ h => h.elim) fun _ _ => trivial
  have hne : s ≠ [] := by
    rintro rfl
    obtain ⟨u, v, huv, ⟨c, -, rfl⟩, -⟩ := mem_lang_seq.mp hs
    cases huv
  have hscheme : Covers (· ≠ 58) (.leaving 1 (.entering 0 schemeText)) s ([0] :: silent s.tail ++ [[1]]) (· = 58) := by
    refine Covers.marked rfl hs hne ?_ ?_
    · rintro c hc rfl
      cases hc
    · rintro c rfl
      rfl
  have hcs : ∀ c : UInt8, c ≠ 58 → ∀ e : Exp Nat, moves (.seq (.byte 58) e) c = [] := by
    intro c hc e
    simp [Exp.byte, moves, out, hc]
  have htext : bytes "://" = bytes ":" ++ bytes "//" := rfl
  rw [htext, List.append_assoc, List.append_assoc, ← List.append_assoc (bytes "//")]
  refine hscheme.seq_append hch ?_ (fun _ h => h.elim) (fun c hc => hcs c hc _) (fun _ _ _ => trivial) fun _ _ => trivial
  intro c hc
  obtain rfl : 58 = c := Option.some.inj hc
  rfl

end Whole

section Relative

variable {s x y z : List UInt8} {c : UInt8} {i : Nat}

def relativePartAt : Exp Nat := relativePart.stamp 14

theorem stamp_relativeRef :
    relativeRef.stamp 14 = .seq relativePartAt (.seq (optAt 63 20 21) (optAt 35 22 23)) := rfl

theorem lang_optAt {b : UInt8} {i k : Nat} (h : x ∈ lang (optAt b i k)) : x = [] ∨ x.head? = some b := by
  obtain h | h := mem_lang_opt.mp h
  · obtain ⟨u, v, rfl, hu, -⟩ := mem_lang_seq.mp h
    obtain rfl := mem_lang_byte.mp hu
    exact .inr rfl
  · exact .inl h

theorem firesAt_optAt_head {b : UInt8} {j k : Nat} (h : FiresAt (optAt b j k) x c i) : x.head? = some b := by
  obtain ⟨v, rfl, -⟩ := firesAt_byte_seq.mp (firesAt_opt.mp h)
  rfl

theorem leavesAt_optAt_head {b : UInt8} {j k : Nat} (h : LeavesAt (optAt b j k) x i) : x.head? = some b := by
  obtain ⟨v, rfl, -⟩ := leavesAt_byte_seq.mp (leavesAt_opt.mp h)
  rfl

def Begins (x : List UInt8) : Prop := x.head? = some 63 ∨ x.head? = some 35

theorem begins_append (hy : y ∈ lang (optAt 63 20 21)) (hz : z.head? = some 35) : Begins (y ++ z) := by
  obtain rfl | hy := lang_optAt hy
  · exact .inr hz
  · cases y with
    | nil => cases hy
    | cons b y => exact .inl hy

theorem firesAt_tail (h : FiresAt (.seq (optAt 63 20 21) (optAt 35 22 23)) x c i) : Begins x := by
  obtain h | ⟨h, -⟩ | ⟨u, v, rfl, hu, h⟩ := firesAt_seq.mp h
  · exact .inl (firesAt_optAt_head h)
  · exact .inl (leavesAt_optAt_head h)
  · exact begins_append ((accepts_iff plain_optAt).mp hu) (firesAt_optAt_head h)

theorem leavesAt_tail (h : LeavesAt (.seq (optAt 63 20 21) (optAt 35 22 23)) x i) : Begins x := by
  obtain ⟨h, -⟩ | ⟨u, v, rfl, hu, h⟩ := leavesAt_seq.mp h
  · exact .inl (leavesAt_optAt_head h)
  · exact begins_append ((accepts_iff plain_optAt).mp hu) (leavesAt_optAt_head h)

theorem slashes_head {u v : List UInt8} (hu : Accepts (lit "//") u) : (u ++ v).head? = some 47 := by
  obtain ⟨w, rfl, -⟩ := accepts_byte_seq.mp hu
  rfl

theorem firesAt_relativePartAt (h : FiresAt relativePartAt x c i) : x.head? = some 47 := by
  have h₁ := (firesAt_alt.mp h).resolve_right (bare_not_firesAt rfl)
  have h₂ := (firesAt_alt.mp h₁).resolve_right (bare_not_firesAt rfl)
  have h₃ := (firesAt_alt.mp h₂).resolve_right (bare_not_firesAt rfl)
  obtain h | ⟨h, -⟩ | ⟨u, v, rfl, hu, -⟩ := firesAt_seq.mp h₃
  · exact absurd h (bare_not_firesAt rfl)
  · exact absurd h (bare_not_leavesAt rfl)
  · exact slashes_head hu

theorem leavesAt_relativePartAt (h : LeavesAt relativePartAt x i) : x.head? = some 47 := by
  have h₁ := (leavesAt_alt.mp h).resolve_right (bare_not_leavesAt rfl)
  have h₂ := (leavesAt_alt.mp h₁).resolve_right (bare_not_leavesAt rfl)
  have h₃ := (leavesAt_alt.mp h₂).resolve_right (bare_not_leavesAt rfl)
  obtain ⟨h, -⟩ | ⟨u, v, rfl, hu, -⟩ := leavesAt_seq.mp h₃
  · exact absurd h (bare_not_leavesAt rfl)
  · exact slashes_head hu

theorem segments_head (h : x ∈ lang (segments : Exp Nat)) : ∀ d ∈ x.head?, d = 47 := by
  cases x with
  | nil => simp
  | cons b x =>
    obtain ⟨u, v, -, hu, -⟩ := cons_mem_lang_star.mp h
    obtain ⟨u', v', huv, hu', -⟩ := mem_lang_seq.mp hu
    obtain rfl := mem_lang_byte.mp hu'
    obtain ⟨rfl, -⟩ := List.cons.inj huv
    intro d hd
    exact (Option.some.inj hd).symm

theorem relativePart_colon (h : x ∈ lang relativePartAt) (hx : x = y ++ 58 :: z) :
    x.head? = some 47 ∨ 47 ∈ y := by
  obtain ((h | h) | h) | h := h
  · obtain ⟨u, v, rfl, hu, -⟩ := mem_lang_seq.mp h
    exact .inl (slashes_head ((accepts_iff (e := lit "//") (bare_plain rfl)).mpr hu))
  · obtain ⟨u, v, rfl, hu, -⟩ := mem_lang_seq.mp h
    obtain rfl := mem_lang_byte.mp hu
    exact .inl rfl
  · obtain ⟨u, v, rfl, hu, hv⟩ := mem_lang_seq.mp h
    have hcolon : 58 ∉ u := not_mem_of_lang hu rfl
    have hv' : ∀ d ∈ v.head?, d = 47 := segments_head hv
    refine .inr ?_
    obtain ⟨w, rfl, hw⟩ | ⟨w, rfl, hw⟩ := List.append_eq_append_iff.mp hx
    · cases w with
      | nil => exact absurd (hv' 58 (by rw [hw]; rfl)) (by decide)
      | cons d w =>
        obtain rfl := hv' d (by rw [hw]; rfl)
        simp
    · cases w with
      | nil => exact absurd (hv' 58 (by rw [← List.nil_append v, ← hw]; rfl)) (by decide)
      | cons d w =>
        obtain rfl : 58 = d := (List.cons.inj hw).1
        simp at hcolon
  · have hnil : x = [] := h
    rw [hnil] at hx
    simp at hx

theorem firesAt_relativeRef (h : FiresAt (relativeRef.stamp 14) x c i) :
    x.head? = some 47 ∨ ∃ u v, x = u ++ v ∧ u ∈ lang relativePartAt ∧ Begins v := by
  rw [stamp_relativeRef] at h
  obtain h | ⟨h, -⟩ | ⟨u, v, rfl, hu, h⟩ := firesAt_seq.mp h
  · exact .inl (firesAt_relativePartAt h)
  · exact .inl (leavesAt_relativePartAt h)
  · exact .inr ⟨u, v, rfl, (accepts_iff (plain_stamp (by rfl) 14)).mp hu, firesAt_tail h⟩

theorem leavesAt_relativeRef (h : LeavesAt (relativeRef.stamp 14) x i) :
    x.head? = some 47 ∨ ∃ u v, x = u ++ v ∧ u ∈ lang relativePartAt ∧ Begins v := by
  rw [stamp_relativeRef] at h
  obtain ⟨h, -⟩ | ⟨u, v, rfl, hu, h⟩ := leavesAt_seq.mp h
  · exact .inl (leavesAt_relativePartAt h)
  · exact .inr ⟨u, v, rfl, (accepts_iff (plain_stamp (by rfl) 14)).mp hu, leavesAt_tail h⟩

/-- Behind a scheme and a colon nothing of a relative reference is left. -/
theorem relativeRef_ends (hs : s ∈ lang (schemeText : Exp Nat)) (hx : s ++ 58 :: z = x ++ y) :
    ¬ (x.head? = some 47 ∨ ∃ u v, x = u ++ v ∧ u ∈ lang relativePartAt ∧ Begins v) := by
  have hslash : 47 ∉ s := not_mem_of_lang hs rfl
  have hhead : ∀ w v : List UInt8, s ++ 58 :: z = w ++ v → w.head? ≠ some 47 := by
    intro w v hw hh
    cases w with
    | nil => cases hh
    | cons d w =>
      obtain rfl : d = 47 := Option.some.inj hh
      cases s with
      | nil => exact absurd (List.cons.inj hw).1 (by decide)
      | cons b s =>
        obtain rfl : b = 47 := (List.cons.inj hw).1
        simp at hslash
  rintro (hh | ⟨u, v, rfl, hu, hv⟩)
  · exact hhead x y hx hh
  · obtain ⟨b, v, rfl, hb⟩ : ∃ b v', v = b :: v' ∧ (b = 63 ∨ b = 35) := by
      cases v with
      | nil => simp [Begins] at hv
      | cons b v => exact ⟨b, v, rfl, by simpa [Begins] using hv⟩
    have hbs : b ∉ s := by
      obtain rfl | rfl := hb
      · exact not_mem_of_lang hs rfl
      · exact not_mem_of_lang hs rfl
    have hb58 : b ≠ 58 := by
      rintro rfl
      revert hb
      decide
    rw [List.append_assoc] at hx
    obtain ⟨w, rfl, hw⟩ | ⟨w, rfl, hw⟩ := List.append_eq_append_iff.mp hx
    · cases w with
      | nil => exact hb58 (List.cons.inj hw).1.symm
      | cons d w =>
        obtain rfl : 58 = d := (List.cons.inj hw).1
        obtain hh | hm := relativePart_colon hu rfl
        · exact hhead _ _ hx hh
        · exact hslash hm
    · cases w with
      | nil => exact hb58 (List.cons.inj hw).1
      | cons d w =>
        obtain rfl : b = d := (List.cons.inj hw).1
        simp at hbs

theorem covers_uriReference {τ : List (List Nat)} (hs : s ∈ lang (schemeText : Exp Nat))
    (h : Covers (fun _ => True) uriAt (s ++ 58 :: z) τ fun _ => False) :
    Covers (fun _ => True) (uriReference.stamp 0) (s ++ 58 :: z) τ fun _ => False := by
  obtain ⟨σ, o, rfl, h⟩ := h
  rw [stamp_uriReference]
  refine ⟨σ, o, rfl, h.alt_ghost (plain_stamp (e := uri) (by rfl) 0) (plain_stamp (by rfl) 14) ?_ ?_
    (fun _ _ _ _ _ => trivial) fun _ hc => hc.elim⟩
  · intro x c y hx i hi
    exact relativeRef_ends hs hx (firesAt_relativeRef hi)
  · intro i hi
    exact relativeRef_ends (y := []) hs (List.append_nil _).symm (leavesAt_relativeRef hi)

end Relative

end Windgent.UriParser
