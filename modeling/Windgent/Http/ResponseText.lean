import Windgent.Ragel.Parallel
import Windgent.Http.HttpClient

namespace Windgent.Http.HttpClient

open Ragel
open Http11 (ascii space)

def LineEnd (c : UInt8) : Prop := c = 13 ∨ c = 10

instance (c : UInt8) : Decidable (LineEnd c) := inferInstanceAs (Decidable (_ ∨ _))

def letters (s : String) : List (UInt8 → Bool) := (bytes s).map fun c d => decide (tolower d = tolower c)

theorem forall₂_letters {s : String} {w : List UInt8} :
    List.Forall₂ (fun p c => p c = true) (letters s) w ↔ w.map tolower = (bytes s).map tolower := by
  rw [letters, List.forall₂_map_left_iff]
  simp only [decide_eq_true_eq]
  generalize bytes s = bs
  induction bs generalizing w with
  | nil => cases w <;> simp
  | cons b bs ih =>
    cases w with
    | nil => simp
    | cons c w => simp [ih]

def lineEnd : Exp Nat := .alt (.text [13, 10]) (.text [10])

theorem moves_lineEnd {c : UInt8} (h : ¬ LineEnd c) : moves lineEnd c = [] := by
  rw [LineEnd, not_or] at h
  simp [lineEnd, Exp.text, Exp.byte, moves, out, h]

theorem scans_lineEnd : Scans (fun _ => False) lineEnd [13, 10] [[], []] [] fun _ => True := by
  have hs : Scans (fun _ => False) (.text [13, 10]) [13, 10] [[], []] [] fun _ => True :=
    Scans.text (w := [13, 10]) (by simp)
  exact hs.alt_left (by decide) fun h => by cases h

/-- What follows the name in the four kinds of header lines. -/
def afterColon (e : Exp Nat) : Exp Nat := .seq (.text [58]) (.seq (.star (.chars space)) e)

def encoding : Exp Nat :=
  .seq (.seq (.leaving 7 (.entering 6 (word (letters "Transfer-Encoding"))))
    (afterColon (.leaving 9 (.entering 8 (word (letters "chunked")))))) (.finishing 10 lineEnd)

def closing : Exp Nat :=
  .seq (.seq (word (letters "Connection")) (afterColon (word (letters "close")))) (.leaving 11 lineEnd)

def lengthening : Exp Nat :=
  .seq (.seq (.leaving 13 (.entering 12 (word (letters "Content-Length"))))
    (afterColon (.leaving 16 (.leaving 15 (.entering 14 (.plus (.chars Http11.digit))))))) lineEnd

def anyValue : Exp Nat := .leaving 20 (.entering 19 (.star (.chars fun _ => true)))

def field : Exp Nat :=
  .entryGuarded 1 (.seq (.leaving 18 (.entering 17 (.plus (.chars token)))) (afterColon anyValue)) lineEnd

theorem messageHeader_stamp : messageHeader.stamp 6 = .alt encoding (.alt closing (.alt lengthening field)) := rfl

theorem plain_lineEnd : Plain lineEnd := ⟨⟨trivial, trivial⟩, trivial⟩

theorem plain_afterColon {e : Exp Nat} (h : Plain e) : Plain (afterColon e) := ⟨trivial, trivial, h⟩

theorem plain_encoding : Plain encoding := ⟨⟨plain_word _, plain_afterColon (plain_word _)⟩, plain_lineEnd⟩

theorem plain_closing : Plain closing := ⟨⟨plain_word _, plain_afterColon (plain_word _)⟩, plain_lineEnd⟩

theorem plain_lengthening : Plain lengthening :=
  ⟨⟨plain_word _, plain_afterColon ⟨trivial, trivial⟩⟩, plain_lineEnd⟩

section Names

variable {c : UInt8} {name : List UInt8}

theorem token_visible (h : token c = true) : c ≠ 58 ∧ ¬ LineEnd c := by
  refine ⟨?_, ?_⟩
  · rintro rfl
    exact absurd h (by decide)
  · rintro (rfl | rfl) <;> exact absurd h (by decide)

theorem moves_afterColon (h : c ≠ 58) (e : Exp Nat) : moves (afterColon e) c = [] := by
  simp [afterColon, Exp.text, Exp.byte, moves, out, h]

theorem letters_colon (s : String) (h : 58 ∉ (bytes s).map tolower) : ∀ p ∈ letters s, p 58 = false := by
  intro p hp
  obtain ⟨b, hb, rfl⟩ := List.mem_map.mp hp
  rw [decide_eq_false_iff_not]
  intro he
  have hcolon : tolower b = 58 := he.symm
  exact h (hcolon ▸ List.mem_map_of_mem hb)

theorem beside_name {K : Exp Nat → Exp Nat} (hK : Place K) {s : String} (hs : bytes s ≠ [])
    (hcolon : 58 ∉ (bytes s).map tolower) (hend : ∀ c, c ≠ 58 → moves (K .eps) c = [])
    (hname : ∀ c ∈ name, token c = true) (h : name.map tolower ≠ (bytes s).map tolower) (rest : List UInt8) :
    Beside {K (word (letters s))} (name ++ 58 :: rest) (silent (name ++ 58 :: rest)) ∅ := by
  obtain ⟨b, bs, hb⟩ := List.exists_cons_of_ne_nil hs
  have hletters : letters s =
      (fun d => decide (tolower d = tolower b)) :: bs.map fun c d => decide (tolower d = tolower c) := by
    simp [letters, hb]
  refine Beside.word hK (letters_colon s hcolon) (fun c hc => hend c (token_visible (hname c hc)).1)
    (by simp [hletters]) (fun h' => h (forall₂_letters.mp h')) (fun _ => rfl) ?_ rest
  rw [hletters]
  exact out_word _ _

theorem beside_closing (hname : ∀ c ∈ name, token c = true) (h : name.map tolower ≠ bytes "connection")
    (rest : List UInt8) :
    Beside {closing} (name ++ 58 :: rest) (silent (name ++ 58 :: rest)) ∅ := by
  refine beside_name (place_seq rfl) (by decide) (by decide) (fun c hc => ?_) hname
    (by rwa [show (bytes "Connection").map tolower = bytes "connection" by decide]) rest
  have hout : out (afterColon (word (letters "close"))) = none := rfl
  simp [moves, out, moves_afterColon hc, hout]

theorem beside_entering {s : String} {a b : Nat} {R C : Exp Nat} (hC : out C = none) (hR : out R = none)
    (hs : bytes s ≠ []) (hcolon : 58 ∉ (bytes s).map tolower) (hmoves : ∀ c, c ≠ 58 → moves R c = [])
    (hne : name ≠ []) (hname : ∀ c ∈ name, token c = true) (h : name.map tolower ≠ (bytes s).map tolower)
    (rest : List UInt8) :
    ∃ t, (t = [] ∨ t = [a]) ∧
      Beside {.seq (.seq (.leaving b (.entering a (word (letters s)))) R) C} (name ++ 58 :: rest)
        (t :: (silent (name ++ 58 :: rest)).tail) ∅ := by
  have hb := beside_name (place_leaving (a := b) (R := R) hC) hs hcolon
    (fun c hc => by simp [moves, out, hmoves c hc, hR]) hname h rest
  obtain ⟨c, name, rfl⟩ := List.exists_cons_of_ne_nil hne
  obtain ⟨d, ds, hd⟩ := List.exists_cons_of_ne_nil hs
  have hout : out (word (letters s) : Exp Nat) = none := by
    have hletters : letters s =
        (fun e => decide (tolower e = tolower d)) :: ds.map fun c e => decide (tolower e = tolower c) := by
      simp [letters, hd]
    rw [hletters]
    exact out_word _ _
  exact hb.enter (by simp [moves, out, hout, Move.under, Move.fire]) (by simp [out, hC])

theorem beside_encoding (hne : name ≠ []) (hname : ∀ c ∈ name, token c = true)
    (h : name.map tolower ≠ bytes "transfer-encoding") (rest : List UInt8) :
    ∃ t, (t = [] ∨ t = [6]) ∧
      Beside {encoding} (name ++ 58 :: rest) (t :: (silent (name ++ 58 :: rest)).tail) ∅ :=
  beside_entering rfl rfl (by decide) (by decide) (fun _ hc => moves_afterColon hc _) hne hname
    (by rwa [show (bytes "Transfer-Encoding").map tolower = bytes "transfer-encoding" by decide]) rest

theorem beside_lengthening (hne : name ≠ []) (hname : ∀ c ∈ name, token c = true)
    (h : name.map tolower ≠ bytes "content-length") (rest : List UInt8) :
    ∃ t, (t = [] ∨ t = [12]) ∧
      Beside {lengthening} (name ++ 58 :: rest) (t :: (silent (name ++ 58 :: rest)).tail) ∅ :=
  beside_entering rfl rfl (by decide) (by decide) (fun _ hc => moves_afterColon hc _) hne hname
    (by rwa [show (bytes "Content-Length").map tolower = bytes "content-length" by decide]) rest

end Names

structure Field where
  name : List UInt8
  value : List UInt8
  name_ne : name ≠ []
  name_token : ∀ c ∈ name, token c = true
  value_ne : value ≠ []
  value_line : ∀ c ∈ value, ¬ LineEnd c
  value_head : ∀ c ∈ value.head?, space c = false

def Field.text (f : Field) : List UInt8 := f.name ++ 58 :: 32 :: f.value ++ [13, 10]

/-- The embeddings behind the first byte of a line. -/
def Field.rest (f : Field) : List (List Nat) :=
  silent f.name.tail ++ [18] :: [19] :: [19] :: silent f.value.tail ++ [[20], []]

section Fields

variable {c : UInt8}

def inValue : Exp Nat := .leaving 20 (.seq .eps (.star (.chars fun _ => true)))

theorem moves_inValue (c : UInt8) : moves inValue c = [⟨inValue, [], []⟩] := by
  simp [inValue, moves, out, Move.under, Move.fire]

theorem run_inValue {w : List UInt8} (hw : ∀ c ∈ w, ¬ LineEnd c) :
    Run (¬ LineEnd ·) {inValue} w (silent w) {inValue} := by
  induction w with
  | nil => exact .nil _
  | cons c w ih =>
    obtain ⟨hc, hw⟩ := List.forall_mem_cons.mp hw
    have hplain : ∀ e ∈ ({inValue} : States), Plain e := by
      rintro _ rfl
      exact ⟨trivial, trivial⟩
    have hs : Step {inValue} c [] {inValue} := by
      refine Step.of_plain hplain ⟨inValue, rfl⟩ (fun r => ?_) fun i => ?_
      · simp [moves_inValue, eq_comm]
      · simp [moves_inValue]
    exact .cons (fun _ => hc) hs (ih hw)

/-- The blank behind the colon may be the begin of the value as well, so that `start_value`
is executed again at the byte behind it. -/
theorem scans_value {v : List UInt8} (hne : v ≠ []) (hv : ∀ c ∈ v, ¬ LineEnd c)
    (hhead : ∀ c ∈ v.head?, space c = false) :
    Scans (¬ LineEnd ·) (.seq (.star (.chars space)) anyValue) (32 :: v) ([19] :: [19] :: silent v.tail) [20]
      fun _ => False := by
  obtain ⟨c, v, rfl⟩ := List.exists_cons_of_ne_nil hne
  obtain ⟨hc, hv⟩ := List.forall_mem_cons.mp hv
  have hspace : space c = false := hhead c rfl
  have hblank : space 32 = true := by decide
  let X : Exp Nat := .seq (.seq .eps (.star (.chars space))) anyValue
  have hm₀ : moves (.seq (.star (.chars space)) anyValue) 32 = [⟨X, [], []⟩, ⟨inValue, [19], []⟩] := by
    simp [anyValue, moves, out, hblank, Move.under, Move.fire, X, inValue]
  have hmX : moves X c = [⟨inValue, [19], []⟩] := by
    simp [X, anyValue, moves, out, hspace, Move.under, Move.fire, inValue]
  have hplain : Plain X ∧ Plain inValue := ⟨⟨⟨trivial, trivial⟩, trivial⟩, trivial, trivial⟩
  have hs₀ : Step {.seq (.star (.chars space)) anyValue} 32 [19] {X, inValue} := by
    refine Step.of_plain (by rintro _ rfl; exact ⟨trivial, trivial⟩) ⟨X, .inl rfl⟩ (fun r => ?_) fun i => ?_
    · simp [hm₀, eq_comm]
    · simp [hm₀]
  have hs₁ : Step {X, inValue} c [19] {inValue} := by
    refine Step.of_plain (by rintro _ (rfl | rfl); exacts [hplain.1, hplain.2]) ⟨_, rfl⟩ (fun r => ?_) fun i => ?_
    · simp [hmX, moves_inValue, eq_comm]
    · simp [hmX, moves_inValue]
  have hfinal : Final {inValue} := ⟨_, rfl, rfl⟩
  exact ⟨{inValue}, .cons (fun _ => by decide) hs₀ (.cons (fun _ => hc) hs₁ (run_inValue hv)), hfinal,
    leaves_singleton rfl, fun _ h => h.elim⟩

theorem scans_fieldName {name : List UInt8} (hne : name ≠ []) (h : ∀ c ∈ name, token c = true) :
    Scans (token · = true) (.leaving 18 (.entering 17 (.plus (.chars token)))) name ([17] :: silent name.tail) [18]
      fun c => token c = false := by
  obtain ⟨c, name, rfl⟩ := List.exists_cons_of_ne_nil hne
  obtain ⟨hc, h⟩ := List.forall_mem_cons.mp h
  have hfirst : Scans (fun _ => False) (.chars token) [c] [[]] [] fun _ => True := Scans.chars hc
  have hs := hfirst.seq_quiet (Scans.star_chars h fun _ h => h) (fun _ _ => trivial) (fun _ _ => trivial)
    (fun _ h => h.elim) (fun _ _ h => h.elim) fun _ h => h
  exact (hs.entering 17).leaving 18

theorem scans_colon : Scans (fun _ => False) (.text [58]) [58] [[]] [] fun _ => True :=
  Scans.text (w := [58]) (by simp)

theorem scans_field (f : Field) :
    Scans (fun _ => False) field f.text ([17] :: f.rest) [] fun _ => True := by
  have hvalue := scans_colon.seq_quiet (scans_value f.value_ne f.value_line f.value_head) (fun _ _ => trivial)
    (fun _ _ => trivial) (fun _ h => h.elim) (fun _ _ h => h.elim) fun _ h => h
  have hname := (scans_fieldName f.name_ne f.name_token).seq (R := (¬ LineEnd ·)) hvalue (by decide)
    (fun c hc => moves_afterColon (token_visible hc).1 anyValue) (fun _ _ h => (token_visible h).2) fun _ h => h
  have hplain : Plain (.seq (.leaving 18 (.entering 17 (.plus (.chars token)))) (afterColon anyValue)) :=
    ⟨⟨trivial, trivial⟩, plain_afterColon trivial⟩
  have hs := Scans.guarded 1 hplain plain_lineEnd hname scans_lineEnd (fun c hc => moves_lineEnd hc) rfl
  rw [field]
  simpa [Field.text, Field.rest] using hs

end Fields

section Header

variable {f : Field} {e : Exp Nat} {c : UInt8} {w : List UInt8} {t : List Nat} {τ : List (List Nat)} {o : List Nat}

theorem Field.text_cons (f : Field) : ∃ c w, token c = true ∧ f.text = c :: w ∧
    f.name ++ 58 :: (32 :: f.value ++ [13, 10]) = c :: w := by
  obtain ⟨c, name, hname⟩ := List.exists_cons_of_ne_nil f.name_ne
  refine ⟨c, name ++ 58 :: 32 :: f.value ++ [13, 10], f.name_token c (by simp [hname]), ?_, ?_⟩
  · simp [Field.text, hname]
  · simp [hname]

theorem out_headers : out encoding = none ∧ out closing = none ∧ out lengthening = none ∧ out field = none :=
  ⟨rfl, rfl, rfl, rfl⟩

theorem out_alt {e g : Exp Nat} (he : out e = none) (hg : out g = none) : out (.alt e g) = none := by
  simp [out, he, hg]

theorem scans_encoding (h : Scans (fun _ => False) e f.text (t :: τ) o fun _ => True) (he : out e = none)
    (hname : f.name.map tolower ≠ bytes "transfer-encoding") :
    ∃ u, (u = [] ∨ u = [6]) ∧ Scans (fun _ => False) (.alt encoding e) f.text ((u ++ t) :: τ) o fun _ => True := by
  obtain ⟨c, w, -, htext, hw⟩ := f.text_cons
  obtain ⟨u, hu, hb⟩ := beside_encoding f.name_ne f.name_token hname (32 :: f.value ++ [13, 10])
  rw [hw] at hb
  rw [htext] at h ⊢
  exact ⟨u, hu, h.alt_dying plain_encoding hb fun ho => by simp [out_alt out_headers.1 he] at ho⟩

theorem scans_lengthening (h : Scans (fun _ => False) e f.text (t :: τ) o fun _ => True) (he : out e = none)
    (hname : f.name.map tolower ≠ bytes "content-length") :
    ∃ u, (u = [] ∨ u = [12]) ∧ Scans (fun _ => False) (.alt lengthening e) f.text ((u ++ t) :: τ) o fun _ => True := by
  obtain ⟨c, w, -, htext, hw⟩ := f.text_cons
  obtain ⟨u, hu, hb⟩ := beside_lengthening f.name_ne f.name_token hname (32 :: f.value ++ [13, 10])
  rw [hw] at hb
  rw [htext] at h ⊢
  exact ⟨u, hu, h.alt_dying plain_lengthening hb fun ho => by simp [out_alt out_headers.2.2.1 he] at ho⟩

theorem scans_closing (h : Scans (fun _ => False) e f.text (t :: τ) o fun _ => True) (he : out e = none)
    (hname : f.name.map tolower ≠ bytes "connection") :
    Scans (fun _ => False) (.alt closing e) f.text (t :: τ) o fun _ => True := by
  obtain ⟨c, w, -, htext, hw⟩ := f.text_cons
  have hb := beside_closing f.name_token hname (32 :: f.value ++ [13, 10])
  rw [hw] at hb
  rw [htext] at h ⊢
  exact h.alt_dying plain_closing hb fun ho => by simp [out_alt out_headers.2.1 he] at ho

/-- A header line whose name is none of the three that have an alternative of their own. -/
theorem scans_ordinary (h₁ : f.name.map tolower ≠ bytes "transfer-encoding")
    (h₂ : f.name.map tolower ≠ bytes "connection") (h₃ : f.name.map tolower ≠ bytes "content-length") :
    ∃ t, (∀ i ∈ t, i = 6 ∨ i = 12) ∧
      Scans (fun _ => False) (messageHeader.stamp 6) f.text ((t ++ [17]) :: f.rest) [] fun _ => True := by
  obtain ⟨-, hclosing, hlengthening, hfield⟩ := out_headers
  obtain ⟨u, hu, hs⟩ := scans_lengthening (scans_field f) hfield h₃
  obtain ⟨v, hv, hs⟩ := scans_encoding (scans_closing hs (out_alt hlengthening hfield) h₂)
    (out_alt hclosing (out_alt hlengthening hfield)) h₁
  rw [messageHeader_stamp]
  refine ⟨v ++ u, fun i hi => ?_, by rwa [List.append_assoc]⟩
  obtain rfl | rfl := hu <;> obtain rfl | rfl := hv <;> simp at hi <;> simp [hi]

end Header

section Generated

variable {Q F : UInt8 → Prop} {e : Exp Nat} {c : UInt8} {v : List UInt8} {t o : List Nat} {τ : List (List Nat)}

theorem scans_afterColon (h : Scans Q e (c :: v) (t :: τ) o F) (hc : space c = false)
    (hq : ∀ c, space c = true → moves e c = []) (he : out e = none) :
    Scans Q (afterColon e) (58 :: 32 :: c :: v) ([] :: [] :: t :: τ) o F := by
  have hblank : Scans (space · = true) (.star (.chars space)) [32] [[]] [] fun c => space c = false :=
    Scans.star_chars (w := [32]) (List.forall_mem_singleton.mpr rfl) fun _ h => h
  have hs := hblank.seq (R := Q) h hc hq (fun _ ho => by simp [he] at ho) fun _ h => h
  exact scans_colon.seq (R := Q) hs trivial (fun _ h => h.elim) (fun _ _ h => h.elim) fun _ h => h

theorem space_visible (h : space c = true) : tolower c ≠ 99 ∧ Http11.digit c = false := by
  have hall : ∀ n < 256, space (UInt8.ofNat n) = true →
      tolower (UInt8.ofNat n) ≠ 99 ∧ Http11.digit (UInt8.ofNat n) = false := by decide +kernel
  simpa using hall c.toNat c.toNat_lt (by simpa using h)

theorem scans_close : Scans (fun _ => False) closing (bytes "Connection: close\r\n")
    (silent (bytes "Connection: close\r\n")) [11] fun _ => True := by
  have hname : Scans (fun _ => False) (word (letters "Connection")) (bytes "Connection")
      (silent (bytes "Connection")) [] fun _ => True := Scans.word (forall₂_letters.mpr rfl) (by decide)
  have hclose : Scans (fun _ => False) (word (letters "close")) (bytes "close") (silent (bytes "close")) []
      fun _ => True := Scans.word (forall₂_letters.mpr rfl) (by decide)
  have hletters : letters "close" = (fun d => decide (tolower d = 99)) :: letters "lose" := rfl
  have hvalue := scans_afterColon hclose (by decide) (fun c hc => by
    rw [hletters]
    exact moves_word (by simp [(space_visible hc).1]) _) rfl
  have hline := hname.seq (R := fun _ => False) hvalue trivial (fun _ h => h.elim) (fun _ _ h => h.elim) fun _ h => h
  exact hline.seq (scans_lineEnd.leaving 11) trivial (fun _ h => h.elim) (fun _ _ h => h.elim) fun _ h => h

theorem scans_length {ds : List UInt8} (hne : ds ≠ []) (hds : ∀ c ∈ ds, Http11.digit c = true) :
    Scans (fun _ => False) lengthening (bytes "Content-Length" ++ 58 :: 32 :: (ds ++ [13, 10]))
      ([12] :: silent (bytes "ontent-Length") ++ [13] :: [] :: [14] :: silent ds.tail ++ [[15, 16], []]) []
      fun _ => True := by
  have hname : Scans (fun _ => False) (word (letters "Content-Length")) (bytes "Content-Length")
      (silent (bytes "Content-Length")) [] fun _ => True := Scans.word (forall₂_letters.mpr rfl) (by decide)
  obtain ⟨d, ds, rfl⟩ := List.exists_cons_of_ne_nil hne
  obtain ⟨hd, hds⟩ := List.forall_mem_cons.mp hds
  have hfirst : Scans (fun _ => False) (.chars Http11.digit) [d] [[]] [] fun _ => True := Scans.chars hd
  have hnumber := hfirst.seq_quiet (Scans.star_chars hds fun _ h => h) (fun _ _ => trivial) (fun _ _ => trivial)
    (fun _ h => h.elim) (fun _ _ h => h.elim) fun _ h => h
  have hspace : space d = false := by
    by_contra h
    simp [(space_visible (by simpa using h)).2] at hd
  have hvalue := scans_afterColon (((hnumber.entering 14).leaving 15).leaving 16) hspace
    (fun c hc => by simp [moves, out, (space_visible hc).2]) rfl
  have hfield := ((hname.entering 12).leaving 13).seq (R := (Http11.digit · = true)) hvalue trivial
    (fun _ h => h.elim) (fun _ _ h => h.elim) fun _ h => h
  have hline := hfield.seq (R := fun _ => False) scans_lineEnd (by decide)
    (fun c hc => moves_lineEnd (by rintro (rfl | rfl) <;> exact absurd hc (by decide))) (fun _ h => by cases h)
    fun _ h => h
  simp only [List.append_assoc, List.cons_append, List.nil_append] at hline ⊢
  exact hline

theorem scans_connection (f : Field) (hname : f.name = bytes "Connection") {close : Bool}
    (hvalue : f.value = bytes (if close then "close" else "keep-alive")) :
    ∃ t, (∀ i ∈ t, i = 6 ∨ i = 12) ∧
      Scans (fun _ => False) (messageHeader.stamp 6) f.text ((t ++ [17]) :: f.rest) (if close then [11] else [])
        fun _ => True := by
  obtain ⟨-, hclosing, hlengthening, hfield⟩ := out_headers
  have hout := out_alt hclosing (out_alt hlengthening hfield)
  have hline : f.text = bytes (if close then "Connection: close\r\n" else "Connection: keep-alive\r\n") := by
    rw [Field.text, hname, hvalue]
    cases close <;> decide
  obtain ⟨u, hu, hs⟩ := scans_lengthening (scans_field f) hfield (by rw [hname]; decide)
  have hboth : Scans (fun _ => False) (.alt closing (.alt lengthening field)) f.text ((u ++ [17]) :: f.rest)
      (if close then [11] else []) fun _ => True := by
    obtain ⟨c, w, -, htext, -⟩ := f.text_cons
    have hnot : (out (.alt closing (.alt lengthening field))).isSome = true → False := fun h => by simp [hout] at h
    cases close with
    | true =>
      have hclose := scans_close
      change f.text = bytes "Connection: close\r\n" at hline
      rw [← hline, htext] at hclose
      rw [htext] at hs ⊢
      have hlen : ((u ++ [17]) :: f.rest).length = (c :: w).length := by
        obtain ⟨T, hr, -⟩ := hs
        exact hr.length
      have hb := hclose.alt_both plain_closing hs hnot
      rwa [both_silent hlen] at hb
    | false =>
      have hquiet : quietly [closing] (bytes "Connection: keep-alive\r\n") = some [] := rfl
      change f.text = bytes "Connection: keep-alive\r\n" at hline
      have hb := Beside.quietly hquiet
      rw [← hline, htext] at hb
      rw [htext] at hs ⊢
      have hone : ({x | x ∈ [closing]} : States) = {closing} := by simp
      have hnone : ({x | x ∈ ([] : List (Exp Nat))} : States) = ∅ := by simp
      rw [hone, hnone] at hb
      have hd := hs.alt_dying (u := []) plain_closing hb fun h => (hnot h).elim
      exact hd
  obtain ⟨v, hv, hs⟩ := scans_encoding hboth hout (by rw [hname]; decide)
  rw [messageHeader_stamp]
  refine ⟨v ++ u, fun i hi => ?_, by rwa [List.append_assoc]⟩
  obtain rfl | rfl := hu <;> obtain rfl | rfl := hv <;> simp at hi <;> simp [hi]

theorem both_line (n m : List UInt8) (a b c d e f : List Nat) (a' b' c' d' e' f' : List Nat) :
    both (a :: silent n ++ b :: c :: d :: silent m ++ [e, f])
        (a' :: silent n ++ b' :: c' :: d' :: silent m ++ [e', f']) =
      (a ++ a') :: silent n ++ (b ++ b') :: (c ++ c') :: (d ++ d') :: silent m ++ [e ++ e', f ++ f'] := by
  have hn : both (silent n) (silent n) = silent n := both_silent (by simp [silent])
  have hm : both (silent m) (silent m) = silent m := both_silent (by simp [silent])
  have happ : ∀ w (τ τ' : List (List Nat)),
      both (silent w ++ τ) (silent w ++ τ') = both (silent w) (silent w) ++ both τ τ' :=
    fun w τ τ' => List.zipWith_append rfl
  have hcons : ∀ (t t' : List Nat) τ τ', both (t :: τ) (t' :: τ') = (t ++ t') :: both τ τ' := fun _ _ _ _ => rfl
  simp only [List.cons_append, List.append_assoc, hcons, happ, hn, hm]
  rfl

theorem scans_number (f : Field) (hname : f.name = bytes "Content-Length")
    (hvalue : ∀ c ∈ f.value, Http11.digit c = true) :
    ∃ t, (∀ i ∈ t, i = 6) ∧ Scans (fun _ => False) (messageHeader.stamp 6) f.text
      ((t ++ [12, 17]) ::
        (silent f.name.tail ++ [13, 18] :: [19] :: [14, 19] :: silent f.value.tail ++ [[15, 16, 20], []]))
      [] fun _ => True := by
  obtain ⟨-, hclosing, hlengthening, hfield⟩ := out_headers
  have hnot : ∀ {e g : Exp Nat}, out e = none → out g = none → (out (.alt e g)).isSome = true → False :=
    fun he hg h => by simp [out_alt he hg] at h
  have htext : f.text = bytes "Content-Length" ++ 58 :: 32 :: (f.value ++ [13, 10]) := by
    rw [Field.text, hname]
    simp only [List.append_assoc, List.cons_append]
  have hlength := scans_length f.value_ne hvalue
  have hs := scans_field f
  rw [← htext] at hlength
  obtain ⟨c, w, -, hcons, -⟩ := f.text_cons
  rw [hcons] at hlength hs
  have hb := hlength.alt_both plain_lengthening hs (hnot hlengthening hfield)
  have hrest : f.rest =
      silent (bytes "ontent-Length") ++ [18] :: [19] :: [19] :: silent f.value.tail ++ [[20], []] := by
    rw [Field.rest, hname]
    rfl
  rw [hrest, ← List.cons_append, ← List.cons_append, both_line, ← hcons] at hb
  have hc := scans_closing hb (out_alt hlengthening hfield) (by rw [hname]; decide)
  obtain ⟨v, hv, hs⟩ := scans_encoding hc (out_alt hclosing (out_alt hlengthening hfield)) (by rw [hname]; decide)
  rw [messageHeader_stamp, hname]
  refine ⟨v, fun i hi => ?_, hs⟩
  obtain rfl | rfl := hv
  · cases hi
  · simpa using hi

end Generated

/-- A header line with the embeddings of the grammar, and what is left to the byte behind it. -/
structure Item where
  text : List UInt8
  first : List Nat
  rest : List (List Nat)
  leaves : List Nat
  head : ∃ c w, token c = true ∧ text = c :: w
  scans : Scans (fun _ => False) (messageHeader.stamp 6) text (first :: rest) leaves fun _ => True

def join : List Nat → List Item → List (List Nat)
  | _, [] => []
  | o, i :: is => (o ++ i.first) :: i.rest ++ join i.leaves is

def lastLeaves : List Nat → List Item → List Nat
  | o, [] => o
  | _, i :: is => lastLeaves i.leaves is

section Head

variable {c : UInt8}

theorem moves_messageHeader (h : token c = false) : moves (messageHeader.stamp 6) c = [] := by
  have hletters : ∀ s d ds, letters s = (fun e => decide (tolower e = d)) :: ds → ¬ tolower c = d →
      moves (word (letters s) : Exp Nat) c = [] := by
    intro s d ds hs hd
    rw [hs]
    exact moves_word (by simpa using hd) ds
  have hne : ∀ d, (∀ n < 256, tolower (UInt8.ofNat n) = d → token (UInt8.ofNat n) = true) → ¬ tolower c = d := by
    intro d hall hd
    have hc := hall c.toNat c.toNat_lt (by simpa using hd)
    rw [UInt8.ofNat_toNat, h] at hc
    cases hc
  have ht := hletters "Transfer-Encoding" 116 _ rfl (hne 116 (by decide +kernel))
  have hcon := hletters "Connection" 99 _ rfl (hne 99 (by decide +kernel))
  have hlen := hletters "Content-Length" 99 _ rfl (hne 99 (by decide +kernel))
  have hout : ∀ s, out (word (letters s) : Exp Nat) = none ∨ letters s = [] := by
    intro s
    cases letters s with
    | nil => exact .inr rfl
    | cons p ps => exact .inl (out_word p ps)
  have ht' := (hout "Transfer-Encoding").resolve_right (by decide)
  have hcon' := (hout "Connection").resolve_right (by decide)
  have hlen' := (hout "Content-Length").resolve_right (by decide)
  rw [messageHeader_stamp]
  simp [encoding, closing, lengthening, field, Exp.entryGuarded, Exp.plus, moves, out, h, ht, hcon, hlen, ht', hcon',
    hlen']

theorem scans_items (i : Item) (is : List Item) (o : List Nat) :
    ∃ t τ, join o (i :: is) = (o ++ t) :: τ ∧
      Scans (token · = true) (.star (messageHeader.stamp 6)) ((i :: is).flatMap Item.text) (t :: τ)
        (lastLeaves o (i :: is)) fun c => token c = false := by
  induction is generalizing i o with
  | nil =>
    obtain ⟨c, w, hc, htext⟩ := i.head
    have hs := i.scans
    rw [htext] at hs
    refine ⟨i.first, i.rest, by simp [join], ?_⟩
    have hstar := hs.star_last (P := (token · = true)) (G := fun c => token c = false) rfl (fun _ h => h.elim)
      (fun _ h => h.elim) hc fun c hc => ⟨trivial, moves_messageHeader hc⟩
    simpa [lastLeaves, htext] using hstar
  | cons j is ih =>
    obtain ⟨c, w, hc, htext⟩ := i.head
    obtain ⟨d, v, hd, htext'⟩ := j.head
    have hs := i.scans
    rw [htext] at hs
    obtain ⟨t, τ, hjoin, hrest⟩ := ih j i.leaves
    rw [List.flatMap_cons, htext', List.cons_append] at hrest
    refine ⟨i.first, i.rest ++ join i.leaves (j :: is), rfl, ?_⟩
    have hstar := hs.star_next rfl (fun _ h => h.elim) (fun _ h => h.elim) hc trivial hrest
    rw [hjoin, List.flatMap_cons, List.flatMap_cons, htext, htext']
    exact hstar

structure Status where
  minor : UInt8
  status : List UInt8
  reason : List UInt8
  minor_digit : Http11.digit minor = true
  status_ne : status ≠ []
  status_digit : ∀ c ∈ status, Http11.digit c = true
  reason_ne : reason ≠ []
  reason_line : ∀ c ∈ reason, ¬ LineEnd c

def Status.version (l : Status) : List UInt8 := bytes "HTTP/1." ++ [l.minor]

def Status.text (l : Status) : List UInt8 := l.version ++ 32 :: l.status ++ 32 :: l.reason ++ [13, 10]

def Status.trace (l : Status) : List (List Nat) :=
  [0] :: silent l.version.tail ++ [1] :: [2] :: silent l.status.tail ++ [3] :: [4] :: silent l.reason.tail ++ [[5], []]

def statusNumber : Exp Nat := .leaving 3 (.entering 2 (.plus (.chars Http11.digit)))

def reason : Exp Nat := .leaving 5 (.entering 4 (.plus (.chars (· ≠ 10))))

def version : Exp Nat :=
  .leaving 1 (.entering 0 (.seq (.text (bytes "HTTP/"))
    (.seq (.plus (.chars Http11.digit)) (.seq (.text [46]) (.plus (.chars Http11.digit))))))

theorem statusLine_stamp : statusLine.stamp 0 =
    .entryGuarded 0 (.seq version (.seq (.text [32]) (.seq statusNumber (.seq (.text [32]) reason)))) lineEnd := rfl

theorem digit_line (h : Http11.digit c = true) : c ≠ 32 ∧ c ≠ 46 ∧ ¬ LineEnd c := by
  refine ⟨?_, ?_, ?_⟩
  · rintro rfl
    exact absurd h (by decide)
  · rintro rfl
    exact absurd h (by decide)
  · rintro (rfl | rfl) <;> exact absurd h (by decide)

theorem scans_digits {ds : List UInt8} (hne : ds ≠ []) (h : ∀ c ∈ ds, Http11.digit c = true) :
    Scans (Http11.digit · = true) (.plus (.chars Http11.digit)) ds ([] :: silent ds.tail) []
      fun c => Http11.digit c = false := by
  obtain ⟨d, ds, rfl⟩ := List.exists_cons_of_ne_nil hne
  obtain ⟨hd, h⟩ := List.forall_mem_cons.mp h
  have hfirst : Scans (fun _ => False) (.chars Http11.digit) [d] [[]] [] fun _ => True := Scans.chars hd
  exact hfirst.seq_quiet (Scans.star_chars h fun _ h => h) (fun _ _ => trivial) (fun _ _ => trivial)
    (fun _ h => h.elim) (fun _ _ h => h.elim) fun _ h => h

theorem moves_text (d : UInt8) (h : c ≠ d) (e : Exp Nat) : moves (.seq (.text [d]) e) c = [] := by
  simp [Exp.text, Exp.byte, moves, out, h]

theorem scans_byte (d : UInt8) : Scans (fun _ => False) (.text [d]) [d] [[]] [] fun _ => True :=
  Scans.text (w := [d]) (by simp)

theorem scans_version {d : UInt8} (hd : Http11.digit d = true) :
    Scans (Http11.digit · = true) version (bytes "HTTP/1." ++ [d]) ([0] :: silent (bytes "TTP/1." ++ [d])) [1]
      fun c => Http11.digit c = false := by
  have hname : Scans (fun _ => False) (.text (bytes "HTTP/")) (bytes "HTTP/") (silent (bytes "HTTP/")) []
    fun _ => True := Scans.text (by decide)
  have hmajor : Scans (Http11.digit · = true) (.plus (.chars Http11.digit)) [49] [[]] []
      fun c => Http11.digit c = false := scans_digits (by simp) (List.forall_mem_singleton.mpr rfl)
  have hlast : Scans (Http11.digit · = true) (.plus (.chars Http11.digit)) [d] [[]] []
      fun c => Http11.digit c = false := scans_digits (by simp) (List.forall_mem_singleton.mpr hd)
  have hminor := (scans_byte 46).seq_quiet (R := (Http11.digit · = true)) hlast (fun _ _ => trivial)
    (fun _ _ => trivial) (fun _ h => h.elim) (fun _ _ h => h.elim) fun _ h => h
  have hdot : ∀ c ∈ ([46] ++ [d]).head?, Http11.digit c = false := by
    rintro c ⟨⟩
    decide
  have hnumber := hmajor.seq_quiet (R := (Http11.digit · = true)) hminor hdot (fun _ h => h)
    (fun c hc => moves_text 46 (digit_line hc).2.1 _) (fun _ _ h => h) fun _ h => h
  have hs := hname.seq_quiet (R := (Http11.digit · = true)) hnumber (fun _ _ => trivial) (fun _ _ => trivial)
    (fun _ h => h.elim) (fun _ _ h => h.elim) fun _ h => h
  exact (hs.entering 0).leaving 1

theorem scans_reason {w : List UInt8} (hne : w ≠ []) (h : ∀ c ∈ w, ¬ LineEnd c) :
    Scans (¬ LineEnd ·) reason w ([4] :: silent w.tail) [5] fun _ => False := by
  obtain ⟨c, w, rfl⟩ := List.exists_cons_of_ne_nil hne
  have hany : ∀ c, ¬ LineEnd c → decide (c ≠ 10) = true := fun c hc => by simpa using fun h => hc (.inr h)
  obtain ⟨hc, h⟩ := List.forall_mem_cons.mp h
  have hfirst : Scans (fun _ => False) (.chars fun c => decide (c ≠ 10)) [c] [[]] [] fun _ => True :=
    Scans.chars (hany c hc)
  have hrest : Scans (¬ LineEnd ·) (.star (.chars fun c => decide (c ≠ 10))) w (silent w) [] fun _ => False :=
    Scans.star_within (fun c hc => ⟨hany c (h c hc), h c hc⟩) fun _ h => h.elim
  have hs := hfirst.seq_quiet hrest (fun _ _ => trivial) (fun _ _ => trivial) (fun _ h => h.elim)
    (fun _ _ h => h.elim) fun _ h => h
  exact (hs.entering 4).leaving 5

theorem scans_statusLine (l : Status) :
    Scans (fun _ => False) (statusLine.stamp 0) l.text l.trace [] fun _ => True := by
  have hstatus : Scans (Http11.digit · = true) statusNumber l.status ([2] :: silent l.status.tail) [3]
      fun c => Http11.digit c = false := by
    have hs := scans_digits l.status_ne l.status_digit
    obtain ⟨d, ds, hd⟩ := List.exists_cons_of_ne_nil l.status_ne
    rw [hd] at hs ⊢
    exact (hs.entering 2).leaving 3
  have hreason := (scans_byte 32).seq_quiet (scans_reason l.reason_ne l.reason_line) (fun _ _ => trivial)
    (fun _ _ => trivial) (fun _ h => h.elim) (fun _ _ h => h.elim) fun _ h => h
  have hrest := hstatus.seq (R := (¬ LineEnd ·)) hreason (by decide) (fun c hc => moves_text 32 (digit_line hc).1 _)
    (fun _ _ h => (digit_line h).2.2) fun _ h => h
  have hnumber := (scans_byte 32).seq_quiet hrest (fun _ _ => trivial) (fun _ _ => trivial) (fun _ h => h.elim)
    (fun _ _ h => h.elim) fun _ h => h
  have hline := (scans_version l.minor_digit).seq (R := (¬ LineEnd ·)) hnumber (by decide)
    (fun c hc => moves_text 32 (digit_line hc).1 _) (fun _ _ h => (digit_line h).2.2) fun _ h => h
  have hplain : Plain (.seq version (.seq (.text [32]) (.seq statusNumber (.seq (.text [32]) reason)))) :=
    plain_stamp (e := .cat [httpVersion, lit " ", statusCode, lit " ", reasonPhrase]) (by decide) 0
  have hs := Scans.guarded (P := fun _ => False) 0 hplain plain_lineEnd hline scans_lineEnd
    (fun c hc => moves_lineEnd hc) rfl
  rw [statusLine_stamp]
  have htext : l.text = bytes "HTTP/1." ++ [l.minor] ++ 32 :: (l.status ++ 32 :: l.reason) ++ [13, 10] := by
    simp only [Status.text, Status.version, List.append_assoc, List.cons_append]
  have htrace : l.trace = [0] :: silent (bytes "TTP/1." ++ [l.minor]) ++ ([1] ++ []) :: ([2] :: silent l.status.tail ++
      ([3] ++ []) :: [4] :: silent l.reason.tail) ++ [[5], []] := by
    simp only [Status.trace, List.append_assoc, List.cons_append, List.append_nil]
    rfl
  rw [htext, htrace]
  simpa using hs

theorem response_stamp : response.stamp 0 =
    .seq (statusLine.stamp 0) (.seq (.star (messageHeader.stamp 6)) lineEnd) := rfl

/-- A response up to its body, from the start of the machine. -/
theorem scans_head (l : Status) (i : Item) (is : List Item) :
    Scans (fun _ => False) (main.stamp 0) (l.text ++ (i :: is).flatMap Item.text ++ [13, 10])
      (l.trace ++ join [] (i :: is) ++ [lastLeaves [] (i :: is), []]) [] fun _ => True := by
  obtain ⟨t, τ, hjoin, hitems⟩ := scans_items i is []
  rw [List.nil_append] at hjoin
  have hend := hitems.seq (R := fun _ => False) scans_lineEnd (by decide)
    (fun c hc => moves_lineEnd (token_visible hc).2) (fun _ h => by cases h) fun _ h => h
  have hs := (scans_statusLine l).seq_quiet (R := fun _ => False) hend (fun _ _ => trivial) (fun _ _ => trivial)
    (fun _ h => h.elim) (fun _ _ h => h.elim) fun _ h => h
  have htext : l.text = 72 :: (bytes "TTP/1." ++ [l.minor] ++ 32 :: l.status ++ 32 :: l.reason ++ [13, 10]) := rfl
  have htrace : l.trace = [0] :: l.trace.tail := rfl
  have hchunk : moves (chunkedHeader.stamp 21) 72 = [] := by
    have hx : Http11.xdigit 72 = false := by decide
    simp [chunkedHeader_stamp, Exp.entryGuarded, Exp.plus, moves, out, hx]
  rw [main_stamp, response_stamp, List.append_assoc, List.append_assoc, hjoin]
  rw [List.append_nil] at hs
  rw [htext, htrace] at hs ⊢
  exact hs.alt_left hchunk fun h => by cases h

end Head

end Windgent.Http.HttpClient
