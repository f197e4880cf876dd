import Windgent.Ragel.Runs
import Mathlib.Computability.Language

namespace Windgent.Ragel

open Computability

section Lang

variable {A : Type} {e f : Exp A} {w : List UInt8} {c : UInt8}

def lang : Exp A → Language UInt8
  | .eps => 1
  | .chars p => {w | ∃ c, p c = true ∧ w = [c]}
  | .seq e f => lang e * lang f
  | .alt e f => lang e + lang f
  | .star e => (lang e)∗
  | .entering _ e | .finishing _ e | .leaving _ e | .prior _ _ _ e => lang e

def alphabet : Exp A → UInt8 → Bool
  | .eps, _ => false
  | .chars p, c => p c
  | .seq e f, c | .alt e f, c => alphabet e c || alphabet f c
  | .star e, c | .entering _ e, c | .finishing _ e, c | .leaving _ e, c | .prior _ _ _ e, c => alphabet e c

theorem lang_stamp (e : Exp A) (k : Nat) : lang (e.stamp k) = lang e := by
  induction e generalizing k with
  | eps => rfl
  | chars p => rfl
  | seq e f ihe ihf => simp only [Exp.stamp, lang, ihe, ihf]
  | alt e f ihe ihf => simp only [Exp.stamp, lang, ihe, ihf]
  | star e ih => simp only [Exp.stamp, lang, ih]
  | entering a e ih => exact ih _
  | finishing a e ih => exact ih _
  | leaving a e ih => exact ih _
  | prior s n v e ih => exact ih _

theorem mem_lang_chars {p : UInt8 → Bool} : w ∈ lang (.chars p : Exp A) ↔ ∃ c, p c = true ∧ w = [c] :=
  Iff.rfl

theorem mem_lang_byte {b : UInt8} : w ∈ lang (.byte b : Exp A) ↔ w = [b] := by
  simp [Exp.byte, mem_lang_chars]

theorem mem_lang_seq : w ∈ lang (.seq e f) ↔ ∃ u v, w = u ++ v ∧ u ∈ lang e ∧ v ∈ lang f := by
  rw [lang, Language.mem_mul]
  constructor
  · rintro ⟨u, hu, v, hv, rfl⟩
    exact ⟨u, v, rfl, hu, hv⟩
  · rintro ⟨u, v, rfl, hu, hv⟩
    exact ⟨u, hu, v, hv, rfl⟩

theorem mem_lang_alt : w ∈ lang (.alt e f) ↔ w ∈ lang e ∨ w ∈ lang f := Iff.rfl

theorem mem_lang_opt : w ∈ lang e.opt ↔ w ∈ lang e ∨ w = [] := Iff.rfl

theorem nil_mem_lang_star : [] ∈ lang (.star e) := Language.nil_mem_kstar _

theorem cons_mem_lang_star :
    c :: w ∈ lang (.star e) ↔ ∃ u v, w = u ++ v ∧ c :: u ∈ lang e ∧ v ∈ lang (.star e) := by
  constructor
  · intro h
    obtain ⟨L, hL, hne⟩ := Language.mem_kstar_iff_exists_nonempty.mp h
    cases L with
    | nil => cases hL
    | cons x L =>
      obtain ⟨hx, hx'⟩ := hne x List.mem_cons_self
      obtain ⟨d, u, rfl⟩ := List.exists_cons_of_ne_nil hx'
      rw [List.flatten_cons, List.cons_append, List.cons.injEq] at hL
      obtain ⟨rfl, rfl⟩ := hL
      exact ⟨u, L.flatten, rfl, hx, Language.join_mem_kstar fun y hy => (hne y (List.mem_cons_of_mem _ hy)).1⟩
  · rintro ⟨u, v, rfl, hu, hv⟩
    obtain ⟨L, rfl, hL⟩ := Language.mem_kstar.mp hv
    refine Language.mem_kstar.mpr ⟨(c :: u) :: L, rfl, fun y hy => ?_⟩
    obtain rfl | hy := List.mem_cons.mp hy
    · exact hu
    · exact hL y hy

theorem mem_alphabet (hw : w ∈ lang e) (hc : c ∈ w) : alphabet e c = true := by
  induction e generalizing w with
  | eps =>
    rw [lang, Language.mem_one] at hw
    subst hw
    cases hc
  | chars p =>
    obtain ⟨d, hd, rfl⟩ := mem_lang_chars.mp hw
    rwa [alphabet, List.mem_singleton.mp hc]
  | seq e f ihe ihf =>
    obtain ⟨u, v, rfl, hu, hv⟩ := mem_lang_seq.mp hw
    rw [alphabet, Bool.or_eq_true]
    exact (List.mem_append.mp hc).imp (ihe hu) (ihf hv)
  | alt e f ihe ihf =>
    rw [alphabet, Bool.or_eq_true]
    exact (mem_lang_alt.mp hw).imp (ihe · hc) (ihf · hc)
  | star e ih =>
    obtain ⟨L, rfl, hL⟩ := Language.mem_kstar.mp hw
    obtain ⟨x, hx, hcx⟩ := List.mem_flatten.mp hc
    exact ih (hL x hx) hcx
  | entering a e ih => exact ih hw hc
  | finishing a e ih => exact ih hw hc
  | leaving a e ih => exact ih hw hc
  | prior s n v e ih => exact ih hw hc

theorem not_mem_of_lang (hw : w ∈ lang e) (hc : alphabet e c = false) : c ∉ w := by
  intro h
  rw [mem_alphabet hw h] at hc
  cases hc

end Lang

/-- `r` may be left of `e` behind a text. -/
inductive Goes : Exp Nat → List UInt8 → Exp Nat → Prop
  | nil (e : Exp Nat) : Goes e [] e
  | cons {e r : Exp Nat} {c : UInt8} {w : List UInt8} {m : Move} (hm : m ∈ moves e c) (h : Goes m.rest w r) :
      Goes e (c :: w) r

def Reads (e : Exp Nat) (w : List UInt8) : Prop := ∃ r, Goes e w r

def Accepts (e : Exp Nat) (w : List UInt8) : Prop := ∃ r, Goes e w r ∧ (out r).isSome

/-- The embedding `i` is on a transition that leads behind `w` over `c`. -/
def FiresAt (e : Exp Nat) (w : List UInt8) (c : UInt8) (i : Nat) : Prop :=
  ∃ r, Goes e w r ∧ ∃ m ∈ moves r c, i ∈ m.fires

/-- The embedding `i` is a leaving action behind `w`. -/
def LeavesAt (e : Exp Nat) (w : List UInt8) (i : Nat) : Prop :=
  ∃ r, Goes e w r ∧ ∃ o, out r = some o ∧ i ∈ o

section Paths

variable {e f g r : Exp Nat} {u v w : List UInt8} {c : UInt8} {i : Nat}

theorem goes_nil : Goes e [] r ↔ r = e := by
  constructor
  · rintro ⟨⟩
    rfl
  · rintro rfl
    exact .nil r

theorem goes_cons : Goes e (c :: w) r ↔ ∃ m ∈ moves e c, Goes m.rest w r := by
  constructor
  · rintro (_ | ⟨hm, h⟩)
    exact ⟨_, hm, h⟩
  · rintro ⟨m, hm, h⟩
    exact .cons hm h

theorem goes_append : Goes e (u ++ v) r ↔ ∃ x, Goes e u x ∧ Goes x v r := by
  induction u generalizing e with
  | nil => simp [goes_nil]
  | cons c u ih =>
    simp only [List.cons_append, goes_cons, ih]
    constructor
    · rintro ⟨m, hm, x, hx, h⟩
      exact ⟨x, ⟨m, hm, hx⟩, h⟩
    · rintro ⟨x, ⟨m, hm, hx⟩, h⟩
      exact ⟨m, hm, x, hx, h⟩

theorem goes_concat : Goes e (w ++ [c]) r ↔ ∃ x, Goes e w x ∧ ∃ m ∈ moves x c, m.rest = r := by
  rw [goes_append]
  simp only [goes_cons, goes_nil, eq_comm]

theorem reads_singleton : Reads e [c] ↔ moves e c ≠ [] := by
  simp only [Reads, goes_cons, goes_nil]
  constructor
  · rintro ⟨_, m, hm, -⟩
    exact List.ne_nil_of_mem hm
  · intro h
    obtain ⟨m, hm⟩ := List.exists_mem_of_ne_nil _ h
    exact ⟨_, m, hm, rfl⟩

theorem Accepts.reads (h : Accepts e (u ++ v)) : Reads e u := by
  obtain ⟨r, hr, -⟩ := h
  obtain ⟨x, hx, -⟩ := goes_append.mp hr
  exact ⟨x, hx⟩

theorem accepts_nil : Accepts e [] ↔ (out e).isSome := by
  simp only [Accepts, goes_nil, exists_eq_left]

theorem goes_seq : Goes (.seq e f) w r ↔ (∃ x, Goes e w x ∧ r = .seq x f) ∨
    ∃ u c v, w = u ++ c :: v ∧ Accepts e u ∧ Goes f (c :: v) r := by
  induction w generalizing e with
  | nil => simp [goes_nil]
  | cons d w ih =>
    rw [goes_cons]
    constructor
    · rintro ⟨m, hm, h⟩
      obtain hm | hm := List.mem_append.mp hm
      · obtain ⟨n, hn, rfl⟩ := List.mem_map.mp hm
        obtain ⟨x, hx, rfl⟩ | ⟨u, c, v, rfl, ⟨x, hx, ho⟩, hv⟩ := ih.mp h
        · exact .inl ⟨x, .cons hn hx, rfl⟩
        · exact .inr ⟨d :: u, c, v, rfl, ⟨x, .cons hn hx, ho⟩, hv⟩
      · cases ho : out e with
        | none => simp [ho] at hm
        | some o =>
          rw [ho] at hm
          obtain ⟨n, hn, rfl⟩ := List.mem_map.mp hm
          exact .inr ⟨[], d, w, rfl, accepts_nil.mpr (by simp [ho]), .cons hn h⟩
    · rintro (⟨x, hx, rfl⟩ | ⟨u, c, v, hw, ⟨x, hx, ho⟩, hv⟩)
      · obtain ⟨n, hn, hx⟩ := goes_cons.mp hx
        exact ⟨_, List.mem_append_left _ (List.mem_map_of_mem hn), ih.mpr (.inl ⟨x, hx, rfl⟩)⟩
      · cases u with
        | nil =>
          rw [List.nil_append, List.cons.injEq] at hw
          obtain ⟨rfl, rfl⟩ := hw
          obtain ⟨n, hn, h⟩ := goes_cons.mp hv
          obtain rfl := goes_nil.mp hx
          obtain ⟨o, ho⟩ := Option.isSome_iff_exists.mp ho
          refine ⟨n.fire o, List.mem_append_right _ ?_, h⟩
          rw [ho]
          exact List.mem_map_of_mem hn
        | cons b u =>
          rw [List.cons_append, List.cons.injEq] at hw
          obtain ⟨rfl, rfl⟩ := hw
          obtain ⟨n, hn, hx⟩ := goes_cons.mp hx
          exact ⟨_, List.mem_append_left _ (List.mem_map_of_mem hn), ih.mpr (.inr ⟨u, c, v, rfl, ⟨x, hx, ho⟩, hv⟩)⟩

theorem accepts_seq : Accepts (.seq e f) w ↔ ∃ u v, w = u ++ v ∧ Accepts e u ∧ Accepts f v := by
  constructor
  · rintro ⟨r, hr, ho⟩
    obtain ⟨x, hx, rfl⟩ | ⟨u, c, v, rfl, hu, hv⟩ := goes_seq.mp hr
    · obtain ⟨hx', hf⟩ := final_seq (S := {x}) ⟨_, ⟨x, rfl, rfl⟩, ho⟩
      obtain ⟨_, rfl, hox⟩ := hx'
      exact ⟨w, [], by simp, ⟨_, hx, hox⟩, accepts_nil.mpr hf⟩
    · exact ⟨u, c :: v, rfl, hu, r, hv, ho⟩
  · rintro ⟨u, v, rfl, ⟨x, hx, hox⟩, ⟨y, hy, hoy⟩⟩
    cases v with
    | nil =>
      obtain rfl := goes_nil.mp hy
      obtain ⟨o, ho⟩ := Option.isSome_iff_exists.mp hox
      obtain ⟨o', ho'⟩ := Option.isSome_iff_exists.mp hoy
      exact ⟨.seq x y, goes_seq.mpr (.inl ⟨x, by simpa using hx, rfl⟩), by simp [out, ho, ho']⟩
    | cons c v => exact ⟨y, goes_seq.mpr (.inr ⟨u, c, v, rfl, ⟨x, hx, hox⟩, hy⟩), hoy⟩

theorem firesAt_seq : FiresAt (.seq e f) w c i ↔ FiresAt e w c i ∨ (LeavesAt e w i ∧ Reads f [c]) ∨
    ∃ u v, w = u ++ v ∧ Accepts e u ∧ FiresAt f v c i := by
  constructor
  · rintro ⟨r, hr, m, hm, hi⟩
    obtain ⟨x, hx, rfl⟩ | ⟨u, d, v, rfl, hu, hv⟩ := goes_seq.mp hr
    · obtain hm | hm := List.mem_append.mp hm
      · obtain ⟨n, hn, rfl⟩ := List.mem_map.mp hm
        exact .inl ⟨x, hx, n, hn, hi⟩
      · cases ho : out x with
        | none => simp [ho] at hm
        | some o =>
          rw [ho] at hm
          obtain ⟨n, hn, rfl⟩ := List.mem_map.mp hm
          obtain hi | hi := List.mem_append.mp hi
          · exact .inr (.inl ⟨⟨x, hx, o, ho, hi⟩, reads_singleton.mpr (List.ne_nil_of_mem hn)⟩)
          · exact .inr (.inr ⟨w, [], by simp, ⟨x, hx, by simp [ho]⟩, f, .nil f, n, hn, hi⟩)
    · exact .inr (.inr ⟨u, d :: v, rfl, hu, r, hv, m, hm, hi⟩)
  · rintro (⟨x, hx, n, hn, hi⟩ | ⟨⟨x, hx, o, ho, hi⟩, hf⟩ | ⟨u, v, rfl, ⟨x, hx, ho⟩, y, hy, n, hn, hi⟩)
    · exact ⟨_, goes_seq.mpr (.inl ⟨x, hx, rfl⟩), _, List.mem_append_left _ (List.mem_map_of_mem hn), hi⟩
    · obtain ⟨n, hn⟩ := List.exists_mem_of_ne_nil _ (reads_singleton.mp hf)
      refine ⟨_, goes_seq.mpr (.inl ⟨x, hx, rfl⟩), n.fire o, List.mem_append_right _ ?_, List.mem_append_left _ hi⟩
      rw [ho]
      exact List.mem_map_of_mem hn
    · cases v with
      | nil =>
        obtain rfl := goes_nil.mp hy
        obtain ⟨o, ho⟩ := Option.isSome_iff_exists.mp ho
        refine ⟨_, goes_seq.mpr (.inl ⟨x, by simpa using hx, rfl⟩), n.fire o, List.mem_append_right _ ?_,
          List.mem_append_right _ hi⟩
        rw [ho]
        exact List.mem_map_of_mem hn
      | cons d v => exact ⟨y, goes_seq.mpr (.inr ⟨u, d, v, rfl, ⟨x, hx, ho⟩, hy⟩), n, hn, hi⟩

theorem leavesAt_seq : LeavesAt (.seq e f) w i ↔ (LeavesAt e w i ∧ (out f).isSome) ∨
    ∃ u v, w = u ++ v ∧ Accepts e u ∧ LeavesAt f v i := by
  constructor
  · rintro ⟨r, hr, o, ho, hi⟩
    obtain ⟨x, hx, rfl⟩ | ⟨u, d, v, rfl, hu, hv⟩ := goes_seq.mp hr
    · obtain ⟨o₁, ho₁, o₂, ho₂, rfl⟩ : ∃ o₁, out x = some o₁ ∧ ∃ o₂, out f = some o₂ ∧ o₁ ++ o₂ = o := by
        simpa [out, Option.bind_eq_some_iff] using ho
      obtain hi | hi := List.mem_append.mp hi
      · exact .inl ⟨⟨x, hx, o₁, ho₁, hi⟩, by simp [ho₂]⟩
      · exact .inr ⟨w, [], by simp, ⟨x, hx, by simp [ho₁]⟩, f, .nil f, o₂, ho₂, hi⟩
    · exact .inr ⟨u, d :: v, rfl, hu, r, hv, o, ho, hi⟩
  · rintro (⟨⟨x, hx, o, ho, hi⟩, hf⟩ | ⟨u, v, rfl, ⟨x, hx, hox⟩, y, hy, o, ho, hi⟩)
    · obtain ⟨o', ho'⟩ := Option.isSome_iff_exists.mp hf
      exact ⟨_, goes_seq.mpr (.inl ⟨x, hx, rfl⟩), o ++ o', by simp [out, ho, ho'], by simp [hi]⟩
    · cases v with
      | nil =>
        obtain rfl := goes_nil.mp hy
        obtain ⟨o', ho'⟩ := Option.isSome_iff_exists.mp hox
        exact ⟨_, goes_seq.mpr (.inl ⟨x, by simpa using hx, rfl⟩), o' ++ o, by simp [out, ho, ho'], by simp [hi]⟩
      | cons d v => exact ⟨y, goes_seq.mpr (.inr ⟨u, d, v, rfl, ⟨x, hx, hox⟩, hy⟩), o, ho, hi⟩

theorem accepts_cons : Accepts e (c :: w) ↔ ∃ m ∈ moves e c, Accepts m.rest w := by
  simp only [Accepts, goes_cons]
  constructor
  · rintro ⟨r, ⟨m, hm, hr⟩, ho⟩
    exact ⟨m, hm, r, hr, ho⟩
  · rintro ⟨m, hm, r, hr, ho⟩
    exact ⟨r, ⟨m, hm, hr⟩, ho⟩

theorem firesAt_nil : FiresAt e [] c i ↔ ∃ m ∈ moves e c, i ∈ m.fires := by
  simp only [FiresAt, goes_nil, exists_eq_left]

theorem firesAt_cons {d : UInt8} : FiresAt e (d :: w) c i ↔ ∃ m ∈ moves e d, FiresAt m.rest w c i := by
  simp only [FiresAt, goes_cons]
  constructor
  · rintro ⟨r, ⟨m, hm, hr⟩, h⟩
    exact ⟨m, hm, r, hr, h⟩
  · rintro ⟨m, hm, r, hr, h⟩
    exact ⟨r, ⟨m, hm, hr⟩, h⟩

theorem leavesAt_nil : LeavesAt e [] i ↔ ∃ o, out e = some o ∧ i ∈ o := by
  simp only [LeavesAt, goes_nil, exists_eq_left]

theorem leavesAt_cons : LeavesAt e (c :: w) i ↔ ∃ m ∈ moves e c, LeavesAt m.rest w i := by
  simp only [LeavesAt, goes_cons]
  constructor
  · rintro ⟨r, ⟨m, hm, hr⟩, h⟩
    exact ⟨m, hm, r, hr, h⟩
  · rintro ⟨m, hm, r, hr, h⟩
    exact ⟨r, ⟨m, hm, hr⟩, h⟩

theorem FiresAt.reads (h : FiresAt e w c i) : Reads e (w ++ [c]) := by
  obtain ⟨r, hr, m, hm, -⟩ := h
  exact ⟨m.rest, goes_concat.mpr ⟨r, hr, m, hm, rfl⟩⟩

theorem reads_alt (hw : w ≠ []) : Reads (.alt e f) w ↔ Reads e w ∨ Reads f w := by
  cases w with
  | nil => exact absurd rfl hw
  | cons c w => simp only [Reads, goes_cons, moves, List.mem_append, or_and_right, exists_or]

theorem LeavesAt.accepts (h : LeavesAt e w i) : Accepts e w := by
  obtain ⟨r, hr, o, ho, -⟩ := h
  exact ⟨r, hr, by simp [ho]⟩

theorem accepts_alt : Accepts (.alt e f) w ↔ Accepts e w ∨ Accepts f w := by
  cases w with
  | nil =>
    simp only [accepts_nil, out]
    cases out e <;> cases out f <;> simp
  | cons c w => simp only [accepts_cons, moves, List.mem_append, or_and_right, exists_or]

theorem firesAt_alt : FiresAt (.alt e f) w c i ↔ FiresAt e w c i ∨ FiresAt f w c i := by
  cases w with
  | nil => simp only [firesAt_nil, moves, List.mem_append, or_and_right, exists_or]
  | cons d w => simp only [firesAt_cons, moves, List.mem_append, or_and_right, exists_or]

theorem leavesAt_alt : LeavesAt (.alt e f) w i ↔ LeavesAt e w i ∨ LeavesAt f w i := by
  cases w with
  | nil =>
    simp only [leavesAt_nil, out]
    cases out e <;> cases out f <;> simp
  | cons c w => simp only [leavesAt_cons, moves, List.mem_append, or_and_right, exists_or]

theorem firesAt_entering {a : Nat} :
    FiresAt (.entering a e) w c i ↔ (w = [] ∧ i = a ∧ Reads e [c]) ∨ FiresAt e w c i := by
  cases w with
  | nil =>
    simp only [firesAt_nil, moves, List.mem_map, exists_exists_and_eq_and, Move.fire, List.mem_append,
      List.mem_singleton, true_and, reads_singleton]
    constructor
    · rintro ⟨m, hm, rfl | hi⟩
      · exact .inl ⟨rfl, List.ne_nil_of_mem hm⟩
      · exact .inr ⟨m, hm, hi⟩
    · rintro (⟨rfl, hne⟩ | ⟨m, hm, hi⟩)
      · obtain ⟨m, hm⟩ := List.exists_mem_of_ne_nil _ hne
        exact ⟨m, hm, .inl rfl⟩
      · exact ⟨m, hm, .inr hi⟩
  | cons d w => simp [firesAt_cons, moves, Move.fire]

theorem leavesAt_entering {a : Nat} :
    LeavesAt (.entering a e) w i ↔ (w = [] ∧ i = a ∧ Accepts e []) ∨ LeavesAt e w i := by
  cases w with
  | nil =>
    simp only [leavesAt_nil, out, Option.map_eq_some_iff, exists_exists_and_eq_and, List.mem_cons, true_and,
      accepts_nil, Option.isSome_iff_exists]
    constructor
    · rintro ⟨o, ho, rfl | hi⟩
      · exact .inl ⟨rfl, o, ho⟩
      · exact .inr ⟨o, ho, hi⟩
    · rintro (⟨rfl, o, ho⟩ | ⟨o, ho, hi⟩)
      · exact ⟨o, ho, .inl rfl⟩
      · exact ⟨o, ho, .inr hi⟩
  | cons d w => simp [leavesAt_cons, moves, Move.fire]

theorem accepts_entering {a : Nat} : Accepts (.entering a e) w ↔ Accepts e w := by
  cases w with
  | nil => simp only [accepts_nil, out, Option.isSome_map]
  | cons d w => simp [accepts_cons, moves, Move.fire]

theorem goes_leaving {a : Nat} : Goes (.leaving a e) w r ↔ ∃ x, Goes e w x ∧ r = .leaving a x := by
  induction w generalizing e with
  | nil => simp [goes_nil]
  | cons d w ih =>
    simp only [goes_cons, moves, List.mem_map, exists_exists_and_eq_and, Move.under, ih]
    constructor
    · rintro ⟨m, hm, x, hx, h⟩
      exact ⟨x, ⟨m, hm, hx⟩, h⟩
    · rintro ⟨x, ⟨m, hm, hx⟩, h⟩
      exact ⟨m, hm, x, hx, h⟩

theorem accepts_leaving {a : Nat} : Accepts (.leaving a e) w ↔ Accepts e w := by
  simp only [Accepts, goes_leaving]
  constructor
  · rintro ⟨_, ⟨x, hx, rfl⟩, ho⟩
    exact ⟨x, hx, by simpa [out] using ho⟩
  · rintro ⟨x, hx, ho⟩
    exact ⟨_, ⟨x, hx, rfl⟩, by simpa [out] using ho⟩

theorem firesAt_leaving {a : Nat} : FiresAt (.leaving a e) w c i ↔ FiresAt e w c i := by
  simp only [FiresAt, goes_leaving]
  constructor
  · rintro ⟨_, ⟨x, hx, rfl⟩, m, hm, hi⟩
    obtain ⟨n, hn, rfl⟩ := List.mem_map.mp hm
    exact ⟨x, hx, n, hn, hi⟩
  · rintro ⟨x, hx, m, hm, hi⟩
    exact ⟨_, ⟨x, hx, rfl⟩, _, List.mem_map_of_mem hm, hi⟩

theorem leavesAt_leaving {a : Nat} : LeavesAt (.leaving a e) w i ↔ LeavesAt e w i ∨ (i = a ∧ Accepts e w) := by
  simp only [LeavesAt, goes_leaving, Accepts]
  constructor
  · rintro ⟨_, ⟨x, hx, rfl⟩, o, ho, hi⟩
    obtain ⟨o', ho', rfl⟩ := Option.map_eq_some_iff.mp ho
    obtain hi | hi := List.mem_append.mp hi
    · exact .inl ⟨x, hx, o', ho', hi⟩
    · exact .inr ⟨List.mem_singleton.mp hi, x, hx, by simp [ho']⟩
  · rintro (⟨x, hx, o, ho, hi⟩ | ⟨rfl, x, hx, ho⟩)
    · exact ⟨_, ⟨x, hx, rfl⟩, o ++ [a], by simp [out, ho], by simp [hi]⟩
    · obtain ⟨o, ho⟩ := Option.isSome_iff_exists.mp ho
      exact ⟨_, ⟨x, hx, rfl⟩, o ++ [i], by simp [out, ho], by simp⟩

theorem accepts_finishing {a : Nat} : Accepts (.finishing a e) w ↔ Accepts e w := by
  induction w generalizing e with
  | nil => simp only [accepts_nil, out]
  | cons d w ih =>
    simp only [accepts_cons, moves, List.mem_map, exists_exists_and_eq_and, Move.fire, Move.under, ih]

theorem accepts_star_cons :
    Accepts (.star e) (c :: w) ↔ ∃ u v, w = u ++ v ∧ Accepts e (c :: u) ∧ Accepts (.star e) v := by
  simp only [accepts_cons, moves, List.mem_map, exists_exists_and_eq_and, Move.fire, Move.under, accepts_seq]
  constructor
  · rintro ⟨m, hm, u, v, hw, hu, hv⟩
    exact ⟨u, v, hw, ⟨m, hm, hu⟩, hv⟩
  · rintro ⟨u, v, hw, ⟨m, hm, hu⟩, hv⟩
    exact ⟨m, hm, u, v, hw, hu, hv⟩

/-- The machine of an expression accepts its texts. -/
theorem accepts_iff (he : Plain e) : Accepts e w ↔ w ∈ lang e := by
  induction e generalizing w with
  | eps =>
    cases w with
    | nil => simp [accepts_nil, out, lang]
    | cons c w => simp [accepts_cons, moves, lang]
  | chars p =>
    cases w with
    | nil => simp [accepts_nil, out, mem_lang_chars]
    | cons c w =>
      rw [accepts_cons, mem_lang_chars]
      cases hp : p c with
      | false => simp [moves, hp]
      | true =>
        cases w with
        | nil => simp [moves, hp, accepts_nil, out]
        | cons d w => simp [moves, hp, accepts_cons]
  | seq e f ihe ihf => simp only [accepts_seq, mem_lang_seq, ihe he.1, ihf he.2]
  | alt e f ihe ihf => simp only [accepts_alt, mem_lang_alt, ihe he.1, ihf he.2]
  | star e ih =>
    induction hn : w.length using Nat.strong_induction_on generalizing w with
    | _ n ihn =>
      cases w with
      | nil => simp [accepts_nil, out, nil_mem_lang_star]
      | cons c w =>
        rw [accepts_star_cons, cons_mem_lang_star]
        refine exists_congr fun u => exists_congr fun v => and_congr_right fun hw => ?_
        have hlt : v.length < n := by
          rw [← hn, hw, List.length_cons, List.length_append]
          omega
        rw [ih he, ihn _ hlt rfl]
  | entering a e ih => rw [accepts_entering, ih he, lang]
  | finishing a e ih => rw [accepts_finishing, ih he, lang]
  | leaving a e ih => rw [accepts_leaving, ih he, lang]
  | prior s n v e => exact absurd he id

theorem moves_alphabet {m : Move} (hm : m ∈ moves e c) :
    alphabet e c = true ∧ ∀ d, alphabet m.rest d = true → alphabet e d = true := by
  induction e generalizing m with
  | eps => simp [moves] at hm
  | chars p =>
    simp only [moves] at hm
    split at hm
    · obtain rfl := List.mem_singleton.mp hm
      exact ⟨‹_›, fun d hd => absurd hd Bool.false_ne_true⟩
    · simp at hm
  | seq e f ihe ihf =>
    simp only [alphabet, Bool.or_eq_true]
    obtain hm | hm := List.mem_append.mp hm
    · obtain ⟨n, hn, rfl⟩ := List.mem_map.mp hm
      refine ⟨.inl (ihe hn).1, fun d hd => ?_⟩
      simp only [Move.under, alphabet, Bool.or_eq_true] at hd
      exact hd.imp_left ((ihe hn).2 d)
    · cases ho : out e with
      | none => simp [ho] at hm
      | some o =>
        rw [ho] at hm
        obtain ⟨n, hn, rfl⟩ := List.mem_map.mp hm
        exact ⟨.inr (ihf hn).1, fun d hd => .inr ((ihf hn).2 d hd)⟩
  | alt e f ihe ihf =>
    simp only [alphabet, Bool.or_eq_true]
    obtain hm | hm := List.mem_append.mp hm
    · exact ⟨.inl (ihe hm).1, fun d hd => .inl ((ihe hm).2 d hd)⟩
    · exact ⟨.inr (ihf hm).1, fun d hd => .inr ((ihf hm).2 d hd)⟩
  | star e ih =>
    obtain ⟨n, hn, rfl⟩ := List.mem_map.mp hm
    refine ⟨(ih hn).1, fun d hd => ?_⟩
    simp only [Move.fire, Move.under, alphabet, Bool.or_eq_true] at hd
    exact hd.elim ((ih hn).2 d) id
  | entering a e ih =>
    obtain ⟨n, hn, rfl⟩ := List.mem_map.mp hm
    exact ih (m := n) hn
  | finishing a e ih =>
    obtain ⟨n, hn, rfl⟩ := List.mem_map.mp hm
    exact ih (m := n) hn
  | leaving a e ih =>
    obtain ⟨n, hn, rfl⟩ := List.mem_map.mp hm
    exact ih (m := n) hn
  | prior s k v e ih =>
    cases s with
    | all =>
      obtain ⟨n, hn, rfl⟩ := List.mem_map.mp hm
      exact ih (m := n) hn
    | entering =>
      obtain ⟨n, hn, rfl⟩ := List.mem_map.mp hm
      exact ih (m := n) hn
    | finishing =>
      obtain ⟨n, hn, rfl⟩ := List.mem_map.mp hm
      split
      · exact ih (m := n) hn
      · exact ih (m := n) hn

theorem Reads.alphabet (h : Reads e w) (hc : c ∈ w) : alphabet e c = true := by
  obtain ⟨r, hr⟩ := h
  induction hr with
  | nil e => cases hc
  | cons hm _ ih =>
    obtain rfl | hc := List.mem_cons.mp hc
    · exact (moves_alphabet hm).1
    · exact (moves_alphabet hm).2 c (ih hc)

theorem not_reads (hc : alphabet e c = false) (hw : c ∈ w) : ¬ Reads e w := by
  intro h
  rw [h.alphabet hw] at hc
  cases hc

end Paths

end Windgent.Ragel
