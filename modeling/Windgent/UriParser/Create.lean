import Windgent.UriParser.Trace

namespace Windgent.UriParser

open Ragel
open Http (bytes atoi)
open Http.Http11 (digit)

section Steps

variable {s : List UInt8} {p : Nat} {τ τ' : List (List Nat)} {v : Vars}

def steps (s : List UInt8) (p : Nat) (τ : List (List Nat)) (v : Vars) : Option Vars :=
  runAll (act s) p (τ.map (actions uriReference.table)) v

def slice (s : List UInt8) (a b : Nat) : List UInt8 := (s.drop a).take (b - a)

theorem steps_silent (w : List UInt8) : steps s p (silent w ++ τ) v = steps s (p + w.length) τ v := by
  rw [steps, List.map_append, runAll_append, silent, List.map_replicate]
  have hnil : actions uriReference.table [] = [] := rfl
  rw [hnil, runAll_silent]
  simp [steps]

variable {u : Uri} {m : Nat}

theorem steps_markh4 {m : Option Nat} : steps s p ([4] :: τ) ⟨u, m⟩ = steps s (p + 1) τ ⟨u, some p⟩ := rfl

theorem steps_markh6 {m : Option Nat} : steps s p ([6] :: τ) ⟨u, m⟩ = steps s (p + 1) τ ⟨u, some p⟩ := rfl

theorem steps_pass : steps s p ([] :: τ) v = steps s (p + 1) τ v := rfl

theorem steps_saveUserinfo :
    steps s p ([3] :: τ) ⟨u, some m⟩ = steps s (p + 1) τ ⟨{ u with userinfo := slice s m p }, none⟩ := rfl

theorem steps_saveHost :
    steps s p ([5] :: τ) ⟨u, some m⟩ = steps s (p + 1) τ ⟨{ u with host := slice s m p }, some m⟩ := rfl

theorem steps_hostOut {y : List UInt8} : steps s (p + y.length) (hostOut y :: τ) ⟨u, some p⟩ =
    steps s (p + y.length + 1) τ ⟨{ u with host := slice s p (p + y.length) }, some p⟩ := by
  cases y with
  | nil => rfl
  | cons c y => exact steps_saveHost

theorem steps_marked {i k : Nat} (set : Uri → List UInt8 → Uri) {w : List UInt8}
    (hi : ∀ p τ v, steps s p ([i] :: τ) v = steps s (p + 1) τ { v with mark := some p })
    (hk : ∀ p τ m, steps s p ([k] :: τ) ⟨u, some m⟩ = steps s (p + 1) τ ⟨set u (slice s m p), none⟩)
    (hw : w ≠ []) {m : Option Nat} :
    steps s p ([i] :: silent w.tail ++ [k] :: τ) ⟨u, m⟩ =
      steps s (p + w.length + 1) τ ⟨set u (slice s p (p + w.length)), none⟩ := by
  obtain ⟨c, w, rfl⟩ := List.exists_cons_of_ne_nil hw
  have hlen : p + 1 + w.length = p + (w.length + 1) := by omega
  rw [List.cons_append, hi, List.tail_cons, steps_silent, hk, List.length_cons, hlen]

theorem steps_hostTrace {y : List UInt8} :
    steps s p (hostTrace y ++ τ) ⟨u, some p⟩ = steps s (p + y.length) τ ⟨u, some p⟩ := by
  cases y with
  | nil => rfl
  | cons c y =>
    have hlen : p + 1 + y.length = p + (y.length + 1) := by omega
    rw [hostTrace, List.cons_append, steps_markh4, steps_silent, List.length_cons, hlen]

/-- Where the mark is behind a text with a colon. -/
def colonMark (p : Nat) (y : List UInt8) : Option (List UInt8) → Nat
  | some (d :: _) => if digit d then p + y.length + 1 else p
  | _ => p

def colonHost (s : List UInt8) (p : Nat) (y : List UInt8) (z : Option (List UInt8)) (u : Uri) : Uri :=
  if z.isSome then { u with host := slice s p (p + y.length) } else u

theorem steps_portTrace {y z : List UInt8} :
    steps s (p + y.length + 1) (portTrace z ++ τ) ⟨u, some p⟩ =
      steps s (p + y.length + 1 + z.length) τ ⟨u, some (colonMark p y (some z))⟩ := by
  cases z with
  | nil => rfl
  | cons d z =>
    have hlen : p + y.length + 1 + 1 + z.length = p + y.length + 1 + (z.length + 1) := by omega
    rw [portTrace, List.cons_append, List.length_cons, colonMark]
    by_cases hd : digit d = true
    · rw [if_pos hd, if_pos hd, steps_markh6, steps_silent, hlen]
    · rw [if_neg hd, if_neg hd, steps_pass, steps_silent, hlen]

theorem steps_hostPort {y : List UInt8} {z : Option (List UInt8)} :
    steps s p (hostTrace y ++ (colonTrace y z ++ τ)) ⟨u, some p⟩ =
      steps s (p + (y ++ colonText z).length) τ ⟨colonHost s p y z u, some (colonMark p y z)⟩ := by
  rw [steps_hostTrace]
  cases z with
  | none => simp [colonTrace, colonText, colonHost, colonMark]
  | some z =>
    have hlen : p + y.length + 1 + z.length = p + (y ++ 58 :: z).length := by
      rw [List.length_append, List.length_cons]
      omega
    rw [colonTrace, List.cons_append, steps_hostOut, steps_portTrace, colonText, hlen]
    rfl

def userUri (s : List UInt8) (p : Nat) (u : List UInt8) (v : Uri) : Uri :=
  { colonHost s p (splitColon u).1 (splitColon u).2 v with
    userinfo := slice s (colonMark p (splitColon u).1 (splitColon u).2) (p + u.length) }

theorem steps_userTrace {x : List UInt8} :
    steps s p (userTrace (some x) ++ τ) ⟨u, some p⟩ = steps s (p + x.length + 1) τ ⟨userUri s p x u, none⟩ := by
  rw [userTrace, List.append_assoc, List.append_assoc, steps_hostPort, splitColon_append, List.singleton_append,
    steps_saveUserinfo, userUri]

theorem steps_onFirst {t : List Nat} (ht : t = [3] ∨ t = [4] ∨ t = [4, 5]) {m : Option Nat} :
    steps s p (onFirst 2 (t :: τ)) ⟨u, m⟩ = steps s p (t :: τ) ⟨u, some p⟩ := by
  obtain rfl | rfl | rfl := ht <;> rfl

theorem trace_first (x : Option (List UInt8)) {h : List UInt8} (hne : h ≠ []) (τ : List (List Nat)) :
    ∃ t τ', userTrace x ++ (hostTrace h ++ τ) = t :: τ' ∧ (t = [3] ∨ t = [4] ∨ t = [4, 5]) := by
  obtain ⟨c, h, rfl⟩ := List.exists_cons_of_ne_nil hne
  cases x with
  | none => exact ⟨[4], _, rfl, .inr (.inl rfl)⟩
  | some x =>
    rw [userTrace]
    cases (splitColon x).1 with
    | cons d y => exact ⟨[4], _, rfl, .inr (.inl rfl)⟩
    | nil =>
      cases (splitColon x).2 with
      | none => exact ⟨[3], _, rfl, .inl rfl⟩
      | some z => exact ⟨[4, 5], _, rfl, .inr (.inr rfl)⟩

def authorityUri (s : List UInt8) (p : Nat) (x : Option (List UInt8)) (h : List UInt8) (z : Option (List UInt8))
    (u : Uri) : Uri :=
  colonHost s (p + (userText x).length) h z (x.elim u (userUri s p · u))

theorem steps_authority {x z : Option (List UInt8)} {h : List UInt8} (hne : h ≠ []) {m : Option Nat} :
    steps s p (onFirst 2 (userTrace x ++ (hostTrace h ++ colonTrace h z)) ++ τ) ⟨u, m⟩ =
      steps s (p + (userText x ++ (h ++ colonText z)).length) τ
        ⟨authorityUri s p x h z u, some (colonMark (p + (userText x).length) h z)⟩ := by
  have hfirst : onFirst 2 (userTrace x ++ (hostTrace h ++ colonTrace h z)) ++ τ =
      onFirst 2 (userTrace x ++ (hostTrace h ++ (colonTrace h z ++ τ))) := by
    obtain ⟨t, τ', heq, -⟩ := trace_first x hne (colonTrace h z)
    have heq' : userTrace x ++ (hostTrace h ++ (colonTrace h z ++ τ)) = t :: (τ' ++ τ) := by
      rw [← List.cons_append, ← heq, List.append_assoc, List.append_assoc]
    rw [heq, heq']
    rfl
  obtain ⟨t, τ', heq, ht⟩ := trace_first x hne (colonTrace h z ++ τ)
  rw [hfirst, heq, steps_onFirst ht, ← heq]
  cases x with
  | none =>
    rw [userTrace, List.nil_append, steps_hostPort, userText, List.nil_append]
    rfl
  | some x =>
    obtain ⟨c, h, rfl⟩ := List.exists_cons_of_ne_nil hne
    have hmark : ∀ {τ'} {v : Uri} {m : Option Nat} {p : Nat}, steps s p (hostTrace (c :: h) ++ τ') ⟨v, m⟩ =
        steps s p (hostTrace (c :: h) ++ τ') ⟨v, some p⟩ := rfl
    have hlen : p + (userText (some x)).length = p + x.length + 1 := by
      rw [userText, List.length_append]
      rfl
    have hlen' : p + (userText (some x) ++ (c :: h ++ colonText z)).length =
        p + x.length + 1 + (c :: h ++ colonText z).length := by
      rw [List.length_append, ← Nat.add_assoc, hlen]
    rw [steps_userTrace, hmark, steps_hostPort, authorityUri, hlen, hlen']
    rfl

theorem steps_scheme {w : List UInt8} (hw : w ≠ []) {m : Option Nat} :
    steps s 0 ([0] :: silent w.tail ++ [[1]] ++ τ) ⟨u, m⟩ =
      steps s (w.length + 1) τ ⟨{ u with scheme := slice s 0 w.length }, none⟩ := by
  rw [List.append_assoc, List.singleton_append, steps_marked (i := 0) (k := 1) (fun u x => { u with scheme := x })
    (fun _ _ _ => rfl) (fun _ _ _ => rfl) hw]
  simp

theorem steps_query {x : Option (List UInt8)} (hx : OptText x) :
    steps s p (optTrace 10 11 x ++ τ) ⟨u, none⟩ = steps s (p + (optText 63 x).length) τ
      ⟨x.elim u fun t => { u with query := slice s p (p + t.length) }, none⟩ := by
  cases x with
  | none => rfl
  | some x =>
    rw [optTrace, List.append_assoc, List.singleton_append, steps_marked (i := 10) (k := 11)
      (fun u x => { u with query := x }) (fun _ _ _ => rfl) (fun _ _ _ => rfl) (hx x rfl).1]
    rfl

theorem steps_fragment {x : Option (List UInt8)} (hx : OptText x) :
    steps s p (optTrace 12 13 x) ⟨u, none⟩ =
      some ⟨x.elim u fun t => { u with fragment := slice s p (p + t.length) }, none⟩ := by
  cases x with
  | none => rfl
  | some x =>
    rw [optTrace, steps_marked (i := 12) (k := 13)
      (fun u x => { u with fragment := x }) (fun _ _ _ => rfl) (fun _ _ _ => rfl) (hx x rfl).1]
    rfl

/-- A path behind a host or a port. The mark is set where it is left, if it is empty. -/
theorem steps_path {w : List UInt8} {z : Option (List UInt8)} (hm : m ≠ p) :
    steps s p ((leftBy z :: pathFirst w) :: pathRest w ++ τ) ⟨u, some m⟩ = steps s (p + w.length + 1) τ
      ⟨{ (if z.isSome then { u with port := atoi ((s ++ [0]).drop m) } else { u with host := slice s m p }) with
        path := slice s p (p + w.length) }, none⟩ := by
  have hport : act s .savePort p ⟨u, some m⟩ = some ⟨{ u with port := atoi ((s ++ [0]).drop m) }, none⟩ := by
    simp [act, hm]
  cases w with
  | nil =>
    cases z with
    | none => rfl
    | some z =>
      have hacts : actions uriReference.table (leftBy (some z) :: [8, 9]) = [.savePort, .markh, .savePath] := rfl
      simp only [pathFirst, pathRest, steps, List.cons_append, List.nil_append, List.map_cons, runAll, hacts, runActs,
        List.foldlM_cons, List.foldlM_nil, hport]
      rfl
  | cons c w =>
    have hlen : p + 1 + w.length = p + (w.length + 1) := by omega
    have hsave : ∀ {q : Nat} {u : Uri}, steps s q ([9] :: τ) ⟨u, some p⟩ =
        steps s (q + 1) τ ⟨{ u with path := slice s p q }, none⟩ := rfl
    rw [pathFirst, pathRest, List.cons_append, List.append_assoc, List.singleton_append]
    cases z with
    | none =>
      have hs : steps s p ((leftBy none :: [8]) :: (silent w ++ [9] :: τ)) ⟨u, some m⟩ =
          steps s (p + 1) (silent w ++ [9] :: τ) ⟨{ u with host := slice s m p }, some p⟩ := rfl
      rw [hs, steps_silent, hsave, hlen]
      rfl
    | some z =>
      have hacts : actions uriReference.table (leftBy (some z) :: [8]) = [.savePort, .markh] := rfl
      have hs : steps s p ((leftBy (some z) :: [8]) :: (silent w ++ [9] :: τ)) ⟨u, some m⟩ =
          steps s (p + 1) (silent w ++ [9] :: τ) ⟨{ u with port := atoi ((s ++ [0]).drop m) }, some p⟩ := by
        simp only [steps, List.map_cons, runAll, hacts, runActs, List.foldlM_cons, List.foldlM_nil, hport]
        rfl
      rw [hs, steps_silent, hsave, hlen]
      rfl

end Steps

/-- The parts of a URI. -/
structure Parts where
  scheme : List UInt8
  userinfo : Option (List UInt8)
  host : List UInt8
  port : Option (List UInt8)
  path : List UInt8
  query : Option (List UInt8)
  fragment : Option (List UInt8)

namespace Parts

def text (x : Parts) : List UInt8 :=
  x.scheme ++ (bytes "://" ++ (userText x.userinfo ++ (x.host ++ colonText x.port) ++ x.path) ++
    (optText 63 x.query ++ optText 35 x.fragment))

def decimal (ds : List UInt8) : Nat := ds.foldl (fun n b => n * 10 + Http.digit b) 0

structure WellFormed (x : Parts) : Prop where
  scheme : x.scheme ∈ lang UriParser.scheme
  userinfo : ∀ u ∈ x.userinfo, u ∈ lang (UriParser.userinfo : Rule)
  host : x.host ∈ lang (regName : Rule) ∨ x.host ∈ lang (ipv4address : Rule)
  host_ne_nil : x.host ≠ []
  port : ∀ p ∈ x.port, p ∈ lang (UriParser.port : Rule) ∧ 1 ≤ decimal p ∧ decimal p ≤ 65535
  path : x.path ∈ lang (pathAbempty : Rule)
  query : ∀ q ∈ x.query, q ≠ [] ∧ q ∈ lang UriParser.query
  fragment : ∀ f ∈ x.fragment, f ≠ [] ∧ f ∈ lang UriParser.fragment

variable {x : Parts}

theorem WellFormed.hostLike (h : x.WellFormed) : HostLike x.host := by
  obtain hl | hl := h.host
  · exact hostLike_of_regName hl
  · exact hostLike_of_ipv4address hl

theorem WellFormed.at_notMem (h : x.WellFormed) : 64 ∉ x.host ++ colonText x.port := by
  rw [List.mem_append]
  rintro (hm | hm)
  · obtain hl | hl := h.host
    · exact not_mem_of_lang hl rfl hm
    · exact not_mem_of_lang hl rfl hm
  · cases hp : x.port with
    | none =>
      rw [hp] at hm
      cases hm
    | some p =>
      rw [hp] at hm
      obtain hm | hm := List.mem_cons.mp hm
      · exact absurd hm (by decide)
      · exact not_mem_of_lang (h.port p hp).1 rfl hm

def trace (x : Parts) : List (List Nat) :=
  [0] :: silent x.scheme.tail ++ [[1]] ++ ([[], []] ++ (onFirst 2 (userTrace x.userinfo ++
    (hostTrace x.host ++ colonTrace x.host x.port)) ++ (leftBy x.port :: pathFirst x.path) :: pathRest x.path) ++
      (optTrace 10 11 x.query ++ optTrace 12 13 x.fragment))

theorem WellFormed.port_ne_nil (h : x.WellFormed) : ∀ z ∈ x.port, z ≠ [] ∧ z ∈ lang (UriParser.port : Rule) := by
  intro z hz
  obtain ⟨hl, hpos, -⟩ := h.port z hz
  refine ⟨?_, hl⟩
  rintro rfl
  exact absurd hpos (by decide)

theorem WellFormed.covers (h : x.WellFormed) :
    Covers (fun _ => True) (uriReference.stamp 0) x.text x.trace fun _ => False :=
  covers_uriReference h.scheme (covers_uriAt h.scheme
    (covers_authority h.userinfo h.hostLike h.host_ne_nil h.at_notMem h.port_ne_nil) h.path h.query
      h.fragment)

theorem WellFormed.create_eq (h : x.WellFormed) :
    create x.text = (steps x.text 0 x.trace ⟨.empty, none⟩).map fun v => some v.uri := by
  obtain ⟨S, hS, hexec⟩ := exec_of_covers (act x.text) h.covers ⟨.empty, none⟩
  rw [create, hexec, Option.map_map]
  congr 1
  funext v
  simp [hS]

/-- What is stored as the user: a number behind the first colon moves the mark. -/
def readUser (u : List UInt8) : List UInt8 :=
  match (splitColon u).2 with
  | some (d :: z) => if digit d then d :: z else u
  | _ => u

def outcome (x : Parts) : Uri where
  scheme := x.scheme
  userinfo := x.userinfo.elim [] readUser
  host := x.host
  path := x.path
  query := x.query.getD []
  fragment := x.fragment.getD []
  port := x.port.elim 0 fun p => (decimal p : Int)

theorem slice_eq {s a b c : List UInt8} {p q : Nat} (h : s = a ++ (b ++ c)) (hp : p = a.length)
    (hq : q = p + b.length) : slice s p q = b := by
  subst h hp hq
  simp [slice]

theorem slice_user {s a b u : List UInt8} {p : Nat} (h : s = a ++ (u ++ b)) (hp : p = a.length) :
    slice s (colonMark p (splitColon u).1 (splitColon u).2) (p + u.length) = readUser u := by
  have hu := splitColon_append u
  rw [readUser]
  generalize (splitColon u).1 = y at hu ⊢
  generalize (splitColon u).2 = z at hu ⊢
  match z with
  | none => exact slice_eq h hp rfl
  | some [] => exact slice_eq h hp rfl
  | some (d :: z) =>
    simp only [colonMark]
    by_cases hd : digit d = true
    · rw [if_pos hd, if_pos hd]
      refine slice_eq (a := a ++ (y ++ [58])) (c := b) ?_ ?_ ?_
      · rw [h, ← hu]
        simp [colonText]
      · rw [hp]
        simp [Nat.add_assoc]
      · rw [← hu]
        simp [colonText]
        omega
    · rw [if_neg hd, if_neg hd]
      exact slice_eq h hp rfl

theorem isDigit_of_digit {b : UInt8} (h : digit b = true) : Http.isDigit 10 b = true := by
  have hall : ∀ n < 256, digit (UInt8.ofNat n) = true → Http.isDigit 10 (UInt8.ofNat n) = true := by decide +kernel
  simpa using hall b.toNat b.toNat_lt (by simpa using h)

theorem atoi_port {s a ds r : List UInt8} {m : Nat} (h : s ++ [0] = a ++ (ds ++ r)) (hm : m = a.length)
    (hds : ds ∈ lang (UriParser.port : Rule)) (hpos : 1 ≤ decimal ds) (hle : decimal ds ≤ 65535)
    (hr : ∀ c ∈ r.head?, Http.isDigit 10 c = false ∧ Http.tolower c ≠ 120) (hne : r ≠ []) :
    atoi ((s ++ [0]).drop m) = decimal ds := by
  subst hm
  obtain ⟨c, r, rfl⟩ := List.exists_cons_of_ne_nil hne
  have hlen : 0 < ds.length := by
    apply List.length_pos_of_ne_nil
    rintro rfl
    exact absurd hpos (by decide)
  have hnumber : Http.IsNumber 10 (ds ++ c :: r) ds.length := by
    refine ⟨hlen, fun b hb => ?_, c, by simp, hr c rfl⟩
    rw [List.take_left] at hb
    exact isDigit_of_digit (mem_alphabet hds hb)
  have hvalue : (ds.foldl (fun n b => n * 10 + Http.digit b) 0 : Nat) = decimal ds := rfl
  rw [h, List.drop_left, atoi, Http.strtol_number (by decide) hnumber, List.take_left, hvalue, Http.truncate]
  have hmin : min ((2 : Int) ^ 63 - 1) (decimal ds : Int) = decimal ds := by
    apply min_eq_right
    omega
  rw [hmin, Int.bmod_eq_of_le]
  · omega
  · omega

theorem digits_tail (x : Parts) (h : x.path ∈ lang (pathAbempty : Rule)) :
    ∀ c ∈ (x.path ++ (optText 63 x.query ++ optText 35 x.fragment ++ [0])).head?,
      Http.isDigit 10 c = false ∧ Http.tolower c ≠ 120 := by
  intro c hc
  have hcases : c = 47 ∨ c = 63 ∨ c = 35 ∨ c = 0 := by
    cases hp : x.path with
    | cons d path =>
      rw [hp] at hc
      have hd := path_head h c (by rw [hp]; exact hc)
      exact .inl hd
    | nil =>
      rw [hp, List.nil_append] at hc
      cases hq : x.query with
      | some q =>
        rw [hq] at hc
        exact .inr (.inl (Option.some.inj hc).symm)
      | none =>
        cases hf : x.fragment with
        | some f =>
          rw [hq, hf] at hc
          exact .inr (.inr (.inl (Option.some.inj hc).symm))
        | none =>
          rw [hq, hf] at hc
          exact .inr (.inr (.inr (Option.some.inj hc).symm))
  obtain rfl | rfl | rfl | rfl := hcases <;> decide

def authorityAt (x : Parts) : Nat := x.scheme.length + 3

def hostAt (x : Parts) : Nat := x.authorityAt + (userText x.userinfo).length

def pathAt (x : Parts) : Nat := x.hostAt + (x.host ++ colonText x.port).length

theorem WellFormed.scheme_ne_nil (h : x.WellFormed) : x.scheme ≠ [] := by
  intro hnil
  have hs := h.scheme
  rw [hnil] at hs
  obtain ⟨u, v, huv, ⟨c, -, rfl⟩, -⟩ := mem_lang_seq.mp hs
  cases huv

def headUri (x : Parts) : Uri :=
  authorityUri x.text x.authorityAt x.userinfo x.host x.port { Uri.empty with scheme := slice x.text 0 x.scheme.length }

def tailTrace (x : Parts) : List (List Nat) := optTrace 10 11 x.query ++ optTrace 12 13 x.fragment

theorem WellFormed.create_head (h : x.WellFormed) :
    create x.text = (steps x.text x.pathAt ((leftBy x.port :: pathFirst x.path) :: pathRest x.path ++ x.tailTrace)
      ⟨x.headUri, some (colonMark x.hostAt x.host x.port)⟩).map fun v => some v.uri := by
  have hE : x.authorityAt + (userText x.userinfo ++ (x.host ++ colonText x.port)).length = x.pathAt := by
    rw [List.length_append, ← Nat.add_assoc]
    rfl
  have htrace : x.trace = [0] :: silent x.scheme.tail ++ [[1]] ++ [] :: [] ::
      (onFirst 2 (userTrace x.userinfo ++ (hostTrace x.host ++ colonTrace x.host x.port)) ++
        ((leftBy x.port :: pathFirst x.path) :: pathRest x.path ++ x.tailTrace)) := by
    simp [trace, tailTrace]
  rw [h.create_eq, htrace, Uri.empty, steps_scheme h.scheme_ne_nil, steps_pass, steps_pass,
    steps_authority h.host_ne_nil]
  rw [← hE]
  rfl

theorem slice_scheme (x : Parts) : slice x.text 0 x.scheme.length = x.scheme :=
  slice_eq (a := []) rfl rfl (Nat.zero_add _).symm

theorem slice_host (x : Parts) : slice x.text x.hostAt (x.hostAt + x.host.length) = x.host := by
  refine slice_eq (a := x.scheme ++ (bytes "://" ++ userText x.userinfo))
    (c := colonText x.port ++ x.path ++ (optText 63 x.query ++ optText 35 x.fragment)) ?_ ?_ rfl
  · simp [text]
  · simp [hostAt, authorityAt, bytes]
    omega

theorem slice_path (x : Parts) : slice x.text x.pathAt (x.pathAt + x.path.length) = x.path := by
  refine slice_eq (a := x.scheme ++ (bytes "://" ++ (userText x.userinfo ++ (x.host ++ colonText x.port))))
    (c := optText 63 x.query ++ optText 35 x.fragment) ?_ ?_ rfl
  · simp [text]
  · simp [pathAt, hostAt, authorityAt, bytes]
    omega

theorem headUri_eq (x : Parts) : ∃ g, x.headUri =
    { Uri.empty with
      scheme := x.scheme
      userinfo := x.userinfo.elim [] readUser
      host := if x.port.isSome then x.host else g } := by
  have hhost : ∀ u : Uri, colonHost x.text x.hostAt x.host x.port u =
      { u with host := if x.port.isSome then x.host else u.host } := by
    intro u
    rw [colonHost, slice_host]
    split <;> rfl
  refine ⟨(x.userinfo.elim { Uri.empty with scheme := x.scheme }
    (userUri x.text x.authorityAt · { Uri.empty with scheme := x.scheme })).host, ?_⟩
  rw [headUri, authorityUri, slice_scheme]
  refine (hhost _).trans ?_
  cases hu : x.userinfo with
  | none => rfl
  | some u =>
    have huser : slice x.text (colonMark x.authorityAt (splitColon u).1 (splitColon u).2) (x.authorityAt + u.length) =
        readUser u := by
      refine slice_user (a := x.scheme ++ bytes "://") (b := [64] ++ (x.host ++ colonText x.port ++ x.path ++
        (optText 63 x.query ++ optText 35 x.fragment))) ?_ ?_
      · simp [text, hu, userText]
      · simp [authorityAt, bytes]
    have hcolon : ∀ v : Uri, ∃ g, colonHost x.text x.authorityAt (splitColon u).1 (splitColon u).2 v =
        { v with host := g } := by
      intro v
      rw [colonHost]
      split
      · exact ⟨_, rfl⟩
      · exact ⟨v.host, rfl⟩
    obtain ⟨g, hg⟩ := hcolon { Uri.empty with scheme := x.scheme }
    simp only [Option.elim_some, userUri, huser, hg]

def front (x : Parts) : List UInt8 :=
  x.scheme ++ (bytes "://" ++ (userText x.userinfo ++ (x.host ++ colonText x.port) ++ x.path))

theorem length_front (x : Parts) : x.front.length = x.pathAt + x.path.length := by
  simp [front, pathAt, hostAt, authorityAt, bytes]
  omega

theorem slice_query {q : List UInt8} (hq : x.query = some q) :
    slice x.text (x.pathAt + x.path.length + 1) (x.pathAt + x.path.length + 1 + q.length) = q := by
  refine slice_eq (a := x.front ++ [63]) (c := optText 35 x.fragment) ?_ ?_ rfl
  · simp [text, front, hq, optText]
  · rw [← length_front, List.length_append, List.length_singleton]

theorem slice_fragment {f : List UInt8} (hf : x.fragment = some f) :
    slice x.text (x.pathAt + x.path.length + 1 + (optText 63 x.query).length)
      (x.pathAt + x.path.length + 1 + (optText 63 x.query).length + f.length) = f := by
  refine slice_eq (a := x.front ++ (optText 63 x.query ++ [35])) (c := []) ?_ ?_ rfl
  · simp [text, front, hf, optText]
  · rw [← length_front, List.length_append, List.length_append, List.length_singleton]
    omega

theorem steps_tail (h : x.WellFormed) (u : Uri) :
    steps x.text (x.pathAt + x.path.length + 1) x.tailTrace ⟨u, none⟩ =
      some ⟨{ u with query := x.query.getD u.query, fragment := x.fragment.getD u.fragment }, none⟩ := by
  rw [tailTrace, steps_query h.query, steps_fragment h.fragment]
  cases hf : x.fragment with
  | none =>
    cases hq : x.query with
    | none => rfl
    | some q => rw [Option.elim_some, slice_query hq]; rfl
  | some f =>
    rw [Option.elim_some, slice_fragment hf]
    cases hq : x.query with
    | none => rfl
    | some q => rw [Option.elim_some, slice_query hq]; rfl

theorem colonMark_lt (h : x.WellFormed) : colonMark x.hostAt x.host x.port ≠ x.pathAt := by
  have hpos : 0 < x.host.length := List.length_pos_of_ne_nil h.host_ne_nil
  rw [pathAt, List.length_append]
  match hp : x.port with
  | none =>
    simp only [colonMark]
    omega
  | some [] =>
    simp only [colonMark]
    omega
  | some (d :: z) =>
    simp only [colonMark, colonText, List.length_cons]
    split <;> omega

theorem colonMark_port {p : List UInt8} (h : x.WellFormed) (hp : x.port = some p) :
    atoi ((x.text ++ [0]).drop (colonMark x.hostAt x.host x.port)) = decimal p := by
  obtain ⟨hl, hpos, hle⟩ := h.port p hp
  obtain ⟨d, z, rfl⟩ : ∃ d z, p = d :: z := by
    apply List.exists_cons_of_ne_nil
    rintro rfl
    exact absurd hpos (by decide)
  have hd : digit d = true := mem_alphabet hl List.mem_cons_self
  refine atoi_port (a := x.scheme ++ (bytes "://" ++ (userText x.userinfo ++ (x.host ++ [58]))))
    (r := x.path ++ (optText 63 x.query ++ optText 35 x.fragment ++ [0])) ?_ ?_ hl hpos hle (digits_tail x h.path)
    (by simp)
  · simp [text, hp, colonText]
  · simp [hp, colonMark, hd, hostAt, authorityAt, bytes]
    omega

theorem WellFormed.create_outcome (h : x.WellFormed) : create x.text = some (some x.outcome) := by
  obtain ⟨g, hg⟩ := x.headUri_eq
  rw [h.create_head, hg, steps_path (colonMark_lt h), steps_tail h, slice_path]
  cases hp : x.port with
  | none =>
    have hend : x.pathAt = x.hostAt + x.host.length := by simp [pathAt, hp, colonText]
    have hmark : colonMark x.hostAt x.host none = x.hostAt := rfl
    simp [outcome, hp, Uri.empty, hmark, hend, slice_host]
  | some p =>
    have hport := colonMark_port h hp
    rw [hp] at hport
    simp [outcome, hp, Uri.empty, hport]

/-- A `Uri` whose getters return the parts. -/
def Parsed (x : Parts) : Prop :=
  ∃ u, create x.text = some (some u) ∧ u.scheme = x.scheme ∧ u.userinfo = x.userinfo.getD [] ∧ u.host = x.host ∧
    u.query = x.query.getD [] ∧ u.fragment = x.fragment.getD [] ∧
    u.getPath = (if x.path = [] then bytes "/" else x.path) ∧
    u.getPort = match x.port with
      | some p => (decimal p : Int)
      | none => if x.scheme = bytes "http" then 80 else if x.scheme = bytes "https" then 443 else 0

/-- A digit directly behind the first colon. -/
def numberBehindColon (u : List UInt8) : Bool :=
  match (splitColon u).2 with
  | some (d :: _) => digit d
  | _ => false

theorem readUser_eq_iff (u : List UInt8) : readUser u = u ↔ numberBehindColon u = false := by
  have hu := splitColon_append u
  rw [readUser, numberBehindColon]
  generalize (splitColon u).1 = y at hu
  generalize (splitColon u).2 = z at hu ⊢
  match z with
  | none => simp
  | some [] => simp
  | some (d :: z) =>
    by_cases hd : digit d = true
    · simp only [hd, if_true, Bool.true_eq_false, iff_false]
      intro heq
      have hlen := congrArg List.length hu
      rw [← heq] at hlen
      simp [colonText] at hlen
      omega
    · simp [hd]

/-- The parts come back exactly when there is no user with a number behind its first colon. -/
theorem parsed_iff (h : x.WellFormed) : x.Parsed ↔ ∀ u ∈ x.userinfo, numberBehindColon u = false := by
  rw [Parsed, h.create_outcome]
  constructor
  · rintro ⟨v, hv, -, huser, -⟩ u hu
    obtain rfl := Option.some.inj (Option.some.inj hv)
    rw [Option.mem_def] at hu
    simp only [outcome, hu, Option.elim_some, Option.getD_some] at huser
    exact (readUser_eq_iff u).mp huser
  · intro huser
    refine ⟨_, rfl, rfl, ?_, rfl, rfl, rfl, rfl, ?_⟩
    · simp only [outcome]
      cases hu : x.userinfo with
      | none => rfl
      | some u => exact (readUser_eq_iff u).mpr (huser u hu)
    · cases hp : x.port with
      | none => simp [Uri.getPort, outcome, hp]
      | some p =>
        have hne : decimal p ≠ 0 := by
          have hpos := (h.port p hp).2.1
          omega
        simp [Uri.getPort, outcome, hp, hne]

def ferret : Parts :=
  ⟨bytes "http", some (bytes "user"), bytes "sylar.com", some (bytes "8042"), bytes "/over", some (bytes "name=ferret"),
    some (bytes "nose")⟩

theorem ferret_wellFormed : ferret.WellFormed where
  scheme := mem_lang_of_matches rfl (by decide +kernel)
  userinfo := by
    rintro _ ⟨⟩
    exact mem_lang_of_matches rfl (by decide +kernel)
  host := .inl (mem_lang_of_matches rfl (by decide +kernel))
  host_ne_nil := by decide
  port := by
    rintro _ ⟨⟩
    exact ⟨mem_lang_of_matches rfl (by decide +kernel), by decide +kernel⟩
  path := mem_lang_of_matches rfl (by decide +kernel)
  query := by
    rintro _ ⟨⟩
    exact ⟨by decide, mem_lang_of_matches rfl (by decide +kernel)⟩
  fragment := by
    rintro _ ⟨⟩
    exact ⟨by decide, mem_lang_of_matches rfl (by decide +kernel)⟩

theorem parsed_ferret : ferret.WellFormed ∧ ferret.Parsed := by
  refine ⟨ferret_wellFormed, (parsed_iff ferret_wellFormed).mpr ?_⟩
  rintro _ ⟨⟩
  decide +kernel

def admin : Parts := ⟨bytes "http", some (bytes "admin:12"), bytes "h", none, bytes "/", none, none⟩

theorem user_cut_at_colon : admin.WellFormed ∧ ¬ admin.Parsed := by
  have hcreate : create admin.text = some (some ⟨bytes "http", bytes "12", bytes "h", bytes "/", [], [], 0⟩) := by
    decide +kernel
  refine ⟨⟨mem_lang_of_matches rfl (by decide +kernel), ?_, .inl (mem_lang_of_matches rfl (by decide +kernel)),
    by decide, ?_, mem_lang_of_matches rfl (by decide +kernel), ?_, ?_⟩, ?_⟩
  · rintro _ ⟨⟩
    exact mem_lang_of_matches rfl (by decide +kernel)
  · rintro _ ⟨⟩
  · rintro _ ⟨⟩
  · rintro _ ⟨⟩
  · rintro ⟨u, hu, -, huser, -⟩
    rw [hcreate] at hu
    obtain rfl := Option.some.inj (Option.some.inj hu)
    exact absurd huser (by decide)

end Parts

end Windgent.UriParser
