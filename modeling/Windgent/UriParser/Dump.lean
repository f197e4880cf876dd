import Windgent.Http.ResponseRoundTrip
import Windgent.UriParser.Create

namespace Windgent.UriParser

open Ragel
open Http (bytes)

def toString (n : Int) : List UInt8 := if n < 0 then 45 :: Http.decimal (-n).toNat else Http.decimal n.toNat

namespace Uri

def isDefaultPort (u : Uri) : Bool :=
  if u.port = 0 then true
  else if u.scheme = bytes "http" then u.port = 80
  else if u.scheme = bytes "https" then u.port = 443
  else false

def dump (u : Uri) : List UInt8 :=
  u.scheme ++ bytes "://" ++ u.userinfo ++ (if u.userinfo = [] then [] else bytes "@") ++
    u.host ++ (if u.isDefaultPort then [] else bytes ":" ++ UriParser.toString u.port) ++
    u.getPath ++ (if u.query = [] then [] else bytes "?") ++ u.query ++
    (if u.fragment = [] then [] else bytes "#") ++ u.fragment

structure Alike (u v : Uri) : Prop where
  scheme : u.scheme = v.scheme
  userinfo : u.userinfo = v.userinfo
  host : u.host = v.host
  path : u.getPath = v.getPath
  query : u.query = v.query
  fragment : u.fragment = v.fragment
  port : u.getPort = v.getPort

end Uri

section Dump

variable {x : Parts} {u : Uri}

def present (s : List UInt8) : Option (List UInt8) := if s = [] then none else some s

theorem getD_present (s : List UInt8) : (present s).getD [] = s := by
  unfold present
  split
  · symm
    assumption
  · rfl

theorem mem_present {s t : List UInt8} (h : t ∈ present s) : t = s ∧ s ≠ [] := by
  unfold present at h
  split at h
  · cases h
  · rename_i hne
    exact ⟨(Option.some.inj h).symm, hne⟩

def Uri.parts (u : Uri) : Parts where
  scheme := u.scheme
  userinfo := present u.userinfo
  host := u.host
  port := if u.isDefaultPort then none else some (UriParser.toString u.port)
  path := u.getPath
  query := present u.query
  fragment := present u.fragment

theorem dump_eq (u : Uri) : u.dump = u.parts.text := by
  have hopt : ∀ (lead : String) (b : UInt8) (s : List UInt8), bytes lead = [b] →
      (if s = [] then [] else bytes lead) ++ s = optText b (present s) := by
    intro lead b s hb
    unfold present
    split
    · rename_i hs
      rw [hs]
      rfl
    · rw [hb]
      rfl
  have huser : u.userinfo ++ (if u.userinfo = [] then [] else bytes "@") = userText (present u.userinfo) := by
    unfold present
    split
    · rename_i hs
      rw [hs]
      rfl
    · rfl
  have hport : (if u.isDefaultPort then [] else bytes ":" ++ UriParser.toString u.port) =
      colonText (if u.isDefaultPort then none else some (UriParser.toString u.port)) := by
    split
    · rfl
    · rfl
  rw [Uri.dump, Parts.text, Uri.parts, ← hopt "?" 63 _ rfl, ← hopt "#" 35 _ rfl, ← huser, ← hport]
  simp only [List.append_assoc]

theorem userinfo_suffix {y z : List UInt8} (h : y ++ 58 :: z ∈ lang (userinfo : Rule)) :
    z ∈ lang (userinfo : Rule) := by
  induction hn : y.length using Nat.strong_induction_on generalizing y with
  | _ n ih =>
    cases y with
    | nil =>
      obtain ⟨v, w, rfl, hitem, hw⟩ := cons_mem_lang_star.mp h
      obtain ⟨d, -, hd⟩ | hpct := hitem
      · obtain ⟨-, rfl⟩ := List.cons.inj hd
        exact hw
      · exact absurd List.mem_cons_self (not_mem_of_lang (c := 58) hpct rfl)
    | cons c y =>
      obtain ⟨v, w, hvw, hitem, hw⟩ := cons_mem_lang_star.mp h
      have hv : 58 ∉ v := by
        obtain ⟨d, -, hd⟩ | hpct := hitem
        · obtain ⟨-, rfl⟩ := List.cons.inj hd
          exact List.not_mem_nil
        · exact fun hm => not_mem_of_lang (c := 58) hpct rfl (List.mem_cons_of_mem _ hm)
      obtain ⟨s, rfl, hs⟩ | ⟨s, rfl, hs⟩ := List.append_eq_append_iff.mp hvw
      · cases s with
        | nil =>
          rw [List.nil_append] at hs
          refine ih 0 (by rw [← hn]; simp) (y := []) (by rw [List.nil_append, hs]; exact hw) rfl
        | cons d s =>
          obtain ⟨rfl, -⟩ := List.cons.inj hs
          exact absurd (List.mem_append_right _ List.mem_cons_self) hv
      · refine ih s.length ?_ (y := s) (hs ▸ hw) rfl
        rw [← hn, List.length_cons, List.length_append]
        omega

theorem readUser_mem {w : List UInt8} (h : w ∈ lang (userinfo : Rule)) : Parts.readUser w ∈ lang (userinfo : Rule) := by
  have hw := splitColon_append w
  unfold Parts.readUser
  generalize (splitColon w).1 = y at hw
  generalize (splitColon w).2 = z at hw ⊢
  match z with
  | none => exact h
  | some [] => exact h
  | some (d :: z) =>
    change (if Http.Http11.digit d then d :: z else w) ∈ lang (userinfo : Rule)
    by_cases hd : Http.Http11.digit d = true
    · rw [if_pos hd]
      rw [← hw] at h
      exact userinfo_suffix h
    · rw [if_neg hd]
      exact h

theorem decimal_decimal (n : Nat) : Parts.decimal (Http.decimal n) = n := Http.HttpClient.fold_decimal n

theorem decimal_mem_port (n : Nat) : Http.decimal n ∈ lang (port : Rule) := by
  have hdigits : ∀ c ∈ Http.decimal n, Http.Http11.digit c = true := fun c hc => Http.Http11.decimal_digit hc
  generalize Http.decimal n = ds at hdigits
  induction ds with
  | nil => exact nil_mem_lang_star
  | cons d ds ih =>
    obtain ⟨hd, hds⟩ := List.forall_mem_cons.mp hdigits
    exact cons_mem_lang_star.mpr ⟨[], ds, rfl, ⟨d, hd, rfl⟩, ih hds⟩

theorem port_range (h : x.WellFormed) :
    0 ≤ (x.port.elim 0 fun p => (Parts.decimal p : Int)) ∧
      (x.port.elim 0 fun p => (Parts.decimal p : Int)) ≤ 65535 := by
  cases hp : x.port with
  | none => simp
  | some p =>
    have hrange := (h.port p hp).2
    simp only [Option.elim_some]
    omega

theorem getPath_mem (h : x.WellFormed) : x.outcome.getPath ∈ lang (pathAbempty : Rule) := by
  unfold Uri.getPath
  split
  · exact mem_lang_of_matches rfl (by decide +kernel)
  · exact h.path

theorem parts_wellFormed (h : x.WellFormed) : x.outcome.parts.WellFormed := by
  obtain ⟨hlo, hhi⟩ := port_range h
  exact
    { scheme := h.scheme
      userinfo := by
        intro w hw
        obtain ⟨rfl, hne⟩ := mem_present hw
        unfold Parts.outcome at hne ⊢
        cases hx : x.userinfo with
        | none => simp [hx] at hne
        | some w => exact readUser_mem (h.userinfo w hx)
      host := h.host
      host_ne_nil := h.host_ne_nil
      port := by
        intro p hp
        simp only [Uri.parts] at hp
        split at hp
        · cases hp
        · rename_i hdefault
          have hne : (x.port.elim 0 fun p => (Parts.decimal p : Int)) ≠ 0 := by
            intro h0
            simp [Uri.isDefaultPort, Parts.outcome, h0] at hdefault
          obtain rfl := Option.some.inj hp
          simp only [Parts.outcome]
          rw [UriParser.toString, if_neg (by omega), decimal_decimal]
          exact ⟨decimal_mem_port _, by omega, by omega⟩
      path := getPath_mem h
      query := by
        intro q hq
        obtain ⟨rfl, hne⟩ := mem_present hq
        unfold Parts.outcome at hne ⊢
        cases hx : x.query with
        | none => simp [hx] at hne
        | some q => exact h.query q hx
      fragment := by
        intro f hf
        obtain ⟨rfl, hne⟩ := mem_present hf
        unfold Parts.outcome at hne ⊢
        cases hx : x.fragment with
        | none => simp [hx] at hne
        | some f => exact h.fragment f hx }

/-- What the text of a `Uri` is read as. -/
theorem create_dump (h : x.WellFormed) : create x.outcome.dump = some (some
    { x.outcome with
      userinfo := (present x.outcome.userinfo).elim [] Parts.readUser
      path := x.outcome.getPath
      port := if x.outcome.isDefaultPort then 0 else x.outcome.port }) := by
  have hwell := parts_wellFormed h
  have hlo : 0 ≤ x.outcome.port := (port_range h).1
  generalize x.outcome = u at hwell hlo ⊢
  rw [dump_eq, hwell.create_outcome]
  simp only [Parts.outcome, Uri.parts, getD_present]
  congr 3
  split
  · rfl
  · rw [Option.elim_some, UriParser.toString, if_neg (not_lt.mpr hlo), decimal_decimal]
    exact Int.toNat_of_nonneg hlo

/-- The text of a `Uri` is read as the same parts again, exactly when no number stands behind
the first colon of its user. -/
theorem create_dump_iff (h : x.WellFormed) (hu : create x.text = some (some u)) :
    (∃ v, create u.dump = some (some v) ∧ u.Alike v) ↔
      ∀ w ∈ x.userinfo, Parts.numberBehindColon (Parts.readUser w) = false := by
  obtain rfl : x.outcome = u := Option.some.inj (Option.some.inj (h.create_outcome.symm.trans hu))
  rw [create_dump h]
  have huser : x.outcome.userinfo = x.userinfo.elim [] Parts.readUser := rfl
  constructor
  · rintro ⟨v, hv, hsame⟩ w hw
    obtain rfl := Option.some.inj (Option.some.inj hv)
    rw [← Parts.readUser_eq_iff]
    have hsame := hsame.userinfo
    rw [Option.mem_def] at hw
    rw [huser, hw, Option.elim_some] at hsame
    by_cases hnil : Parts.readUser w = []
    · rw [hnil]
      rfl
    · simpa [present, hnil] using hsame.symm
  · intro hcolon
    refine ⟨_, rfl, rfl, ?_, rfl, ?_, rfl, rfl, ?_⟩
    · rw [huser]
      cases hw : x.userinfo with
      | none => rfl
      | some w =>
        have hread := (Parts.readUser_eq_iff _).mpr (hcolon w hw)
        rw [Option.elim_some, present]
        by_cases hnil : Parts.readUser w = []
        · rw [if_pos hnil]
          exact hnil
        · rw [if_neg hnil]
          exact hread.symm
    · simp only [Uri.getPath]
      split
      · rfl
      · rfl
    · generalize x.outcome = u
      simp only [Uri.getPort]
      by_cases h0 : u.port = 0
      · simp [h0, Uri.isDefaultPort]
      · by_cases hhttp : u.scheme = bytes "http"
        · by_cases h80 : u.port = 80
          · simp [h80, hhttp, Uri.isDefaultPort]
          · simp [h0, h80, hhttp, Uri.isDefaultPort]
        · by_cases hhttps : u.scheme = bytes "https"
          · have hne : bytes "https" ≠ bytes "http" := by decide
            by_cases h443 : u.port = 443
            · simp [h443, hhttps, hne, Uri.isDefaultPort]
            · simp [h0, h443, hhttps, hne, Uri.isDefaultPort]
          · simp [h0, hhttp, hhttps, Uri.isDefaultPort]

theorem create_dump_ferret :
    ∃ u, create Parts.ferret.text = some (some u) ∧ u.dump = Parts.ferret.text ∧
      ∃ v, create u.dump = some (some v) ∧ u.Alike v := by
  have hu := Parts.ferret_wellFormed.create_outcome
  refine ⟨_, hu, by decide +kernel, (create_dump_iff Parts.ferret_wellFormed hu).mpr ?_⟩
  rintro _ ⟨⟩
  decide +kernel

end Dump

end Windgent.UriParser
