import Windgent.UriParser.Basic

namespace Windgent.UriParser

open Ragel
open Http.Http11 (digit)

def hostPort : Exp Nat :=
  .seq (.leaving 5 (.entering 4 host)) (.opt (.seq (lit ":") (.leaving 7 (.entering 6 port))))

def userinfoAt : Exp Nat := .opt (.seq (.leaving 3 userinfo) (lit "@"))

def authorityAt : Exp Nat := .entering 2 (.seq userinfoAt hostPort)

theorem plain_authorityAt : Plain authorityAt := plain_stamp (e := authority) (by rfl) 2

section HostPort

variable {x y z w : List UInt8} {c : UInt8} {i : Nat}

theorem mem_host_of_regName (h : x ∈ lang (regName : Exp Nat)) : x ∈ lang (host : Exp Nat) := .inr (.inr h)

theorem mem_host_of_ipv4address (h : x ∈ lang (ipv4address : Exp Nat)) : x ∈ lang (host : Exp Nat) := .inr (.inl h)

theorem host_colon (h : x ∈ lang (host : Exp Nat)) (hc : 58 ∈ x) : x.head? = some 91 := by
  obtain h | h | h := h
  · obtain ⟨u, v, rfl, hu, -⟩ := mem_lang_seq.mp h
    obtain rfl := mem_lang_byte.mp hu
    rfl
  · exact absurd hc (not_mem_of_lang h rfl)
  · exact absurd hc (not_mem_of_lang h rfl)

theorem accepts_host : Accepts host x ↔ x ∈ lang (host : Exp Nat) := accepts_iff (bare_plain rfl)

theorem reads_colon {e : Exp Nat} : Reads (.opt (.seq (lit ":") e)) [c] ↔ c = 58 := by
  rw [reads_singleton]
  simp [Exp.opt, lit, moves, out, Http.bytes, Exp.text, Exp.byte]

theorem firesAt_port : FiresAt (.opt (.seq (lit ":") (.leaving 7 (.entering 6 port)))) x c i ↔
    i = 6 ∧ x = [58] ∧ digit c = true := by
  have hp : Reads (port : Exp Nat) [c] ↔ digit c = true := by
    rw [reads_singleton]
    simp [port, moves]
  have hn : ∀ v, ¬ FiresAt (port : Exp Nat) v c i := fun v => bare_not_firesAt rfl
  rw [firesAt_opt]
  refine firesAt_byte_seq.trans ?_
  simp only [firesAt_leaving, firesAt_entering, hp, hn, or_false]
  constructor
  · rintro ⟨v, rfl, rfl, rfl, hc⟩
    exact ⟨rfl, rfl, hc⟩
  · rintro ⟨rfl, rfl, hc⟩
    exact ⟨[], rfl, rfl, rfl, hc⟩

theorem leavesAt_port : LeavesAt (.opt (.seq (lit ":") (.leaving 7 (.entering 6 port)))) x i ↔
    (i = 6 ∧ x = [58]) ∨ (i = 7 ∧ ∃ p, x = 58 :: p ∧ p ∈ lang (port : Exp Nat)) := by
  have hn : ∀ v, ¬ LeavesAt (port : Exp Nat) v i := fun v => bare_not_leavesAt rfl
  have ha : ∀ v, Accepts (port : Exp Nat) v ↔ v ∈ lang (port : Exp Nat) := fun v => accepts_iff (bare_plain rfl)
  rw [leavesAt_opt]
  refine leavesAt_byte_seq.trans ?_
  simp only [leavesAt_leaving, leavesAt_entering, accepts_entering, hn, or_false, ha]
  constructor
  · rintro ⟨v, rfl, ⟨rfl, rfl, -⟩ | ⟨rfl, hv⟩⟩
    · exact .inl ⟨rfl, rfl⟩
    · exact .inr ⟨rfl, v, rfl, hv⟩
  · rintro (⟨rfl, rfl⟩ | ⟨rfl, v, rfl, hv⟩)
    · exact ⟨[], rfl, .inl ⟨rfl, rfl, nil_mem_lang_star⟩⟩
    · exact ⟨v, rfl, .inr ⟨rfl, hv⟩⟩

theorem nil_mem_host : [] ∈ lang (host : Exp Nat) := mem_host_of_regName nil_mem_lang_star

theorem firesAt_hostPort : FiresAt hostPort x c i ↔ (i = 4 ∧ x = [] ∧ (Reads host [c] ∨ c = 58)) ∨
    (i = 5 ∧ x ∈ lang (host : Exp Nat) ∧ c = 58) ∨
    (i = 6 ∧ digit c = true ∧ ∃ y, x = y ++ [58] ∧ y ∈ lang (host : Exp Nat)) := by
  have hf : ¬ FiresAt (host : Exp Nat) x c i := bare_not_firesAt rfl
  have hl : ¬ LeavesAt (host : Exp Nat) x i := bare_not_leavesAt rfl
  rw [hostPort, firesAt_seq]
  simp only [firesAt_leaving, firesAt_entering, leavesAt_leaving, leavesAt_entering, accepts_leaving,
    accepts_entering, accepts_host, firesAt_port, reads_colon, hf, hl, or_false]
  constructor
  · rintro (⟨hx, hi, hr⟩ | ⟨⟨hx, hi, -⟩ | ⟨hi, hx⟩, hc⟩ | ⟨y, _, rfl, hy, hi, rfl, hc⟩)
    · exact .inl ⟨hi, hx, .inl hr⟩
    · exact .inl ⟨hi, hx, .inr hc⟩
    · exact .inr (.inl ⟨hi, hx, hc⟩)
    · exact .inr (.inr ⟨hi, hc, y, rfl, hy⟩)
  · rintro (⟨hi, hx, hr | hc⟩ | ⟨hi, hx, hc⟩ | ⟨hi, hc, y, rfl, hy⟩)
    · exact .inl ⟨hx, hi, hr⟩
    · exact .inr (.inl ⟨.inl ⟨hx, hi, nil_mem_host⟩, hc⟩)
    · exact .inr (.inl ⟨.inr ⟨hi, hx⟩, hc⟩)
    · exact .inr (.inr ⟨y, [58], rfl, hy, hi, rfl, hc⟩)

theorem leavesAt_hostPort : LeavesAt hostPort x i ↔ (i = 4 ∧ x = []) ∨ (i = 5 ∧ x ∈ lang (host : Exp Nat)) ∨
    (i = 6 ∧ ∃ y, x = y ++ [58] ∧ y ∈ lang (host : Exp Nat)) ∨
    (i = 7 ∧ ∃ y p, x = y ++ 58 :: p ∧ y ∈ lang (host : Exp Nat) ∧ p ∈ lang (port : Exp Nat)) := by
  have hl : ¬ LeavesAt (host : Exp Nat) x i := bare_not_leavesAt rfl
  have hout : ∀ e : Exp Nat, (out (.opt (.seq (lit ":") e))).isSome = true := fun _ => rfl
  rw [hostPort, leavesAt_seq, ← or_assoc]
  simp only [leavesAt_leaving, leavesAt_entering, accepts_leaving, accepts_entering, accepts_host, leavesAt_port,
    hl, or_false, hout, and_true, nil_mem_host]
  refine or_congr (or_congr_left And.comm) ⟨?_, ?_⟩
  · rintro ⟨y, _, rfl, hy, ⟨rfl, rfl⟩ | ⟨rfl, p, rfl, hp⟩⟩
    · exact .inl ⟨rfl, y, rfl, hy⟩
    · exact .inr ⟨rfl, y, p, rfl, hy, hp⟩
  · rintro (⟨rfl, y, rfl, hy⟩ | ⟨rfl, y, p, rfl, hy, hp⟩)
    · exact ⟨y, [58], rfl, hy, .inl ⟨rfl, rfl⟩⟩
    · exact ⟨y, 58 :: p, rfl, hy, .inr ⟨rfl, p, rfl, hp⟩⟩

def hostTrace : List UInt8 → List (List Nat)
  | [] => []
  | _ :: y => [4] :: silent y

def portTrace : List UInt8 → List (List Nat)
  | [] => []
  | d :: z => (if digit d then [6] else []) :: silent z

/-- A text that a host may begin with. -/
def HostLike (y : List UInt8) : Prop := 58 ∉ y ∧ y.head? ≠ some 91 ∧ y ∈ lang (host : Exp Nat)

theorem HostLike.not_mem_lang (h : HostLike y) : y ++ 58 :: z ∉ lang (host : Exp Nat) := by
  intro hl
  have hh := host_colon hl (by simp)
  cases y with
  | nil => simp at hh
  | cons d y => exact h.2.1 hh

theorem HostLike.traced (h : HostLike y) : Traced hostPort [] y (hostTrace y) := by
  cases y with
  | nil => trivial
  | cons d y =>
    have hr : Reads host [d] := Accepts.reads (v := y) (accepts_host.mpr h.2.2)
    have hd : d ≠ 58 := fun he => h.1 (he ▸ List.mem_cons_self)
    refine ⟨fun i => ?_, traced_silent fun x c z hy i hi => ?_⟩
    · rw [firesAt_hostPort, List.mem_singleton]
      simp [hr, hd]
    · have hmem : 58 ∉ d :: (x ++ [c]) := fun hm => h.1 (by rw [hy]; simp at hm ⊢; tauto)
      rw [firesAt_hostPort] at hi
      obtain ⟨-, hx, -⟩ | ⟨-, -, rfl⟩ | ⟨-, -, u, hu, -⟩ := hi
      · simp at hx
      · simp at hmem
      · simp only [List.nil_append, List.singleton_append] at hu
        refine hmem ?_
        rw [← List.cons_append, hu]
        simp

/-- The embeddings on the colon behind a host. -/
def hostOut (y : List UInt8) : List Nat := if y = [] then [4, 5] else [5]

theorem HostLike.traced_port (h : HostLike y) (z : List UInt8) :
    Traced hostPort y (58 :: z) (hostOut y :: portTrace z) := by
  have hd : digit 58 = false := rfl
  refine ⟨fun i => ?_, ?_⟩
  · rw [firesAt_hostPort, hostOut]
    by_cases hy : y = []
    · simp [hy, hd, nil_mem_host]
    · simp [hy, hd, h.2.2]
  · cases z with
    | nil => trivial
    | cons d z =>
      refine ⟨fun i => ?_, traced_silent fun x c v _ i hi => ?_⟩
      · have hn := h.not_mem_lang (z := [])
        rw [firesAt_hostPort]
        by_cases hd : digit d = true
        · simp [hd, hn, h.2.2]
        · simp [hd, hn]
      · rw [firesAt_hostPort] at hi
        obtain ⟨-, hx, -⟩ | ⟨-, hx, -⟩ | ⟨-, -, u, hu, hhost⟩ := hi
        · simp at hx
        · exact h.not_mem_lang (z := d :: x) (by simpa using hx)
        · obtain ⟨v, b, hv⟩ : ∃ v b, d :: x = v ++ [b] := ⟨_, _, (List.dropLast_append_getLast (by simp)).symm⟩
          have hu' : (y ++ 58 :: v) ++ [b] = u ++ [58] := by
            rw [← hu, List.append_assoc, List.cons_append, ← hv]
            simp
          obtain ⟨rfl, -⟩ := List.append_inj' hu' rfl
          exact h.not_mem_lang hhost

def colonText : Option (List UInt8) → List UInt8
  | none => []
  | some z => 58 :: z

def colonTrace (y : List UInt8) : Option (List UInt8) → List (List Nat)
  | none => []
  | some z => hostOut y :: portTrace z

theorem HostLike.traced_hostPort (h : HostLike y) (z : Option (List UInt8)) :
    Traced hostPort [] (y ++ colonText z) (hostTrace y ++ colonTrace y z) := by
  cases z with
  | none => exact h.traced.append trivial
  | some z => exact h.traced.append (h.traced_port z)

/-- The time of the action that leaves a host or a port. -/
def leftBy : Option (List UInt8) → Nat
  | none => 5
  | some _ => 7

theorem HostLike.leavesAt_iff {p : Option (List UInt8)} (h : HostLike y) (hy : y ≠ [])
    (hp : ∀ z ∈ p, z ≠ [] ∧ z ∈ lang (port : Exp Nat)) :
    LeavesAt hostPort (y ++ colonText p) i ↔ i = leftBy p := by
  rw [leavesAt_hostPort, or_iff_right fun hi => hy (List.append_eq_nil_iff.mp hi.2).1]
  cases p with
  | none =>
    have hne : ∀ u z, y ≠ u ++ 58 :: z := fun u z hu => h.1 (by rw [hu]; simp)
    simp [colonText, leftBy, h.2.2, hne]
  | some z =>
    obtain ⟨hz, hport⟩ := hp z rfl
    rw [or_iff_right fun hi => h.not_mem_lang hi.2, or_iff_right]
    · exact and_iff_left ⟨y, z, rfl, h.2.2, hport⟩
    · rintro ⟨-, u, hu, hhost⟩
      obtain ⟨v, b, rfl⟩ : ∃ v b, z = v ++ [b] := ⟨_, _, (List.dropLast_append_getLast hz).symm⟩
      have hu' : (y ++ 58 :: v) ++ [b] = u ++ [58] := by
        rw [← hu, List.append_assoc]
        rfl
      obtain ⟨rfl, -⟩ := List.append_inj' hu' rfl
      exact h.not_mem_lang hhost

end HostPort

section Authority

variable {u a b x v : List UInt8} {c : UInt8} {i : Nat}

theorem accepts_userinfoAt : Accepts userinfoAt x ↔
    x = [] ∨ ∃ u, x = u ++ [64] ∧ u ∈ lang (userinfo : Exp Nat) := by
  have ha : ∀ v, Accepts (userinfo : Exp Nat) v ↔ v ∈ lang (userinfo : Exp Nat) :=
    fun v => accepts_iff (bare_plain rfl)
  rw [userinfoAt, accepts_opt, or_comm, accepts_seq]
  refine or_congr_right ?_
  simp only [accepts_leaving, ha]
  constructor
  · rintro ⟨u, v, rfl, hu, hv⟩
    obtain rfl := accepts_byte.mp hv
    exact ⟨u, rfl, hu⟩
  · rintro ⟨u, rfl, hu⟩
    exact ⟨u, [64], rfl, hu, accepts_byte.mpr rfl⟩

theorem firesAt_userinfoAt : FiresAt userinfoAt x c i ↔ i = 3 ∧ x ∈ lang (userinfo : Exp Nat) ∧ c = 64 := by
  have hf : ¬ FiresAt (userinfo : Exp Nat) x c i := bare_not_firesAt rfl
  have hl : ¬ LeavesAt (userinfo : Exp Nat) x i := bare_not_leavesAt rfl
  have ha : Accepts (userinfo : Exp Nat) x ↔ x ∈ lang (userinfo : Exp Nat) := accepts_iff (bare_plain rfl)
  rw [userinfoAt, firesAt_opt]
  refine (firesAt_seq_byte (b := 64)).trans ?_
  simp only [firesAt_leaving, leavesAt_leaving, hf, hl, ha, false_or, and_assoc]

theorem not_leavesAt_userinfoAt : ¬ LeavesAt userinfoAt x i := by
  rw [userinfoAt, leavesAt_opt]
  exact leavesAt_seq_byte

theorem firesAt_authority : FiresAt (.seq userinfoAt hostPort) x c i ↔
    (i = 3 ∧ x ∈ lang (userinfo : Exp Nat) ∧ c = 64) ∨ FiresAt hostPort x c i ∨
      ∃ u v, x = u ++ 64 :: v ∧ u ∈ lang (userinfo : Exp Nat) ∧ FiresAt hostPort v c i := by
  rw [firesAt_seq, firesAt_userinfoAt]
  refine or_congr_right ?_
  rw [or_iff_right fun h => not_leavesAt_userinfoAt h.1]
  simp only [accepts_userinfoAt]
  constructor
  · rintro ⟨_, v, rfl, rfl | ⟨u, rfl, hu⟩, hv⟩
    · exact .inl hv
    · exact .inr ⟨u, v, by simp, hu, hv⟩
  · rintro (hv | ⟨u, v, rfl, hu, hv⟩)
    · exact ⟨[], x, rfl, .inl rfl, hv⟩
    · exact ⟨u ++ [64], v, by simp, .inr ⟨u, rfl, hu⟩, hv⟩

theorem leavesAt_authority : LeavesAt (.seq userinfoAt hostPort) x i ↔ LeavesAt hostPort x i ∨
      ∃ u v, x = u ++ 64 :: v ∧ u ∈ lang (userinfo : Exp Nat) ∧ LeavesAt hostPort v i := by
  rw [leavesAt_seq, or_iff_right fun h => not_leavesAt_userinfoAt h.1]
  simp only [accepts_userinfoAt]
  constructor
  · rintro ⟨_, v, rfl, rfl | ⟨u, rfl, hu⟩, hv⟩
    · exact .inl hv
    · exact .inr ⟨u, v, by simp, hu, hv⟩
  · rintro (hv | ⟨u, v, rfl, hu, hv⟩)
    · exact ⟨[], x, rfl, .inl rfl, hv⟩
    · exact ⟨u ++ [64], v, by simp, .inr ⟨u, rfl, hu⟩, hv⟩

theorem not_firesAt_hostPort (h : 64 ∈ x ++ [c]) : ¬ FiresAt hostPort x c i := fun hf =>
  not_reads (e := hostPort) rfl h hf.reads

theorem not_leavesAt_hostPort (h : 64 ∈ x) : ¬ LeavesAt hostPort x i := fun hl =>
  not_reads (e := hostPort) rfl h (Accepts.reads (v := []) (by simpa using LeavesAt.accepts hl))

theorem traced_without_userinfo {τ : List (List Nat)} (h : Traced hostPort [] a τ) (ha : 64 ∉ a) :
    Traced (.seq userinfoAt hostPort) [] a τ := by
  refine h.congr fun x c y hxy i => ?_
  have hc : c ≠ 64 := fun hc => ha (by rw [hxy, hc]; simp)
  have hx : ∀ u v, x ≠ u ++ 64 :: v := fun u v hu => ha (by rw [hxy, hu]; simp)
  simp [firesAt_authority, hc, hx]

theorem traced_with_userinfo {τ τ' : List (List Nat)} (hu : u ∈ lang (userinfo : Exp Nat))
    (h : Traced hostPort [] u τ) (h' : Traced hostPort [] b τ') (hb : 64 ∉ b) :
    Traced (.seq userinfoAt hostPort) [] (u ++ 64 :: b) (τ ++ [3] :: τ') := by
  have hu' : 64 ∉ u := not_mem_of_lang hu rfl
  refine (traced_without_userinfo h hu').append ⟨fun i => ?_, h'.congr fun x c y hxy i => ?_⟩
  · have hf : ¬ FiresAt hostPort u 64 i := not_firesAt_hostPort (by simp)
    have hne : ∀ x v, u ≠ x ++ 64 :: v := fun x v hx => hu' (by rw [hx]; simp)
    simp [firesAt_authority, hu, hf, hne]
  · have hc : c ≠ 64 := fun hc => hb (by rw [hxy, hc]; simp)
    rw [firesAt_authority, or_iff_right fun hi => hc hi.2.2,
      or_iff_right (not_firesAt_hostPort (by simp))]
    constructor
    · rintro ⟨u', v, heq, -, hf⟩
      have hx : 64 ∉ x := fun hx => hb (by rw [hxy]; simp [hx])
      have heq' : u ++ 64 :: x = u' ++ 64 :: v := by simpa using heq
      obtain ⟨-, -, rfl⟩ := (List.append_cons_inj_of_notMem hu' hx).mp heq'
      exact hf
    · intro hf
      exact ⟨u, x, by simp, hu, hf⟩

def splitColon (u : List UInt8) : List UInt8 × Option (List UInt8) :=
  (u.takeWhile (· ≠ 58), match u.dropWhile (· ≠ 58) with
    | [] => none
    | _ :: z => some z)

theorem splitColon_eq {y : List UInt8} (hy : 58 ∉ y) (z : Option (List UInt8)) :
    splitColon (y ++ colonText z) = (y, z) := by
  have hpos : ∀ c ∈ y, decide (c ≠ 58) = true := fun c hc => decide_eq_true fun h => hy (h ▸ hc)
  rw [splitColon, List.takeWhile_append_of_pos hpos, List.dropWhile_append_of_pos hpos]
  cases z with
  | none => simp [colonText]
  | some z => simp [colonText]

theorem splitColon_append (x : List UInt8) : (splitColon x).1 ++ colonText (splitColon x).2 = x := by
  have hx := List.takeWhile_append_dropWhile (p := fun c : UInt8 => decide (c ≠ 58)) (l := x)
  have hhead : ∀ c ∈ (x.dropWhile (fun c : UInt8 => decide (c ≠ 58))).head?, c = 58 := by
    intro c hc
    have := List.head?_dropWhile_not (fun c : UInt8 => decide (c ≠ 58)) x
    rw [hc] at this
    simpa using this
  simp only [splitColon]
  generalize x.dropWhile (fun c : UInt8 => decide (c ≠ 58)) = r at hx hhead ⊢
  cases r with
  | nil => exact hx
  | cons c r =>
    obtain rfl := hhead c rfl
    exact hx

/-- What stands in front of the first colon of a user might be a host. -/
theorem userinfo_split (hu : u ∈ lang (userinfo : Exp Nat)) :
    ∃ y z, u = y ++ colonText z ∧ y ∈ lang (regName : Exp Nat) := by
  induction hn : u.length using Nat.strong_induction_on generalizing u with
  | _ n ih =>
    cases u with
    | nil => exact ⟨[], none, rfl, nil_mem_lang_star⟩
    | cons c w =>
      obtain ⟨v₁, v₂, rfl, hitem, hv₂⟩ := cons_mem_lang_star.mp hu
      have hlt : v₂.length < n := by
        rw [← hn, List.length_cons, List.length_append]
        omega
      by_cases hc : c = 58
      · obtain ⟨d, -, hd⟩ | hpct := hitem
        · obtain ⟨rfl, rfl⟩ := List.cons.inj hd
          exact ⟨[], some v₂, by rw [hc]; rfl, nil_mem_lang_star⟩
        · exact absurd (hc ▸ List.mem_cons_self) (not_mem_of_lang (c := 58) hpct rfl)
      · have hitem' : c :: v₁ ∈ lang (.alt (.chars fun c => unreserved c || subDelims c) pctEncoded : Exp Nat) := by
          obtain ⟨d, hd, hcd⟩ | hpct := hitem
          · obtain ⟨rfl, rfl⟩ := List.cons.inj hcd
            refine .inl ⟨c, ?_, rfl⟩
            have hcolon : Http.Http11.oneOf ":" c = false := decide_eq_false (by simpa [Http.bytes] using hc)
            simpa [hcolon] using hd
          · exact .inr hpct
        obtain ⟨y, z, rfl, hy⟩ := ih _ hlt hv₂ rfl
        exact ⟨c :: (v₁ ++ y), z, by simp, cons_mem_lang_star.mpr ⟨v₁, y, rfl, hitem', hy⟩⟩

theorem hostLike_of_regName (h : x ∈ lang (regName : Exp Nat)) : HostLike x :=
  ⟨not_mem_of_lang h rfl, fun hx => not_mem_of_lang (c := 91) h rfl (List.mem_of_mem_head? hx),
    mem_host_of_regName h⟩

theorem hostLike_of_ipv4address (h : x ∈ lang (ipv4address : Exp Nat)) : HostLike x :=
  ⟨not_mem_of_lang h rfl, fun hx => not_mem_of_lang (c := 91) h rfl (List.mem_of_mem_head? hx),
    mem_host_of_ipv4address h⟩

def userText : Option (List UInt8) → List UInt8
  | none => []
  | some u => u ++ [64]

def userTrace : Option (List UInt8) → List (List Nat)
  | none => []
  | some u => hostTrace (splitColon u).1 ++ colonTrace (splitColon u).1 (splitColon u).2 ++ [[3]]

def onFirst (i : Nat) : List (List Nat) → List (List Nat)
  | [] => []
  | t :: τ => (i :: t) :: τ

theorem traced_onFirst {e : Exp Nat} {τ : List (List Nat)} {k : Nat} (ha : Accepts e x) (hx : x ≠ [])
    (h : Traced e [] x τ) : Traced (.entering k e) [] x (onFirst k τ) := by
  cases x with
  | nil => exact absurd rfl hx
  | cons c x =>
    cases τ with
    | nil => cases h
    | cons t τ => exact h.entering (Accepts.reads (v := x) ha)

def EndsAuthority (c : UInt8) : Prop := c = 47 ∨ c = 63 ∨ c = 35

theorem alphabet_authorityAt (h : EndsAuthority c) : alphabet authorityAt c = false := by
  obtain rfl | rfl | rfl := h <;> rfl

variable {h : List UInt8} {user p : Option (List UInt8)}

theorem traced_authority (huser : ∀ u ∈ user, u ∈ lang (userinfo : Exp Nat)) (hh : HostLike h)
    (hat : 64 ∉ h ++ colonText p) :
    Traced (.seq userinfoAt hostPort) [] (userText user ++ (h ++ colonText p))
      (userTrace user ++ (hostTrace h ++ colonTrace h p)) := by
  cases user with
  | none => exact traced_without_userinfo (hh.traced_hostPort p) hat
  | some u =>
    obtain ⟨y, z, rfl, hy⟩ := userinfo_split (huser u rfl)
    have hl := hostLike_of_regName hy
    have ht := traced_with_userinfo (huser _ rfl) (hl.traced_hostPort z) (hh.traced_hostPort p) hat
    simpa only [userText, userTrace, splitColon_eq hl.1, List.append_assoc, List.singleton_append,
      List.cons_append, List.nil_append] using ht

theorem leavesAt_authorityAt (huser : ∀ u ∈ user, u ∈ lang (userinfo : Exp Nat)) (hh : HostLike h) (hne : h ≠ [])
    (hat : 64 ∉ h ++ colonText p) (hp : ∀ z ∈ p, z ≠ [] ∧ z ∈ lang (port : Exp Nat)) :
    LeavesAt authorityAt (userText user ++ (h ++ colonText p)) i ↔ i = leftBy p := by
  rw [authorityAt, leavesAt_entering,
    or_iff_right fun hi => hne (List.append_eq_nil_iff.mp (List.append_eq_nil_iff.mp hi.1).2).1,
    leavesAt_authority, ← hh.leavesAt_iff hne hp]
  cases user with
  | none =>
    have hne : ∀ u v, h ++ colonText p ≠ u ++ 64 :: v := fun u v huv => hat (by rw [huv]; simp)
    simp [userText, hne]
  | some u =>
    have hu : 64 ∉ u := not_mem_of_lang (huser u rfl) rfl
    rw [or_iff_right (not_leavesAt_hostPort (by simp [userText]))]
    constructor
    · rintro ⟨u', v, heq, -, hv⟩
      have heq' : u ++ 64 :: (h ++ colonText p) = u' ++ 64 :: v := by simpa [userText] using heq
      obtain ⟨-, -, rfl⟩ := (List.append_cons_inj_of_notMem hu hat).mp heq'
      exact hv
    · intro hv
      exact ⟨u, _, by simp [userText], huser u rfl, hv⟩

theorem covers_authority (huser : ∀ u ∈ user, u ∈ lang (userinfo : Exp Nat)) (hh : HostLike h) (hne : h ≠ [])
    (hat : 64 ∉ h ++ colonText p) (hp : ∀ z ∈ p, z ≠ [] ∧ z ∈ lang (port : Exp Nat)) :
    Covers (fun c => ¬ EndsAuthority c) authorityAt (userText user ++ (h ++ colonText p))
      (onFirst 2 (userTrace user ++ (hostTrace h ++ colonTrace h p)) ++ [[leftBy p]]) EndsAuthority := by
  have hl := fun i => leavesAt_authorityAt (i := i) huser hh hne hat hp
  have ha : Accepts authorityAt (userText user ++ (h ++ colonText p)) := LeavesAt.accepts ((hl _).mpr rfl)
  have ht := traced_authority huser hh hat
  refine ⟨_, _, rfl, Scans.of_traced plain_authorityAt ha ?_ (fun i => by rw [hl, List.mem_singleton])
    (fun x c y hxy _ he => ?_) fun c hc => not_reads (alphabet_authorityAt hc) (by simp)⟩
  · exact traced_onFirst (accepts_entering.mp ha) (by simp [hne]) ht
  · refine not_reads (alphabet_authorityAt he) (w := userText user ++ (h ++ colonText p)) ?_
      (Accepts.reads (v := []) (by simpa using ha))
    rw [hxy]
    simp

end Authority

end Windgent.UriParser
