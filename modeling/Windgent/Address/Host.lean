import Windgent.Address.Basic
import Mathlib.Data.List.Basic
import Mathlib.Data.List.TakeWhile

namespace Windgent.Address

/-- The offset of the first `c` among the `n` characters from offset `i` on. -/
def memchr (s : List Char) (i : Nat) (c : Char) (n : Nat) : Option Nat :=
  (((s.drop i).take n).findIdx? (· = c)).map (i + ·)

def cString (s : List Char) (i : Nat) : List Char := (s.drop i).takeWhile (· ≠ Char.ofNat 0)

/-- The part about brackets: `node`, and the offset that `service` points at. -/
def bracketed (host : List Char) : List Char × Option Nat :=
  if host.head? = some '[' then
    match memchr host 1 ']' (host.length - 1) with
    | some endipv6 =>
      ((host.drop 1).take (endipv6 - 1), if host[endipv6 + 1]? = some ':' then some (endipv6 + 2) else none)
    | none => ([], none)
  else ([], none)

/-- The part about a colon, when there is no `node` yet. -/
def separated (host : List Char) : List Char × Option Nat :=
  match memchr host 0 ':' host.length with
  | some service =>
    if memchr host (service + 1) ':' (host.length - service - 1) = none then (host.take service, some (service + 1))
    else ([], some service)
  | none => ([], none)

/-- `node` and `service` as they are when `getaddrinfo` is called. -/
def nodeAndService (host : List Char) : List Char × Option Nat :=
  let stage := if (bracketed host).1 = [] then separated host else bracketed host
  (if stage.1 = [] then host else stage.1, stage.2)

/-- The two strings that `getaddrinfo` gets. -/
def lookup (host : List Char) : List Char × Option (List Char) :=
  let (node, service) := nodeAndService host
  (cString node 0, service.map (cString host))

structure Split (host : List Char) : Prop where
  bracketPort : ∀ x y, x ≠ [] → ']' ∉ x → host = '[' :: x ++ ']' :: ':' :: y → lookup host = (x, some y)
  bracket : ∀ x, x ≠ [] → ']' ∉ x → host = '[' :: x ++ [']'] → lookup host = (x, none)
  port : host.head? ≠ some '[' → ∀ x y, x ≠ [] → ':' ∉ x → ':' ∉ y → host = x ++ ':' :: y → lookup host = (x, some y)
  bare : host.head? ≠ some '[' → host.count ':' ≠ 1 → lookup host = (host, none)
  behind : ∀ s, (nodeAndService host).2 = some s → ∃ j, s = j + 1 ∧ host[j]? = some ':'

def Bracketed (host : List Char) : Prop := ∃ x rest, x ≠ [] ∧ ']' ∉ x ∧ host = '[' :: x ++ ']' :: rest

variable {host x y rest : List Char}

theorem append_cons_inj {c : Char} {x' y' : List Char} (hx : c ∉ x) (hx' : c ∉ x') (h : x ++ c :: y = x' ++ c :: y') :
    x = x' ∧ y = y' := by
  induction x generalizing x' with
  | nil =>
    cases x' with
    | nil => exact ⟨rfl, (List.cons.inj h).2⟩
    | cons d x' => exact absurd (List.cons.inj h).1 fun hd => hx' (hd ▸ List.mem_cons_self ..)
  | cons d x ih =>
    cases x' with
    | nil => exact absurd (List.cons.inj h).1 fun hd => hx (hd ▸ List.mem_cons_self ..)
    | cons d' x' =>
      obtain ⟨rfl, htail⟩ := List.cons.inj h
      obtain ⟨rfl, rfl⟩ := ih (fun hc => hx (List.mem_cons_of_mem _ hc))
        (fun hc => hx' (List.mem_cons_of_mem _ hc)) htail
      exact ⟨rfl, rfl⟩

theorem memchr_some {s t : List Char} {i n : Nat} {c : Char} (hs : s.drop i = x ++ c :: t) (hx : c ∉ x)
    (hn : n = s.length - i) : memchr s i c n = some (i + x.length) := by
  subst hn
  rw [memchr, List.take_of_length_le (by simp), hs, List.findIdx?_append]
  have hnone : x.findIdx? (fun d => decide (d = c)) = none := by
    rw [List.findIdx?_eq_none_iff]
    exact fun d hd => decide_eq_false fun h => hx (h ▸ hd)
  simp [hnone, List.findIdx?_cons]

theorem memchr_none {s : List Char} {i n : Nat} {c : Char} (hs : c ∉ s.drop i) : memchr s i c n = none := by
  rw [memchr, Option.map_eq_none_iff, List.findIdx?_eq_none_iff]
  exact fun d hd => decide_eq_false fun h => hs (h ▸ List.mem_of_mem_take hd)

theorem exists_first {c : Char} {s : List Char} (h : c ∈ s) : ∃ x y, s = x ++ c :: y ∧ c ∉ x := by
  obtain ⟨x, y, hs, hx⟩ := List.eq_append_cons_of_mem h
  exact ⟨x, y, hs, hx⟩

theorem cString_of_plain (h : Char.ofNat 0 ∉ host) (i : Nat) : cString host i = host.drop i := by
  rw [cString, List.takeWhile_eq_self_iff]
  exact fun c hc => decide_eq_true fun h0 => h (h0 ▸ List.mem_of_mem_drop hc)

theorem bracketed_eq (hx : ']' ∉ x) : bracketed ('[' :: x ++ ']' :: rest) =
    (x, if rest.head? = some ':' then some (x.length + 3) else none) := by
  have hend : memchr ('[' :: x ++ ']' :: rest) 1 ']' (('[' :: x ++ ']' :: rest).length - 1) = some (1 + x.length) :=
    memchr_some (t := rest) rfl hx rfl
  have hopen : ('[' :: x ++ ']' :: rest).head? = some '[' := rfl
  have hnext : ('[' :: x ++ ']' :: rest)[1 + x.length + 1]? = rest.head? := by
    rw [Nat.add_comm 1, List.getElem?_append_right (by simp), List.head?_eq_getElem?]
    simp
  simp only [bracketed, if_pos hopen, hend, hnext]
  rw [show 1 + x.length + 2 = x.length + 3 by omega]
  simp

theorem bracketed_empty (h : ¬Bracketed host) : (bracketed host).1 = [] := by
  rw [bracketed]
  split
  · rename_i hopen
    obtain ⟨t, rfl⟩ := List.head?_eq_some_iff.mp hopen
    by_cases hclose : ']' ∈ t
    · obtain ⟨x, rest, rfl, hx⟩ := exists_first hclose
      have hempty : x = [] := by
        by_contra hne
        exact h ⟨x, rest, hne, hx, rfl⟩
      subst hempty
      have hend : memchr ('[' :: ([] ++ ']' :: rest)) 1 ']' (('[' :: ([] ++ ']' :: rest)).length - 1) = some (1 + 0) :=
        memchr_some (x := []) rfl (by simp) rfl
      rw [hend]
      rfl
    · rw [memchr_none (by simpa using hclose)]
  · rfl

theorem separated_none (h : ':' ∉ host) : separated host = ([], none) := by
  rw [separated, memchr_none h]

theorem separated_one (hx : ':' ∉ x) (hy : ':' ∉ y) : separated (x ++ ':' :: y) = (x, some (x.length + 1)) := by
  have hfirst : memchr (x ++ ':' :: y) 0 ':' (x ++ ':' :: y).length = some (0 + x.length) := memchr_some rfl hx rfl
  have hdrop : (x ++ ':' :: y).drop (x.length + 1) = y := by simp [List.drop_append]
  simp only [separated, hfirst, Nat.zero_add]
  rw [if_pos (memchr_none (by rwa [hdrop])), List.take_left]

theorem separated_more (hx : ':' ∉ x) (hy : ':' ∈ y) : separated (x ++ ':' :: y) = ([], some x.length) := by
  have hfirst : memchr (x ++ ':' :: y) 0 ':' (x ++ ':' :: y).length = some (0 + x.length) := memchr_some rfl hx rfl
  have hdrop : (x ++ ':' :: y).drop (x.length + 1) = y := by simp [List.drop_append]
  obtain ⟨y', z, rfl, hy'⟩ := exists_first hy
  have hsecond : memchr (x ++ ':' :: (y' ++ ':' :: z)) (x.length + 1) ':'
      ((x ++ ':' :: (y' ++ ':' :: z)).length - x.length - 1) = some (x.length + 1 + y'.length) :=
    memchr_some hdrop hy' (by omega)
  simp only [separated, hfirst, Nat.zero_add, hsecond]
  rfl

theorem lookup_of {node : List Char} {service : Option Nat} (h0 : Char.ofNat 0 ∉ host)
    (h : nodeAndService host = (node, service)) (hnode : node ⊆ host) :
    lookup host = (node, service.map host.drop) := by
  rw [lookup, h]
  simp only [cString_of_plain fun hc => h0 (hnode hc), List.drop_zero]
  congr 2
  exact funext fun i => cString_of_plain h0 i

theorem nodeAndService_bracketed (hne : x ≠ []) (hx : ']' ∉ x) : nodeAndService ('[' :: x ++ ']' :: rest) =
    (x, if rest.head? = some ':' then some (x.length + 3) else none) := by
  simp only [nodeAndService, bracketed_eq hx, hne, if_false]

theorem nodeAndService_none (hb : ¬Bracketed host) (h : ':' ∉ host) : nodeAndService host = (host, none) := by
  simp only [nodeAndService, bracketed_empty hb, separated_none h, if_true]

theorem nodeAndService_one (hb : ¬Bracketed (x ++ ':' :: y)) (hx : ':' ∉ x) (hy : ':' ∉ y) :
    nodeAndService (x ++ ':' :: y) = (if x = [] then x ++ ':' :: y else x, some (x.length + 1)) := by
  simp only [nodeAndService, bracketed_empty hb, separated_one hx hy, if_true]

theorem nodeAndService_more (hb : ¬Bracketed (x ++ ':' :: y)) (hx : ':' ∉ x) (hy : ':' ∈ y) :
    nodeAndService (x ++ ':' :: y) = (x ++ ':' :: y, some x.length) := by
  simp only [nodeAndService, bracketed_empty hb, separated_more hx hy, if_true]

theorem Bracketed.head (h : Bracketed host) : host.head? = some '[' := by
  obtain ⟨x, rest, -, -, rfl⟩ := h
  rfl

theorem split_of_bracketed (h0 : Char.ofNat 0 ∉ host) (h : Bracketed host) : Split host := by
  have hhead := h.head
  obtain ⟨x, rest, hne, hx, rfl⟩ := h
  have heq : nodeAndService ('[' :: x ++ ']' :: rest) = _ := nodeAndService_bracketed hne hx
  have hlookup := lookup_of h0 heq fun c hc => by simp [hc]
  refine ⟨fun x' y _ hx' hhost => ?_, fun x' _ hx' hhost => ?_, fun h => absurd hhead h, fun h => absurd hhead h,
    fun s hs => ?_⟩
  · obtain ⟨rfl, rfl⟩ := append_cons_inj hx hx' (List.cons.inj hhost).2
    rw [hlookup]
    simp [List.drop_append]
  · obtain ⟨rfl, rfl⟩ := append_cons_inj hx hx' (List.cons.inj hhost).2
    rw [hlookup]
    simp
  · rw [heq] at hs
    simp only [Option.ite_none_right_eq_some, Option.some.injEq] at hs
    obtain ⟨hcolon, rfl⟩ := hs
    obtain ⟨rest, rfl⟩ := List.head?_eq_some_iff.mp hcolon
    exact ⟨x.length + 2, rfl, by simp⟩

theorem split_of_count (h0 : Char.ofNat 0 ∉ host) (hb : ¬Bracketed host) (h : host.count ':' ≤ 1) : Split host := by
  by_cases hc : ':' ∈ host
  · obtain ⟨x, y, rfl, hx⟩ := exists_first hc
    have hy : ':' ∉ y := by
      rw [List.count_append, List.count_cons_self] at h
      exact List.count_eq_zero.mp (by omega)
    have heq := nodeAndService_one hb hx hy
    refine ⟨fun x' y' hne hx' hhost => ?_, fun x' hne hx' hhost => ?_, fun _ x' y' hne hx' _ hhost => ?_,
      fun _ hcount => ?_,
      fun s hs => ?_⟩
    · exact absurd ⟨x', ':' :: y', hne, hx', hhost⟩ hb
    · exact absurd ⟨x', [], hne, hx', hhost⟩ hb
    · obtain ⟨rfl, rfl⟩ := append_cons_inj hx hx' hhost
      rw [if_neg hne] at heq
      rw [lookup_of h0 heq fun c hc => by simp [hc]]
      simp [List.drop_append]
    · rw [List.count_append, List.count_cons_self, List.count_eq_zero.mpr hx, List.count_eq_zero.mpr hy] at hcount
      exact absurd rfl hcount
    · rw [heq] at hs
      obtain rfl := Option.some.inj hs
      exact ⟨x.length, rfl, by simp⟩
  · have heq := nodeAndService_none hb hc
    refine ⟨fun x' y' hne hx' hhost => ?_, fun x' hne hx' hhost => ?_, fun _ x' y' _ _ _ hhost => ?_, fun _ _ => ?_,
      fun s hs => ?_⟩
    · exact absurd ⟨x', ':' :: y', hne, hx', hhost⟩ hb
    · exact absurd ⟨x', [], hne, hx', hhost⟩ hb
    · exact absurd (by simp [hhost]) hc
    · exact lookup_of h0 heq fun c hc => hc
    · rw [heq] at hs
      cases hs

/-- A second colon leaves the service at the first one. -/
theorem split_iff (host : List Char) (h0 : Char.ofNat 0 ∉ host) :
    Split host ↔ Bracketed host ∨ host.count ':' ≤ 1 := by
  constructor
  · intro h
    by_contra hcon
    obtain ⟨hb, hcount⟩ := not_or.mp hcon
    obtain ⟨x, y, rfl, hx⟩ := exists_first (List.count_pos_iff.mp (by omega) : ':' ∈ host)
    have hy : ':' ∈ y := by
      rw [List.count_append, List.count_cons_self, List.count_eq_zero.mpr hx] at hcount
      exact List.count_pos_iff.mp (by omega)
    obtain ⟨j, hj, hcolon⟩ := h.behind x.length (by rw [nodeAndService_more hb hx hy])
    rw [List.getElem?_append_left (by omega)] at hcolon
    exact hx (List.mem_of_getElem? hcolon)
  · rintro (hb | hcount)
    · exact split_of_bracketed h0 hb
    · by_cases hb : Bracketed host
      · exact split_of_bracketed h0 hb
      · exact split_of_count h0 hb hcount

theorem split_of_port : Split "localhost:80".toList :=
  (split_iff "localhost:80".toList (by decide)).mpr (.inr (by decide))

/-- For `fe80::1` the service is `::1`. -/
theorem service_of_bare : lookup "fe80::1".toList = ("fe80::1".toList, some "::1".toList) ∧
    ¬Split "fe80::1".toList := by
  refine ⟨by decide, fun h => ?_⟩
  have hbare := h.bare (by decide) (by decide)
  exact absurd hbare (by decide)

end Windgent.Address
