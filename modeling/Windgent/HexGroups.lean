import Mathlib.Tactic.Common
import Mathlib.Data.List.TakeWhile

namespace Windgent.HexGroups

def hexDigit (c : Char) : Option Nat :=
  if '0' ≤ c ∧ c ≤ '9' then some (c.toNat - '0'.toNat)
  else if 'a' ≤ c ∧ c ≤ 'f' then some (c.toNat - 'a'.toNat + 10)
  else if 'A' ≤ c ∧ c ≤ 'F' then some (c.toNat - 'A'.toNat + 10)
  else none

def hexNumber (t : List Char) : Option Nat :=
  t.foldl (fun n c => n.bind fun n => (hexDigit c).map (16 * n + ·)) (some 0)

def hexGroup (t : List Char) : Option Nat :=
  if 1 ≤ t.length ∧ t.length ≤ 4 then hexNumber t else none

def groupsOf (t : List Char) : Option (List Nat) :=
  if t = [] then some [] else (t.splitOn ':').mapM hexGroup

/-- What stands before and after the first `::`. -/
def elision : List Char → Option (List Char × List Char)
  | [] => none
  | c :: t =>
    if c = ':' ∧ t.head? = some ':' then some ([], t.tail)
    else (elision t).map fun s => (c :: s.1, s.2)

/-- Eight groups, where `::` stands for the missing zero groups, at least one. -/
def expand (t : List Char) : Option (List Nat) :=
  match elision t with
  | none => (groupsOf t).filter fun gs => gs.length = 8
  | some (l, r) =>
    (groupsOf l).bind fun pre => (groupsOf r).bind fun post =>
      if pre.length + post.length < 8 then
        some (pre ++ List.replicate (8 - (pre.length + post.length)) 0 ++ post)
      else none

def hex (n : Nat) : List Char := Nat.toDigits 16 n

def joined (gs : List Nat) : List Char := [':'].intercalate (gs.map hex)

/-- The groups with their first run of zeros left out. -/
def shorten (gs : List Nat) : List Char :=
  let rest := gs.dropWhile (· ≠ 0)
  if rest = [] then joined gs
  else joined (gs.takeWhile (· ≠ 0)) ++ ':' :: ':' :: joined (rest.dropWhile (· = 0))

theorem hexDigit_digitChar {d : Nat} (hd : d < 16) : hexDigit d.digitChar = some d := by
  have hall : ∀ d < 16, hexDigit d.digitChar = some d := by decide
  exact hall d hd

theorem mem_hex {n : Nat} {c : Char} (h : c ∈ hex n) : ∃ d < 16, c = d.digitChar := by
  induction n using Nat.strongRecOn with
  | ind n ih =>
    rw [hex, Nat.toDigits_eq_if (by decide)] at h
    split at h
    · rename_i hlt
      exact ⟨n, hlt, List.mem_singleton.mp h⟩
    · rename_i hge
      obtain h | h := List.mem_append.mp h
      · exact ih (n / 16) (Nat.div_lt_self (by omega) (by decide)) h
      · exact ⟨n % 16, Nat.mod_lt _ (by decide), List.mem_singleton.mp h⟩

theorem hexNumber_hex (n : Nat) : hexNumber (hex n) = some n := by
  induction n using Nat.strongRecOn with
  | ind n ih =>
    rw [hex, Nat.toDigits_eq_if (by decide)]
    split
    · rename_i hlt
      simp [hexNumber, hexDigit_digitChar hlt]
    · rename_i hge
      have hih := ih (n / 16) (Nat.div_lt_self (by omega) (by decide))
      rw [hexNumber, hex] at hih
      rw [hexNumber, List.foldl_append, hih]
      simp only [List.foldl_cons, List.foldl_nil, Option.bind_some, hexDigit_digitChar (Nat.mod_lt n (by decide)),
        Option.map_some, Option.some.injEq]
      omega

theorem hex_ne_nil (n : Nat) : hex n ≠ [] := Nat.toDigits_ne_nil

theorem hexGroup_hex {n : Nat} (hn : n < 65536) : hexGroup (hex n) = some n := by
  have hle := (Nat.length_toDigits_le_iff (n := n) (by decide : 1 < 16) (by decide : 0 < 4)).mpr hn
  rw [hexGroup, if_pos ⟨Nat.length_toDigits_pos, hle⟩, hexNumber_hex]

theorem colon_notMem_hex (n : Nat) : ':' ∉ hex n := by
  intro h
  obtain ⟨d, hd, hc⟩ := mem_hex h
  have hall : ∀ d < 16, ':' ≠ d.digitChar := by decide
  exact hall d hd hc

theorem joined_cons_cons (g g' : Nat) (gs : List Nat) :
    joined (g :: g' :: gs) = hex g ++ ':' :: joined (g' :: gs) := by
  rw [joined, List.map_cons, List.map_cons, List.intercalate_cons_cons]
  simp [joined]

theorem joined_cons (g : Nat) (gs : List Nat) : joined (g :: gs) = hex g ++ gs.flatMap fun g => ':' :: hex g := by
  induction gs generalizing g with
  | nil => simp [joined]
  | cons g' gs ih => rw [joined_cons_cons, ih, List.flatMap_cons, List.cons_append]

theorem groupsOf_joined {gs : List Nat} (h : ∀ g ∈ gs, g < 65536) : groupsOf (joined gs) = some gs := by
  cases gs with
  | nil => rfl
  | cons g gs =>
    have hne : joined (g :: gs) ≠ [] := by simp [joined_cons, hex_ne_nil]
    have hsplit : (joined (g :: gs)).splitOn ':' = (g :: gs).map hex :=
      List.splitOn_intercalate ':' (List.forall_mem_map.mpr fun g _ => colon_notMem_hex g) (by simp)
    rw [groupsOf, if_neg hne, hsplit]
    generalize g :: gs = gs at h
    induction gs with
    | nil => rfl
    | cons g gs ih =>
      obtain ⟨hg, hgs⟩ := List.forall_mem_cons.mp h
      rw [List.map_cons, List.mapM_cons, hexGroup_hex hg, ih hgs]
      rfl

theorem elision_append {s : List Char} (hs : ':' ∉ s) (t : List Char) :
    elision (s ++ t) = (elision t).map fun u => (s ++ u.1, u.2) := by
  induction s with
  | nil => simp
  | cons c s ih =>
    obtain ⟨hc, hs⟩ := not_or.mp (mt List.mem_cons.mpr hs)
    rw [List.cons_append, elision, if_neg (fun h => hc h.1.symm), ih hs, Option.map_map]
    rfl

theorem elision_colon {t : List Char} (h : t.head? ≠ some ':') :
    elision (':' :: t) = (elision t).map fun u => (':' :: u.1, u.2) := by
  rw [elision, if_neg fun hc => h hc.2]

theorem head_joined (g : Nat) (gs : List Nat) (t : List Char) : (joined (g :: gs) ++ t).head? ≠ some ':' := by
  rw [joined_cons, List.append_assoc]
  obtain ⟨c, s, hs⟩ := List.exists_cons_of_ne_nil (hex_ne_nil g)
  have hc : ':' ≠ c := fun h => colon_notMem_hex g (h ▸ hs ▸ List.mem_cons_self ..)
  simpa [hs] using hc.symm

theorem elision_joined (gs : List Nat) {t : List Char} (ht : elision t = none ∨ t.head? = some ':' ∧ gs ≠ []) :
    elision (joined gs ++ t) = (elision t).map fun u => (joined gs ++ u.1, u.2) := by
  induction gs with
  | nil => simp [joined]
  | cons g gs ih =>
    cases gs with
    | nil => simpa [joined] using elision_append (colon_notMem_hex g) t
    | cons g' gs =>
      rw [joined_cons_cons, List.append_assoc, List.cons_append, elision_append (colon_notMem_hex g),
        elision_colon (head_joined g' gs t), ih (ht.imp id fun h => ⟨h.1, by simp⟩), Option.map_map, Option.map_map]
      simp [Function.comp_def]

theorem elision_joined_nil (gs : List Nat) : elision (joined gs) = none := by
  have h := elision_joined gs (t := []) (.inl rfl)
  rwa [List.append_nil] at h

theorem elision_pair (pre : List Nat) (t : List Char) :
    elision (joined pre ++ ':' :: ':' :: t) = some (joined pre, t) := by
  have hpair : elision (':' :: ':' :: t) = some ([], t) := by
    rw [elision]
    exact if_pos ⟨rfl, rfl⟩
  have h : elision (joined pre ++ ':' :: ':' :: t) =
      (elision (':' :: ':' :: t)).map fun u => (joined pre ++ u.1, u.2) := by
    cases pre with
    | nil => simp [joined, hpair]
    | cons g gs => exact elision_joined (g :: gs) (.inr ⟨rfl, by simp⟩)
  rw [h, hpair]
  simp

theorem exists_run {gs : List Nat} (h : gs.dropWhile (· ≠ 0) ≠ []) :
    ∃ n, gs.dropWhile (· ≠ 0) = List.replicate (n + 1) 0 ++ (gs.dropWhile (· ≠ 0)).dropWhile (· = 0) := by
  have hhead := List.head_dropWhile_not (fun g => decide (g ≠ 0)) (l := gs) h
  obtain ⟨g, rest, hrest⟩ := List.exists_cons_of_ne_nil h
  simp only [hrest, List.head_cons, decide_eq_false_iff_not, not_not] at hhead
  subst hhead
  have hzeros : rest.takeWhile (· = 0) = List.replicate (rest.takeWhile (· = 0)).length 0 :=
    List.eq_replicate_of_mem fun g hg => by simpa using List.mem_takeWhile_imp hg
  refine ⟨(rest.takeWhile (· = 0)).length, ?_⟩
  rw [hrest, List.dropWhile_cons_of_pos (by simp), List.replicate_succ, List.cons_append, ← hzeros,
    List.takeWhile_append_dropWhile]

theorem expand_shorten {gs : List Nat} (hlen : gs.length = 8) (h : ∀ g ∈ gs, g < 65536) :
    expand (shorten gs) = some gs := by
  rw [shorten]
  split
  · rw [expand, elision_joined_nil]
    simp [groupsOf_joined h, Option.filter, hlen]
  · rename_i hrest
    obtain ⟨n, hrun⟩ := exists_run hrest
    set rest := gs.dropWhile fun g => decide (g ≠ 0)
    set pre := gs.takeWhile fun g => decide (g ≠ 0)
    set post := rest.dropWhile fun g => decide (g = 0)
    have hgs : gs = pre ++ List.replicate (n + 1) 0 ++ post := by
      rw [List.append_assoc, ← hrun]
      exact List.takeWhile_append_dropWhile.symm
    have hcount : pre.length + (n + 1) + post.length = 8 := by
      rw [← hlen, hgs]
      simp [Nat.add_assoc]
    have hpre : ∀ g ∈ pre, g < 65536 := fun g hg => h g (by rw [hgs]; simp [hg])
    have hpost : ∀ g ∈ post, g < 65536 := fun g hg => h g (by rw [hgs]; simp [hg])
    rw [expand, elision_pair]
    simp only [groupsOf_joined hpre, groupsOf_joined hpost, Option.bind_some]
    rw [if_pos (by omega), show 8 - (pre.length + post.length) = n + 1 by omega, ← hgs]

def PairAt (t : List Char) (k : Nat) : Prop := [':', ':'] <+: t.drop k

theorem pairAt_zero (c : Char) (t : List Char) : PairAt (c :: t) 0 ↔ c = ':' ∧ t.head? = some ':' := by
  cases t with
  | nil => simp [PairAt]
  | cons d t => simp [PairAt, eq_comm]

theorem not_pairAt {t : List Char} (h : elision t = none) (k : Nat) : ¬PairAt t k := by
  induction t generalizing k with
  | nil => simp [PairAt]
  | cons c t ih =>
    rw [elision] at h
    split at h
    · cases h
    · rename_i hc
      cases k with
      | zero => rwa [pairAt_zero]
      | succ k => exact ih (Option.map_eq_none_iff.mp h) k

theorem elision_spec {t l r : List Char} (h : elision t = some (l, r)) :
    t = l ++ ':' :: ':' :: r ∧ ∀ k, PairAt t k → l.length ≤ k := by
  induction t generalizing l with
  | nil => cases h
  | cons c t ih =>
    rw [elision] at h
    split at h
    · rename_i hc
      obtain ⟨rfl, rfl⟩ := Prod.mk.inj (Option.some.inj h)
      obtain ⟨rfl, ht⟩ := hc
      obtain ⟨t, rfl⟩ := List.head?_eq_some_iff.mp ht
      exact ⟨rfl, fun k _ => Nat.zero_le k⟩
    · rename_i hc
      obtain ⟨⟨l, r⟩, hs, heq⟩ := Option.map_eq_some_iff.mp h
      obtain ⟨rfl, rfl⟩ := Prod.mk.inj heq
      obtain ⟨rfl, hle⟩ := ih hs
      refine ⟨rfl, fun k hk => ?_⟩
      cases k with
      | zero => exact absurd ((pairAt_zero c _).mp hk) hc
      | succ k => exact Nat.succ_le_succ (hle k hk)

theorem pairAt_unique {t l r : List Char} (h : elision t = some (l, r)) (hr : elision (':' :: r) = none) {k : Nat}
    (hk : PairAt t k) : k = l.length := by
  obtain ⟨rfl, hle⟩ := elision_spec h
  obtain hlt | heq := Nat.lt_or_eq_of_le (hle k hk)
  · obtain ⟨j, rfl⟩ := Nat.exists_eq_add_of_lt hlt
    refine absurd ?_ (not_pairAt hr j)
    rwa [PairAt, show l.length + j + 1 = l.length + (j + 1) by omega, List.drop_length_add_append] at hk
  · exact heq.symm

theorem elision_colon_joined (gs : List Nat) : elision (':' :: joined gs) = none := by
  cases gs with
  | nil => rfl
  | cons g gs =>
    have hhead := head_joined g gs []
    rw [List.append_nil] at hhead
    rw [elision_colon hhead, elision_joined_nil]
    rfl

theorem shorten_pairs (gs : List Nat) {j k : Nat} (hj : PairAt (shorten gs) j) (hk : PairAt (shorten gs) k) :
    j = k := by
  rw [shorten] at hj hk
  split at hj
  · exact absurd hj (not_pairAt (elision_joined_nil gs) j)
  · rename_i hrest
    rw [if_neg hrest] at hk
    rw [pairAt_unique (elision_pair _ _) (elision_colon_joined _) hj,
      pairAt_unique (elision_pair _ _) (elision_colon_joined _) hk]

theorem not_three {t : List Char} (h : ∀ j k, PairAt t j → PairAt t k → j = k) (k : Nat) :
    ¬[':', ':', ':'] <+: t.drop k := by
  rintro ⟨u, hu⟩
  have hnext : t.drop (k + 1) = ':' :: ':' :: u := by
    rw [← List.drop_drop, ← hu]
    rfl
  exact absurd (h k (k + 1) ⟨':' :: u, hu⟩ ⟨u, hnext.symm⟩) (by omega)

theorem mem_joined {gs : List Nat} {c : Char} (h : c ∈ joined gs) : c = ':' ∨ ∃ d < 16, c = d.digitChar := by
  induction gs with
  | nil => cases h
  | cons g gs ih =>
    cases gs with
    | nil => exact .inr (mem_hex (n := g) (by simpa [joined] using h))
    | cons g' gs =>
      rw [joined_cons_cons] at h
      obtain h | h := List.mem_append.mp h
      · exact .inr (mem_hex h)
      · exact (List.mem_cons.mp h).elim .inl ih

theorem mem_shorten {gs : List Nat} {c : Char} (h : c ∈ shorten gs) : c = ':' ∨ ∃ d < 16, c = d.digitChar := by
  rw [shorten] at h
  split at h
  · exact mem_joined h
  · obtain h | h := List.mem_append.mp h
    · exact mem_joined h
    · obtain rfl | h := List.mem_cons.mp h
      · exact .inl rfl
      · exact (List.mem_cons.mp h).elim .inl mem_joined

end Windgent.HexGroups
