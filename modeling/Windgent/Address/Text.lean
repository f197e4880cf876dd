import Windgent.Address.Basic
import Windgent.HexGroups
import Mathlib.Data.List.Basic
import Mathlib.Data.List.OfFn

namespace Windgent.IPv6Address

open Wire HexGroups

variable (host : Endian)

/-- `addr[i]`, the bytes `2 * i` and `2 * i + 1` as a number of the host. -/
def word (a : IPv6Address) (i : Fin 8) : BitVec 16 :=
  BitVec.ofNat 16 (load host [a.s6Addr[2 * i.val], a.s6Addr[2 * i.val + 1]])

/-- The loop over the words from one on, with `prev` the word before it; what is printed, and
`used_aeros` at the end. -/
def insertLoop (prev : Option (BitVec 16)) (used_aeros : Bool) : List (BitVec 16) → List Char × Bool
  | [] => ([], used_aeros)
  | x :: xs =>
    if x = 0#16 ∧ used_aeros = false then insertLoop (some x) used_aeros xs
    else
      let elide := prev = some 0#16 ∧ used_aeros = false
      let r := insertLoop (some x) (used_aeros || decide elide) xs
      ((if elide then [':'] else []) ++ (if prev.isSome then [':'] else []) ++
        hex (byteswapOnLittleEndian host x).toNat ++ r.1, r.2)

def insertAddr (a : IPv6Address) : List Char :=
  let r := insertLoop host none false (List.ofFn (a.word host))
  r.1 ++ if r.2 = false ∧ a.word host 7 = 0#16 then [':', ':'] else []

def insert (a : IPv6Address) : List Char :=
  '[' :: a.insertAddr host ++ [']', ':'] ++ Nat.toDigits 10 (a.getPort host).toNat

def groups (a : IPv6Address) : List Nat :=
  List.ofFn fun i : Fin 8 => 256 * a.s6Addr[2 * i.val].toNat + a.s6Addr[2 * i.val + 1].toNat

variable {host} {a b : IPv6Address}

def group (host : Endian) (x : BitVec 16) : Nat := (byteswapOnLittleEndian host x).toNat

theorem group_eq_zero_iff (x : BitVec 16) : group host x = 0 ↔ x = 0#16 := by
  have hzero : byteswapOnLittleEndian host 0#16 = 0#16 := by cases host <;> rfl
  constructor
  · intro h
    have h0 : byteswapOnLittleEndian host x = 0#16 := BitVec.toNat_inj.mp h
    rw [← byteswapOnLittleEndian_twice host rfl x, h0, hzero]
  · rintro rfl
    rw [group, hzero]
    rfl

theorem group_word (i : Fin 8) : group host (a.word host i) =
    256 * a.s6Addr[2 * i.val].toNat + a.s6Addr[2 * i.val + 1].toNat := by
  have hhi := a.s6Addr[2 * i.val].toNat_lt
  have hlo := a.s6Addr[2 * i.val + 1].toNat_lt
  simp only [group, word]
  generalize a.s6Addr[2 * i.val] = hi at *
  generalize a.s6Addr[2 * i.val + 1] = lo at *
  cases host with
  | little =>
    have hload : load .little [hi, lo] < 2 ^ 16 := by
      simp only [load, value]
      omega
    simp only [byteswapOnLittleEndian, BitVec.toNat_ofNat, Nat.mod_eq_of_lt hload]
    rw [load, byteswap_value (n := 16 / 8) rfl]
    simp only [List.reverse_cons, List.reverse_nil,
      List.nil_append, List.cons_append, value]
    omega
  | big =>
    simp only [byteswapOnLittleEndian, BitVec.toNat_ofNat, load, List.reverse_cons, List.reverse_nil,
      List.nil_append, List.cons_append, value]
    omega

theorem groups_eq (a : IPv6Address) : a.groups = (List.ofFn (a.word host)).map (group host) := by
  rw [groups, List.map_ofFn]
  exact congrArg List.ofFn (funext fun i => (group_word i).symm)

theorem groups_lt {g : Nat} (h : g ∈ a.groups) : g < 65536 := by
  obtain ⟨i, rfl⟩ := List.mem_ofFn.mp h
  have hhi := a.s6Addr[2 * i.val].toNat_lt
  have hlo := a.s6Addr[2 * i.val + 1].toNat_lt
  omega

theorem groups_inj (h : a.groups = b.groups) : a.s6Addr = b.s6Addr := by
  have hg := List.ofFn_injective h
  refine Vector.ext fun j hj => ?_
  have hj' := congrFun hg ⟨j / 2, by omega⟩
  have ha := a.s6Addr[2 * (j / 2) + 1].toNat_lt
  have hb := b.s6Addr[2 * (j / 2) + 1].toNat_lt
  apply UInt8.toNat_inj.mp
  obtain hpar | hpar := Nat.mod_two_eq_zero_or_one j
  · have hidx : j = 2 * (j / 2) := by omega
    simp only at hj'
    have hget : ∀ v : Vector UInt8 16, v[j] = v[2 * (j / 2)] := fun v => by congr 1
    rw [hget, hget]
    omega
  · have hidx : j = 2 * (j / 2) + 1 := by omega
    simp only at hj'
    have hget : ∀ v : Vector UInt8 16, v[j] = v[2 * (j / 2) + 1] := fun v => by congr 1
    rw [hget, hget]
    omega

/-- The text of the loop with what is printed behind it, when `last` is the last word. -/
def finish (r : List Char × Bool) (last : Option (BitVec 16)) : List Char :=
  r.1 ++ if r.2 = false ∧ last = some 0#16 then [':', ':'] else []

theorem insertLoop_used (y : BitVec 16) (xs : List (BitVec 16)) :
    insertLoop host (some y) true xs = (xs.flatMap fun x => ':' :: hex (group host x), true) := by
  induction xs generalizing y with
  | nil => rfl
  | cons x xs ih => simp [insertLoop, ih, group]

theorem flatMap_group (x : BitVec 16) (xs : List (BitVec 16)) :
    hex (group host x) ++ (xs.flatMap fun x => ':' :: hex (group host x)) = joined ((x :: xs).map (group host)) := by
  rw [List.map_cons, joined_cons, List.flatMap_map]

/-- In the first run of zeros, when it has begun. -/
theorem finish_zeros (xs : List (BitVec 16)) :
    finish (insertLoop host (some 0#16) false xs) ((0#16 :: xs).getLast?) =
      ':' :: ':' :: joined ((xs.dropWhile (· = 0#16)).map (group host)) := by
  induction xs with
  | nil => rfl
  | cons x xs ih =>
    rw [List.getLast?_cons_cons]
    by_cases hx : x = 0#16
    · subst hx
      rw [insertLoop, if_pos ⟨rfl, rfl⟩, ih, List.dropWhile_cons_of_pos (by simp)]
    · rw [insertLoop, if_neg (fun h => hx h.1), List.dropWhile_cons_of_neg (by simpa using hx), ← flatMap_group]
      simp [finish, insertLoop_used, group]

theorem finish_groups {y : BitVec 16} (hy : y ≠ 0#16) (xs : List (BitVec 16)) :
    finish (insertLoop host (some y) false xs) ((y :: xs).getLast?) =
      ((xs.takeWhile (· ≠ 0#16)).flatMap fun x => ':' :: hex (group host x)) ++
        if xs.dropWhile (· ≠ 0#16) = [] then []
        else ':' :: ':' :: joined (((xs.dropWhile (· ≠ 0#16)).dropWhile (· = 0#16)).map (group host)) := by
  induction xs generalizing y with
  | nil => simp [insertLoop, finish, hy]
  | cons x xs ih =>
    rw [List.getLast?_cons_cons]
    by_cases hx : x = 0#16
    · subst hx
      rw [insertLoop, if_pos ⟨rfl, rfl⟩, finish_zeros]
      simp
    · have hstep : insertLoop host (some y) false (x :: xs) =
          (':' :: hex (group host x) ++ (insertLoop host (some x) false xs).1,
            (insertLoop host (some x) false xs).2) := by
        rw [insertLoop, if_neg (fun h => hx h.1)]
        simp [hy, group]
      have hih := ih hx
      rw [finish] at hih
      rw [hstep, finish, List.append_assoc, hih]
      simp [hx]

theorem finish_start (x : BitVec 16) (xs : List (BitVec 16)) :
    finish (insertLoop host none false (x :: xs)) ((x :: xs).getLast?) = shorten ((x :: xs).map (group host)) := by
  have hnonzero : (fun g => decide (g ≠ 0)) ∘ group host = fun x => decide (x ≠ 0#16) :=
    funext fun x => decide_eq_decide.mpr (not_congr (group_eq_zero_iff x))
  have hzero : (fun g => decide (g = 0)) ∘ group host = fun x => decide (x = 0#16) :=
    funext fun x => decide_eq_decide.mpr (group_eq_zero_iff x)
  rw [shorten, List.dropWhile_map, List.takeWhile_map, List.dropWhile_map, hnonzero, hzero]
  simp only [List.map_eq_nil_iff]
  by_cases hx : x = 0#16
  · subst hx
    rw [insertLoop, if_pos ⟨rfl, rfl⟩, finish_zeros]
    simp [joined]
  · have hstep : insertLoop host none false (x :: xs) =
        (hex (group host x) ++ (insertLoop host (some x) false xs).1, (insertLoop host (some x) false xs).2) := by
      rw [insertLoop, if_neg (fun h => hx h.1)]
      simp [group]
    have hgroups : finish (insertLoop host (some x) false xs) _ = _ := finish_groups hx xs
    rw [finish] at hgroups
    rw [hstep, finish, List.append_assoc, hgroups, List.dropWhile_cons_of_pos (by simpa using hx),
      List.takeWhile_cons_of_pos (by simpa using hx), ← flatMap_group, ← flatMap_group, List.append_assoc]
    split
    · rename_i hrest
      rw [List.append_nil, List.takeWhile_eq_self_iff.mpr (by simpa using hrest)]
    · rfl

theorem insertAddr_eq (a : IPv6Address) : a.insertAddr host = shorten a.groups := by
  have hlast : (List.ofFn (a.word host)).getLast? = some (a.word host 7) := rfl
  have hcons : List.ofFn (a.word host) = a.word host 0 :: List.ofFn fun i : Fin 7 => a.word host i.succ := rfl
  have hstart : finish (insertLoop host none false (a.word host 0 :: _)) _ = _ :=
    finish_start (a.word host 0) (List.ofFn fun i : Fin 7 => a.word host i.succ)
  rw [← hcons, hlast, ← groups_eq, finish] at hstart
  simpa [insertAddr] using hstart

/-- The printed text is faithful to the address and the port. -/
structure Faithful (host : Endian) (a : IPv6Address) (t : List Char) : Prop where
  text : a.insert host = '[' :: t ++ [']', ':'] ++ Nat.toDigits 10 (a.getPort host).toNat
  once : ∀ j k, [':', ':'] <+: t.drop j → [':', ':'] <+: t.drop k → j = k
  never : ¬[':', ':', ':'] <:+: t
  expands : expand t = some a.groups

theorem bracket_notMem (a : IPv6Address) : ']' ∉ a.insertAddr host := by
  intro h
  rw [insertAddr_eq] at h
  obtain h | ⟨d, hd, h⟩ := mem_shorten h
  · exact absurd h (by decide)
  · have hall : ∀ d < 16, ']' ≠ d.digitChar := by decide
    exact hall d hd h

theorem bracket_notMem_decimal (n : Nat) : ']' ∉ ':' :: Nat.toDigits 10 n := by
  intro h
  obtain h | h := List.mem_cons.mp h
  · exact absurd h (by decide)
  · exact absurd (Nat.isDigit_of_mem_toDigits (by decide) le_rfl h) (by decide)

theorem insert_inj (h : a.insert host = b.insert host) : a.s6Addr = b.s6Addr ∧ a.getPort host = b.getPort host := by
  simp only [insert, List.cons_append, List.append_assoc, List.nil_append, List.cons.injEq, true_and] at h
  obtain ⟨htext, -, hport⟩ := (List.append_cons_inj_of_notMem (bracket_notMem a) (bracket_notMem_decimal _)).mp h
  constructor
  · apply groups_inj
    have hexpand : ∀ a : IPv6Address, expand (a.insertAddr host) = some a.groups := fun a => by
      rw [insertAddr_eq, expand_shorten (by simp [groups]) fun g => groups_lt]
    rw [← Option.some.injEq, ← hexpand, ← hexpand, htext]
  · have hnat := congrArg (fun t => Nat.ofDigitChars 10 t 0) (List.cons.inj hport).2
    simp only [Nat.ofDigitChars_ten_toDigits] at hnat
    exact BitVec.toNat_inj.mp hnat

theorem insert_faithful (host : Endian) (a : IPv6Address) : (∃ t, Faithful host a t) ∧
    ∀ b : IPv6Address, a.insert host = b.insert host → a.s6Addr = b.s6Addr ∧ a.getPort host = b.getPort host := by
  have hpairs : ∀ j k, PairAt (a.insertAddr host) j → PairAt (a.insertAddr host) k → j = k := by
    rw [insertAddr_eq]
    exact fun j k => shorten_pairs a.groups
  refine ⟨⟨a.insertAddr host, rfl, hpairs, ?_, ?_⟩, fun b => insert_inj⟩
  · rintro ⟨l, r, hlr⟩
    refine not_three hpairs l.length ⟨r, ?_⟩
    rw [← hlr, List.append_assoc, List.drop_left]
  · rw [insertAddr_eq, expand_shorten (by simp [groups]) fun g => groups_lt]

example : (insert .little ⟨afInet6, 0x5000, 0,
    #v[0x20, 0x01, 0, 0, 0, 0, 0, 0, 0, 5, 0, 0, 0, 0, 0, 1], 0⟩) = "[2001::5:0:0:1]:80".toList := by decide +kernel

end Windgent.IPv6Address
