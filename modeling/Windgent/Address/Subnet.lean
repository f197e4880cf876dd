import Windgent.Address.Basic

namespace Windgent

open Wire MachineInt

/-- The first `p` bits, from the most significant one on. -/
def prefixMask (w p : Nat) : BitVec w := ~~~(BitVec.allOnes w >>> p)

theorem getMsbD_prefixMask {w p k : Nat} (hk : k < w) : (prefixMask w p).getMsbD k = decide (k < p) := by
  rw [prefixMask, BitVec.getMsbD_not, BitVec.getMsbD_ushiftRight, BitVec.getMsbD_allOnes]
  by_cases h : k < p <;> simp [hk, h]
  omega

/-- `CreateMask<T>` for a `T` of `w` bits; absent when the shift count reaches the width of
an `int`, or the difference leaves its range. -/
def createMask (w bits : Nat) : Option (BitVec w) :=
  let count := subU64 w bits
  if count < 32 ∧ IsInt (toInt (2 ^ count) - 1) then some (BitVec.ofInt w (toInt (2 ^ count) - 1)) else none

theorem createMask_four {p : Nat} (hp : p ≤ 32) :
    createMask 32 p = if 2 ≤ p then some (~~~prefixMask 32 p) else none := by
  have hall : ∀ p < 33, createMask 32 p = if 2 ≤ p then some (~~~prefixMask 32 p) else none := by decide +kernel
  exact hall p (by omega)

theorem createMask_one {p : Nat} (hp : p < 8) : createMask 8 p = some (~~~prefixMask 8 p) := by
  have hall : ∀ p < 8, createMask 8 p = some (~~~prefixMask 8 p) := by decide +kernel
  exact hall p hp

namespace IPv4Address

variable (host : Endian)

/-- Absent when the behaviour is not defined; the null pointer for longer prefixes. -/
def broadcastaAddress (a : IPv4Address) (prefix_len : Nat) : Option (Option IPv4Address) :=
  if prefix_len > 32 then some none
  else (createMask 32 prefix_len).map fun m => some { a with sAddr := a.sAddr ||| byteswapOnLittleEndian host m }

def networkAddress (a : IPv4Address) (prefix_len : Nat) : Option (Option IPv4Address) :=
  if prefix_len > 32 then some none
  else (createMask 32 prefix_len).map fun m => some { a with sAddr := a.sAddr &&& byteswapOnLittleEndian host m }

def subNetMask (prefix_len : Nat) : Option IPv4Address :=
  (createMask 32 prefix_len).map fun m =>
    ⟨afInet, 0, ~~~byteswapOnLittleEndian host m, Vector.replicate 8 0⟩

def ip (a : IPv4Address) : BitVec 32 := byteswapOnLittleEndian host a.sAddr

structure Subnet (a : IPv4Address) (p : Nat) (m n b : IPv4Address) : Prop where
  mask : m.ip host = prefixMask 32 p
  network : n.ip host = a.ip host &&& prefixMask 32 p
  broadcast : b.ip host = a.ip host ||| ~~~prefixMask 32 p
  between : n.ip host ≤ a.ip host ∧ a.ip host ≤ b.ip host
  common : n.networkAddress host p = b.networkAddress host p
  twice : n.networkAddress host p = some (some n)
  kept : n.sinPort = a.sinPort ∧ n.sinFamily = a.sinFamily ∧ b.sinPort = a.sinPort ∧ b.sinFamily = a.sinFamily

def Subnets (a : IPv4Address) (p : Nat) : Prop :=
  ∃ m n b, subNetMask host p = some m ∧ a.networkAddress host p = some (some n) ∧
    a.broadcastaAddress host p = some (some b) ∧ Subnet host a p m n b

variable {host} {a : IPv4Address} {p : Nat}

theorem ip_or (m : BitVec 32) :
    ip host { a with sAddr := a.sAddr ||| byteswapOnLittleEndian host m } = a.ip host ||| m := by
  simp only [ip, byteswapOnLittleEndian_or host (w := 32) rfl, byteswapOnLittleEndian_twice host (w := 32) rfl]

theorem ip_and (m : BitVec 32) :
    ip host { a with sAddr := a.sAddr &&& byteswapOnLittleEndian host m } = a.ip host &&& m := by
  simp only [ip, byteswapOnLittleEndian_and host (w := 32) rfl, byteswapOnLittleEndian_twice host (w := 32) rfl]

theorem sAddr_eq (a : IPv4Address) : a.sAddr = byteswapOnLittleEndian host (a.ip host) :=
  (byteswapOnLittleEndian_twice host rfl a.sAddr).symm

theorem subNetMask_eq (hp : p ≤ 32) : subNetMask host p =
    if 2 ≤ p then some ⟨afInet, 0, byteswapOnLittleEndian host (prefixMask 32 p), Vector.replicate 8 0⟩ else none := by
  rw [subNetMask, createMask_four hp]
  split
  · rw [Option.map_some, byteswapOnLittleEndian_not host rfl, BitVec.not_not]
  · rfl

theorem broadcastaAddress_eq (hp : p ≤ 32) : a.broadcastaAddress host p =
    if 2 ≤ p then some (some { a with sAddr := a.sAddr ||| byteswapOnLittleEndian host (~~~prefixMask 32 p) })
    else none := by
  rw [broadcastaAddress, if_neg (by omega), createMask_four hp]
  split <;> rfl

/-- The complement of the mask is missing: the host part is left, not the network part. -/
theorem networkAddress_eq (hp : p ≤ 32) : a.networkAddress host p =
    if 2 ≤ p then some (some { a with sAddr := a.sAddr &&& byteswapOnLittleEndian host (~~~prefixMask 32 p) })
    else none := by
  rw [networkAddress, if_neg (by omega), createMask_four hp]
  split <;> rfl

theorem and_not_eq_and_iff {w : Nat} (x m : BitVec w) : x &&& ~~~m = x &&& m ↔ x = 0 := by
  refine ⟨fun h => BitVec.eq_of_getLsbD_eq fun k hk => ?_, fun h => by simp [h]⟩
  have hbit := congrArg (fun y => y.getLsbD k) h
  simp only [BitVec.getLsbD_and, BitVec.getLsbD_not, hk, decide_true, Bool.true_and] at hbit
  cases hx : x.getLsbD k
  · simp
  · cases hm : m.getLsbD k <;> simp [hx, hm] at hbit

theorem prefixMask_eq_allOnes_iff {w : Nat} (hp : p ≤ w) : ~~~prefixMask w p = 0 ↔ p = w := by
  constructor
  · intro h
    by_contra hne
    have hbit := getMsbD_prefixMask (w := w) (p := p) (k := p) (by omega)
    rw [← BitVec.not_not (b := prefixMask w p), h] at hbit
    simp at hbit
    omega
  · rintro rfl
    rw [prefixMask, BitVec.not_not]
    exact BitVec.eq_of_getLsbD_eq fun k hk => by simp

theorem mask_iff (hp : p ≤ 32) : (∃ m, subNetMask host p = some m ∧ m.ip host = prefixMask 32 p) ↔ 2 ≤ p := by
  rw [subNetMask_eq hp]
  split
  · rename_i h
    exact ⟨fun _ => h, fun _ => ⟨_, rfl, byteswapOnLittleEndian_twice host rfl (prefixMask 32 p)⟩⟩
  · rename_i h
    simp [h]

theorem broadcast_iff (hp : p ≤ 32) : (∃ b, a.broadcastaAddress host p = some (some b) ∧
    b.ip host = a.ip host ||| ~~~prefixMask 32 p) ↔ 2 ≤ p := by
  rw [broadcastaAddress_eq hp]
  split
  · rename_i h
    exact ⟨fun _ => h, fun _ => ⟨_, rfl, ip_or _⟩⟩
  · rename_i h
    simp [h]

theorem network_iff (hp : p ≤ 32) : (∃ n, a.networkAddress host p = some (some n) ∧
    n.ip host = a.ip host &&& prefixMask 32 p) ↔ 2 ≤ p ∧ a.ip host = 0 := by
  rw [networkAddress_eq hp]
  split
  · rename_i h
    constructor
    · rintro ⟨n, hn, hip⟩
      obtain rfl := Option.some.inj (Option.some.inj hn)
      rw [ip_and] at hip
      exact ⟨h, (and_not_eq_and_iff _ _).mp hip⟩
    · rintro ⟨-, h0⟩
      exact ⟨_, rfl, by rw [ip_and, h0]; simp⟩
  · rename_i h
    simp [h]

/-- The three methods agree on the subnet only for the address 0.0.0.0 with the prefix 32. -/
theorem subnets_iff (host : Endian) (a : IPv4Address) (hp : p ≤ 32) :
    (a.Subnets host p ↔ a.ip host = 0 ∧ p = 32) ∧
      ((∃ m, subNetMask host p = some m ∧ m.ip host = prefixMask 32 p) ↔ 2 ≤ p) ∧
      ((∃ b, a.broadcastaAddress host p = some (some b) ∧ b.ip host = a.ip host ||| ~~~prefixMask 32 p) ↔ 2 ≤ p) ∧
      ((∃ n, a.networkAddress host p = some (some n) ∧ n.ip host = a.ip host &&& prefixMask 32 p) ↔
        2 ≤ p ∧ a.ip host = 0) := by
  refine ⟨⟨?_, ?_⟩, mask_iff hp, broadcast_iff hp, network_iff hp⟩
  · rintro ⟨m, n, b, -, hn, hb, h⟩
    obtain ⟨h2, h0⟩ := (network_iff hp).mp ⟨n, hn, h.network⟩
    refine ⟨h0, (prefixMask_eq_allOnes_iff hp).mp ?_⟩
    have hcommon := h.common
    rw [networkAddress_eq hp, networkAddress_eq hp, if_pos h2, if_pos h2, Option.some.injEq, Option.some.injEq]
      at hcommon
    have hip := congrArg (ip host) hcommon
    rw [ip_and, ip_and, h.network, h.broadcast, h0] at hip
    simpa using hip.symm
  · rintro ⟨h0, rfl⟩
    have hmask : ~~~prefixMask 32 32 = 0 := (prefixMask_eq_allOnes_iff le_rfl).mpr rfl
    have hzero : byteswapOnLittleEndian host (0 : BitVec 32) = 0 := by cases host <;> rfl
    have haddr : a.sAddr = 0 := by
      have hs : a.sAddr = byteswapOnLittleEndian host (a.ip host) := sAddr_eq a
      rw [hs, h0, hzero]
    have hand : a.sAddr &&& 0 = a.sAddr := by simp [haddr]
    have hor : a.sAddr ||| 0 = a.sAddr := by simp
    have hn : a.networkAddress host 32 = some (some a) := by
      rw [networkAddress_eq le_rfl, if_pos (by decide), hmask, hzero, hand]
    have hb : a.broadcastaAddress host 32 = some (some a) := by
      rw [broadcastaAddress_eq le_rfl, if_pos (by decide), hmask, hzero, hor]
    obtain ⟨m, hm, hmask'⟩ : ∃ m, subNetMask host 32 = some m ∧ m.ip host = prefixMask 32 32 :=
      (mask_iff le_rfl).mpr (by decide)
    exact ⟨m, a, a, hm, hn, hb, hmask', by simp [h0], by simp [h0, hmask],
      ⟨BitVec.le_refl _, BitVec.le_refl _⟩, rfl, hn, rfl, rfl, rfl, rfl⟩

theorem subnets_of_any : (⟨afInet, 0, 0, Vector.replicate 8 0⟩ : IPv4Address).Subnets .little 32 :=
  (subnets_iff .little ⟨afInet, 0, 0, Vector.replicate 8 0⟩ (p := 32) (by decide)).1.mpr ⟨by decide, rfl⟩

/-- 192.168.1.1 with the prefix 24: the network is 0.0.0.1. -/
theorem network_of_host : let a : IPv4Address := ⟨afInet, 0, 0x0101A8C0, Vector.replicate 8 0⟩
    (a.networkAddress .little 24).map (Option.map (ip .little)) = some (some 1) ∧ ¬a.Subnets .little 24 := by
  refine ⟨by decide, ?_⟩
  rintro ⟨m, n, b, -, hn, -, h⟩
  have h0 := (network_iff (by decide)).mp ⟨n, hn, h.network⟩
  exact absurd h0.2 (by decide)

end IPv4Address

namespace IPv6Address

/-- The loop from index `i` on. -/
def fill (s : Vector UInt8 16) (i : Nat) (v : UInt8) : Vector UInt8 16 :=
  if h : i < 16 then fill (s.set i v) (i + 1) v else s
termination_by 16 - i

/-- One byte is changed and it and the bytes after it are overwritten; absent when the index is
out of range. -/
def overwrite (s : Vector UInt8 16) (prefix_len : Nat) (f : UInt8 → UInt8 → UInt8) (v : UInt8) :
    Option (Vector UInt8 16) :=
  let i := prefix_len / 8
  if h : i < 16 then
    (createMask 8 (prefix_len % 8)).map fun m => fill (s.set i (f s[i] (UInt8.ofBitVec m))) i v
  else none

def broadcastaAddress (a : IPv6Address) (prefix_len : Nat) : Option IPv6Address :=
  (overwrite a.s6Addr prefix_len (fun b m => b ||| m) 0xff).map fun s => { a with s6Addr := s }

def networkAddress (a : IPv6Address) (prefix_len : Nat) : Option IPv6Address :=
  (overwrite a.s6Addr prefix_len (fun b m => b &&& m) 0x00).map fun s => { a with s6Addr := s }

def subNetMask (prefix_len : Nat) : Option IPv6Address :=
  (overwrite (Vector.replicate 16 0) prefix_len (fun _ m => ~~~m) 0xff).map fun s => ⟨afInet6, 0, 0, s, 0⟩

def ip (a : IPv6Address) : BitVec 128 := BitVec.ofNat 128 (load .big a.s6Addr.toList)

variable {a : IPv6Address} {p : Nat}

theorem getMsbD_ip {k : Nat} (hk : k < 128) :
    a.ip.getMsbD k = a.s6Addr[k / 8].toBitVec.getMsbD (k % 8) := by
  have hlen : 15 - k / 8 < a.s6Addr.toList.reverse.length := by
    rw [List.length_reverse, Vector.length_toList]
    omega
  have hbit := testBit_value a.s6Addr.toList.reverse hlen (j := 7 - k % 8) (by omega)
  have hpos : 128 - 1 - k = 8 * (15 - k / 8) + (7 - k % 8) := by omega
  have hbyte : a.s6Addr.toList.reverse[15 - k / 8] = a.s6Addr[k / 8] := by
    rw [List.getElem_reverse, Vector.getElem_toList]
    congr 1
    rw [Vector.length_toList]
    omega
  rw [BitVec.getMsbD, decide_eq_true hk, Bool.true_and, ip, BitVec.getLsbD_ofNat, load, hpos, hbit, hbyte,
    decide_eq_true (by omega), BitVec.getMsbD, decide_eq_true (Nat.mod_lt _ (by decide))]
  rfl

theorem getElem_fill (s : Vector UInt8 16) (i : Nat) (v : UInt8) {j : Nat} (hj : j < 16) :
    (fill s i v)[j] = if i ≤ j then v else s[j] := by
  fun_induction fill s i v with
  | case1 s i h ih =>
    rw [ih, Vector.getElem_set]
    split
    · rw [if_pos (by omega)]
    · split
      · rw [if_pos (by omega)]
      · rw [if_neg (by omega)]
  | case2 s i h => rw [if_neg (by omega)]

/-- The change to the byte is lost, since the loop overwrites it as well. -/
theorem overwrite_eq (s : Vector UInt8 16) (p : Nat) (f : UInt8 → UInt8 → UInt8) (v : UInt8) :
    overwrite s p f v = if p < 128 then some (fill s (p / 8) v) else none := by
  have hi : p / 8 < 16 ↔ p < 128 := by omega
  simp only [overwrite, createMask_one (Nat.mod_lt p (by decide : 0 < 8)), Option.map_some, hi]
  split
  · rename_i h
    refine congrArg some (Vector.ext fun j hj => ?_)
    rw [getElem_fill, getElem_fill, Vector.getElem_set]
    split <;> try split
    all_goals first | rfl | omega
  · rfl

theorem fill_twice (s : Vector UInt8 16) (i : Nat) (v : UInt8) : fill (fill s i v) i v = fill s i v := by
  refine Vector.ext fun j hj => ?_
  simp only [getElem_fill]
  split <;> rfl

theorem getMsbD_ip_fill (s : Vector UInt8 16) (i : Nat) (v : UInt8) {k : Nat} (hk : k < 128) :
    (ip { a with s6Addr := fill s i v }).getMsbD k =
      if i ≤ k / 8 then v.toBitVec.getMsbD (k % 8) else (ip { a with s6Addr := s }).getMsbD k := by
  rw [getMsbD_ip hk, getMsbD_ip hk, getElem_fill]
  split <;> rfl

theorem eq_iff_getMsbD {w : Nat} (x y : BitVec w) : x = y ↔ ∀ k < w, x.getMsbD k = y.getMsbD k :=
  ⟨fun h _ _ => h ▸ rfl, fun h => BitVec.eq_of_getMsbD_eq h⟩

structure Subnet (a : IPv6Address) (p : Nat) (m n b : IPv6Address) : Prop where
  mask : subNetMask p = some m ∧ m.ip = prefixMask 128 p
  network : a.networkAddress p = some n ∧ n.ip = a.ip &&& prefixMask 128 p
  broadcast : a.broadcastaAddress p = some b ∧ b.ip = a.ip ||| ~~~prefixMask 128 p
  networkTwice : n.networkAddress p = some n
  broadcastTwice : b.broadcastaAddress p = some b

theorem networkAddress_eq : a.networkAddress p =
    if p < 128 then some { a with s6Addr := fill a.s6Addr (p / 8) 0x00 } else none := by
  rw [networkAddress, overwrite_eq]
  split <;> rfl

theorem broadcastaAddress_eq : a.broadcastaAddress p =
    if p < 128 then some { a with s6Addr := fill a.s6Addr (p / 8) 0xff } else none := by
  rw [broadcastaAddress, overwrite_eq]
  split <;> rfl

theorem subNetMask_eq : subNetMask p =
    if p < 128 then some ⟨afInet6, 0, 0, fill (Vector.replicate 16 0) (p / 8) 0xff, 0⟩ else none := by
  rw [subNetMask, overwrite_eq]
  split <;> rfl

theorem network_iff : (∃ n, a.networkAddress p = some n ∧ n.ip = a.ip &&& prefixMask 128 p) ↔
    p < 128 ∧ ∀ k, 8 * (p / 8) ≤ k → k < p → a.ip.getMsbD k = false := by
  rw [networkAddress_eq]
  split
  · rename_i hp
    simp only [Option.some.injEq, exists_eq_left', hp, true_and, eq_iff_getMsbD]
    constructor
    · intro h k hk hkp
      have hbit := h k (by omega)
      rw [getMsbD_ip_fill _ _ _ (by omega), if_pos (by omega), BitVec.getMsbD_and, getMsbD_prefixMask (by omega),
        decide_eq_true hkp, Bool.and_true] at hbit
      exact hbit.symm.trans BitVec.getMsbD_zero
    · intro h k hk
      rw [getMsbD_ip_fill _ _ _ hk, BitVec.getMsbD_and, getMsbD_prefixMask hk]
      split
      · rename_i hle
        by_cases hkp : k < p
        · rw [h k (by omega) hkp]
          exact BitVec.getMsbD_zero
        · rw [decide_eq_false hkp, Bool.and_false]
          exact BitVec.getMsbD_zero
      · rw [decide_eq_true (by omega), Bool.and_true]
  · rename_i hp
    simp [hp]

theorem getMsbD_full {j : Nat} (hj : j < 8) : (0xff : UInt8).toBitVec.getMsbD j = true := by
  have hall : ∀ j < 8, (0xff : UInt8).toBitVec.getMsbD j = true := by decide
  exact hall j hj

theorem broadcast_iff : (∃ b, a.broadcastaAddress p = some b ∧ b.ip = a.ip ||| ~~~prefixMask 128 p) ↔
    p < 128 ∧ ∀ k, 8 * (p / 8) ≤ k → k < p → a.ip.getMsbD k = true := by
  rw [broadcastaAddress_eq]
  split
  · rename_i hp
    simp only [Option.some.injEq, exists_eq_left', hp, true_and, eq_iff_getMsbD]
    constructor
    · intro h k hk hkp
      have hbit := h k (by omega)
      rw [getMsbD_ip_fill _ _ _ (by omega), if_pos (by omega), BitVec.getMsbD_or, BitVec.getMsbD_not,
        getMsbD_prefixMask (by omega), decide_eq_true hkp, getMsbD_full (Nat.mod_lt _ (by decide))] at hbit
      simpa using hbit.symm
    · intro h k hk
      rw [getMsbD_ip_fill _ _ _ hk, BitVec.getMsbD_or, BitVec.getMsbD_not, getMsbD_prefixMask hk, decide_eq_true hk]
      split
      · rename_i hle
        rw [getMsbD_full (Nat.mod_lt _ (by decide))]
        by_cases hkp : k < p
        · rw [h k (by omega) hkp, Bool.true_or]
        · rw [decide_eq_false hkp, Bool.not_false, Bool.true_and, Bool.or_true]
      · rw [decide_eq_true (show k < p by omega), Bool.not_true, Bool.and_false, Bool.or_false]
  · rename_i hp
    simp [hp]

/-- The last byte is set, for every prefix. -/
theorem mask_never : ¬∃ m, subNetMask p = some m ∧ m.ip = prefixMask 128 p := by
  rw [subNetMask_eq]
  split
  · rename_i hp
    rintro ⟨m, hm, hip⟩
    obtain rfl := Option.some.inj hm
    have hbit := congrArg (fun x => x.getMsbD 127) hip
    simp only [getMsbD_ip (a := ⟨afInet6, 0, 0, fill (Vector.replicate 16 0) (p / 8) 0xff, 0⟩) (k := 127) (by decide),
      getElem_fill, getMsbD_prefixMask (w := 128) (p := p) (k := 127) (by decide)] at hbit
    rw [if_pos (by omega), getMsbD_full (by decide)] at hbit
    exact absurd (of_decide_eq_true hbit.symm) (by omega)
  · simp

theorem networkAddress_twice {n : IPv6Address} (h : a.networkAddress p = some n) : n.networkAddress p = some n := by
  rw [networkAddress_eq] at h ⊢
  split at h
  · rename_i hp
    obtain rfl := Option.some.inj h
    rw [if_pos hp, fill_twice]
  · cases h

theorem broadcastaAddress_twice {b : IPv6Address} (h : a.broadcastaAddress p = some b) :
    b.broadcastaAddress p = some b := by
  rw [broadcastaAddress_eq] at h ⊢
  split at h
  · rename_i hp
    obtain rfl := Option.some.inj h
    rw [if_pos hp, fill_twice]
  · cases h

/-- What each method keeps of the subnet; the mask of no prefix is right. -/
theorem never_subnet (a : IPv6Address) (p : Nat) :
    (¬∃ m n b, Subnet a p m n b) ∧ (¬∃ m, subNetMask p = some m ∧ m.ip = prefixMask 128 p) ∧
      ((∃ n, a.networkAddress p = some n ∧ n.ip = a.ip &&& prefixMask 128 p) ↔
        p < 128 ∧ ∀ k, 8 * (p / 8) ≤ k → k < p → a.ip.getMsbD k = false) ∧
      ((∃ b, a.broadcastaAddress p = some b ∧ b.ip = a.ip ||| ~~~prefixMask 128 p) ↔
        p < 128 ∧ ∀ k, 8 * (p / 8) ≤ k → k < p → a.ip.getMsbD k = true) ∧
      ((subNetMask p).isSome ↔ p < 128) ∧ ((a.networkAddress p).isSome ↔ p < 128) ∧
      ((a.broadcastaAddress p).isSome ↔ p < 128) ∧
      (∀ n, a.networkAddress p = some n → n.networkAddress p = some n) ∧
      ∀ b, a.broadcastaAddress p = some b → b.broadcastaAddress p = some b := by
  refine ⟨?_, mask_never, network_iff, broadcast_iff, ?_, ?_, ?_, fun n => networkAddress_twice,
    fun b => broadcastaAddress_twice⟩
  · rintro ⟨m, n, b, h⟩
    exact mask_never ⟨m, h.mask⟩
  · rw [subNetMask_eq]
    split <;> simp [*]
  · rw [networkAddress_eq]
    split <;> simp [*]
  · rw [broadcastaAddress_eq]
    split <;> simp [*]

/-- The mask of the prefix 64 is the complement of the mask, and that of the prefix 128 is out of range. -/
theorem mask_of_64 : (subNetMask 64).map ip = some (~~~prefixMask 128 64) ∧ subNetMask 128 = none ∧
    ¬∃ m n b, Subnet ⟨afInet6, 0, 0, Vector.replicate 16 0, 0⟩ 64 m n b := by
  refine ⟨by decide +kernel, by decide, ?_⟩
  rintro ⟨m, n, b, h⟩
  exact mask_never ⟨m, h.mask⟩

end IPv6Address

end Windgent
