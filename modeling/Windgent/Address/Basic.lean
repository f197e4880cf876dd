import Windgent.Wire
import Windgent.MachineInt

namespace Windgent

open Wire MachineInt

def afInet : BitVec 16 := 2

def afInet6 : BitVec 16 := 10

structure IPv4Address where
  sinFamily : BitVec 16
  sinPort : BitVec 16
  sAddr : BitVec 32
  sinZero : Vector UInt8 8
deriving DecidableEq

structure IPv6Address where
  sin6Family : BitVec 16
  sin6Port : BitVec 16
  sin6Flowinfo : BitVec 32
  s6Addr : Vector UInt8 16
  sin6ScopeId : BitVec 32
deriving DecidableEq

/-- `m_addr` and `m_len`, which `setAddrLen` sets to any value: the memory from `m_addr`
on, as far as `m_len` needs it. -/
structure UnixAddress where
  memory : List UInt8
  len : Nat
  readable : len ≤ memory.length
deriving DecidableEq

structure UnknownAddress where
  saFamily : BitVec 16
  saData : Vector UInt8 14
deriving DecidableEq

inductive Address where
  | ipv4 (addr : IPv4Address)
  | ipv6 (addr : IPv6Address)
  | unix (addr : UnixAddress)
  | unknown (addr : UnknownAddress)
deriving DecidableEq

variable (host : Endian)

/-- `byteswapOnLittleEndian` for a `T` of `w` bits. -/
def byteswapOnLittleEndian {w : Nat} (t : BitVec w) : BitVec w :=
  match host with
  | .little => BitVec.ofNat w (byteswap (w / 8) t.toNat)
  | .big => t

def IPv6Address.getPort (a : IPv6Address) : BitVec 16 := byteswapOnLittleEndian host a.sin6Port

section Bitwise

variable {w : Nat}

def swapped (w k : Nat) : Nat :=
  match host with
  | .little => 8 * (w / 8 - 1 - k / 8) + k % 8
  | .big => k

theorem swapped_lt (hw : 8 * (w / 8) = w) {k : Nat} (hk : k < w) : swapped host w k < w := by
  cases host <;> simp only [swapped] <;> omega

theorem getLsbD_byteswapOnLittleEndian (hw : 8 * (w / 8) = w) {k : Nat} (t : BitVec w) (hk : k < w) :
    (byteswapOnLittleEndian host t).getLsbD k = t.getLsbD (swapped host w k) := by
  cases host with
  | little =>
    rw [byteswapOnLittleEndian, BitVec.getLsbD_ofNat, decide_eq_true hk, Bool.true_and,
      testBit_byteswap _ (hw.symm ▸ hk)]
    rfl
  | big => rfl

theorem byteswapOnLittleEndian_and (hw : 8 * (w / 8) = w) (t u : BitVec w) :
    byteswapOnLittleEndian host (t &&& u) = byteswapOnLittleEndian host t &&& byteswapOnLittleEndian host u := by
  refine BitVec.eq_of_getLsbD_eq fun k hk => ?_
  simp only [BitVec.getLsbD_and, getLsbD_byteswapOnLittleEndian host hw _ hk]

theorem byteswapOnLittleEndian_or (hw : 8 * (w / 8) = w) (t u : BitVec w) :
    byteswapOnLittleEndian host (t ||| u) = byteswapOnLittleEndian host t ||| byteswapOnLittleEndian host u := by
  refine BitVec.eq_of_getLsbD_eq fun k hk => ?_
  simp only [BitVec.getLsbD_or, getLsbD_byteswapOnLittleEndian host hw _ hk]

theorem byteswapOnLittleEndian_not (hw : 8 * (w / 8) = w) (t : BitVec w) :
    byteswapOnLittleEndian host (~~~t) = ~~~byteswapOnLittleEndian host t := by
  refine BitVec.eq_of_getLsbD_eq fun k hk => ?_
  simp only [BitVec.getLsbD_not, getLsbD_byteswapOnLittleEndian host hw _ hk, hk, swapped_lt host hw hk]

theorem byteswapOnLittleEndian_twice (hw : 8 * (w / 8) = w) (t : BitVec w) :
    byteswapOnLittleEndian host (byteswapOnLittleEndian host t) = t := by
  refine BitVec.eq_of_getLsbD_eq fun k hk => ?_
  rw [getLsbD_byteswapOnLittleEndian host hw _ hk,
    getLsbD_byteswapOnLittleEndian host hw _ (swapped_lt host hw hk)]
  congr 1
  cases host with
  | little =>
    simp only [swapped]
    omega
  | big => rfl

end Bitwise

end Windgent
