import Windgent.Segments

namespace Windgent.ByteArray

open Segments

abbrev Node := List UInt8

def Node.size (n : Node) : Nat := n.length

/-- The `Node` list hangs off `m_root`; a node pointer is an index into it and
the null pointer is `none`. `allocs` counts the blocks allocated so far, so
that every new block can have its own indeterminate contents. -/
structure State where
  blocksize : Nat
  position : Nat
  capacity : Nat
  size : Nat
  nodes : List Node
  cur : Option Nat
  allocs : Nat
deriving DecidableEq

def newNode (fresh : Nat → Nat → UInt8) (k b : Nat) : Node := (List.range b).map (fresh k)

def new (fresh : Nat → Nat → UInt8) (block_size : Nat) : State :=
  ⟨block_size, 0, block_size, 0, [newNode fresh 0 block_size], some 0, 1⟩

def State.getReadSize (s : State) : Nat := s.size - s.position

def State.getCapacity (s : State) : Nat := s.capacity - s.position

def nodeAt (nodes : List Node) (k : Nat) : Option Nat := if k < nodes.length then some k else none

/-- `ceil(1.0 * size / m_blocksize)`, exact for sizes below 2^53. -/
def blockCount (size b : Nat) : Nat := (size + b - 1) / b

def addBlocks (fresh : Nat → Nat → UInt8) : Nat → State → State
  | 0, s => s
  | n + 1, s => addBlocks fresh n
      { s with
        nodes := s.nodes ++ [newNode fresh s.allocs s.blocksize]
        capacity := s.capacity + s.blocksize
        allocs := s.allocs + 1 }

def addCapacity (fresh : Nat → Nat → UInt8) (s : State) (size : Nat) : State :=
  if size = 0 then s
  else if size ≤ s.getCapacity then s
  else
    let last_cap := s.getCapacity
    let t := addBlocks fresh (blockCount (size - last_cap) s.blocksize) s
    if last_cap = 0 then { t with cur := nodeAt t.nodes s.nodes.length } else t

/-- The loop of `write` over the nodes from `m_cur` on: the rewritten nodes and
how far `m_cur` moved. It fails on a null node. -/
def writeLoop : List Node → Nat → List UInt8 → Option (List Node × Nat)
  | [], _, _ => none
  | node :: rest, npos, buf =>
      let ncap := node.size - npos
      if buf.length ≤ ncap then
        some (overwrite node npos buf :: rest, if node.size = npos + buf.length then 1 else 0)
      else
        (writeLoop rest 0 (buf.drop ncap)).map
          (fun p => (overwrite node npos (buf.take ncap) :: p.1, p.2 + 1))

def writeNodes (s : State) (buf : List UInt8) : Option State :=
  match s.cur with
  | none => none
  | some k =>
    (writeLoop (s.nodes.drop k) (s.position % s.blocksize) buf).map fun p =>
      { s with
        nodes := s.nodes.take k ++ p.1
        position := s.position + buf.length
        cur := nodeAt (s.nodes.take k ++ p.1) (k + p.2)
        size := max s.size (s.position + buf.length) }

def write (fresh : Nat → Nat → UInt8) (s : State) (buf : List UInt8) : Option State :=
  if buf.length = 0 then some s else writeNodes (addCapacity fresh s buf.length) buf

/-- The loop of `read` over the nodes from `m_cur` on: the bytes copied out and
how far `m_cur` moved. It fails on a null node. -/
def readLoop : List Node → Nat → Nat → Option (List UInt8 × Nat)
  | [], _, _ => none
  | node :: rest, npos, size =>
      let ncap := node.size - npos
      if size ≤ ncap then
        some (slice node npos size, if node.size = npos + size then 1 else 0)
      else
        (readLoop rest 0 (size - ncap)).map (fun p => (slice node npos ncap ++ p.1, p.2 + 1))

inductive Result where
  | done
  | bytes (data : List UInt8)
  | outOfRange
deriving DecidableEq

/-- `read(buf, size)`. The node behind `m_cur` is inspected before the loop, so
even a read of no bytes fails on a null pointer. -/
def read (s : State) (size : Nat) : Option (State × Result) :=
  if s.getReadSize < size then some (s, .outOfRange)
  else
    match s.cur with
    | none => none
    | some k =>
      if size = 0 then some (s, .bytes [])
      else
        (readLoop (s.nodes.drop k) (s.position % s.blocksize) size).map fun p =>
          ({ s with position := s.position + size, cur := nodeAt s.nodes (k + p.2) }, .bytes p.1)

/-- `read(buf, size, pos)`, which starts at `m_cur` whatever `pos` is. -/
def readAt (s : State) (size pos : Nat) : Option Result :=
  if s.getReadSize < size then some .outOfRange
  else
    match s.cur with
    | none => none
    | some k =>
      if size = 0 then some (.bytes [])
      else (readLoop (s.nodes.drop k) (pos % s.blocksize) size).map fun p => .bytes p.1

def clear (s : State) : State :=
  { s with
    position := 0
    size := 0
    capacity := s.blocksize
    nodes := s.nodes.take 1
    cur := some 0 }

/-- The search of `setPosition` for the node that holds `val`. -/
def seekLoop : List Node → Nat → Option Nat
  | [], _ => none
  | node :: rest, val =>
      if node.size < val then (seekLoop rest (val - node.size)).map (· + 1)
      else if val = node.size then some 1 else some 0

def setPosition (s : State) (val : Nat) : Option (State × Result) :=
  if s.capacity < val then some (s, .outOfRange)
  else
    (seekLoop s.nodes val).map fun k =>
      ({ s with position := val, size := max s.size val, cur := nodeAt s.nodes k }, .done)

def toString (s : State) : Option Result :=
  if s.getReadSize = 0 then some (.bytes []) else readAt s s.getReadSize s.position

inductive Op where
  | write (buf : List UInt8)
  | read (size : Nat)
  | setPosition (val : Nat)
  | addCapacity (size : Nat)
  | toString
  | clear
deriving DecidableEq

def step (fresh : Nat → Nat → UInt8) (s : State) : Op → Option (State × Result)
  | .write buf => (write fresh s buf).map (fun t => (t, .done))
  | .read size => read s size
  | .setPosition val => setPosition s val
  | .addCapacity size => some (addCapacity fresh s size, .done)
  | .toString => (toString s).map (fun r => (s, r))
  | .clear => some (clear s, .done)

def run (fresh : Nat → Nat → UInt8) : State → List Op → Option (State × List Result)
  | s, [] => some (s, [])
  | s, op :: ops => do
      let (t, r) ← step fresh s op
      let (u, rs) ← run fresh t ops
      some (u, r :: rs)

end Windgent.ByteArray
