import Windgent.ByteArray.Basic
import Windgent.Wire

namespace Windgent.ByteArray

open Wire

/-- The array with its `m_endian`, which only the typed operations look at. -/
structure Typed where
  array : State
  endian : Endian
deriving DecidableEq

structure Str where
  data : List UInt8
  size_lt : data.length < 2 ^ 64
deriving DecidableEq

def Str.size (str : Str) : Nat := str.data.length

def Str.resize (size : UInt64) : Str :=
  ⟨List.replicate size.toNat 0, by simpa using size.toNat_lt⟩

def Str.fill (str : Str) (d : List UInt8) : Str :=
  ⟨(d ++ str.data.drop d.length).take str.data.length,
    lt_of_le_of_lt (by simp) str.size_lt⟩

section Writers

variable (host : Endian) (fresh : Nat → Nat → UInt8)

def Typed.new (block_size : Nat) : Typed := ⟨ByteArray.new fresh block_size, .big⟩

def order (val : Bool) : Endian := if val then .little else .big

def Typed.setIsLittleEndian (s : Typed) (val : Bool) : Typed := { s with endian := order val }

def writeBytes (s : Typed) (buf : List UInt8) : Option Typed :=
  (write fresh s.array buf).map fun t => { s with array := t }

def writeObject (s : Typed) (n v : Nat) : Option Typed := writeBytes fresh s (store host n v)

def writeFixed (s : Typed) (n v : Nat) : Option Typed :=
  writeObject host fresh s n (if s.endian ≠ host then byteswap n v else v)

def writeFint8 (s : Typed) (value : Int8) : Option Typed :=
  writeObject host fresh s 1 value.toUInt8.toNat

def writeFuint8 (s : Typed) (value : UInt8) : Option Typed :=
  writeObject host fresh s 1 value.toNat

def writeFint16 (s : Typed) (value : Int16) : Option Typed :=
  writeFixed host fresh s 2 value.toUInt16.toNat

def writeFuint16 (s : Typed) (value : UInt16) : Option Typed :=
  writeFixed host fresh s 2 value.toNat

def writeFint32 (s : Typed) (value : Int32) : Option Typed :=
  writeFixed host fresh s 4 value.toUInt32.toNat

def writeFuint32 (s : Typed) (value : UInt32) : Option Typed :=
  writeFixed host fresh s 4 value.toNat

def writeFint64 (s : Typed) (value : Int64) : Option Typed :=
  writeFixed host fresh s 8 value.toUInt64.toNat

def writeFuint64 (s : Typed) (value : UInt64) : Option Typed :=
  writeFixed host fresh s 8 value.toNat

/-- A `float` is its bit pattern, as `memcpy` moves it. -/
def writeFloat (s : Typed) (v : UInt32) : Option Typed := writeFuint32 host fresh s v

def writeDouble (s : Typed) (v : UInt64) : Option Typed := writeFuint64 host fresh s v

/-- The zigzag code, all arithmetic wrapping at the width. -/
def encodeZigzag {w : Nat} (val : BitVec w) : BitVec w :=
  if val.slt 0 then (-val) * 2 - 1 else val * 2

def decodeZigzag {w : Nat} (val : BitVec w) : BitVec w := (val >>> 1) ^^^ (-(val &&& 1))

def encodeZigzag32 (val : Int32) : UInt32 := ⟨encodeZigzag val.toBitVec⟩

def encodeZigzag64 (val : Int64) : UInt64 := ⟨encodeZigzag val.toBitVec⟩

def decodeZigzag32 (val : UInt32) : Int32 := ⟨⟨decodeZigzag val.toBitVec⟩⟩

def decodeZigzag64 (val : UInt64) : Int64 := ⟨⟨decodeZigzag val.toBitVec⟩⟩

def writeUint32 (s : Typed) (value : UInt32) : Option Typed :=
  writeBytes fresh s (varint value.toNat)

def writeInt32 (s : Typed) (value : Int32) : Option Typed :=
  writeUint32 fresh s (encodeZigzag32 value)

def writeUint64 (s : Typed) (value : UInt64) : Option Typed :=
  writeBytes fresh s (varint value.toNat)

def writeInt64 (s : Typed) (value : Int64) : Option Typed :=
  writeUint64 fresh s (encodeZigzag64 value)

def writeStringF16 (s : Typed) (str : Str) : Option Typed :=
  (writeFuint16 host fresh s (UInt16.ofNat str.size)).bind (writeBytes fresh · str.data)

def writeStringF32 (s : Typed) (str : Str) : Option Typed :=
  (writeFuint32 host fresh s (UInt32.ofNat str.size)).bind (writeBytes fresh · str.data)

def writeStringF64 (s : Typed) (str : Str) : Option Typed :=
  (writeFuint64 host fresh s (UInt64.ofNat str.size)).bind (writeBytes fresh · str.data)

def writeStringVint (s : Typed) (str : Str) : Option Typed :=
  (writeUint64 fresh s (UInt64.ofNat str.size)).bind (writeBytes fresh · str.data)

end Writers

inductive Thrown where
  | outOfRange
deriving DecidableEq

/-- A reader returns or throws, in either case with the array it leaves; a null
node ends it with nothing. -/
abbrev Reader := ExceptT Thrown (StateT Typed Option)

section Readers

variable (host : Endian)

def readBytes (n : Nat) : Reader (List UInt8) :=
  ExceptT.mk fun s => (read s.array n).map fun p =>
    (match p.2 with
      | .bytes d => .ok d
      | _ => .error .outOfRange,
    { s with array := p.1 })

def readObject (n : Nat) : Reader Nat := do
  let bs ← readBytes n
  return load host bs

def readFixed (n : Nat) : Reader Nat := do
  let v ← readObject host n
  let s ← get
  return if s.endian = host then v else byteswap n v

def readFint8 : Reader Int8 := do
  let v ← readObject host 1
  return (UInt8.ofNat v).toInt8

def readFuint8 : Reader UInt8 := do
  let v ← readFint8 host
  return v.toUInt8

def readFint16 : Reader Int16 := do
  let v ← readFixed host 2
  return (UInt16.ofNat v).toInt16

def readFuint16 : Reader UInt16 := do
  let v ← readFixed host 2
  return UInt16.ofNat v

def readFint32 : Reader Int32 := do
  let v ← readFixed host 4
  return (UInt32.ofNat v).toInt32

def readFuint32 : Reader UInt32 := do
  let v ← readFixed host 4
  return UInt32.ofNat v

def readFint64 : Reader Int64 := do
  let v ← readFixed host 8
  return (UInt64.ofNat v).toInt64

def readFuint64 : Reader UInt64 := do
  let v ← readFixed host 8
  return UInt64.ofNat v

def readFloat : Reader UInt32 := readFuint32 host

def readDouble : Reader UInt64 := readFuint64 host

/-- The loop of `readUint32` and `readUint64`, at the width of the result. -/
def readVarintLoop (w i result : Nat) : Reader Nat :=
  if i < w then do
    let b ← readFuint8 host
    if b.toNat < 0x80 then return result ||| (b.toNat <<< i) % 2 ^ w
    else readVarintLoop w (i + 7) (result ||| ((b.toNat &&& 0x7F) <<< i) % 2 ^ w)
  else return result
termination_by w - i

def readUint32 : Reader UInt32 := do
  let v ← readVarintLoop host 32 0 0
  return UInt32.ofNat v

def readInt32 : Reader Int32 := do
  let v ← readUint32 host
  return decodeZigzag32 v

def readUint64 : Reader UInt64 := do
  let v ← readVarintLoop host 64 0 0
  return UInt64.ofNat v

def readInt64 : Reader Int64 := do
  let v ← readUint64 host
  return decodeZigzag64 v

def readString (size : UInt64) : Reader Str := do
  let d ← readBytes size.toNat
  return (Str.resize size).fill d

def readStringF16 : Reader Str := do
  let size ← readFuint16 host
  readString size.toUInt64

def readStringF32 : Reader Str := do
  let size ← readFuint32 host
  readString size.toUInt64

def readStringF64 : Reader Str := do
  let size ← readFuint64 host
  readString size

def readStringVint : Reader Str := do
  let size ← readUint64 host
  readString size

end Readers

inductive Kind where
  | fint8 | fuint8 | fint16 | fuint16 | fint32 | fuint32 | fint64 | fuint64
  | float | double
  | int32 | uint32 | int64 | uint64
  | stringF16 | stringF32 | stringF64 | stringVint
deriving DecidableEq

abbrev Kind.Val : Kind → Type
  | .fint8 => Int8
  | .fuint8 => UInt8
  | .fint16 => Int16
  | .fuint16 => UInt16
  | .fint32 => Int32
  | .fuint32 => UInt32
  | .fint64 => Int64
  | .fuint64 => UInt64
  | .float => UInt32
  | .double => UInt64
  | .int32 => Int32
  | .uint32 => UInt32
  | .int64 => Int64
  | .uint64 => UInt64
  | .stringF16 | .stringF32 | .stringF64 | .stringVint => Str

def writeVal (host : Endian) (fresh : Nat → Nat → UInt8) (s : Typed) :
    (k : Kind) → k.Val → Option Typed
  | .fint8, v => writeFint8 host fresh s v
  | .fuint8, v => writeFuint8 host fresh s v
  | .fint16, v => writeFint16 host fresh s v
  | .fuint16, v => writeFuint16 host fresh s v
  | .fint32, v => writeFint32 host fresh s v
  | .fuint32, v => writeFuint32 host fresh s v
  | .fint64, v => writeFint64 host fresh s v
  | .fuint64, v => writeFuint64 host fresh s v
  | .float, v => writeFloat host fresh s v
  | .double, v => writeDouble host fresh s v
  | .int32, v => writeInt32 fresh s v
  | .uint32, v => writeUint32 fresh s v
  | .int64, v => writeInt64 fresh s v
  | .uint64, v => writeUint64 fresh s v
  | .stringF16, v => writeStringF16 host fresh s v
  | .stringF32, v => writeStringF32 host fresh s v
  | .stringF64, v => writeStringF64 host fresh s v
  | .stringVint, v => writeStringVint fresh s v

def readVal (host : Endian) : (k : Kind) → Reader k.Val
  | .fint8 => readFint8 host
  | .fuint8 => readFuint8 host
  | .fint16 => readFint16 host
  | .fuint16 => readFuint16 host
  | .fint32 => readFint32 host
  | .fuint32 => readFuint32 host
  | .fint64 => readFint64 host
  | .fuint64 => readFuint64 host
  | .float => readFloat host
  | .double => readDouble host
  | .int32 => readInt32 host
  | .uint32 => readUint32 host
  | .int64 => readInt64 host
  | .uint64 => readUint64 host
  | .stringF16 => readStringF16 host
  | .stringF32 => readStringF32 host
  | .stringF64 => readStringF64 host
  | .stringVint => readStringVint host

inductive Call (α : Type) where
  | setIsLittleEndian (val : Bool)
  | item (a : α)

abbrev Item := (k : Kind) × k.Val

def writeCalls (host : Endian) (fresh : Nat → Nat → UInt8) : Typed → List (Call Item) → Option Typed
  | s, [] => some s
  | s, .setIsLittleEndian val :: cs => writeCalls host fresh (s.setIsLittleEndian val) cs
  | s, .item i :: cs => (writeVal host fresh s i.1 i.2).bind fun t => writeCalls host fresh t cs

def readCalls (host : Endian) : List (Call Kind) → Reader (List Item)
  | [] => return []
  | .setIsLittleEndian val :: cs => do
      modify (·.setIsLittleEndian val)
      readCalls host cs
  | .item k :: cs => do
      let v ← readVal host k
      let vs ← readCalls host cs
      return ⟨k, v⟩ :: vs

end Windgent.ByteArray
