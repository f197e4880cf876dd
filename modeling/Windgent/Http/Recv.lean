import Windgent.Http.Parser
import Windgent.Http.Body

namespace Windgent.Http

open Scanner MachineInt

/-- What a call of `recvRequest` or `recvResponse` comes to: it waits for the peer, it has
closed the connection and returned `nullptr`, an assertion or a memory access has ended
the process, or it has returned a message. -/
inductive Outcome (α : Type) where
  | waiting | closed | crashed
  | done (a : α)
deriving DecidableEq

instance : Monad Outcome where
  pure := .done
  bind x f :=
    match x with
    | .waiting => .waiting
    | .closed => .closed
    | .crashed => .crashed
    | .done a => f a

abbrev Source := List (List UInt8)

def readPiece (n : Nat) : Source → Option (List UInt8 × Source)
  | [] => none
  | piece :: source =>
    some (piece.take n, if piece.length ≤ n then source else piece.drop n :: source)

/-- The buffer behind a read to `data + off`. -/
def overlay (data : List UInt8) (off : Nat) (piece : List UInt8) : List UInt8 :=
  data.take off ++ piece ++ data.drop (off + piece.length)

def memmove (data : List UInt8) (off n : Nat) : List UInt8 := (data.drop off).take n ++ data.drop n

section Loop

variable {σ A P L K S : Type} [DecidableEq P] [DecidableEq L] {op : A → Op P L K}

/-- The loop of `recvRequest` and `recvResponse` over the header block, with the bytes
that are left in the buffer; each iteration consumes a byte of the source. -/
def recvHeader (F : Frontend P L K S) (M : Machine σ A op) (bufferSize : Nat) :
    Nat → Parser σ P L S → List UInt8 → Nat → Source → Outcome (Parser σ P L S × List UInt8 × Nat × Source)
  | 0, _, _, _, _ => .waiting
  | fuel + 1, parser, data, lastSize, source =>
    match readPiece (bufferSize - lastSize) source with
    | none => .waiting
    | some (piece, source) =>
      if piece = [] then .closed
      else
        let data := overlay data lastSize piece
        let len := piece.length + lastSize
        match F.execute M parser data len with
        | none => .crashed
        | some (parser, nparse) =>
          let data := memmove data nparse (len - nparse)
          if F.hasError parser then .closed
          else if len - nparse = bufferSize then .closed
          else if isFinished M parser then .done (parser, data, len - nparse, source)
          else recvHeader F M bufferSize fuel parser data (len - nparse) source

end Loop

def readSizes : Nat → Source → List Int
  | _, [] => []
  | left, piece :: source =>
    if piece.length ≤ left then (piece.length : Int) :: readSizes (left - piece.length) source else [(left : Int)]

/-- The body phase of both functions for a message without chunks. -/
def recvRest (lexicalCast : List UInt8 → Option UInt64) (headers : MapType) (data : List UInt8) (source : Source) :
    Outcome (List UInt8) :=
  let length := contentLength lexicalCast headers
  match (recvBody length data source.flatten (readSizes (subU64 length data.length) source)).ret with
  | none => .waiting
  | some none => .closed
  | some (some body) => .done body

/-- `HttpSession::recvRequest`, with a buffer of uninitialised memory and a parser whose
`query_start` is not initialised either. -/
def recvRequest {σ : Type} (M : RequestMachine σ) (lexicalCast : List UInt8 → Option UInt64)
    (queryStart : Nat) (memory : List UInt8) (source : Source) : Outcome HttpRequest := do
  let parser := ⟨some M.start, ⟨fun r => if r = .queryStart then queryStart else 0, fun _ => 0⟩, {}⟩
  let (parser, data, lastSize, source) ←
    recvHeader requestFrontend M memory.length (source.flatten.length + 1) parser memory 0 source
  let body ← recvRest lexicalCast parser.state.data.headers (data.take lastSize) source
  return ({ parser.state.data with body := body }).init

section Response

variable {σ : Type} (M : ResponseMachine σ) (bufferSize : Nat)

def httpclientParserInit (s : ResponseState) : Parser σ ResponseMark FieldLen ResponseState :=
  ⟨some M.start, ⟨fun _ => 0, fun _ => 0⟩, { s with contentLen := -1, chunked := false, chunksDone := false }⟩

def fillLine (again : Bool) (data : List UInt8) (len : Nat) (source : Source) :
    Outcome (List UInt8 × Nat × Source) :=
  if again || len = 0 then
    match readPiece (bufferSize - len) source with
    | none => .waiting
    | some (piece, source) =>
      if piece = [] then .closed else .done (overlay data len piece, len + piece.length, source)
  else .done (data, len, source)

/-- The inner loop of `recvResponse`, which starts the parser afresh in every iteration. -/
def recvChunkLine :
    Nat → Bool → ResponseState → List UInt8 → Nat → Source → Outcome (ResponseState × List UInt8 × Nat × Source)
  | 0, _, _, _, _, _ => .waiting
  | fuel + 1, again, s, data, len, source => do
    let (data, len, source) ← fillLine bufferSize again data len source
    let data := data.set len 0
    match responseFrontend.execute M (httpclientParserInit M s) data len with
    | none => .crashed
    | some (parser, nparse) =>
      let data := memmove data nparse (len - nparse)
      if responseFrontend.hasError parser then .closed
      else if ((len - nparse : Nat) : Int) = toInt bufferSize then .closed
      else if isFinished M parser then .done (parser.state, data, len - nparse, source)
      else recvChunkLine fuel true parser.state data (len - nparse) source

/-- `while(left > 0)`: the rest of a chunk, read to the begin of the buffer. -/
def recvChunkData :
    Nat → Nat → List UInt8 → List UInt8 → Source → Outcome (List UInt8 × List UInt8 × Source)
  | _, 0, data, body, source => .done (data, body, source)
  | 0, _ + 1, _, _, _ => .waiting
  | fuel + 1, left + 1, data, body, source =>
    let ask := if ((left + 1 : Nat) : Int) > toInt bufferSize then toInt bufferSize else (left + 1 : Nat)
    match readPiece (toUInt64 ask) source with
    | none => .waiting
    | some (piece, source) =>
      if piece = [] then .closed
      else recvChunkData fuel (left + 1 - piece.length) (overlay data 0 piece) (body ++ piece) source

/-- The data of a chunk with the line end behind it. A negative length is passed to
`append` as a huge one, and `content_len + 2` is an `int`. -/
def recvChunk (contentLen : Int) (data : List UInt8) (len : Nat) (body : List UInt8) (source : Source) :
    Outcome (List UInt8 × Nat × List UInt8 × Source) :=
  if 2 ^ 31 ≤ contentLen + 2 then .crashed
  else if contentLen + 2 ≤ len then
    if contentLen < 0 then .crashed
    else
      let n := contentLen.toNat
      .done (memmove data (n + 2) (len - n - 2), len - n - 2, body ++ data.take n, source)
  else do
    let left := (contentLen - len + 2).toNat
    let (data, body, source) ← recvChunkData bufferSize left left data (body ++ data.take len) source
    if body.length < 2 then .crashed else .done (data, 0, body.take (body.length - 2), source)

def recvChunks : Nat → ResponseState → List UInt8 → Nat → List UInt8 → Source → Outcome (ResponseState × List UInt8)
  | 0, _, _, _, _, _ => .waiting
  | fuel + 1, s, data, len, body, source => do
    let (s, data, len, source) ←
      recvChunkLine M bufferSize (source.flatten.length + 2) false s data len source
    let (data, len, body, source) ← recvChunk bufferSize s.contentLen data len body source
    if s.chunksDone then .done (s, body) else recvChunks fuel s data len body source

end Response

def recvResponse {σ : Type} (M : ResponseMachine σ) (lexicalCast : List UInt8 → Option UInt64)
    (memory : List UInt8) (source : Source) : Outcome HttpResponse := do
  let (parser, data, lastSize, source) ←
    recvHeader responseFrontend M memory.length (source.flatten.length + 1) (httpclientParserInit M {})
      memory 0 source
  if parser.state.chunked then do
    let (s, body) ←
      recvChunks M memory.length (source.flatten.length + lastSize + 1) parser.state data lastSize [] source
    return { s.data with body := body }
  else do
    let body ← recvRest lexicalCast parser.state.data.headers (data.take lastSize) source
    return { parser.state.data with body := body }

end Windgent.Http
