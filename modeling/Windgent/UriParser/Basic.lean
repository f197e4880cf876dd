import Windgent.Http.Http11
import Windgent.Ragel.Exec

namespace Windgent.UriParser

open Ragel
open Http (bytes atoi)
open Http.Http11 (between oneOf alpha digit xdigit ascii)

section Grammar

variable {A : Type}

def lit (s : String) : Exp A := .text (bytes s)

def times (n : Nat) (e : Exp A) : Exp A := .cat (List.replicate n e)

def subDelims : UInt8 → Bool := oneOf "!$&'()*+,;="
def unreserved (c : UInt8) : Bool := alpha c || digit c || oneOf "-._~" c

def pctEncoded : Exp A := .cat [lit "%", .chars xdigit, .chars xdigit]

def userinfo : Exp A := .star (.alt (.chars fun c => unreserved c || subDelims c || oneOf ":" c) pctEncoded)

/-- The number in `2 [0-4] digit` is the byte with this code. -/
def decOctet : Exp A :=
  .alt (.chars digit) (.alt (.cat [.chars (between 49 57), .chars digit])
    (.alt (.cat [lit "1", times 2 (.chars digit)])
      (.alt (.cat [.byte 2, .chars (between 48 52), .chars digit]) (.cat [lit "25", .chars (between 48 53)]))))

def ipv4address : Exp A := .cat [decOctet, lit ".", decOctet, lit ".", decOctet, lit ".", decOctet]

def h16 : Exp A := .seq (.chars xdigit) (.upTo 3 (.chars xdigit))

def ls32 : Exp A := .alt (.cat [h16, lit ":", h16]) ipv4address

def h16Colon : Exp A := .cat [h16, lit ":"]

def h16s (n : Nat) : Exp A := .opt (.seq (times n h16Colon) h16)

def ipv6address : Exp A :=
  .alt (.cat [times 6 h16Colon, ls32]) (.alt (.cat [lit "::", times 5 h16Colon, ls32])
    (.alt (.cat [.opt h16, lit "::", times 4 h16Colon, ls32])
      (.alt (.cat [h16s 1, lit "::", times 3 h16Colon, ls32])
        (.alt (.cat [h16s 2, lit "::", times 2 h16Colon, ls32])
          (.alt (.cat [h16s 3, lit "::", times 1 h16Colon, ls32]) (.alt (.cat [h16s 4, lit "::", ls32])
            (.alt (.cat [h16s 5, lit "::", h16]) (.cat [h16s 6, lit "::"]))))))))

def ipvFuture : Exp A :=
  .cat [lit "v", .plus (.chars xdigit), lit ".",
    .plus (.chars fun c => unreserved c || subDelims c || oneOf ":" c)]

def ipLiteral : Exp A := .cat [lit "[", .alt ipv6address ipvFuture, lit "]"]

def regName : Exp A := .star (.alt (.chars fun c => unreserved c || subDelims c) pctEncoded)

def host : Exp A := .alt ipLiteral (.alt ipv4address regName)

def port : Exp A := .star (.chars digit)

def plain (c : UInt8) : Bool := !ascii c || unreserved c || subDelims c || oneOf ":@" c

def pchar : Exp A := .alt (.chars plain) pctEncoded

def segment : Exp A := .star pchar

def segmentNz : Exp A := .plus pchar

/-- `pchar - ":"` takes the text `":"` away. -/
def segmentNzNc : Exp A := .plus (.alt (.chars fun c => plain c && c ≠ 58) pctEncoded)

def segments : Exp A := .star (.cat [lit "/", segment])

def pathAbempty : Exp A := .cat [.opt (.cat [lit "/", segment]), segments]

def pathAbsolute : Exp A := .cat [lit "/", .opt (.cat [segmentNz, segments])]

def pathNoscheme : Exp A := .cat [segmentNzNc, segments]

def pathRootless : Exp A := .cat [segmentNz, segments]

def pathEmpty : Exp A := .eps

def schemeText : Exp A := .cat [.chars alpha, .star (.chars fun c => alpha c || digit c || oneOf "+-." c)]

def queryText : Exp A := .star (.alt pchar (.chars (oneOf "/?")))

end Grammar

inductive Action where
  | marku | markh
  | saveScheme | saveUserinfo | saveHost | savePort | savePath | saveQuery | saveFragment
deriving DecidableEq

/-- A rule of `uri.rl` with embedded actions. A definition that is referenced twice is
embedded twice. -/
abbrev Rule := Exp Action

def scheme : Rule := .leaving .saveScheme (.entering .marku schemeText)

def authority : Rule :=
  .entering .markh (.cat [.opt (.cat [.leaving .saveUserinfo userinfo, lit "@"]),
    .leaving .saveHost (.entering .markh host),
    .opt (.cat [lit ":", .leaving .savePort (.entering .markh port)])])

def query : Rule := .leaving .saveQuery (.entering .marku queryText)

def fragment : Rule := .leaving .saveFragment (.entering .marku queryText)

def hierPart : Rule :=
  .alt (.alt (.alt (.cat [lit "//", authority, .leaving .savePath (.entering .markh pathAbempty)])
    pathAbsolute) pathRootless) pathEmpty

def relativePart : Rule :=
  .alt (.alt (.alt (.cat [lit "//", authority, pathAbempty]) pathAbsolute) pathNoscheme) pathEmpty

def relativeRef : Rule :=
  .cat [relativePart, .opt (.cat [lit "?", query]), .opt (.cat [lit "#", fragment])]

def uri : Rule :=
  .cat [scheme, lit ":", hierPart, .opt (.cat [lit "?", query]), .opt (.cat [lit "#", fragment])]

def uriReference : Rule := .alt uri relativeRef

structure Uri where
  scheme : List UInt8
  userinfo : List UInt8
  host : List UInt8
  path : List UInt8
  query : List UInt8
  fragment : List UInt8
  port : Int
deriving DecidableEq

def Uri.empty : Uri := ⟨[], [], [], [], [], [], 0⟩

structure Vars where
  uri : Uri
  mark : Option Nat
deriving DecidableEq

/-- `std::string(mark, fpc - mark)`, which throws on a null mark. -/
def string (s : List UInt8) (mark : Option Nat) (p : Nat) : Option (List UInt8) :=
  mark.map fun m => (s.drop m).take (p - m)

/-- `uri->set(std::string(mark, fpc - mark)); mark = NULL`. -/
def save (set : Uri → List UInt8 → Uri) (s : List UInt8) (p : Nat) (v : Vars) : Option Vars :=
  (string s v.mark p).map fun x => ⟨set v.uri x, none⟩

/-- The actions at `p` in the text `s`; `none` where one reads from a null pointer. -/
def act (s : List UInt8) : Action → Nat → Vars → Option Vars
  | .marku, p, v | .markh, p, v => some { v with mark := some p }
  | .saveScheme, p, v => save (fun u x => { u with scheme := x }) s p v
  | .saveUserinfo, p, v =>
    if v.mark.isSome then save (fun u x => { u with userinfo := x }) s p v else some v
  | .saveHost, p, v =>
    if v.mark.isSome then (string s v.mark p).map fun x => { v with uri := { v.uri with host := x } } else some v
  | .savePort, p, v =>
    if v.mark = some p then some { v with mark := none }
    else v.mark.map fun m => ⟨{ v.uri with port := atoi ((s ++ [0]).drop m) }, none⟩
  | .savePath, p, v => save (fun u x => { u with path := x }) s p v
  | .saveQuery, p, v => save (fun u x => { u with query := x }) s p v
  | .saveFragment, p, v => save (fun u x => { u with fragment := x }) s p v

/-- `Uri::Create`: `none` where an exception leaves it, `some none` for `nullptr`. -/
def create (s : List UInt8) : Option (Option Uri) :=
  (exec uriReference.table (act s) [uriReference.stamp 0] 0 s ⟨.empty, none⟩).map fun r =>
    if r.1.any isFinal then some r.2.uri else none

namespace Uri

def getPath (u : Uri) : List UInt8 := if u.path = [] then bytes "/" else u.path

def getPort (u : Uri) : Int :=
  if u.port ≠ 0 then u.port
  else if u.scheme = bytes "http" then 80
  else if u.scheme = bytes "https" then 443
  else u.port

end Uri

end Windgent.UriParser
