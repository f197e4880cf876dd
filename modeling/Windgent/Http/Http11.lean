import Windgent.Ragel.Machine
import Windgent.Http.Parser

namespace Windgent.Http.Http11

open Ragel

/-- The expressions of `http11_parser.rl`. A definition that is referenced twice is
embedded twice. The parser's `uri_relaxed` decides over `more_delims`. -/
abbrev Rule := Exp RequestAction

def between (lo hi : UInt8) (c : UInt8) : Bool := lo ≤ c && c ≤ hi

def oneOf (s : String) (c : UInt8) : Bool := c ∈ bytes s

def upper : UInt8 → Bool := between 65 90
def digit : UInt8 → Bool := between 48 57
def alpha (c : UInt8) : Bool := upper c || between 97 122 c
def xdigit (c : UInt8) : Bool := digit c || between 65 70 c || between 97 102 c
def ascii (c : UInt8) : Bool := c ≤ 127
def space (c : UInt8) : Bool := c = 32 || between 9 13 c

def lit (s : String) : Rule := .text (bytes s)

def crlf : Rule := .alt (lit "\r\n") (lit "\n")

def moreDelims (relaxed : Bool) (c : UInt8) : Bool := relaxed && oneOf "\x7b\x7d^" c
def subDelims (relaxed : Bool) (c : UInt8) : Bool := oneOf "!$&'()*+,;=" c || moreDelims relaxed c
def unreserved (c : UInt8) : Bool := alpha c || digit c || oneOf "-._~" c

def pctEncoded : Rule := .seq (lit "%") (.seq (.chars xdigit) (.chars xdigit))

def plain (relaxed : Bool) (c : UInt8) : Bool :=
  !ascii c || unreserved c || subDelims relaxed c || oneOf ":@" c

section Uri

variable (relaxed : Bool)

def pchar : Rule := .alt (.chars (plain relaxed)) pctEncoded

def queryChar : Rule := .alt (pchar relaxed) (.chars (oneOf "/?"))

def fragment : Rule := .leaving .fragment (.entering .mark (.star (queryChar relaxed)))

def query : Rule := .leaving .queryString (.star (queryChar relaxed))

def segmentNzNc : Rule :=
  .plus (.alt (.chars fun c => unreserved c || subDelims relaxed c || c = 64) pctEncoded)

def segmentNz : Rule := .plus (pchar relaxed)

def segment : Rule := .star (pchar relaxed)

def segments : Rule := .star (.seq (lit "/") (segment relaxed))

def pathEmpty : Rule := .eps
def pathRootless : Rule := .seq (segmentNz relaxed) (segments relaxed)
def pathNoscheme : Rule := .seq (segmentNzNc relaxed) (segments relaxed)
def pathAbsolute : Rule := .seq (lit "/") (.opt (.seq (segmentNz relaxed) (segments relaxed)))
def pathAbempty : Rule := segments relaxed

def regName : Rule := .star (.alt (.chars fun c => unreserved c || subDelims relaxed c) pctEncoded)

/-- `("1"-"9")` is a difference and no range: the text `"1"` without the text `"9"`. -/
def decOctet : Rule :=
  .alt (.chars digit) (.alt (.seq (lit "1") (.chars digit))
    (.alt (.cat [lit "1", .chars digit, .chars digit])
      (.alt (.cat [lit "2", lit "0", .chars digit]) (.seq (lit "25") (lit "0")))))

def ipv4address : Rule := .cat [decOctet, lit ".", decOctet, lit ".", decOctet, lit ".", decOctet]

def h16 : Rule := .seq (.chars xdigit) (.upTo 3 (.chars xdigit))

def ls32 : Rule := .alt (.cat [h16, lit ":", h16]) ipv4address

def h16Colon : Rule := .seq h16 (lit ":")

/-- `( ( h16 ":" ){n,} h16 )?`. -/
def h16s (n : Nat) : Rule := .opt (.seq (.cat (List.replicate n h16Colon ++ [.star h16Colon])) h16)

/-- A number in front of a group is the byte with this code, not a repetition. -/
def counted (n : UInt8) : Rule := .seq (.byte n) h16Colon

def ipv6address : Rule :=
  .alt (.seq (counted 6) ls32) (.alt (.cat [lit "::", counted 5, ls32])
    (.alt (.cat [.opt h16, lit "::", counted 4, ls32]) (.alt (.cat [h16s 1, lit "::", counted 3, ls32])
      (.alt (.cat [h16s 2, lit "::", counted 2, ls32]) (.alt (.cat [h16s 3, lit "::", h16, lit ":", ls32])
        (.alt (.cat [h16s 4, lit "::", ls32]) (.alt (.cat [h16s 5, lit "::", h16])
          (.seq (h16s 6) (lit "::")))))))))

def ipvFuture : Rule :=
  .cat [lit "v", .plus (.chars xdigit), lit ".",
    .plus (.chars fun c => unreserved c || subDelims relaxed c || c = 58)]

def ipLiteral : Rule := .cat [lit "[", .alt ipv6address (ipvFuture relaxed), lit "]"]

def port : Rule := .star (.chars digit)

def host : Rule := .alt (ipLiteral relaxed) (.alt ipv4address (regName relaxed))

def userinfo : Rule :=
  .star (.alt (.chars fun c => unreserved c || subDelims relaxed c || c = 58) pctEncoded)

def authority : Rule :=
  .cat [.opt (.seq (userinfo relaxed) (lit "@")), host relaxed, .opt (.seq (lit ":") port)]

def scheme : Rule := .seq (.chars alpha) (.star (.chars fun c => alpha c || digit c || oneOf "+-." c))

def relativePart : Rule :=
  .alt (.cat [lit "//", authority relaxed, pathAbempty relaxed])
    (.alt (pathAbsolute relaxed) (.alt (pathNoscheme relaxed) pathEmpty))

def hierPart : Rule :=
  .alt (.cat [lit "//", authority relaxed, pathAbempty relaxed])
    (.alt (pathAbsolute relaxed) (.alt (pathRootless relaxed) pathEmpty))

/-- `( part %request_path ( "?" %start_query query )? ) >mark %request_uri ( "#" fragment )?`. -/
def reference (part : Rule) : Rule :=
  .seq (.leaving .requestUri (.entering .mark (.seq (.leaving .requestPath part)
      (.opt (.seq (.leaving .startQuery (lit "?")) (query relaxed))))))
    (.opt (.seq (lit "#") (fragment relaxed)))

def relativeRef : Rule := reference relaxed (relativePart relaxed)

def uri : Rule := .cat [scheme, lit ":", reference relaxed (hierPart relaxed)]

def uriReference : Rule := .alt (uri relaxed) (relativeRef relaxed)

end Uri

def methodChar (c : UInt8) : Bool := upper c || digit c

def method : Rule :=
  .leaving .requestMethod (.entering .mark (.seq (.chars methodChar) (.upTo 19 (.chars methodChar))))

def httpNumber : Rule := .seq (lit "1.") (.chars (oneOf "01"))

def httpVersion : Rule := .leaving .httpVersion (.entering .mark (.seq (lit "HTTP/") httpNumber))

def requestLine (relaxed : Bool) : Rule :=
  .cat [method, lit " ", uriReference relaxed, lit " ", httpVersion, crlf]

/-- `(0 - 31) | 127`: the byte 0 without the byte 31, and 127. -/
def httpCtl (c : UInt8) : Bool := c = 0 || c = 127

def httpSeparator : UInt8 → Bool := oneOf "()<>@,;:\\\"/[]?=\x7b\x7d \t"

def blank : UInt8 → Bool := oneOf " \t"

def lws : Rule := .seq (.opt crlf) (.plus (.chars blank))

def token (c : UInt8) : Bool := ascii c && !(httpCtl c || httpSeparator c)

def content : Rule := .alt (.chars fun c => !httpCtl c) lws

def fieldName : Rule := .leaving .writeField (.entering .startField (.plus (.chars token)))

def fieldValue : Rule := .leaving .writeValue (.entering .startValue (.star content))

def messageHeader : Rule := .entryGuarded 0 (.cat [fieldName, lit ":", .star lws, fieldValue]) crlf

def request (relaxed : Bool) : Rule := .seq (.seq (requestLine relaxed) (.star messageHeader)) crlf

def any : Rule := .chars fun _ => true

def socketJsonStart (relaxed : Bool) : Rule := .seq (lit "@") (relativePart relaxed)

def socketJsonData : Rule := .finishGuarded 1 (.cat [lit "\x7b", .star any, lit "\x7d"]) (.byte 0)

def socketXmlData : Rule :=
  .finishGuarded 2
    (.cat [.leaving .requestPath (.entering .mark
        (.seq (lit "<") (.plus (.chars fun c => alpha c || digit c || oneOf "-." c)))),
      .chars fun c => oneOf "/>" c || space c, .star any, lit ">"]) (.byte 0)

def socketJson (relaxed : Bool) : Rule :=
  .cat [.leaving .requestPath (.entering .mark (socketJsonStart relaxed)), lit " ",
    .finishing .json (.entering .mark socketJsonData)]

def socketXml : Rule := .finishing .xml socketXmlData

def socketRequest (relaxed : Bool) : Rule := .alt socketXml (socketJson relaxed)

/-- `main` without its `@done`. -/
def main (relaxed : Bool) : Rule := .alt (request relaxed) (socketRequest relaxed)

def httpParser (relaxed : Bool) : RequestMachine Config :=
  machine (main relaxed) .done rfl (by
    cases relaxed <;> decide)

end Windgent.Http.Http11
