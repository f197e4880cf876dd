import Windgent.Http.RequestRoundTrip
import Mathlib.Data.FinEnum

namespace Windgent.Http

def httpStatusMap : List (Int × String) :=
  [(100, "Continue"), (101, "Switching Protocols"), (102, "Processing"),
    (200, "OK"), (201, "Created"), (202, "Accepted"), (203, "Non-Authoritative Information"), (204, "No Content"),
    (205, "Reset Content"), (206, "Partial Content"), (207, "Multi-Status"), (208, "Already Reported"),
    (226, "IM Used"),
    (300, "Multiple Choices"), (301, "Moved Permanently"), (302, "Found"), (303, "See Other"), (304, "Not Modified"),
    (305, "Use Proxy"), (307, "Temporary Redirect"), (308, "Permanent Redirect"),
    (400, "Bad Request"), (401, "Unauthorized"), (402, "Payment Required"), (403, "Forbidden"), (404, "Not Found"),
    (405, "Method Not Allowed"), (406, "Not Acceptable"), (407, "Proxy Authentication Required"),
    (408, "Request Timeout"), (409, "Conflict"), (410, "Gone"), (411, "Length Required"),
    (412, "Precondition Failed"), (413, "Payload Too Large"), (414, "URI Too Long"), (415, "Unsupported Media Type"),
    (416, "Range Not Satisfiable"), (417, "Expectation Failed"), (421, "Misdirected Request"),
    (422, "Unprocessable Entity"), (423, "Locked"), (424, "Failed Dependency"), (426, "Upgrade Required"),
    (428, "Precondition Required"), (429, "Too Many Requests"), (431, "Request Header Fields Too Large"),
    (451, "Unavailable For Legal Reasons"),
    (500, "Internal Server Error"), (501, "Not Implemented"), (502, "Bad Gateway"), (503, "Service Unavailable"),
    (504, "Gateway Timeout"), (505, "HTTP Version Not Supported"), (506, "Variant Also Negotiates"),
    (507, "Insufficient Storage"), (508, "Loop Detected"), (510, "Not Extended"),
    (511, "Network Authentication Required")]

def httpStatus2String (s : Int) : String :=
  ((httpStatusMap.find? fun x => x.1 = s).map Prod.snd).getD "<unknown"

def HttpResponse.connection (r : HttpResponse) : List UInt8 := bytes (if r.close then "close" else "keep-alive")

def HttpResponse.written (r : HttpResponse) : MapType :=
  r.headers.filter fun h => folded h.1 ≠ folded (bytes "connection")

def HttpResponse.dump (r : HttpResponse) : List UInt8 :=
  bytes "HTTP/" ++ decimal (r.version >>> 4).toNat ++ bytes "." ++ decimal (r.version &&& 0x0F).toNat ++ bytes " " ++
    decimal (r.status % 2 ^ 32).toNat ++ bytes " " ++
    (if r.reason = [] then bytes (httpStatus2String r.status) else r.reason) ++ bytes "\r\n" ++
    r.written.flatMap (fun h => h.1 ++ bytes ": " ++ h.2 ++ bytes "\r\n") ++
    (bytes "Connection: " ++ r.connection ++ bytes "\r\n") ++
    if r.body = [] then bytes "\r\n"
    else bytes "Content-Length: " ++ decimal r.body.length ++ bytes "\r\n\r\n" ++ r.body

namespace Framing

/-- The lines of a text in front of its first empty line, and what follows that line. -/
def splitHead (line : List UInt8) : List UInt8 → Option (List (List UInt8) × List UInt8)
  | 13 :: 10 :: rest =>
    if line = [] then some ([], rest) else (splitHead [] rest).map fun x => (line :: x.1, x.2)
  | b :: rest => splitHead (line ++ [b]) rest
  | [] => none

def fieldName (line : List UInt8) : List UInt8 := (line.takeWhile (· ≠ 58)).map tolower

def isBlank (b : UInt8) : Bool := b = 32 || b = 9

def fieldValue (line : List UInt8) : List UInt8 :=
  ((((line.dropWhile (· ≠ 58)).drop 1).dropWhile isBlank).reverse.dropWhile isBlank).reverse

def number (v : List UInt8) : Option Nat :=
  if v ≠ [] ∧ ∀ b ∈ v, 48 ≤ b ∧ b ≤ 57 then some (v.foldl (fun n b => 10 * n + (b.toNat - 48)) 0) else none

def named (name : String) (fields : List (List UInt8)) : List (List UInt8) :=
  fields.filter fun l => fieldName l = bytes name

/-- The length of the body according to the header lines. -/
def declared (fields : List (List UInt8)) : Option Nat :=
  match named "content-length" fields with
  | [] => some 0
  | l :: _ => number (fieldValue l)

/-- The text has one `Connection` line, that says whether to close, at most one
`Content-Length` line, and its head declares the length of the body that follows it. -/
def Framed (text body : List UInt8) (close : Bool) : Prop :=
  ∃ start fields, splitHead [] text = some (start :: fields, body) ∧
    (∃ c, named "connection" fields = [c] ∧ ((fieldValue c).map tolower = bytes "close" ↔ close = true)) ∧
    (named "content-length" fields).length ≤ 1 ∧ declared fields = some body.length

def headerLine (h : List UInt8 × List UInt8) : List UInt8 := h.1 ++ bytes ": " ++ h.2

def connectionLine (close : Bool) : List UInt8 :=
  bytes "Connection: " ++ bytes (if close then "close" else "keep-alive")

def lengthLines (body : List UInt8) : List (List UInt8) :=
  if body = [] then [] else [bytes "Content-Length: " ++ decimal body.length]

def message (lines : List (List UInt8)) (body : List UInt8) : List UInt8 :=
  lines.flatMap (· ++ [13, 10]) ++ [13, 10] ++ body

theorem splitHead_line {l : List UInt8} (hl : 13 ∉ l) (front rest : List UInt8) :
    splitHead front (l ++ 13 :: 10 :: rest) =
      if front ++ l = [] then some ([], rest) else (splitHead [] rest).map fun x => ((front ++ l) :: x.1, x.2) := by
  induction l generalizing front with
  | nil => simp [splitHead]
  | cons b l ih =>
    obtain ⟨hb, hl⟩ : ¬ 13 = b ∧ 13 ∉ l := by simpa using hl
    rw [List.cons_append, splitHead]
    · rw [ih hl]
      simp
    · intro rest' h
      exact absurd h.symm hb

theorem splitHead_message {lines : List (List UInt8)} (h : ∀ l ∈ lines, l ≠ [] ∧ 13 ∉ l) (body : List UInt8) :
    splitHead [] (message lines body) = some (lines, body) := by
  induction lines with
  | nil => simp [message, splitHead]
  | cons l lines ih =>
    obtain ⟨⟨hne, hl⟩, hlines⟩ := List.forall_mem_cons.mp h
    have htext : message (l :: lines) body = l ++ 13 :: 10 :: message lines body := by simp [message]
    rw [htext, splitHead_line hl, ih hlines, List.nil_append, if_neg hne]
    rfl

theorem fieldName_colon (k rest : List UInt8) : fieldName (k ++ 58 :: rest) = fieldName k := by
  induction k with
  | nil => rfl
  | cons b k ih =>
    unfold fieldName at *
    by_cases hb : b = 58
    · simp [hb]
    · simpa [hb] using ih

theorem fieldName_headerLine (h : List UInt8 × List UInt8) : fieldName (headerLine h) = fieldName h.1 := by
  rw [headerLine, show bytes ": " = [58, 32] from by decide, List.append_assoc]
  exact fieldName_colon _ _

/-- The user's headers leave the framing to the generated ones. -/
structure Clear (hs : MapType) (body : List UInt8) : Prop where
  connection : ∀ h ∈ hs, fieldName h.1 ≠ bytes "connection"
  length : body ≠ [] → ∀ h ∈ hs, fieldName h.1 ≠ bytes "content-length"
  zero : body = [] → (hs.filter fun h => fieldName h.1 = bytes "content-length").length ≤ 1 ∧
    ∀ h ∈ hs, fieldName h.1 = bytes "content-length" → number (fieldValue (headerLine h)) = some 0

def Printable (s : List UInt8) : Prop := 13 ∉ s ∧ 10 ∉ s

theorem named_append (name : String) (ls ls' : List (List UInt8)) :
    named name (ls ++ ls') = named name ls ++ named name ls' := List.filter_append ..

theorem named_headers (name : String) (hs : MapType) :
    named name (hs.map headerLine) = (hs.filter fun h => fieldName h.1 = bytes name).map headerLine := by
  rw [named, List.filter_map]
  congr 1
  refine List.filter_congr fun h _ => ?_
  simp only [Function.comp_apply, fieldName_headerLine]

theorem named_eq_nil (name : String) (hs : MapType) :
    named name (hs.map headerLine) = [] ↔ ∀ h ∈ hs, fieldName h.1 ≠ bytes name := by
  simp [named_headers, List.filter_eq_nil_iff]

theorem fieldName_length (v : List UInt8) : fieldName (bytes "Content-Length: " ++ v) = bytes "content-length" := by
  have h : bytes "Content-Length: " ++ v = bytes "Content-Length" ++ 58 :: 32 :: v := by
    simp [bytes]
  rw [h, fieldName_colon]
  decide

theorem named_length_lengthLines (body : List UInt8) :
    named "content-length" (lengthLines body) = lengthLines body := by
  unfold lengthLines
  split
  · rfl
  · simp [named, fieldName_length]

theorem named_connection_lengthLines (body : List UInt8) : named "connection" (lengthLines body) = [] := by
  unfold lengthLines
  split
  · rfl
  · simp [named, fieldName_length, show ¬ bytes "content-length" = bytes "connection" by decide]

theorem named_connectionLine (close : Bool) :
    named "connection" [connectionLine close] = [connectionLine close] ∧
      named "content-length" [connectionLine close] = [] := by
  cases close <;> decide

theorem fieldValue_connectionLine (close : Bool) :
    (fieldValue (connectionLine close)).map tolower = bytes "close" ↔ close = true := by
  cases close <;> decide

theorem decimal_range {n : Nat} {b : UInt8} (h : b ∈ decimal n) : 48 ≤ b ∧ b ≤ 57 := by
  simpa [Http11.digit, Http11.between] using Http11.decimal_digit h

theorem toUInt8_of_digit {n : Nat} {c : Char} (h : c ∈ Nat.toDigits 10 n) : c.toNat.toUInt8.toNat = c.toNat := by
  have hdigit := Nat.isDigit_of_mem_toDigits (by decide) le_rfl h
  simp only [Char.isDigit, Bool.and_eq_true, decide_eq_true_eq, UInt32.le_iff_toNat_le] at hdigit
  have hle : c.toNat ≤ 57 := hdigit.2
  exact Nat.mod_eq_of_lt (by omega)

theorem number_decimal (n : Nat) : number (decimal n) = some n := by
  rw [number, if_pos ⟨Http11.decimal_ne n, fun b hb => decimal_range hb⟩, decimal, List.foldl_map]
  have hfold : ∀ (l : List Char) (k : Nat), (∀ c ∈ l, c ∈ Nat.toDigits 10 n) →
      l.foldl (fun m c => 10 * m + (c.toNat.toUInt8.toNat - 48)) k = Nat.ofDigitChars 10 l k := by
    intro l
    induction l with
    | nil => exact fun k _ => rfl
    | cons c l ih =>
      intro k hl
      obtain ⟨hc, hl⟩ := List.forall_mem_cons.mp hl
      rw [List.foldl_cons, toUInt8_of_digit hc, ih _ hl, Nat.ofDigitChars_cons]
      rfl
  rw [hfold _ 0 fun c hc => hc, Nat.ofDigitChars_ten_toDigits]

theorem dropWhile_visible {v : List UInt8} (hv : ∀ b ∈ v, isBlank b = false) : v.dropWhile isBlank = v := by
  cases v with
  | nil => rfl
  | cons b v => exact List.dropWhile_cons_of_neg (by simp [hv b List.mem_cons_self])

theorem fieldValue_length {v : List UInt8} (hv : ∀ b ∈ v, isBlank b = false) :
    fieldValue (bytes "Content-Length: " ++ v) = v := by
  have hdrop : ((bytes "Content-Length: " ++ v).dropWhile (· ≠ 58)).drop 1 = 32 :: v := by
    simp [bytes]
  have hfront : (32 :: v).dropWhile isBlank = v :=
    (List.dropWhile_cons_of_pos rfl).trans (dropWhile_visible hv)
  have hback : v.reverse.dropWhile isBlank = v.reverse :=
    dropWhile_visible fun b hb => hv b (List.mem_reverse.mp hb)
  rw [fieldValue, hdrop, hfront, hback, List.reverse_reverse]

theorem decimal_visible {n : Nat} {b : UInt8} (h : b ∈ decimal n) : isBlank b = false := by
  obtain ⟨hle, -⟩ := decimal_range h
  rw [UInt8.le_iff_toNat_le] at hle
  have hne : b ≠ 32 ∧ b ≠ 9 := by
    constructor <;> rintro rfl <;> simp at hle
  simp [isBlank, hne]

/-- The lines about the length: the user's in front of the generated one. -/
theorem length_iff {fields : List (List UInt8)} {hs : MapType} {body : List UInt8}
    (h : named "content-length" fields = named "content-length" (hs.map headerLine) ++ lengthLines body) :
    ((named "content-length" fields).length ≤ 1 ∧ declared fields = some body.length) ↔
      (body ≠ [] → ∀ h ∈ hs, fieldName h.1 ≠ bytes "content-length") ∧
      (body = [] → (hs.filter fun h => fieldName h.1 = bytes "content-length").length ≤ 1 ∧
        ∀ h ∈ hs, fieldName h.1 = bytes "content-length" → number (fieldValue (headerLine h)) = some 0) := by
  rw [declared, h, ← named_eq_nil]
  by_cases hbody : body = []
  · subst hbody
    have hmem : ∀ x, x ∈ hs ∧ fieldName x.1 = bytes "content-length" ↔
        x ∈ hs.filter fun h => fieldName h.1 = bytes "content-length" := by simp
    simp only [named_headers, lengthLines, if_true, List.append_nil, List.length_map, List.length_nil, ne_eq,
      not_true, false_implies, true_and, forall_const]
    refine and_congr_right fun hone => ?_
    rw [forall_congr' fun x => and_imp.symm.trans (imp_congr_left (hmem x))]
    cases hf : hs.filter fun h => fieldName h.1 = bytes "content-length" with
    | nil => simp
    | cons x xs =>
      rw [hf] at hone
      obtain rfl : xs = [] := by simpa using hone
      simp
  · have hline : number (fieldValue (bytes "Content-Length: " ++ decimal body.length)) = some body.length := by
      rw [fieldValue_length fun b hb => decimal_visible hb, number_decimal]
    simp only [lengthLines, hbody, if_false, ne_eq, not_false_eq_true, forall_const, false_implies, and_true]
    refine ⟨fun h => ?_, fun h => ?_⟩
    · simpa using h.1
    · rw [h]
      exact ⟨le_rfl, hline⟩

theorem clear_iff {hs : MapType} {body : List UInt8} {close : Bool} {fields : List (List UInt8)}
    (hfields : fields = connectionLine close :: hs.map headerLine ++ lengthLines body ∨
      fields = hs.map headerLine ++ [connectionLine close] ++ lengthLines body) :
    ((∃ c, named "connection" fields = [c] ∧ ((fieldValue c).map tolower = bytes "close" ↔ close = true)) ∧
      (named "content-length" fields).length ≤ 1 ∧ declared fields = some body.length) ↔ Clear hs body := by
  obtain ⟨hconn, hlen⟩ := named_connectionLine close
  have hc : named "connection" fields = connectionLine close :: named "connection" (hs.map headerLine) ∨
      named "connection" fields = named "connection" (hs.map headerLine) ++ [connectionLine close] := by
    rcases hfields with rfl | rfl
    · left
      rw [named_append, named_connection_lengthLines, List.append_nil, ← List.singleton_append, named_append, hconn]
      rfl
    · right
      rw [named_append, named_connection_lengthLines, List.append_nil, named_append, hconn]
  have hl : named "content-length" fields = named "content-length" (hs.map headerLine) ++ lengthLines body := by
    rcases hfields with rfl | rfl
    · rw [named_append, named_length_lengthLines, ← List.singleton_append, named_append, hlen, List.nil_append]
    · rw [named_append, named_length_lengthLines, named_append, hlen, List.append_nil]
  have hone : (∃ c, named "connection" fields = [c] ∧ ((fieldValue c).map tolower = bytes "close" ↔ close = true)) ↔
      ∀ h ∈ hs, fieldName h.1 ≠ bytes "connection" := by
    rw [← named_eq_nil]
    refine ⟨fun ⟨c, h, _⟩ => ?_, fun h => ⟨connectionLine close, ?_, fieldValue_connectionLine close⟩⟩
    · have hlength := congrArg List.length h
      rcases hc with hc | hc <;> rw [hc] at hlength <;> simpa using hlength
    · rcases hc with hc | hc <;> simp [hc, h]
  rw [hone, length_iff hl]
  exact ⟨fun ⟨h1, h2, h3⟩ => ⟨h1, h2, h3⟩, fun h => ⟨h.connection, h.length, h.zero⟩⟩

theorem framed_message_iff {start : List UInt8} {fields : List (List UInt8)}
    (h : ∀ l ∈ start :: fields, l ≠ [] ∧ 13 ∉ l) (body : List UInt8) (close : Bool) :
    Framed (message (start :: fields) body) body close ↔
      (∃ c, named "connection" fields = [c] ∧ ((fieldValue c).map tolower = bytes "close" ↔ close = true)) ∧
      (named "content-length" fields).length ≤ 1 ∧ declared fields = some body.length := by
  unfold Framed
  rw [splitHead_message h]
  constructor
  · rintro ⟨start', fields', heq, hrest⟩
    obtain ⟨-, rfl⟩ := List.cons.inj (Prod.mk.inj (Option.some.inj heq)).1
    exact hrest
  · exact fun hrest => ⟨start, fields, rfl, hrest⟩

theorem headerLines_plain {hs : MapType} (h : ∀ x ∈ hs, Printable x.1 ∧ Printable x.2) :
    ∀ l ∈ hs.map headerLine, l ≠ [] ∧ 13 ∉ l := by
  intro l hl
  obtain ⟨x, hx, rfl⟩ := List.mem_map.mp hl
  refine ⟨by simp [headerLine, bytes], ?_⟩
  simp [headerLine, bytes, (h x hx).1.1, (h x hx).2.1]

theorem decimal_plain (n : Nat) : 13 ∉ decimal n := by
  intro h
  obtain ⟨hle, -⟩ := decimal_range h
  rw [UInt8.le_iff_toNat_le] at hle
  simp at hle

theorem lengthLines_plain (body : List UInt8) : ∀ l ∈ lengthLines body, l ≠ [] ∧ 13 ∉ l := by
  intro l hl
  unfold lengthLines at hl
  split at hl
  · simp at hl
  · obtain rfl := List.mem_singleton.mp hl
    exact ⟨by simp [bytes], by simp [bytes, decimal_plain]⟩

theorem connectionLine_plain (close : Bool) : connectionLine close ≠ [] ∧ 13 ∉ connectionLine close := by
  cases close <;> decide

theorem find_plain {α : Type} {table : List (α × String)} (htable : ∀ x ∈ table, 13 ∉ bytes x.2) (p : α × String → Bool)
    {default : String} (hdefault : 13 ∉ bytes default) :
    13 ∉ bytes (((table.find? p).map Prod.snd).getD default) := by
  cases hf : table.find? p with
  | none => exact hdefault
  | some x => exact htable x (List.mem_of_find?_eq_some hf)

theorem part_plain {lead : UInt8} (hlead : lead ≠ 13) {s : List UInt8} (h : 13 ∉ s) : 13 ∉ Http11.part lead s := by
  unfold Http11.part
  split
  · simp
  · simp [h, hlead.symm]

end Framing

open Framing

structure HttpRequest.Plain (r : HttpRequest) : Prop where
  path : Printable r.path
  query : Printable r.query
  fragment : Printable r.fragment
  headers : ∀ h ∈ r.headers, Printable h.1 ∧ Printable h.2

structure HttpResponse.Plain (r : HttpResponse) : Prop where
  reason : Printable r.reason
  headers : ∀ h ∈ r.headers, Printable h.1 ∧ Printable h.2

def HttpRequest.startLine (r : HttpRequest) : List UInt8 :=
  bytes (httpMethod2String r.method) ++ bytes " " ++ r.path ++ Http11.part 63 r.query ++ Http11.part 35 r.fragment ++
    bytes " HTTP/" ++ decimal (r.version >>> 4).toNat ++ bytes "." ++ decimal (r.version &&& 0x0F).toNat

def HttpResponse.startLine (r : HttpResponse) : List UInt8 :=
  bytes "HTTP/" ++ decimal (r.version >>> 4).toNat ++ bytes "." ++ decimal (r.version &&& 0x0F).toNat ++ bytes " " ++
    decimal (r.status % 2 ^ 32).toNat ++ bytes " " ++
    if r.reason = [] then bytes (httpStatus2String r.status) else r.reason

theorem flatMap_headers (hs : MapType) :
    hs.flatMap (fun h => h.1 ++ bytes ": " ++ h.2 ++ bytes "\r\n") = (hs.map headerLine).flatMap (· ++ [13, 10]) := by
  rw [List.flatMap_map]
  rfl

theorem tail_eq (body : List UInt8) :
    (if body = [] then bytes "\r\n" else bytes "Content-Length: " ++ decimal body.length ++ bytes "\r\n\r\n") ++ body =
      (lengthLines body).flatMap (· ++ [13, 10]) ++ [13, 10] ++ body := by
  unfold lengthLines
  split <;> simp [bytes]

theorem HttpRequest.dump_eq (r : HttpRequest) : r.dump =
    message (r.startLine :: (connectionLine r.close :: r.headers.map headerLine ++ lengthLines r.body)) r.body := by
  rw [HttpRequest.dump, HttpRequest.head, List.append_assoc, tail_eq, flatMap_headers]
  simp [message, HttpRequest.startLine, connectionLine, HttpRequest.connection, show bytes "\r\n" = [13, 10] by decide]

theorem HttpResponse.dump_eq (r : HttpResponse) : r.dump =
    message (r.startLine :: (r.written.map headerLine ++ [connectionLine r.close] ++ lengthLines r.body)) r.body := by
  have htail : (if r.body = [] then bytes "\r\n"
      else bytes "Content-Length: " ++ decimal r.body.length ++ bytes "\r\n\r\n" ++ r.body) =
      (lengthLines r.body).flatMap (· ++ [13, 10]) ++ [13, 10] ++ r.body := by
    rw [← tail_eq]
    split <;> simp [*]
  rw [HttpResponse.dump, htail, flatMap_headers]
  simp [message, HttpResponse.startLine, connectionLine, HttpResponse.connection,
    show bytes "\r\n" = [13, 10] by decide]

theorem HttpRequest.Plain.startLine {r : HttpRequest} (h : r.Plain) : r.startLine ≠ [] ∧ 13 ∉ r.startLine := by
  have hmethod : 13 ∉ bytes (httpMethod2String r.method) := find_plain (by decide) _ (by decide)
  refine ⟨by simp [HttpRequest.startLine, bytes], ?_⟩
  unfold HttpRequest.startLine
  simp only [List.mem_append, not_or]
  exact ⟨⟨⟨⟨⟨⟨⟨⟨hmethod, by decide⟩, h.path.1⟩, part_plain (by decide) h.query.1⟩, part_plain (by decide) h.fragment.1⟩,
    by decide⟩, decimal_plain _⟩, by decide⟩, decimal_plain _⟩

theorem HttpResponse.Plain.startLine {r : HttpResponse} (h : r.Plain) : r.startLine ≠ [] ∧ 13 ∉ r.startLine := by
  have hreason : 13 ∉ if r.reason = [] then bytes (httpStatus2String r.status) else r.reason := by
    split
    · exact find_plain (by decide +kernel) _ (by decide)
    · exact h.reason.1
  refine ⟨by simp [HttpResponse.startLine, bytes], ?_⟩
  unfold HttpResponse.startLine
  simp only [List.mem_append, not_or]
  exact ⟨⟨⟨⟨⟨⟨⟨by decide, decimal_plain _⟩, by decide⟩, decimal_plain _⟩, by decide⟩, decimal_plain _⟩, by decide⟩,
    hreason⟩

theorem HttpRequest.Plain.framed_iff {r : HttpRequest} (h : r.Plain) :
    Framed r.dump r.body r.close ↔ Clear r.headers r.body := by
  rw [r.dump_eq, framed_message_iff, clear_iff (.inl rfl)]
  intro l hl
  simp only [List.mem_cons, List.mem_append] at hl
  obtain hl | (hl | hl) | hl := hl
  · exact hl ▸ h.startLine
  · exact hl ▸ connectionLine_plain _
  · exact headerLines_plain h.headers l hl
  · exact lengthLines_plain _ l hl

theorem HttpResponse.Plain.framed_iff {r : HttpResponse} (h : r.Plain) :
    Framed r.dump r.body r.close ↔ Clear r.written r.body := by
  rw [r.dump_eq, framed_message_iff, clear_iff (.inr rfl)]
  intro l hl
  simp only [List.mem_cons, List.mem_append, List.not_mem_nil, or_false] at hl
  obtain hl | (hl | hl) | hl := hl
  · exact hl ▸ h.startLine
  · exact headerLines_plain (fun x hx => h.headers x (List.mem_of_mem_filter hx)) l hl
  · exact hl ▸ connectionLine_plain _
  · exact lengthLines_plain _ l hl

/-- What `dump` writes is framed exactly when the headers that it copies leave that to the
lines that it generates. -/
theorem dump_framed_iff {q : HttpRequest} {r : HttpResponse} (hq : q.Plain) (hr : r.Plain) :
    (Framed q.dump q.body q.close ↔ Clear q.headers q.body) ∧
      (Framed r.dump r.body r.close ↔ Clear r.written r.body) :=
  ⟨hq.framed_iff, hr.framed_iff⟩

def greeting : HttpResponse where
  body := bytes "hello"
  headers := setHeader (bytes "Connection") (bytes "keep-alive") (setHeader (bytes "Server") (bytes "windgent") [])

theorem greeting_plain : greeting.Plain := by
  refine ⟨⟨by decide, by decide⟩, ?_⟩
  unfold Printable
  decide

def question : HttpRequest where
  method := .post
  body := bytes "hello?"
  headers := setHeader (bytes "Host") (bytes "windgent") []

theorem question_plain : question.Plain := by
  refine ⟨⟨by decide, by decide⟩, ⟨by decide, by decide⟩, ⟨by decide, by decide⟩, ?_⟩
  unfold Printable
  decide

theorem greeting_framed :
    Framed question.dump question.body question.close ∧ Framed greeting.dump greeting.body greeting.close := by
  have hboth := dump_framed_iff question_plain greeting_plain
  have hquestion : Clear question.headers question.body :=
    ⟨by decide, fun _ => by decide, fun h => absurd h (by decide)⟩
  have hgreeting : Clear greeting.written greeting.body :=
    ⟨by decide, fun _ => by decide, fun h => absurd h (by decide)⟩
  exact ⟨hboth.1.mpr hquestion, hboth.2.mpr hgreeting⟩

/-- A request that was given a `Connection` header has two such lines. -/
theorem connection_twice :
    ∃ r : HttpRequest, r.Plain ∧ r.headers = setHeader (bytes "connection") (bytes "keep-alive") [] ∧
      ¬ Framed r.dump r.body r.close := by
  have hplain : HttpRequest.Plain { headers := setHeader (bytes "connection") (bytes "keep-alive") [] } := by
    refine ⟨⟨by decide, by decide⟩, ⟨by decide, by decide⟩, ⟨by decide, by decide⟩, ?_⟩
    unfold Printable
    decide
  refine ⟨_, hplain, rfl, fun h => ?_⟩
  have hclear := hplain.framed_iff.mp h
  exact hclear.connection (bytes "connection", bytes "keep-alive") (by decide) (by decide)

end Windgent.Http
