import Windgent.MachineInt

namespace Windgent.Http

open MachineInt

def bytes (s : String) : List UInt8 := s.toList.map fun c => c.toNat.toUInt8

/-- `strncmp(s, t, n) == 0` for a literal `s`; the end of a list is the end of a string. -/
def strncmp : List UInt8 → List UInt8 → Nat → Bool
  | [], t, n => n = 0 || t.headD 0 = 0
  | a :: s, t, n => n = 0 || (t.headD 0 = a && strncmp s t.tail (n - 1))

def isspace (b : UInt8) : Bool := b = 32 || (9 ≤ b && b ≤ 13)

def tolower (b : UInt8) : UInt8 := if 65 ≤ b && b ≤ 90 then b + 32 else b

def digit (b : UInt8) : Nat :=
  if 48 ≤ b && b ≤ 57 then b.toNat - 48
  else if 97 ≤ tolower b && tolower b ≤ 122 then (tolower b).toNat - 87
  else 36

def isDigit (base : Nat) (b : UInt8) : Bool := digit b < base

/-- The `0x` that `strtol` accepts in front of a hexadecimal number. -/
def skipHex (base : Nat) : List UInt8 → List UInt8
  | 48 :: x :: s => if base = 16 && tolower x = 120 then s else 48 :: x :: s
  | s => s

def natural (base : Nat) (s : List UInt8) : Nat :=
  ((skipHex base s).takeWhile (isDigit base)).foldl (fun n b => n * base + digit b) 0

/-- `strtol(s, NULL, base)` on a 64-bit `long`. -/
def strtol (base : Nat) (s : List UInt8) : Int :=
  match s.dropWhile isspace with
  | 45 :: t => max (-2 ^ 63) (-(natural base t : Int))
  | 43 :: t => min (2 ^ 63 - 1) (natural base t)
  | t => min (2 ^ 63 - 1) (natural base t)

def truncate (v : Int) : Int := Int.bmod v (2 ^ 32)

def atoi (s : List UInt8) : Int := truncate (strtol 10 s)

/-- `std::string(at, length)`; a length behind the readable memory is not a string. -/
def string (at_ : List UInt8) (length : Nat) : Option (List UInt8) :=
  if length ≤ at_.length then some (at_.take length) else none

inductive HttpMethod where
  | delete | get | head | post | put | connect | options | trace
  | copy | lock | mkcol | move | propfind | proppatch | search | unlock | bind | rebind | unbind | acl
  | report | mkactivity | checkout | merge
  | msearch | notify | subscribe | unsubscribe
  | patch | purge | mkcalendar | link | unlink | source
  | invalidMethod
deriving DecidableEq

def httpMethodMap : List (HttpMethod × String) :=
  [(.delete, "DELETE"), (.get, "GET"), (.head, "HEAD"), (.post, "POST"), (.put, "PUT"),
    (.connect, "CONNECT"), (.options, "OPTIONS"), (.trace, "TRACE"),
    (.copy, "COPY"), (.lock, "LOCK"), (.mkcol, "MKCOL"), (.move, "MOVE"), (.propfind, "PROPFIND"),
    (.proppatch, "PROPPATCH"), (.search, "SEARCH"), (.unlock, "UNLOCK"), (.bind, "BIND"),
    (.rebind, "REBIND"), (.unbind, "UNBIND"), (.acl, "ACL"),
    (.report, "REPORT"), (.mkactivity, "MKACTIVITY"), (.checkout, "CHECKOUT"), (.merge, "MERGE"),
    (.msearch, "M-SEARCH"), (.notify, "NOTIFY"), (.subscribe, "SUBSCRIBE"), (.unsubscribe, "UNSUBSCRIBE"),
    (.patch, "PATCH"), (.purge, "PURGE"), (.mkcalendar, "MKCALENDAR"), (.link, "LINK"),
    (.unlink, "UNLINK"), (.source, "SOURCE")]

def chars2HttpMethod (m : List UInt8) : HttpMethod :=
  ((httpMethodMap.find? fun x => strncmp (bytes x.2) m (bytes x.2).length).map Prod.fst).getD .invalidMethod

abbrev MapType := List (List UInt8 × List UInt8)

/-- What `strcasecmp` compares of a string. -/
def folded (s : List UInt8) : List UInt8 := (s.takeWhile (· ≠ 0)).map tolower

def caseInsensitiveLess (lhs rhs : List UInt8) : Bool := folded lhs < folded rhs

/-- `m_headers[key] = val`, on the entries in the order of the map. -/
def setHeader (key val : List UInt8) : MapType → MapType
  | [] => [(key, val)]
  | (k, v) :: hs =>
    if caseInsensitiveLess key k then (key, val) :: (k, v) :: hs
    else if caseInsensitiveLess k key then (k, v) :: setHeader key val hs
    else (k, val) :: hs

def getHeader (key : List UInt8) (hs : MapType) : Option (List UInt8) :=
  (hs.find? fun x => !caseInsensitiveLess key x.1 && !caseInsensitiveLess x.1 key).map Prod.snd

/-- `getHeaderAs<uint64_t>("content-length", 0)`, with the conversion of a string to a
number as a parameter. -/
def contentLength (lexicalCast : List UInt8 → Option UInt64) (hs : MapType) : Nat :=
  ((getHeader (bytes "content-length") hs).bind lexicalCast).elim 0 UInt64.toNat

structure HttpRequest where
  method : HttpMethod := .get
  version : UInt8 := 0x11
  close : Bool := true
  path : List UInt8 := bytes "/"
  query : List UInt8 := []
  fragment : List UInt8 := []
  body : List UInt8 := []
  headers : MapType := []
deriving DecidableEq

def HttpRequest.init (r : HttpRequest) : HttpRequest :=
  let conn := (getHeader (bytes "connection") r.headers).getD []
  if conn = [] then r else { r with close := !(folded conn = folded (bytes "keep-alive")) }

structure HttpResponse where
  status : Int := 200
  version : UInt8 := 0x11
  close : Bool := true
  reason : List UInt8 := []
  body : List UInt8 := []
  headers : MapType := []
deriving DecidableEq

section Prefixes

variable {t u : List UInt8} {k : Nat}

theorem head_tail_congr (h : t.take (k + 1) = u.take (k + 1)) :
    t.headD 0 = u.headD 0 ∧ t.tail.take k = u.tail.take k := by
  cases t with
  | nil =>
    cases u with
    | nil => exact ⟨rfl, rfl⟩
    | cons y u => simp at h
  | cons x t =>
    cases u with
    | nil => simp at h
    | cons y u => simpa using h

/-- A bounded comparison looks at no more than the bound. -/
theorem strncmp_bounded (s : List UInt8) {t u : List UInt8} {n : Nat} (h : t.take n = u.take n) :
    strncmp s t n = strncmp s u n := by
  induction s generalizing t u n with
  | nil =>
    cases n with
    | zero => rfl
    | succ n => rw [strncmp, strncmp, (head_tail_congr h).1]
  | cons a s ih =>
    cases n with
    | zero => rfl
    | succ n =>
      obtain ⟨hhead, htail⟩ := head_tail_congr h
      rw [strncmp, strncmp, hhead, Nat.add_sub_cancel, ih htail]

/-- A comparison ends at a byte that the literal does not have. -/
theorem strncmp_delimited (s : List UInt8) {t u : List UInt8} {k : Nat} (h : t.take (k + 1) = u.take (k + 1))
    {c : UInt8} (hc : t[k]? = some c) (hs : c ∉ s) (n : Nat) : strncmp s t n = strncmp s u n := by
  induction s generalizing t u k n with
  | nil => rw [strncmp, strncmp, (head_tail_congr h).1]
  | cons a s ih =>
    obtain ⟨hhead, htail⟩ := head_tail_congr h
    cases t with
    | nil => simp at hc
    | cons x t =>
      cases k with
      | zero =>
        obtain rfl : x = c := by simpa using hc
        have hxa : x ≠ a := fun hx => hs (hx ▸ List.mem_cons_self ..)
        rw [strncmp, strncmp, ← hhead]
        simp [hxa]
      | succ k =>
        have hrest := ih htail (by simpa using hc) (fun hm => hs (List.mem_cons_of_mem _ hm)) (n - 1)
        rw [strncmp, strncmp, ← hhead, hrest]

theorem chars2HttpMethod_delimited (h : t.take (k + 1) = u.take (k + 1)) (hc : t[k]? = some 32) :
    chars2HttpMethod t = chars2HttpMethod u := by
  have hspace : ∀ x ∈ httpMethodMap, (32 : UInt8) ∉ bytes x.2 := by decide
  have hfind : ∀ l : List (HttpMethod × String), (∀ x ∈ l, (32 : UInt8) ∉ bytes x.2) →
      l.find? (fun x => strncmp (bytes x.2) t (bytes x.2).length) =
        l.find? (fun x => strncmp (bytes x.2) u (bytes x.2).length) := by
    intro l hl
    induction l with
    | nil => rfl
    | cons x l ih =>
      rw [List.find?_cons, List.find?_cons, ih (fun y hy => hl y (List.mem_cons_of_mem _ hy)),
        strncmp_delimited (bytes x.2) h hc (hl x (List.mem_cons_self ..))]
  rw [chars2HttpMethod, chars2HttpMethod, hfind _ hspace]

def IsNumber (base : Nat) (t : List UInt8) (k : Nat) : Prop :=
  0 < k ∧ (∀ b ∈ t.take k, isDigit base b = true) ∧ ∃ c ∈ t[k]?, isDigit base c = false ∧ tolower c ≠ 120

instance (base : Nat) (t : List UInt8) (k : Nat) : Decidable (IsNumber base t k) :=
  inferInstanceAs (Decidable (_ ∧ _ ∧ ∃ c ∈ t[k]?, _))

theorem digit_visible {base : Nat} (hbase : base ≤ 16) {b : UInt8} (h : isDigit base b = true) :
    isspace b = false ∧ b ≠ 45 ∧ b ≠ 43 ∧ tolower b ≠ 120 := by
  have hall : ∀ n < 256, digit (UInt8.ofNat n) < 16 → isspace (UInt8.ofNat n) = false ∧
      UInt8.ofNat n ≠ 45 ∧ UInt8.ofNat n ≠ 43 ∧ tolower (UInt8.ofNat n) ≠ 120 := by decide +kernel
  have hb : digit b < 16 := lt_of_lt_of_le (by simpa [isDigit] using h) hbase
  simpa using hall b.toNat b.toNat_lt (by simpa using hb)

theorem skipHex_number (base : Nat) {d x : UInt8} {s : List UInt8} (hx : tolower x ≠ 120) :
    skipHex base (d :: x :: s) = d :: x :: s := by
  by_cases hd : d = 48
  · subst hd
    simp [skipHex, hx]
  · rw [skipHex]
    intro x' s' h
    exact absurd (List.cons.inj h).1 hd

theorem natural_number {base : Nat} (hbase : base ≤ 16) {d c : UInt8} {tok rest : List UInt8}
    (hdigits : ∀ b ∈ d :: tok, isDigit base b = true) (hend : isDigit base c = false) (hx : tolower c ≠ 120) :
    natural base (d :: tok ++ c :: rest) = (d :: tok).foldl (fun n b => n * base + digit b) 0 := by
  have hskip : skipHex base (d :: tok ++ c :: rest) = d :: tok ++ c :: rest := by
    cases tok with
    | nil => exact skipHex_number base hx
    | cons x tok =>
      exact skipHex_number base (digit_visible hbase (hdigits x (by simp))).2.2.2
  have htake : (d :: tok ++ c :: rest).takeWhile (isDigit base) = d :: tok := by
    rw [List.takeWhile_append_of_pos hdigits]
    simp [hend]
  rw [natural, hskip, htake]

theorem strtol_number {base : Nat} (hbase : base ≤ 16) (h : IsNumber base t k) :
    strtol base t = min (2 ^ 63 - 1) (((t.take k).foldl (fun n b => n * base + digit b) 0 : Nat) : Int) := by
  obtain ⟨hk, hdigits, c, hc, hend, hx⟩ := h
  obtain ⟨hlt, hget⟩ := List.getElem?_eq_some_iff.mp hc
  have hsplit : t = t.take k ++ c :: t.drop (k + 1) := by
    rw [← hget, ← List.drop_eq_getElem_cons hlt, List.take_append_drop]
  obtain ⟨d, tok, htok⟩ : ∃ d tok, t.take k = d :: tok := by
    apply List.exists_cons_of_ne_nil
    apply List.ne_nil_of_length_pos
    rw [List.length_take]
    omega
  rw [htok] at hdigits hsplit ⊢
  obtain ⟨hspace, hminus, hplus, -⟩ := digit_visible hbase (hdigits d (List.mem_cons_self ..))
  generalize t.drop (k + 1) = rest at hsplit
  have hdrop : t.dropWhile isspace = d :: (tok ++ c :: rest) := by
    rw [hsplit, List.cons_append, List.dropWhile_cons_of_neg (by simp [hspace])]
  rw [strtol, hdrop]
  split
  · rename_i heq
    exact absurd (List.cons.inj heq).1 hminus
  · rename_i heq
    exact absurd (List.cons.inj heq).1 hplus
  · rw [← List.cons_append, natural_number hbase hdigits hend hx]

theorem IsNumber.congr {base : Nat} (h : IsNumber base t k) (htu : t.take (k + 1) = u.take (k + 1)) :
    IsNumber base u k := by
  obtain ⟨hk, hdigits, c, hc, hend⟩ := h
  have htake : t.take k = u.take k := by
    simpa [List.take_take] using congrArg (List.take k) htu
  refine ⟨hk, htake ▸ hdigits, c, ?_, hend⟩
  have hget := congrArg (fun l => l[k]?) htu
  simp only [List.getElem?_take, Nat.lt_succ_self, if_true] at hget
  rw [← hget]
  exact hc

theorem strtol_delimited {base : Nat} (hbase : base ≤ 16) (h : IsNumber base t k)
    (htu : t.take (k + 1) = u.take (k + 1)) : strtol base t = strtol base u := by
  have htake : t.take k = u.take k := by
    simpa [List.take_take] using congrArg (List.take k) htu
  rw [strtol_number hbase h, strtol_number hbase (h.congr htu), htake]

theorem string_congr (htu : t.take k = u.take k) {n : Nat} (hn : n ≤ k) : string t n = string u n := by
  have htake : t.take n = u.take n := by
    simpa [List.take_take, hn] using congrArg (List.take n) htu
  have hlen := congrArg List.length htu
  rw [List.length_take, List.length_take] at hlen
  unfold string
  rw [htake]
  split <;> split <;> first | rfl | omega

end Prefixes

end Windgent.Http
