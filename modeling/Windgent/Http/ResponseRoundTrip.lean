import Windgent.Ragel.Calls
import Windgent.Http.ResponseText
import Windgent.Http.Framing

namespace Windgent.Http

open Ragel Scanner MachineInt
open Http11 (At stringOf_at space)

def HttpResponse.phrase (r : HttpResponse) : List UInt8 :=
  if r.reason = [] then bytes (httpStatus2String r.status) else r.reason

def HttpResponse.head (r : HttpResponse) : List UInt8 :=
  bytes "HTTP/" ++ decimal (r.version >>> 4).toNat ++ bytes "." ++ decimal (r.version &&& 0x0F).toNat ++ bytes " " ++
    decimal (r.status % 2 ^ 32).toNat ++ bytes " " ++ r.phrase ++ bytes "\r\n" ++
    r.written.flatMap (fun h => h.1 ++ bytes ": " ++ h.2 ++ bytes "\r\n") ++
    (bytes "Connection: " ++ r.connection ++ bytes "\r\n") ++
    if r.body = [] then bytes "\r\n" else bytes "Content-Length: " ++ decimal r.body.length ++ bytes "\r\n\r\n"

theorem HttpResponse.dump_head (r : HttpResponse) : r.dump = r.head ++ r.body := by
  have htail : (if r.body = [] then bytes "\r\n"
      else bytes "Content-Length: " ++ decimal r.body.length ++ bytes "\r\n\r\n" ++ r.body) =
      (if r.body = [] then bytes "\r\n"
      else bytes "Content-Length: " ++ decimal r.body.length ++ bytes "\r\n\r\n") ++ r.body := by
    split <;> simp [*]
  rw [HttpResponse.dump, htail, HttpResponse.head, HttpResponse.phrase]
  simp only [List.append_assoc]

/-- The response with the header lines that `dump` adds. The parser does not set the flag
that says whether to close. -/
def HttpResponse.received (r : HttpResponse) : HttpResponse :=
  let headers := setHeader (bytes "Connection") r.connection r.written
  { r with
    close := true
    reason := r.phrase
    headers :=
      if r.body = [] then headers else setHeader (bytes "Content-Length") (decimal r.body.length) headers }

namespace HttpClient

section Events

variable {data : List UInt8} {p : Nat} {g g' : Regs ResponseMark FieldLen} {s s' : ResponseState}

abbrev Does (data : List UInt8) (p : Nat) (τ : List (List Nat)) (g : Regs ResponseMark FieldLen) (s : ResponseState)
    (g' : Regs ResponseMark FieldLen) (s' : ResponseState) : Prop :=
  Calls ResponseAction.op main.table onResponse data p τ g s g' s'

theorem main_table : main.table =
    [.mark, .httpVersion, .mark, .statusCode, .mark, .reasonPhrase, .startField, .writeField, .startValue, .writeValue,
      .transChunked, .writeConnectionClose, .startField, .writeField, .startValue, .writeContentLen, .writeValue,
      .startField, .writeField, .startValue, .writeValue, .mark, .chunkSize, .startField, .writeField, .startValue,
      .startValue, .writeValue] := by
  decide

theorem fold_decimal (n : Nat) : (decimal n).foldl (fun n b => n * 10 + Http.digit b) 0 = n := by
  have hfold : (decimal n).foldl (fun n b => n * 10 + Http.digit b) 0 =
      (decimal n).foldl (fun n b => 10 * n + (b.toNat - 48)) 0 := by
    refine List.foldl_ext _ _ 0 fun a b hb => ?_
    obtain ⟨hlo, hhi⟩ := Framing.decimal_range hb
    simp [Http.digit, hlo, hhi, Nat.mul_comm]
  have hn := Framing.number_decimal n
  unfold Framing.number at hn
  split at hn
  · rw [hfold]
    exact Option.some.inj hn
  · cases hn

theorem strtol_decimal (n : Nat) {c : UInt8} (hc : isDigit 10 c = false) (hx : tolower c ≠ 120) (rest : List UInt8) :
    strtol 10 (decimal n ++ c :: rest) = min (2 ^ 63 - 1) (n : Int) := by
  have hnumber : IsNumber 10 (decimal n ++ c :: rest) (decimal n).length := by
    refine ⟨List.length_pos_of_ne_nil (Http11.decimal_ne n), fun b hb => ?_, c, by simp, hc, hx⟩
    rw [List.take_left] at hb
    obtain ⟨hlo, hhi⟩ := Framing.decimal_range hb
    have hnat : b.toNat ≤ 57 := by simpa using UInt8.le_iff_toNat_le.mp hhi
    simp [isDigit, Http.digit, hlo, hhi]
    omega
  rw [strtol_number (by omega) hnumber, List.take_left, fold_decimal]

theorem atoi_decimal {v : Int} (hlo : -2 ^ 31 ≤ v) (hhi : v < 2 ^ 31) (rest : List UInt8) :
    atoi (decimal (v % 2 ^ 32).toNat ++ 32 :: rest) = v := by
  rw [atoi, strtol_decimal _ (by decide) (by decide), truncate, Int.bmod_def]
  omega

theorem Does.startField {t : List Nat} (h : ∀ i ∈ t, i = 6 ∨ i = 11 ∨ i = 12 ∨ i = 17) (hr : 17 ∈ t) :
    Does data p [t] g s (marked g .fieldStart p) s := by
  refine Calls.marks (fun i hi => ?_) ⟨17, hr, .startField, by rw [main_table]; rfl, rfl⟩
  rw [main_table]
  obtain rfl | rfl | rfl | rfl := h i hi
  · exact ⟨.startField, rfl, .inl rfl⟩
  · exact ⟨.writeConnectionClose, rfl, .inr rfl⟩
  · exact ⟨.startField, rfl, .inl rfl⟩
  · exact ⟨.startField, rfl, .inl rfl⟩

theorem Does.startValue {t : List Nat} (h : ∀ i ∈ t, i = 14 ∨ i = 19) (hr : 19 ∈ t) :
    Does data p [t] g s (marked g .mark p) s := by
  refine Calls.marks (fun i hi => ?_) ⟨19, hr, .startValue, by rw [main_table]; rfl, rfl⟩
  rw [main_table]
  obtain rfl | rfl := h i hi
  · exact ⟨.startValue, rfl, .inl rfl⟩
  · exact ⟨.startValue, rfl, .inl rfl⟩

theorem Does.writeField {t : List Nat} (h : actions main.table t = [.writeField]) :
    Does data p [t] g s { g with len := Function.update g.len .fieldLen ((p : Int) - g.pos .fieldStart) } s :=
  Calls.single h (by simp [runOps, ResponseAction.op, Op.isStop, Op.regs])
    (by simp [runOps, ResponseAction.op, Op.isStop, Op.events])

/-- The registers at the end of a value. -/
structure AtValue (f : Field) (p : Nat) (g : Regs ResponseMark FieldLen) : Prop where
  start : g.pos .fieldStart = p
  len : g.len .fieldLen = f.name.length
  mark : g.pos .mark = p + f.name.length + 2

theorem Does.line (f : Field) {t a b : List Nat} (ht : ∀ i ∈ t, i = 6 ∨ i = 11 ∨ i = 12 ∨ i = 17) (hr : 17 ∈ t)
    (ha : actions main.table a = [.writeField]) (hb : ∀ i ∈ b, i = 14 ∨ i = 19) (hb' : 19 ∈ b) :
    ∃ g', Does data p (t :: silent f.name.tail ++ a :: [19] :: b :: silent f.value.tail) g s g' s ∧ AtValue f p g' := by
  have hn := List.length_pos_of_ne_nil f.name_ne
  let n := f.name.length
  let g₁ : Regs ResponseMark FieldLen :=
    { marked g .fieldStart p with len := Function.update g.len .fieldLen n }
  have hfield : Does data p (t :: silent f.name.tail ++ [a]) g s g₁ s := by
    have hname : Does data p ([t] ++ silent f.name.tail) g s (marked g .fieldStart p) s :=
      (Does.startField ht hr).append (Calls.silent _)
    refine hname.then (q := p + n) (by simp [silent, n]; omega) ?_
    have hw : Does data (p + n) [a] (marked g .fieldStart p) s _ s := Does.writeField ha
    simpa [marked, g₁] using hw
  have hblank : Does data (p + n + 1) [[19]] g₁ s (marked g₁ .mark (p + n + 1)) s :=
    Does.startValue (by simp) (by simp)
  have hvalue : Does data (p + n + 2) [b] (marked g₁ .mark (p + n + 1)) s (marked g₁ .mark (p + n + 2)) s := by
    have hm : Does data (p + n + 2) [b] (marked g₁ .mark (p + n + 1)) s _ s := Does.startValue hb hb'
    simpa [marked] using hm
  have hall := ((hfield.then (by simp [silent, n]; omega) hblank).then (by simp [silent, n]; omega) hvalue).append
    (Calls.silent f.value.tail)
  exact ⟨_, by simpa using hall, by simp [marked, g₁], by simp [marked, g₁, n], by simp [marked, n]⟩

theorem fieldOf_at (f : Field) (hg : AtValue f p g) (hat : At data p f.text) (hlen : f.text.length < 2 ^ 64)
    (hs : MapType) :
    fieldOf (Scanner.token data (p + f.name.length + 2 + f.value.length) g (.fieldStart, some .fieldLen))
      (Scanner.token (L := FieldLen) data (p + f.name.length + 2 + f.value.length) g (.mark, none)) hs =
        some (setHeader f.name f.value hs) := by
  have hn := List.length_pos_of_ne_nil f.name_ne
  have htext : f.text = f.name ++ ([58, 32] ++ (f.value ++ [13, 10])) := by simp [Field.text]
  rw [htext] at hat hlen
  simp only [List.length_append] at hlen
  obtain ⟨hatname, hat⟩ := hat.append
  obtain ⟨hatvalue, -⟩ := hat.append.2.append
  have hupto : ((p + f.name.length + 2 + f.value.length : Nat) : Int) - ((p + f.name.length + 2 : Nat) : Int) =
      (f.value.length : Nat) := by omega
  have h0 : toUInt64 (f.name.length : Int) ≠ 0 := by
    unfold toUInt64 modulus
    omega
  have hname : ∀ upto : Int, stringOf ⟨data.drop p, upto, f.name.length⟩ = some f.name := stringOf_at hatname (by omega)
  have hvalue : ∀ upto : Int, stringOf ⟨data.drop (p + f.name.length + 2), upto, f.value.length⟩ = some f.value :=
    stringOf_at hatvalue (by omega)
  simp only [Scanner.token, hg.start, hg.len, hg.mark, Option.map_some, Option.getD_some, Option.map_none,
    Option.getD_none, hupto, fieldOf, h0, if_false, hname, hvalue, Option.bind_some]

/-- What a header line makes of the state, with the number that `Content-Length` declares. -/
def wrote (f : Field) (n : Option Int) (s : ResponseState) : ResponseState :=
  { s with data := { s.data with headers := setHeader f.name f.value s.data.headers },
           contentLen := n.getD s.contentLen }

theorem Does.writeValue (f : Field) (hg : AtValue f p g) (hat : At data p f.text) (hlen : f.text.length < 2 ^ 64) :
    Does data (p + f.name.length + 2 + f.value.length) [[20]] g s g (wrote f none s) := by
  have hactions : actions main.table [20] = [.writeValue] := by rw [main_table]; decide
  refine Calls.single hactions
    (by simp [runOps, ResponseAction.op, Op.isStop, Op.regs]) ?_
  have hfield := fieldOf_at f hg hat hlen s.data.headers
  simp only [List.map_cons, List.map_nil, runOps, ResponseAction.op, Op.isStop, Op.events, Bool.false_eq_true, if_false,
    List.append_nil, List.foldlM_cons, List.foldlM_nil, onResponse, onResponseHttpField, hfield]
  rfl

/-- A header line with another name than the three of the grammar, or with `Connection`. -/
theorem Does.field (f : Field) {t : List Nat} (ht : ∀ i ∈ t, i = 6 ∨ i = 11 ∨ i = 12 ∨ i = 17) (hr : 17 ∈ t)
    (hat : At data p f.text) (hlen : f.text.length < 2 ^ 64) :
    ∃ g', Does data p (t :: f.rest) g s g' (wrote f none s) := by
  have hn := List.length_pos_of_ne_nil f.name_ne
  have hv := List.length_pos_of_ne_nil f.value_ne
  have hactions : actions main.table [18] = [.writeField] := by rw [main_table]; decide
  have hvalue : ∀ i ∈ [19], i = 14 ∨ i = 19 := by simp
  obtain ⟨g', hline, hg⟩ : ∃ g', Does data p (t :: silent f.name.tail ++ [18] :: [19] :: [19] :: silent f.value.tail)
      g s g' s ∧ AtValue f p g' := Does.line f ht hr hactions hvalue (by simp)
  have hall := (hline.then (by simp [silent]; omega) (Does.writeValue f hg hat hlen)).append (Calls.silent [10])
  refine ⟨g', ?_⟩
  simpa [Field.rest, silent] using hall

/-- The length that the parser keeps of a `Content-Length` line. -/
def declaredLength (n : Nat) : Int := truncate (min (2 ^ 63 - 1) (n : Int))

theorem Does.number (f : Field) {n : Nat} (hvalue : f.value = decimal n) {t : List Nat}
    (ht : ∀ i ∈ t, i = 6 ∨ i = 11 ∨ i = 12 ∨ i = 17) (hr : 17 ∈ t) (hat : At data p f.text)
    (hlen : f.text.length < 2 ^ 64) :
    ∃ g', Does data p
      (t :: (silent f.name.tail ++ [13, 18] :: [19] :: [14, 19] :: silent f.value.tail ++ [[15, 16, 20], []])) g s g'
      (wrote f (some (declaredLength n)) s) := by
  have hn := List.length_pos_of_ne_nil f.name_ne
  have hv := List.length_pos_of_ne_nil f.value_ne
  have hactions : actions main.table [13, 18] = [.writeField] := by rw [main_table]; decide
  have hstarts : ∀ i ∈ [14, 19], i = 14 ∨ i = 19 := by simp
  obtain ⟨g', hline, hg⟩ : ∃ g', Does data p
      (t :: silent f.name.tail ++ [13, 18] :: [19] :: [14, 19] :: silent f.value.tail) g s g' s ∧ AtValue f p g' :=
    Does.line f ht hr hactions hstarts (by simp)
  have hatvalue : ∃ rest, data.drop (p + f.name.length + 2) = decimal n ++ 13 :: rest := by
    have htext : f.text = f.name ++ ([58, 32] ++ (f.value ++ [13, 10])) := by simp [Field.text]
    rw [htext] at hat
    obtain ⟨rest, hrest⟩ := hat.append.2.append.2
    exact ⟨10 :: rest, by simpa [hvalue] using hrest⟩
  obtain ⟨rest, hrest⟩ := hatvalue
  have hend : Does data (p + f.name.length + 2 + f.value.length) [[15, 16, 20]] g' s g'
      (wrote f (some (declaredLength n)) s) := by
    have hwrites : actions main.table [15, 16, 20] = [.writeContentLen, .writeValue] := by rw [main_table]; decide
    refine Calls.single hwrites
      (by simp [runOps, ResponseAction.op, Op.isStop, Op.regs]) ?_
    have hfield := fieldOf_at f hg hat hlen s.data.headers
    have hptr : (Scanner.token (L := FieldLen) data (p + f.name.length + 2 + f.value.length) g' (.mark, none)).ptr =
        decimal n ++ 13 :: rest := by
      rw [Scanner.token, hg.mark]
      exact hrest
    have hnumber : writeContentLen s
        (Scanner.token (L := FieldLen) data (p + f.name.length + 2 + f.value.length) g' (.mark, none)) =
          { s with contentLen := declaredLength n } := by
      rw [writeContentLen, hptr, strtol_decimal n (by decide) (by decide) rest, declaredLength]
    simp only [List.map_cons, List.map_nil, runOps, ResponseAction.op, Op.isStop, Op.events, Op.regs,
      Bool.false_eq_true, if_false, List.append_nil, List.cons_append, List.nil_append, List.foldlM_cons,
      List.foldlM_nil, onResponse, hnumber, onResponseHttpField, Option.bind_eq_bind, Option.bind_some, hfield]
    rfl
  have hall := (hline.then (by simp [silent]; omega) hend).append (Calls.silent [10])
  refine ⟨g', ?_⟩
  simpa [silent] using hall

end Events

/-- The grammar takes the header line as `i`, and the callbacks write it. -/
structure Taken (f : Field) (n : Option Int) (i : Item) : Prop where
  text : i.text = f.text
  leaves : ∀ j ∈ i.leaves, j = 11
  does : ∀ {data p g s o}, (∀ j ∈ o, j = 11) → At data p f.text → f.text.length < 2 ^ 64 →
    ∃ g', Does data p ((o ++ i.first) :: i.rest) g s g' (wrote f n s)

section Lines

variable {f : Field}

theorem Field.head (f : Field) : ∃ c w, token c = true ∧ f.text = c :: w := by
  obtain ⟨c, w, hc, htext, -⟩ := f.text_cons
  exact ⟨c, w, hc, htext⟩

theorem taken_ordinary (h₁ : f.name.map tolower ≠ bytes "transfer-encoding")
    (h₂ : f.name.map tolower ≠ bytes "connection") (h₃ : f.name.map tolower ≠ bytes "content-length") :
    ∃ i, Taken f none i := by
  obtain ⟨t, ht, hs⟩ := scans_ordinary h₁ h₂ h₃
  refine ⟨⟨f.text, t ++ [17], f.rest, [], f.head, hs⟩, rfl, by simp, fun {_ _ _ _ o} ho hat hlen => ?_⟩
  refine Does.field f (t := o ++ (t ++ [17])) (fun i hi => ?_) (by simp) hat hlen
  simp only [List.mem_append, List.mem_singleton] at hi
  obtain hi | hi | hi := hi
  · simp [ho i hi]
  · obtain rfl | rfl := ht i hi <;> simp
  · simp [hi]

theorem taken_connection (hname : f.name = bytes "Connection") {close : Bool}
    (hvalue : f.value = bytes (if close then "close" else "keep-alive")) : ∃ i, Taken f none i := by
  obtain ⟨t, ht, hs⟩ := scans_connection f hname hvalue
  refine ⟨⟨f.text, t ++ [17], f.rest, _, f.head, hs⟩, rfl, ?_, fun {_ _ _ _ o} ho hat hlen => ?_⟩
  · cases close <;> simp
  · refine Does.field f (t := o ++ (t ++ [17])) (fun i hi => ?_) (by simp) hat hlen
    simp only [List.mem_append, List.mem_singleton] at hi
    obtain hi | hi | hi := hi
    · simp [ho i hi]
    · obtain rfl | rfl := ht i hi <;> simp
    · simp [hi]

theorem taken_number {n : Nat} (hname : f.name = bytes "Content-Length") (hvalue : f.value = decimal n) :
    ∃ i, Taken f (some (declaredLength n)) i := by
  obtain ⟨t, ht, hs⟩ := scans_number f hname fun c hc => Http11.decimal_digit (hvalue ▸ hc)
  refine ⟨⟨f.text, t ++ [12, 17], _, [], f.head, hs⟩, rfl, by simp, fun {_ _ _ _ o} ho hat hlen => ?_⟩
  refine Does.number f hvalue (t := o ++ (t ++ [12, 17])) (fun i hi => ?_) (by simp) hat hlen
  simp only [List.mem_append, List.mem_cons, List.not_mem_nil, or_false] at hi
  obtain hi | hi | hi | hi := hi
  · simp [ho i hi]
  · simp [ht i hi]
  · simp [hi]
  · simp [hi]

theorem Item.length_trace (i : Item) : (i.first :: i.rest).length = i.text.length := by
  obtain ⟨T, hr, -⟩ := i.scans
  exact hr.length

/-- Header lines, by induction on them. -/
theorem Does.headers {data : List UInt8} {p : Nat} {g : Regs ResponseMark FieldLen} {s : ResponseState} {o : List Nat}
    {xs : List (Field × Option Int)} {is : List Item} (h : List.Forall₂ (fun x i => Taken x.1 x.2 i) xs is)
    (ho : ∀ j ∈ o, j = 11) (hat : At data p (xs.flatMap fun x => x.1.text))
    (hlen : (xs.flatMap fun x => x.1.text).length < 2 ^ 64) :
    (∃ g', Does data p (join o is) g s g' (xs.foldl (fun s x => wrote x.1 x.2 s) s)) ∧
      ∀ j ∈ lastLeaves o is, j = 11 := by
  induction h generalizing p g s o with
  | nil => exact ⟨⟨g, Calls.silent []⟩, ho⟩
  | @cons x i xs is hx hxs ih =>
    rw [List.flatMap_cons] at hat hlen
    rw [List.length_append] at hlen
    obtain ⟨hatx, hatxs⟩ := hat.append
    obtain ⟨g₁, hfirst⟩ := hx.does (g := g) (s := s) ho hatx (by omega)
    obtain ⟨⟨g₂, hrest⟩, hleaves⟩ := ih (g := g₁) (s := wrote x.1 x.2 s) hx.leaves hatxs (by omega)
    have hlength : ((o ++ i.first) :: i.rest).length = x.1.text.length := by
      rw [← hx.text, ← i.length_trace]
      rfl
    exact ⟨⟨g₂, hfirst.then (by rw [hlength]) hrest⟩, hleaves⟩

end Lines

section Start

variable {data : List UInt8} {p : Nat} {g : Regs ResponseMark FieldLen} {s : ResponseState}

theorem versionOf_at {d : UInt8} (hd : d = 48 ∨ d = 49) (hat : At data p (bytes "HTTP/1." ++ [d])) :
    versionOf ⟨data.drop p, (8 : Nat), (8 : Nat)⟩ = some (Http11.minorVersion d) := by
  obtain ⟨rest, hat⟩ := hat
  have htake : (data.drop p).take 8 = (bytes "HTTP/1." ++ [d]).take 8 := by
    rw [hat, List.take_append_of_le_length (by simp [bytes])]
  have h8 : toUInt64 (8 : Nat) = 8 := by decide
  rw [versionOf, h8, strncmp_bounded _ htake, strncmp_bounded _ htake]
  obtain rfl | rfl := hd <;> decide

theorem Status.length_trace (l : Status) : l.trace.length = l.text.length := by
  have hstatus := List.length_pos_of_ne_nil l.status_ne
  have hreason := List.length_pos_of_ne_nil l.reason_ne
  simp [Status.trace, Status.text, Status.version, silent, bytes]
  omega

theorem Does.status (l : Status) {v : Int} (hlo : -2 ^ 31 ≤ v) (hhi : v < 2 ^ 31)
    (hv : l.status = decimal (v % 2 ^ 32).toNat) (hminor : l.minor = 48 ∨ l.minor = 49) (hat : At data p l.text)
    (hlen : l.text.length < 2 ^ 64) :
    ∃ g', Does data p l.trace g s g'
      { s with data :=
        { s.data with version := Http11.minorVersion l.minor, status := v, reason := l.reason } } := by
  have htext : l.text = l.version ++ ([32] ++ (l.status ++ ([32] ++ (l.reason ++ [13, 10])))) := by
    simp [Status.text]
  have hstatus := List.length_pos_of_ne_nil l.status_ne
  have hreason := List.length_pos_of_ne_nil l.reason_ne
  have hversion : l.version ≠ [] ∧ l.version.length = 8 := by simp [Status.version, bytes]
  rw [htext] at hat hlen
  simp only [List.length_append] at hlen
  obtain ⟨hatv, hat⟩ := hat.append
  obtain ⟨-, hat⟩ := hat.append
  obtain ⟨rest, hats⟩ := hat
  have hatstatus : At data _ (l.status ++ ([32] ++ (l.reason ++ [13, 10]))) := ⟨rest, hats⟩
  obtain ⟨hatr, -⟩ := hatstatus.append.2.append.2.append
  have hnumber : onResponseStatus { s with data := { s.data with version := Http11.minorVersion l.minor } }
      ⟨data.drop (p + l.version.length + ([32] : List UInt8).length), l.status.length, l.status.length⟩ =
        { s with data := { s.data with version := Http11.minorVersion l.minor, status := v } } := by
    have hatoi : atoi (data.drop (p + l.version.length + ([32] : List UInt8).length)) = v := by
      rw [hats, hv, List.append_assoc, List.append_assoc]
      exact atoi_decimal hlo hhi _
    rw [onResponseStatus, hatoi]
  have hfirst : Does data p ([0] :: silent l.version.tail ++ [[1]]) g s (marked g .mark p)
      { s with data := { s.data with version := Http11.minorVersion l.minor } } := by
    refine Calls.token (a := .mark) (b := .httpVersion) (by rw [main_table]; decide) rfl
      (by rw [main_table]; decide) rfl hversion.1 ?_
    simp only [hversion.2, onResponse, onResponseVersion, versionOf_at hminor hatv, Option.elim_some]
  have hsecond : Does data (p + l.version.length + ([32] : List UInt8).length) ([2] :: silent l.status.tail ++ [[3]])
      (marked g .mark p) { s with data := { s.data with version := Http11.minorVersion l.minor } } _ _ :=
    Calls.token (a := .mark) (b := .statusCode) (by rw [main_table]; decide) rfl (by rw [main_table]; decide) rfl
      l.status_ne (congrArg some hnumber)
  have hthird : ∀ g s, Does data (p + l.version.length + ([32] : List UInt8).length + l.status.length +
      ([32] : List UInt8).length) ([4] :: silent l.reason.tail ++ [[5]]) g s _
        { s with data := { s.data with reason := l.reason } } := fun g s =>
    Calls.token (a := .mark) (b := .reasonPhrase) (by rw [main_table]; decide) rfl (by rw [main_table]; decide) rfl
      l.reason_ne (by
        have hr := stringOf_at hatr (by omega) l.reason.length
        simp only [onResponse, onResponseReason, hr, Option.map_some])
  have hpos := List.length_pos_of_ne_nil hversion.1
  have hall := ((hfirst.then (by simp [silent]; omega) hsecond).then (by simp [silent]; omega) (hthird _ _)).append
    (Calls.silent [10])
  have htrace : l.trace = [0] :: silent l.version.tail ++ [[1]] ++ ([2] :: silent l.status.tail ++ [[3]]) ++
      ([4] :: silent l.reason.tail ++ [[5]]) ++ silent [10] := by
    simp [Status.trace, silent]
  rw [htrace]
  exact ⟨_, hall⟩

end Start

/-- The responses whose text the grammar takes apart again. The headers are in the order
of the map. -/
structure Dumpable (r : HttpResponse) : Prop where
  status : -2 ^ 31 ≤ r.status ∧ r.status < 2 ^ 31
  version : r.version = 0x10 ∨ r.version = 0x11
  reason : ∀ c ∈ r.reason, ¬ LineEnd c
  sorted : r.headers.Pairwise fun x y => caseInsensitiveLess x.1 y.1 = true
  names : ∀ x ∈ r.written, x.1 ≠ [] ∧ ∀ c ∈ x.1, token c = true
  others : ∀ x ∈ r.written,
    folded x.1 ≠ folded (bytes "content-length") ∧ folded x.1 ≠ folded (bytes "transfer-encoding")
  values : ∀ x ∈ r.written, x.2 ≠ [] ∧ (∀ c ∈ x.2, ¬ LineEnd c) ∧ ∀ c ∈ x.2.head?, space c = false

section RoundTrip

variable {r : HttpResponse}

def visible (s : String) : Bool := s.toList.all fun c => 32 ≤ c.toNat && c.toNat < 127

theorem visible_line {s : String} (h : visible s = true) : ∀ c ∈ bytes s, ¬ LineEnd c := by
  intro c hc
  obtain ⟨d, hd, rfl⟩ := List.mem_map.mp hc
  have hd := List.all_eq_true.mp h d hd
  simp only [Bool.and_eq_true, decide_eq_true_eq] at hd
  rintro (he | he) <;>
  · have hn := congrArg UInt8.toNat he
    simp [Nat.mod_eq_of_lt (show d.toNat < 256 by omega)] at hn
    omega

theorem httpStatusMap_visible : (httpStatusMap.all fun x => visible x.2) = true := by
  simp [httpStatusMap, visible]

theorem httpStatusMap_ne : ∀ x ∈ httpStatusMap, x.2 ≠ "" := by decide +kernel

theorem httpStatus2String_line (v : Int) :
    bytes (httpStatus2String v) ≠ [] ∧ ∀ c ∈ bytes (httpStatus2String v), ¬ LineEnd c := by
  have htext : httpStatus2String v ≠ "" ∧ visible (httpStatus2String v) = true := by
    unfold httpStatus2String
    cases hf : httpStatusMap.find? fun x => x.1 = v with
    | none => simp [visible]
    | some x =>
      have hx := List.mem_of_find?_eq_some hf
      exact ⟨httpStatusMap_ne x hx, List.all_eq_true.mp httpStatusMap_visible x hx⟩
  exact ⟨by simpa [bytes] using htext.1, visible_line htext.2⟩

theorem phrase_line (h : Dumpable r) : r.phrase ≠ [] ∧ ∀ c ∈ r.phrase, ¬ LineEnd c := by
  unfold HttpResponse.phrase
  split
  · exact httpStatus2String_line r.status
  · rename_i hne
    exact ⟨hne, h.reason⟩

def Dumpable.line (h : Dumpable r) : Status where
  minor := 48 + (r.version &&& 0x0F)
  status := decimal (r.status % 2 ^ 32).toNat
  reason := r.phrase
  minor_digit := by
    obtain hv | hv := h.version <;> rw [hv] <;> decide
  status_ne := Http11.decimal_ne _
  status_digit _ hc := Http11.decimal_digit hc
  reason_ne := (phrase_line h).1
  reason_line := (phrase_line h).2

theorem connection_value (r : HttpResponse) :
    r.connection ≠ [] ∧ (∀ c ∈ r.connection, ¬ LineEnd c) ∧ ∀ c ∈ r.connection.head?, space c = false := by
  cases hc : r.close <;> simp only [HttpResponse.connection, hc] <;> decide +kernel

def connectionField (r : HttpResponse) : Field where
  name := bytes "Connection"
  value := r.connection
  name_ne := by decide
  name_token := List.all_eq_true.mp (by decide +kernel)
  value_ne := (connection_value r).1
  value_line := (connection_value r).2.1
  value_head := (connection_value r).2.2

theorem digit_space {c : UInt8} (h : Http11.digit c = true) : space c = false := by
  by_contra hs
  simp [(space_visible (by simpa using hs)).2] at h

theorem contentLength_ne : bytes "Content-Length" ≠ [] := by decide

def lengthField (r : HttpResponse) : Field where
  name := bytes "Content-Length"
  value := decimal r.body.length
  name_ne := contentLength_ne
  name_token := List.all_eq_true.mp (by decide +kernel)
  value_ne := Http11.decimal_ne _
  value_line _ hc := (digit_line (Http11.decimal_digit hc)).2.2
  value_head _ hc := digit_space (Http11.decimal_digit (List.mem_of_mem_head? hc))

def Dumpable.headerFields (h : Dumpable r) : List Field :=
  r.written.attach.map fun x => ⟨x.1.1, x.1.2, (h.names x.1 x.2).1, (h.names x.1 x.2).2, (h.values x.1 x.2).1,
    (h.values x.1 x.2).2.1, (h.values x.1 x.2).2.2⟩

theorem Dumpable.entries (h : Dumpable r) : h.headerFields.map (fun f => (f.name, f.value)) = r.written := by
  rw [Dumpable.headerFields, List.map_map]
  exact List.attach_map_subtype_val r.written

def Dumpable.fields (h : Dumpable r) : List (Field × Option Int) :=
  h.headerFields.map (·, none) ++ (connectionField r, none) ::
    if r.body = [] then [] else [(lengthField r, some (declaredLength r.body.length))]

theorem Dumpable.head_eq (h : Dumpable r) :
    r.head = h.line.text ++ (h.fields.flatMap fun x => x.1.text) ++ [13, 10] := by
  have hheaders : (h.headerFields.map fun f => (f, (none : Option Int))).flatMap (fun x => x.1.text) =
      r.written.flatMap fun x => x.1 ++ bytes ": " ++ x.2 ++ bytes "\r\n" := by
    have htext : Field.text = fun f => (fun x : List UInt8 × List UInt8 =>
        x.1 ++ bytes ": " ++ x.2 ++ bytes "\r\n") (f.name, f.value) := by
      funext f
      simp [Field.text, bytes]
    conv_rhs => rw [← h.entries]
    rw [List.flatMap_map, List.flatMap_map, htext]
  have hversion : bytes "HTTP/" ++ decimal (r.version >>> 4).toNat ++ bytes "." ++
      decimal (r.version &&& 0x0F).toNat = h.line.version := by
    unfold Status.version Dumpable.line
    obtain hv | hv := h.version <;> simp only [hv] <;> decide
  have hlast : (if r.body = [] then bytes "\r\n" else
      bytes "Content-Length: " ++ decimal r.body.length ++ bytes "\r\n\r\n") =
        (if r.body = [] then [] else [(lengthField r, some (declaredLength r.body.length))]).flatMap
          (fun x => x.1.text) ++ [13, 10] := by
    by_cases hb : r.body = []
    · simp [hb, bytes]
    · simp [hb, bytes, Field.text, lengthField]
  have hconn : bytes "Connection: " ++ r.connection ++ bytes "\r\n" = (connectionField r).text := by
    simp [bytes, Field.text, connectionField]
  have hline : h.line.text =
      h.line.version ++ bytes " " ++ decimal (r.status % 2 ^ 32).toNat ++ bytes " " ++ r.phrase ++
      bytes "\r\n" := by
    simp [Status.text, bytes, Dumpable.line]
  rw [HttpResponse.head, hlast, hconn, ← hheaders, hversion, hline, Dumpable.fields]
  simp only [List.flatMap_cons, List.flatMap_append, List.append_assoc]

theorem foldl_wrote (xs : List (Field × Option Int)) (s : ResponseState) :
    xs.foldl (fun s x => wrote x.1 x.2 s) s =
      { s with
        data := { s.data with headers := xs.foldl (fun hs x => setHeader x.1.name x.1.value hs) s.data.headers }
        contentLen := xs.foldl (fun n x => x.2.getD n) s.contentLen } := by
  induction xs generalizing s with
  | nil => rfl
  | cons x xs ih => exact ih (wrote x.1 x.2 s)

theorem Dumpable.setFields (h : Dumpable r) :
    h.fields.foldl (fun hs x => setHeader x.1.name x.1.value hs) [] = r.received.headers := by
  have hheaders : (h.headerFields.map (·, (none : Option Int))).foldl (fun hs x => setHeader x.1.name x.1.value hs) [] =
      r.written := by
    have hsorted : (([] : MapType) ++ r.written).Pairwise fun x y => folded x.1 < folded y.1 :=
      (h.sorted.filter _).imp less_iff.mp
    have hfold := foldl_setHeader [] r.written hsorted
    rw [← h.entries, List.foldl_map] at hfold
    rw [List.foldl_map, hfold, h.entries, List.nil_append]
  rw [Dumpable.fields, List.foldl_append, hheaders]
  by_cases hb : r.body = []
  · simp [HttpResponse.received, hb, connectionField]
  · simp [HttpResponse.received, hb, connectionField, lengthField]

theorem Dumpable.foldl_length (h : Dumpable r) : h.fields.foldl (fun n x => x.2.getD n) (-1) =
    if r.body = [] then -1 else declaredLength r.body.length := by
  have hnone : ∀ (fs : List Field) (n : Int),
      (fs.map (·, (none : Option Int))).foldl (fun n x => x.2.getD n) n = n := by
    intro fs n
    induction fs with
    | nil => rfl
    | cons f fs ih => exact ih
  rw [Dumpable.fields, List.foldl_append, hnone]
  split <;> rfl

def parsed (r : HttpResponse) : ResponseState where
  data := { status := r.status, version := r.version, reason := r.phrase, headers := r.received.headers }
  contentLen := if r.body = [] then -1 else declaredLength r.body.length

theorem folded_token {name : List UInt8} (h : ∀ c ∈ name, token c = true) : folded name = name.map tolower := by
  have htake : (name ++ []).takeWhile (fun c => decide (c ≠ 0)) = name ++ [] :=
    List.takeWhile_append_of_pos fun c hc => by
      have hne : c ≠ 0 := by
        rintro rfl
        exact absurd (h 0 hc) (by decide)
      simpa using hne
  rw [List.append_nil] at htake
  rw [folded, htake]

theorem Dumpable.taken (h : Dumpable r) : ∀ x ∈ h.fields, ∃ i, Taken x.1 x.2 i := by
  intro x hx
  simp only [Dumpable.fields, List.mem_append, List.mem_map, List.mem_cons] at hx
  obtain ⟨f, hf, rfl⟩ | rfl | hx := hx
  · have hmem : (f.name, f.value) ∈ r.written := by
      rw [← h.entries]
      exact List.mem_map_of_mem hf
    have hfold : folded f.name = f.name.map tolower := folded_token f.name_token
    obtain ⟨hlength, hencoding⟩ := h.others _ hmem
    have hconn : folded f.name ≠ folded (bytes "connection") := by
      simpa using (List.mem_filter.mp hmem).2
    rw [hfold] at hlength hencoding hconn
    have hfolded : folded (bytes "transfer-encoding") = bytes "transfer-encoding" := by decide
    exact taken_ordinary (by rwa [hfolded] at hencoding)
      (by rwa [show folded (bytes "connection") = bytes "connection" by decide] at hconn)
      (by rwa [show folded (bytes "content-length") = bytes "content-length" by decide] at hlength)
  · exact taken_connection rfl rfl
  · split at hx
    · cases hx
    · obtain rfl := List.mem_singleton.mp hx
      exact taken_number rfl rfl

theorem exists_forall₂ {α β : Type} {R : α → β → Prop} (xs : List α) (h : ∀ x ∈ xs, ∃ y, R x y) :
    ∃ ys, List.Forall₂ R xs ys := by
  induction xs with
  | nil => exact ⟨[], .nil⟩
  | cons x xs ih =>
    obtain ⟨⟨y, hy⟩, hxs⟩ := List.forall_mem_cons.mp h
    obtain ⟨ys, hys⟩ := ih hxs
    exact ⟨y :: ys, .cons hy hys⟩

theorem items_text {xs : List (Field × Option Int)} {is : List Item}
    (h : List.Forall₂ (fun x i => Taken x.1 x.2 i) xs is) : is.flatMap Item.text = xs.flatMap fun x => x.1.text := by
  induction h with
  | nil => rfl
  | cons hx _ ih => rw [List.flatMap_cons, List.flatMap_cons, hx.text, ih]

theorem Dumpable.accepts (h : Dumpable r) : ∃ τ, Scans (fun _ => False) (main.stamp 0) r.head τ [] (fun _ => True) ∧
    ∀ data : List UInt8, At data 0 r.head → r.head.length < 2 ^ 64 → ∀ g, ∃ g', Does data 0 τ g {} g' (parsed r) := by
  obtain ⟨is, his⟩ := exists_forall₂ h.fields h.taken
  have htexts := items_text his
  obtain ⟨i, is', rfl⟩ : ∃ i is', is = i :: is' := by
    apply List.exists_cons_of_ne_nil
    rintro rfl
    have hlen := his.length_eq
    simp [Dumpable.fields] at hlen
  refine ⟨h.line.trace ++ join [] (i :: is') ++ [lastLeaves [] (i :: is'), []], ?_, fun data hat hlen g => ?_⟩
  · have hs := scans_head h.line i is'
    rw [htexts, ← h.head_eq] at hs
    exact hs
  · rw [h.head_eq] at hat
    have htotal := congrArg List.length h.head_eq
    simp only [List.length_append] at htotal
    obtain ⟨hatl, hatf⟩ := hat.append.1.append
    have hminor : h.line.minor = 48 ∨ h.line.minor = 49 := by
      have hall : ∀ v : UInt8, v = 0x10 ∨ v = 0x11 → 48 + (v &&& 0x0F) = 48 ∨ 48 + (v &&& 0x0F) = 49 := by
        rintro v (rfl | rfl) <;> decide
      exact hall _ h.version
    obtain ⟨g₁, hline⟩ := Does.status (g := g) (s := {}) h.line h.status.1 h.status.2 rfl hminor hatl (by omega)
    obtain ⟨⟨g₂, hheaders⟩, hleaves⟩ := Does.headers (o := []) (g := g₁) his (by simp) hatf (by omega)
    have hlast : ∀ q s, Does data q [lastLeaves [] (i :: is'), []] g₂ s g₂ s := by
      intro q s
      refine (Calls.skips (p := q) fun j hj => ?_).append (Calls.silent [10])
      obtain rfl := hleaves j hj
      exact ⟨.writeConnectionClose, by rw [main_table]; rfl, rfl⟩
    have hall := (hline.then (by rw [h.line.length_trace]) hheaders).append (hlast _ _)
    rw [foldl_wrote, h.foldl_length] at hall
    have hversion : Http11.minorVersion h.line.minor = r.version := by
      have hminor : ∀ v : UInt8, v = 0x10 ∨ v = 0x11 → Http11.minorVersion (48 + (v &&& 0x0F)) = v := by
        rintro v (rfl | rfl) <;> decide
      exact hminor _ h.version
    have hstate : parsed r =
        { data :=
            { status := r.status, version := Http11.minorVersion h.line.minor, reason := r.phrase,
              headers := h.fields.foldl (fun hs x => setHeader x.1.name x.1.value hs) [] }
          contentLen := if r.body = [] then -1 else declaredLength r.body.length } := by
      rw [hversion, h.setFields, parsed]
    rw [hstate]
    exact ⟨_, hall⟩

theorem Dumpable.execute (h : Dumpable r) {data rest : List UInt8} {len : Nat} (hdata : data.take len = r.head ++ rest)
    (hlen : r.head.length < 2 ^ 64) (hguard : data[len]? = some 0) :
    ∃ cs g, isFinished httpclientParser ⟨some cs, g, parsed r⟩ = true ∧
      responseFrontend.execute httpclientParser (httpclientParserInit httpclientParser {}) data len =
        some (⟨some cs, g, parsed r⟩, r.head.length) := by
  obtain ⟨τ, ⟨T, hrun, hfinal, -, -⟩, hdoes⟩ := h.accepts
  have hne : r.head ≠ [] := by
    rw [h.head_eq]
    simp
  have hdone : (ResponseAction.op .done).isStop = true := rfl
  obtain ⟨cs, hcs, hscan⟩ := scan_complete hdone main_running data (fun _ h => h) hrun (S := [main.stamp 0]) (by simp)
    hfinal hne ⟨fun _ => 0, fun _ => 0⟩ 0 rest
  have hat : At data 0 r.head := by
    refine ⟨rest ++ data.drop len, ?_⟩
    rw [List.drop_zero, ← List.append_assoc, ← hdata, List.take_append_drop]
  obtain ⟨g, hregs, hstate⟩ := hdoes data hat hlen ⟨fun _ => 0, fun _ => 0⟩
  have hmachine : machine main .done hdone main_running = httpclientParser := rfl
  have hstart : httpclientParser.start = [main.stamp 0] := rfl
  have hreset : ∀ g, responseFrontend.reset g = ⟨fun _ => 0, fun _ => 0⟩ := fun _ => rfl
  have hfold : responseFrontend.handle = onResponse := rfl
  have hok : responseFrontend.guard data len = true := by simpa [responseFrontend] using hguard
  have hinit : httpclientParserInit httpclientParser {} =
      ⟨some httpclientParser.start, ⟨fun _ => 0, fun _ => 0⟩, {}⟩ := rfl
  rw [hmachine, hregs, ← hdata] at hscan
  refine ⟨cs, g, hcs, ?_⟩
  simp only [Frontend.execute, hinit, hok, if_true, hstart, hreset, hscan, hfold, hstate, Option.map_some, Nat.zero_add]

theorem readPiece_first {n : Nat} {text first : List UInt8} {source : Source} (htext : first ++ source.flatten = text)
    (hreads : ∀ p ∈ first :: source, p ≠ [] ∧ p.length < 2 ^ 31) :
    ∃ piece source', readPiece n (first :: source) = some (piece, source') ∧ piece ++ source'.flatten = text ∧
      piece.length = min first.length n ∧ ∀ p ∈ source', p ≠ [] ∧ p.length < 2 ^ 31 := by
  obtain ⟨hfirst, hsource⟩ := List.forall_mem_cons.mp hreads
  refine ⟨_, _, rfl, ?_, by rw [List.length_take, Nat.min_comm], ?_⟩
  · split
    · rename_i hle
      rw [List.take_of_length_le hle, htext]
    · rw [List.flatten_cons, ← List.append_assoc, List.take_append_drop, htext]
  · split
    · exact hsource
    · refine List.forall_mem_cons.mpr ⟨⟨?_, ?_⟩, hsource⟩
      · apply List.ne_nil_of_length_pos
        rw [List.length_drop]
        omega
      · rw [List.length_drop]
        omega

theorem prefix_of_le {a b c d : List UInt8} (h : a ++ b <+: c ++ d) (hle : c.length ≤ a.length) :
    ∃ rest, a = c ++ rest ∧ rest ++ b <+: d := by
  obtain ⟨rest, rfl⟩ : c <+: a :=
    List.prefix_of_prefix_length_le (List.prefix_append c d) ((List.prefix_append a b).trans h) hle
  exact ⟨rest, rfl, by rwa [List.append_assoc, List.prefix_append_right_inj] at h⟩

/-- The header loop on the text of a response whose header block is in the first read: the
byte behind it in the buffer has to be the NUL that the parser asserts. -/
theorem Dumpable.recvHeader (h : Dumpable r) (fuel : Nat) {memory piece rest : List UInt8} {source source' : Source}
    (hread : readPiece memory.length source = some (piece, source')) (hpiece : piece = r.head ++ rest)
    (hfit : piece.length ≤ memory.length) (hlen : r.head.length < 2 ^ 64) :
    if memory[piece.length]? = some 0 then
      ∃ cs g data, Http.recvHeader responseFrontend httpclientParser memory.length (fuel + 1)
          (httpclientParserInit httpclientParser {}) memory 0 source =
            .done (⟨some cs, g, parsed r⟩, data, rest.length, source') ∧ data.take rest.length = rest
    else
      Http.recvHeader responseFrontend httpclientParser memory.length (fuel + 1)
        (httpclientParserInit httpclientParser {}) memory 0 source = .crashed := by
  have hpos : 0 < r.head.length := by
    rw [h.head_eq, List.length_append]
    simp
  have hne : piece ≠ [] := by
    rw [hpiece]
    simp [List.ne_nil_of_length_pos hpos]
  have hplen : piece.length = r.head.length + rest.length := by rw [hpiece, List.length_append]
  have htake := take_overlay_zero memory piece
  have hbehind : (overlay memory 0 piece)[piece.length]? = memory[piece.length]? := by
    rw [overlay, List.take_zero, List.nil_append, Nat.zero_add, List.getElem?_append_right le_rfl, Nat.sub_self,
      List.getElem?_drop, Nat.add_zero]
  split
  · rename_i hnul
    obtain ⟨cs, g, hfinished, hexec⟩ := h.execute (htake.trans hpiece) hlen (hbehind.trans hnul)
    have hstep := recvHeader_step fuel hread hne hexec (by simp [Frontend.hasError, responseFrontend, parsed])
      (by omega)
    rw [if_pos hfinished, hplen, Nat.add_sub_cancel_left] at hstep
    refine ⟨cs, g, _, hstep, ?_⟩
    have hover : (overlay memory 0 piece).length = memory.length := length_overlay (by omega)
    rw [take_memmove (by omega), List.take_drop, ← hplen, htake, hpiece, List.drop_left]
  · rename_i hnul
    have hexec : responseFrontend.execute httpclientParser (httpclientParserInit httpclientParser {})
        (overlay memory 0 piece) piece.length = none := by
      have hno : responseFrontend.guard (overlay memory 0 piece) piece.length = false := by
        simpa [responseFrontend, hbehind] using hnul
      simp only [Frontend.execute, hno, Bool.false_eq_true, if_false]
    simp only [Http.recvHeader, Nat.sub_zero, hread, hne, if_false, Nat.add_zero, hexec]

theorem Dumpable.contentLength (h : Dumpable r) {lexicalCast : List UInt8 → Option UInt64}
    (hcast : lexicalCast (decimal r.body.length) = some (UInt64.ofNat r.body.length)) (hlen : r.body.length < 2 ^ 64) :
    Http.contentLength lexicalCast r.received.headers = r.body.length := by
  have hconn : folded (bytes "Connection") ≠ folded (bytes "content-length") := by decide
  have hsame : folded (bytes "Content-Length") = folded (bytes "content-length") := by decide
  have hnone := getHeader_eq_none fun x hx => (h.others x hx).1
  by_cases hb : r.body = []
  · simp [HttpResponse.received, hb, Http.contentLength, getHeader_setHeader, hconn, hnone]
  · have hmod : (UInt64.ofNat r.body.length).toNat = r.body.length := by simpa using Nat.mod_eq_of_lt hlen
    simp [HttpResponse.received, hb, Http.contentLength, getHeader_setHeader, hsame, hcast, hmod]

theorem readSizes_append {source : Source} {left : Nat} (h : source.flatten.length ≤ left) (hne : ∀ p ∈ source, p ≠ [])
    (tail : Source) : readSizes left (source ++ tail) =
      source.map (fun p => (p.length : Int)) ++ readSizes (left - source.flatten.length) tail := by
  induction source generalizing left with
  | nil => rfl
  | cons p ps ih =>
    rw [List.flatten_cons, List.length_append] at h
    have hle : ps.flatten.length ≤ left - p.length := by omega
    have hps := ih hle fun q hq => hne q (List.mem_cons_of_mem _ hq)
    rw [List.cons_append, readSizes, if_pos (by omega), hps, List.flatten_cons, List.length_append, Nat.sub_sub]
    rfl

open Windgent.Stream in
theorem loop_append {m : Nat} (hm : m < modulus) (source : Source) (hreads : ∀ p ∈ source, p ≠ [] ∧ p.length < 2 ^ 31)
    (rs : List Int) (t left : Nat) (ht : t + left = m) (h : source.flatten.length ≤ left) :
    let o := loop readBuffer m (source.map (fun p => (p.length : Int)) ++ rs) (moved t) left
    let o' := loop readBuffer m rs (moved (t + source.flatten.length)) (left - source.flatten.length)
    o.ret = o'.ret ∧ o.final = o'.final := by
  induction source generalizing t left with
  | nil => exact ⟨rfl, rfl⟩
  | cons p ps ih =>
    obtain ⟨⟨hp, hi⟩, hps⟩ := List.forall_mem_cons.mp hreads
    have hpos := List.length_pos_of_ne_nil hp
    rw [List.flatten_cons, List.length_append] at h
    have hrest := ih hps (t + p.length) (left - p.length) (by omega) (by omega)
    rw [List.map_cons, List.cons_append, loop_positive hm ht ⟨by omega, by omega⟩ (by omega) (by omega),
      Int.toNat_natCast, List.flatten_cons, List.length_append]
    simp only [Nat.sub_sub, Nat.add_assoc] at hrest ⊢
    exact hrest

/-- What `recvResponse` reads behind the bytes that have come: nothing yet, or the end of the
connection. -/
def Tail (tail : Source) : Prop := tail = [] ∨ tail = [[]]

instance : DecidablePred Tail := fun tail => inferInstanceAs (Decidable (tail = [] ∨ tail = [[]]))

theorem Tail.flatten {tail : Source} (h : Tail tail) : tail.flatten = [] := by
  obtain rfl | rfl := h
  · rfl
  · rfl

open Windgent.Stream in
theorem Tail.loop {tail : Source} (h : Tail tail) {m left : Nat} (hl : left ≠ 0) (s : Transfer) :
    (loop readBuffer m (readSizes left tail) s left).ret = if tail = [] then none else some 0 := by
  obtain rfl | rfl := h
  · simp only [readSizes, Stream.loop, hl, if_false, if_true]
  · have h0 : toInt 0 = 0 := rfl
    simp [readSizes, Stream.loop, hl, toUInt64, h0]

open Windgent.Stream in
theorem recvBody_congr {length : Nat} {data stream : List UInt8} {rs rs' : List Int}
    (hret : (readFixedSize (subU64 length data.length) rs).ret = (readFixedSize (subU64 length data.length) rs').ret)
    (hfinal : (readFixedSize (subU64 length data.length) rs).final =
      (readFixedSize (subU64 length data.length) rs').final) :
    (recvBody length data stream rs).ret = (recvBody length data stream rs').ret := by
  unfold recvBody
  split
  · rfl
  · dsimp only
    split
    · rfl
    · rw [hret, hfinal]

theorem recvRest_part {lexicalCast : List UInt8 → Option UInt64} {headers : MapType} {body rest : List UInt8}
    {source tail : Source} (hlength : Http.contentLength lexicalCast headers = body.length)
    (hbody : rest ++ source.flatten <+: body) (hreads : ∀ p ∈ source, p ≠ [] ∧ p.length < 2 ^ 31)
    (htail : Tail tail) (hsize : body.length < 2 ^ 64) :
    recvRest lexicalCast headers rest (source ++ tail) =
      if rest ++ source.flatten = body then
        if source.flatten.length = 0 ∨ 0 < toInt source.flatten.length then .done body else .closed
      else if tail = [] then .waiting else .closed := by
  have hle := hbody.length_le
  rw [List.length_append] at hle
  have hne : ∀ p ∈ source, p ≠ [] := fun p hp => (hreads p hp).1
  have hleft : subU64 body.length rest.length = body.length - rest.length :=
    subU64_of_le (by unfold modulus; omega) (by omega)
  have hflat : (source ++ tail).flatten = source.flatten := by
    rw [List.flatten_append, htail.flatten, List.append_nil]
  have hloop := fun rs => loop_append (m := body.length - rest.length) (by unfold modulus; omega) source hreads rs 0
    (body.length - rest.length) (by omega) (by omega)
  have hfits : source.flatten.length ≤ body.length - rest.length := by omega
  have hsizes := readSizes_append hfits hne tail
  rw [recvRest, hlength, hleft, hflat]
  by_cases hall : rest ++ source.flatten = body
  · have hlens := congrArg List.length hall
    rw [List.length_append] at hlens
    have hzero : body.length - rest.length - source.flatten.length = 0 := by omega
    have hret := recvBody_ret rest source hne (fun p hp => (hreads p hp).2) (by unfold modulus; omega)
    have hexact := readSizes_append hfits hne []
    rw [List.append_nil, readSizes] at hexact
    rw [hlens, hleft, hexact, hall] at hret
    -- the results behind the last byte are not asked for
    have hsame :
        (recvBody body.length rest source.flatten (readSizes (body.length - rest.length) (source ++ tail))).ret =
        (recvBody body.length rest source.flatten (source.map (fun p => (p.length : Int)) ++ [])).ret := by
      rw [hsizes]
      refine recvBody_congr ?_ ?_
      · rw [hleft]
        refine (hloop _).1.trans ((hloop []).1.trans ?_).symm
        rw [hzero, Stream.loop_done, Stream.loop_done]
      · rw [hleft]
        refine (hloop _).2.trans ((hloop []).2.trans ?_).symm
        rw [hzero, Stream.loop_done, Stream.loop_done]
    rw [if_pos hall]
    simp only [hsame, hret]
    split <;> rename_i heq <;> split at heq <;> simp_all
  · rw [if_neg hall]
    have hlt : rest.length + source.flatten.length < body.length := by
      refine lt_of_le_of_ne hle fun heq => hall (hbody.eq_of_length ?_)
      rw [List.length_append, heq]
    have hret : (recvBody body.length rest source.flatten
        (readSizes (body.length - rest.length) (source ++ tail))).ret = if tail = [] then none else some none := by
      have hread : (Stream.readFixedSize (body.length - rest.length) (readSizes (body.length - rest.length)
          (source ++ tail))).ret = if tail = [] then none else some 0 := by
        rw [hsizes]
        exact (hloop _).1.trans (htail.loop (by omega) _)
      simp only [recvBody, hleft, show body.length ≠ 0 by omega, show body.length - rest.length ≠ 0 by omega, if_false,
        hread]
      by_cases ht : tail = []
      · rw [if_pos ht, if_pos ht, Option.map_none]
      · rw [if_neg ht, if_neg ht, Option.map_some, if_pos le_rfl]
    simp only [hret]
    obtain rfl | rfl := htail
    · rfl
    · rfl

theorem readPiece_append {n : Nat} {source source' : Source} {piece : List UInt8}
    (h : readPiece n source = some (piece, source')) (tail : Source) :
    readPiece n (source ++ tail) = some (piece, source' ++ tail) := by
  cases source with
  | nil => cases h
  | cons p ps =>
    simp only [readPiece, Option.some.injEq, Prod.mk.injEq] at h
    obtain ⟨rfl, rfl⟩ := h
    rw [List.cons_append, readPiece]
    split
    · rfl
    · rfl

/-- What is received of a response whose header block arrives in the first read: the
process ends at the assertion about the byte behind what was read, or the call waits until
the whole text has come, and then it depends on the `int` that `readFixedSize` returns for
the bytes that the first read does not bring. -/
theorem recvResponse_start (h : Dumpable r) {lexicalCast : List UInt8 → Option UInt64}
    (hcast : lexicalCast (decimal r.body.length) = some (UInt64.ofNat r.body.length)) {memory first : List UInt8}
    {source tail : Source} (htext : first ++ source.flatten <+: r.dump) (hsize : r.dump.length < 2 ^ 64)
    (hreads : ∀ p ∈ first :: source, p ≠ [] ∧ p.length < 2 ^ 31) (htail : Tail tail)
    (hhead : r.head.length ≤ min first.length memory.length) :
    recvResponse httpclientParser lexicalCast memory (first :: source ++ tail) =
      if memory[min first.length memory.length]? = some 0 then
        if first ++ source.flatten = r.dump then
          if r.dump.length = min first.length memory.length ∨
            0 < toInt (r.dump.length - min first.length memory.length) then .done r.received
          else .closed
        else if tail = [] then .waiting else .closed
      else .crashed := by
  obtain ⟨piece, source', hread, hall, hplen, hreads'⟩ := readPiece_first (n := memory.length) rfl hreads
  have hread := readPiece_append hread tail
  rw [← hall] at htext ⊢
  rw [← hplen] at hhead ⊢
  rw [r.dump_head] at htext ⊢
  obtain ⟨rest, hpiece, hbody⟩ := prefix_of_le htext hhead
  have hsum : r.dump.length = r.head.length + r.body.length := by rw [r.dump_head, List.length_append]
  have hpl : piece.length = r.head.length + rest.length := by rw [hpiece, List.length_append]
  have hheader := h.recvHeader (first :: source ++ tail).flatten.length hread hpiece (by omega) (by omega)
  by_cases hnul : memory[piece.length]? = some 0
  · rw [if_pos hnul] at hheader ⊢
    obtain ⟨cs, g, data, hheader, hdata⟩ := hheader
    have hchunked : (parsed r).chunked = false := rfl
    have hresponse : recvResponse httpclientParser lexicalCast memory (first :: source ++ tail) =
        recvRest lexicalCast r.received.headers rest (source' ++ tail) >>= fun body =>
          .done { (parsed r).data with body := body } := by
      change Http.recvHeader responseFrontend httpclientParser memory.length _
        (httpclientParserInit httpclientParser {})
        memory 0 _ >>= _ = _
      rw [hheader, done_bind]
      simp only [hdata, hchunked, Bool.false_eq_true, if_false]
      rfl
    have hrest := recvRest_part (h.contentLength hcast (by omega)) hbody hreads' htail (by omega)
    have hreceived : { (parsed r).data with body := r.body } = r.received := rfl
    have hwhole : piece ++ source'.flatten = r.head ++ r.body ↔ rest ++ source'.flatten = r.body := by
      rw [hpiece, List.append_assoc, List.append_cancel_left_eq]
    rw [hresponse, hrest, List.length_append]
    simp only [hwhole]
    split
    · rename_i hdone
      have hlens := congrArg List.length hdone
      rw [List.length_append] at hlens
      have hn : r.head.length + r.body.length - piece.length = source'.flatten.length := by omega
      have heq : r.head.length + r.body.length = piece.length ↔ source'.flatten.length = 0 := by omega
      rw [hn]
      simp only [heq]
      split
      · rw [done_bind, hreceived]
      · rfl
    · split
      · rfl
      · rfl
  · rw [if_neg hnul] at hheader ⊢
    change Http.recvHeader responseFrontend httpclientParser memory.length _ (httpclientParserInit httpclientParser {})
      memory 0 _ >>= _ = _
    rw [hheader]
    rfl

end RoundTrip

def missing : HttpResponse where
  status := 404
  close := false
  body := [0, 10]
  headers := [(bytes "connection", bytes "upgrade"), (bytes "Server", bytes "windgent 1.0 ")]

theorem missing_dumpable : Dumpable missing where
  status := by decide
  version := .inr rfl
  reason := by simp [missing]
  sorted := by decide +kernel
  names := by decide +kernel
  others := by decide +kernel
  values := by decide +kernel

end HttpClient

end Windgent.Http
