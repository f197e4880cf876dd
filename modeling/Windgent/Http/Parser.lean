import Windgent.Scanner
import Windgent.Http.Message

namespace Windgent.Http

open Scanner MachineInt

inductive RequestMark where
  | mark | fieldStart | queryStart
deriving DecidableEq

inductive ResponseMark where
  | mark | fieldStart
deriving DecidableEq

inductive FieldLen where
  | fieldLen
deriving DecidableEq

inductive RequestCallback where
  | httpField | requestMethod | fragment | requestPath | queryString | httpVersion
deriving DecidableEq

inductive ResponseCallback where
  | httpField | reasonPhrase | statusCode | httpVersion | contentLen | chunkSize | transChunked
deriving DecidableEq

/-- The actions of `http11_parser.rl`. -/
inductive RequestAction where
  | mark | startField | writeField | startValue | writeValue | requestMethod | requestUri | fragment
  | startQuery | queryString | httpVersion | requestPath | done | xml | json
deriving DecidableEq

/-- The callbacks for the URI and for the end of the header block are empty. -/
def RequestAction.op : RequestAction → Op RequestMark FieldLen RequestCallback
  | .mark | .startValue => .mark .mark
  | .startField => .mark .fieldStart
  | .writeField => .span .fieldLen .fieldStart
  | .writeValue => .emit .httpField [(.fieldStart, some .fieldLen), (.mark, none)]
  | .requestMethod => .emit .requestMethod [(.mark, none)]
  | .fragment => .emit .fragment [(.mark, none)]
  | .startQuery => .mark .queryStart
  | .queryString => .emit .queryString [(.queryStart, none)]
  | .httpVersion => .emit .httpVersion [(.mark, none)]
  | .requestPath => .emit .requestPath [(.mark, none)]
  | .done => .stop
  | .requestUri | .xml | .json => .skip

inductive ResponseAction where
  | mark | startField | writeField | startValue | writeContentLen | writeConnectionClose | writeValue
  | reasonPhrase | statusCode | httpVersion | chunkSize | transChunked | done
deriving DecidableEq

def ResponseAction.op : ResponseAction → Op ResponseMark FieldLen ResponseCallback
  | .mark | .startValue => .mark .mark
  | .startField => .mark .fieldStart
  | .writeField => .span .fieldLen .fieldStart
  | .writeContentLen => .emit .contentLen [(.mark, none)]
  | .writeValue => .emit .httpField [(.fieldStart, some .fieldLen), (.mark, none)]
  | .reasonPhrase => .emit .reasonPhrase [(.mark, none)]
  | .statusCode => .emit .statusCode [(.mark, none)]
  | .httpVersion => .emit .httpVersion [(.mark, none)]
  | .chunkSize => .emit .chunkSize [(.mark, none)]
  | .transChunked => .emit .transChunked []
  | .done => .stop
  | .writeConnectionClose => .skip

abbrev RequestMachine (σ : Type) := Machine σ RequestAction RequestAction.op

abbrev ResponseMachine (σ : Type) := Machine σ ResponseAction ResponseAction.op

def stringOf (t : Token) : Option (List UInt8) := string t.ptr (toUInt64 t.len)

/-- The version of both messages; absent when it is neither of the two. -/
def versionOf (t : Token) : Option UInt8 :=
  if strncmp (bytes "HTTP/1.1") t.ptr (toUInt64 t.len) then some 0x11
  else if strncmp (bytes "HTTP/1.0") t.ptr (toUInt64 t.len) then some 0x10
  else none

/-- A header field of both messages; a field without a name is dropped. -/
def fieldOf (field value : Token) (hs : MapType) : Option MapType :=
  if toUInt64 field.len = 0 then some hs
  else (stringOf field).bind fun f => (stringOf value).map fun v => setHeader f v hs

structure RequestState where
  data : HttpRequest := {}
  error : Nat := 0
deriving DecidableEq

def onRequestHttpField (s : RequestState) (field value : Token) : Option RequestState :=
  (fieldOf field value s.data.headers).map fun hs => { s with data := { s.data with headers := hs } }

def onRequestMethod (s : RequestState) (t : Token) : RequestState :=
  if chars2HttpMethod t.ptr = .invalidMethod then { s with error := 1000 }
  else { s with data := { s.data with method := chars2HttpMethod t.ptr } }

def onRequestFragment (s : RequestState) (t : Token) : Option RequestState :=
  (stringOf t).map fun v => { s with data := { s.data with fragment := v } }

def onRequestPath (s : RequestState) (t : Token) : Option RequestState :=
  (stringOf t).map fun v => { s with data := { s.data with path := v } }

def onRequestQuery (s : RequestState) (t : Token) : Option RequestState :=
  (stringOf t).map fun v => { s with data := { s.data with query := v } }

def onRequestVersion (s : RequestState) (t : Token) : RequestState :=
  (versionOf t).elim { s with error := 1001 } fun v => { s with data := { s.data with version := v } }

def onRequest (s : RequestState) (e : Event RequestCallback) : Option RequestState :=
  match e.kind, e.args with
  | .httpField, [field, value] => onRequestHttpField s field value
  | .requestMethod, [t] => some (onRequestMethod s t)
  | .fragment, [t] => onRequestFragment s t
  | .requestPath, [t] => onRequestPath s t
  | .queryString, [t] => onRequestQuery s t
  | .httpVersion, [t] => some (onRequestVersion s t)
  | _, _ => none

structure ResponseState where
  data : HttpResponse := {}
  error : Nat := 0
  contentLen : Int := -1
  chunked : Bool := false
  chunksDone : Bool := false
deriving DecidableEq

def onResponseHttpField (s : ResponseState) (field value : Token) : Option ResponseState :=
  (fieldOf field value s.data.headers).map fun hs => { s with data := { s.data with headers := hs } }

def onResponseReason (s : ResponseState) (t : Token) : Option ResponseState :=
  (stringOf t).map fun v => { s with data := { s.data with reason := v } }

def onResponseStatus (s : ResponseState) (t : Token) : ResponseState :=
  { s with data := { s.data with status := atoi t.ptr } }

def onResponseVersion (s : ResponseState) (t : Token) : ResponseState :=
  (versionOf t).elim { s with error := 1001 } fun v => { s with data := { s.data with version := v } }

def writeContentLen (s : ResponseState) (t : Token) : ResponseState :=
  { s with contentLen := truncate (strtol 10 t.ptr) }

def chunkSize (s : ResponseState) (t : Token) : ResponseState :=
  { s with chunked := true, contentLen := truncate (strtol 16 t.ptr),
           chunksDone := truncate (strtol 16 t.ptr) ≤ 0 }

def onResponse (s : ResponseState) (e : Event ResponseCallback) : Option ResponseState :=
  match e.kind, e.args with
  | .httpField, [field, value] => onResponseHttpField s field value
  | .reasonPhrase, [t] => onResponseReason s t
  | .statusCode, [t] => some (onResponseStatus s t)
  | .httpVersion, [t] => some (onResponseVersion s t)
  | .contentLen, [t] => some (writeContentLen s t)
  | .chunkSize, [t] => some (chunkSize s t)
  | .transChunked, [] => some { s with chunked := true }
  | _, _ => none

structure Parser (σ P L S : Type) where
  cs : Option σ
  regs : Regs P L
  state : S

/-- What the two parsers differ in: the callbacks, the registers that `execute` resets,
what it asserts about the buffer, and where an error of a callback is kept. -/
structure Frontend (P L K S : Type) where
  handle : S → Event K → Option S
  reset : Regs P L → Regs P L
  guard : List UInt8 → Nat → Bool
  error : S → Nat

section Execute

variable {σ A P L K S : Type} [DecidableEq P] [DecidableEq L] {op : A → Op P L K}

/-- The generated code of `execute` on the first `len` bytes of the buffer: the parser
behind it and the number of bytes it has consumed, absent when an assertion fails or a
callback leaves the readable memory. The assertions on the marks behind the loop hold
because a mark is the offset of a byte that has been consumed. -/
def Frontend.execute (F : Frontend P L K S) (M : Machine σ A op) (parser : Parser σ P L S)
    (data : List UInt8) (len : Nat) : Option (Parser σ P L S × Nat) :=
  if F.guard data len then
    match parser.cs with
    | none => some ({ parser with regs := F.reset parser.regs }, 0)
    | some cs =>
      let o := scan M data cs (F.reset parser.regs) 0 (data.take len)
      (o.events.foldlM F.handle parser.state).map fun s => (⟨o.cs, o.regs, s⟩, o.pos)
  else none

def Frontend.hasError (F : Frontend P L K S) (parser : Parser σ P L S) : Bool :=
  F.error parser.state ≠ 0 || parser.cs.isNone

def isFinished (M : Machine σ A op) (parser : Parser σ P L S) : Bool := parser.cs.any M.final

end Execute

/-- `http_parser_execute` sets all marks but `query_start` to zero. -/
def requestFrontend : Frontend RequestMark FieldLen RequestCallback RequestState where
  handle := onRequest
  reset g := ⟨fun r => if r = .queryStart then g.pos r else 0, fun _ => 0⟩
  guard _ _ := true
  error := RequestState.error

/-- `httpclient_parser_execute` asserts that the byte behind the data is NUL. -/
def responseFrontend : Frontend ResponseMark FieldLen ResponseCallback ResponseState where
  handle := onResponse
  reset _ := ⟨fun _ => 0, fun _ => 0⟩
  guard data len := data[len]? = some 0
  error := ResponseState.error

/-- The tokens of a text as the grammars delimit them: they end at the byte that the
callback is called at, a method is followed by a blank, and a number by a byte that is no
part of it. -/
def Delimits (e : Event RequestCallback) : Prop :=
  (∀ t ∈ e.args, 0 ≤ t.len ∧ t.len ≤ t.upto) ∧
    (e.kind = .requestMethod → ∀ t ∈ e.args, t.ptr[t.upto.toNat]? = some 32)

def DelimitsResponse (e : Event ResponseCallback) : Prop :=
  (∀ t ∈ e.args, 0 ≤ t.len ∧ t.len ≤ t.upto) ∧
    (e.kind = .statusCode ∨ e.kind = .contentLen → ∀ t ∈ e.args, IsNumber 10 t.ptr t.upto.toNat) ∧
    (e.kind = .chunkSize → ∀ t ∈ e.args, IsNumber 16 t.ptr t.upto.toNat)

instance (e : Event RequestCallback) : Decidable (Delimits e) := inferInstanceAs (Decidable (_ ∧ _))

instance (e : Event ResponseCallback) : Decidable (DelimitsResponse e) :=
  inferInstanceAs (Decidable (_ ∧ _ ∧ _))

section Alike

variable {t u : Token}

theorem take_of_alike (h : t.Alike u) (h0 : 0 ≤ t.upto) :
    t.ptr.take (t.upto.toNat + 1) = u.ptr.take (t.upto.toNat + 1) := by
  have hnat : (t.upto + 1).toNat = t.upto.toNat + 1 := by omega
  exact hnat ▸ h.2.2

theorem toUInt64_le (t : Token) (h : 0 ≤ t.len ∧ t.len ≤ t.upto) : toUInt64 t.len ≤ t.upto.toNat + 1 := by
  unfold toUInt64 modulus
  omega

theorem stringOf_alike (h : t.Alike u) (hlen : 0 ≤ t.len ∧ t.len ≤ t.upto) : stringOf t = stringOf u := by
  rw [stringOf, stringOf, ← h.1]
  exact string_congr (take_of_alike h (hlen.1.trans hlen.2)) (toUInt64_le t hlen)

theorem versionOf_alike (h : t.Alike u) (hlen : 0 ≤ t.len ∧ t.len ≤ t.upto) : versionOf t = versionOf u := by
  have htake : t.ptr.take (toUInt64 t.len) = u.ptr.take (toUInt64 t.len) := by
    have := congrArg (List.take (toUInt64 t.len)) (take_of_alike h (hlen.1.trans hlen.2))
    rwa [List.take_take, List.take_take, Nat.min_eq_left (toUInt64_le t hlen)] at this
  rw [versionOf, versionOf, ← h.1, strncmp_bounded _ htake, strncmp_bounded _ htake]

theorem fieldOf_alike {v w : Token} (ht : t.Alike u) (hv : v.Alike w) (htlen : 0 ≤ t.len ∧ t.len ≤ t.upto)
    (hvlen : 0 ≤ v.len ∧ v.len ≤ v.upto) (hs : MapType) : fieldOf t v hs = fieldOf u w hs := by
  rw [fieldOf, fieldOf, ← ht.1, stringOf_alike ht htlen, stringOf_alike hv hvlen]

/-- The request callbacks do not look beyond the tokens of the grammar. -/
theorem onRequest_alike (s : RequestState) {e f : Event RequestCallback} (h : e.Alike f) (hd : Delimits e) :
    onRequest s e = onRequest s f := by
  obtain ⟨kind, args⟩ := e
  obtain ⟨kind', args'⟩ := f
  obtain ⟨rfl, hargs⟩ := h
  obtain ⟨hlen, hmethod⟩ := hd
  cases hargs with
  | nil => rfl
  | @cons t u ts us ht hts =>
    have htlen := hlen t (List.mem_cons_self ..)
    cases hts with
    | nil =>
      cases kind with
      | httpField => rfl
      | requestMethod =>
        have hm := chars2HttpMethod_delimited (take_of_alike ht (htlen.1.trans htlen.2))
          (hmethod rfl t (List.mem_cons_self ..))
        simp only [onRequest, onRequestMethod, hm]
      | fragment => simp only [onRequest, onRequestFragment, stringOf_alike ht htlen]
      | requestPath => simp only [onRequest, onRequestPath, stringOf_alike ht htlen]
      | queryString => simp only [onRequest, onRequestQuery, stringOf_alike ht htlen]
      | httpVersion => simp only [onRequest, onRequestVersion, versionOf_alike ht htlen]
    | @cons v w vs ws hv hvs =>
      have hvlen := hlen v (by simp)
      cases hvs with
      | nil =>
        cases kind with
        | httpField => simp only [onRequest, onRequestHttpField, fieldOf_alike ht hv htlen hvlen]
        | requestMethod => rfl
        | fragment => rfl
        | requestPath => rfl
        | queryString => rfl
        | httpVersion => rfl
      | cons _ _ => cases kind <;> rfl

theorem onResponse_alike (s : ResponseState) {e f : Event ResponseCallback} (h : e.Alike f)
    (hd : DelimitsResponse e) : onResponse s e = onResponse s f := by
  obtain ⟨kind, args⟩ := e
  obtain ⟨kind', args'⟩ := f
  obtain ⟨rfl, hargs⟩ := h
  obtain ⟨hlen, hdecimal, hhex⟩ := hd
  cases hargs with
  | nil => rfl
  | @cons t u ts us ht hts =>
    have htlen := hlen t (List.mem_cons_self ..)
    have htake := take_of_alike ht (htlen.1.trans htlen.2)
    cases hts with
    | nil =>
      cases kind with
      | httpField => rfl
      | reasonPhrase => simp only [onResponse, onResponseReason, stringOf_alike ht htlen]
      | statusCode =>
        have hn := strtol_delimited (by omega) (hdecimal (.inl rfl) t (List.mem_cons_self ..)) htake
        simp only [onResponse, onResponseStatus, atoi, hn]
      | httpVersion => simp only [onResponse, onResponseVersion, versionOf_alike ht htlen]
      | contentLen =>
        have hn := strtol_delimited (by omega) (hdecimal (.inr rfl) t (List.mem_cons_self ..)) htake
        simp only [onResponse, writeContentLen, hn]
      | chunkSize =>
        have hn := strtol_delimited le_rfl (hhex rfl t (List.mem_cons_self ..)) htake
        simp only [onResponse, chunkSize, hn]
      | transChunked => rfl
    | @cons v w vs ws hv hvs =>
      have hvlen := hlen v (by simp)
      cases hvs with
      | nil =>
        cases kind with
        | httpField => simp only [onResponse, onResponseHttpField, fieldOf_alike ht hv htlen hvlen]
        | reasonPhrase => rfl
        | statusCode => rfl
        | httpVersion => rfl
        | contentLen => rfl
        | chunkSize => rfl
        | transChunked => rfl
      | cons _ _ => cases kind <;> rfl

end Alike

theorem onRequest_error {s s' : RequestState} {e : Event RequestCallback} (h : onRequest s e = some s')
    (h0 : s'.error = 0) : s.error = 0 := by
  unfold onRequest at h
  split at h
  · obtain ⟨hs, -, rfl⟩ := Option.map_eq_some_iff.mp h
    exact h0
  · obtain rfl := Option.some.inj h
    unfold onRequestMethod at h0
    split at h0
    · cases h0
    · exact h0
  · obtain ⟨v, -, rfl⟩ := Option.map_eq_some_iff.mp h
    exact h0
  · obtain ⟨v, -, rfl⟩ := Option.map_eq_some_iff.mp h
    exact h0
  · obtain ⟨v, -, rfl⟩ := Option.map_eq_some_iff.mp h
    exact h0
  · rename_i t _ _
    obtain rfl := Option.some.inj h
    unfold onRequestVersion at h0
    cases hv : versionOf t with
    | none => simp [hv] at h0
    | some v => simpa [hv] using h0
  · cases h

theorem onResponse_error {s s' : ResponseState} {e : Event ResponseCallback} (h : onResponse s e = some s')
    (h0 : s'.error = 0) : s.error = 0 := by
  unfold onResponse at h
  split at h
  · obtain ⟨hs, -, rfl⟩ := Option.map_eq_some_iff.mp h
    exact h0
  · obtain ⟨v, -, rfl⟩ := Option.map_eq_some_iff.mp h
    exact h0
  · obtain rfl := Option.some.inj h
    exact h0
  · rename_i t _ _
    obtain rfl := Option.some.inj h
    unfold onResponseVersion at h0
    cases hv : versionOf t with
    | none => simp [hv] at h0
    | some v => simpa [hv] using h0
  · obtain rfl := Option.some.inj h
    exact h0
  · obtain rfl := Option.some.inj h
    exact h0
  · obtain rfl := Option.some.inj h
    exact h0
  · cases h

section Fold

variable {K S : Type} {handle : S → Event K → Option S}

theorem fold_error {error : S → Nat} (hstep : ∀ s e s', handle s e = some s' → error s' = 0 → error s = 0)
    (es : List (Event K)) {s s' : S} (h : es.foldlM handle s = some s') (h0 : error s' = 0) : error s = 0 := by
  induction es generalizing s with
  | nil =>
    obtain rfl := Option.some.inj h
    exact h0
  | cons e es ih =>
    obtain ⟨s'', hhead, htail⟩ := Option.bind_eq_some_iff.mp h
    exact hstep s e s'' hhead (ih htail)

theorem fold_alike {D : Event K → Prop} (hstep : ∀ s e f, e.Alike f → D e → handle s e = handle s f)
    {es fs : List (Event K)} (h : List.Forall₂ Event.Alike es fs) (hD : ∀ e ∈ es, D e) (s : S) :
    es.foldlM handle s = fs.foldlM handle s := by
  induction h generalizing s with
  | nil => rfl
  | @cons e f es fs hef _ ih =>
    rw [List.foldlM_cons, List.foldlM_cons, hstep s e f hef (hD e (List.mem_cons_self ..))]
    congr 1
    funext s'
    exact ih (fun e' he' => hD e' (List.mem_cons_of_mem _ he')) s'

end Fold

end Windgent.Http
