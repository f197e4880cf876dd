import Windgent.Http.RequestEvents
import Windgent.Http.Cuts

namespace Windgent.Http

open Scanner MachineInt

def httpMethod2String (m : HttpMethod) : String :=
  ((httpMethodMap.find? fun x => x.1 = m).map Prod.snd).getD "<unknown>"

def decimal (n : Nat) : List UInt8 := (Nat.toDigits 10 n).map fun c => c.toNat.toUInt8

def HttpRequest.connection (r : HttpRequest) : List UInt8 := bytes (if r.close then "close" else "keep-alive")

def HttpRequest.head (r : HttpRequest) : List UInt8 :=
  bytes (httpMethod2String r.method) ++ bytes " " ++ r.path ++ Http11.part 63 r.query ++ Http11.part 35 r.fragment ++
    bytes " HTTP/" ++ decimal (r.version >>> 4).toNat ++ bytes "." ++ decimal (r.version &&& 0x0F).toNat ++
    bytes "\r\n" ++ (bytes "Connection: " ++ r.connection ++ bytes "\r\n") ++
    r.headers.flatMap (fun h => h.1 ++ bytes ": " ++ h.2 ++ bytes "\r\n") ++
    if r.body = [] then bytes "\r\n" else bytes "Content-Length: " ++ decimal r.body.length ++ bytes "\r\n\r\n"

def HttpRequest.dump (r : HttpRequest) : List UInt8 := r.head ++ r.body

/-- The request with the header lines that `dump` adds. -/
def HttpRequest.received (r : HttpRequest) : HttpRequest :=
  let headers := setHeader (bytes "Connection") r.connection r.headers
  { r with headers :=
      if r.body = [] then headers else setHeader (bytes "Content-Length") (decimal r.body.length) headers }

section Headers

variable {key key' val val' k v : List UInt8} {hs : MapType}

theorem less_iff : caseInsensitiveLess key key' = true ↔ folded key < folded key' := by
  simp [caseInsensitiveLess]

theorem less_eq_false (h : folded key < folded key') : caseInsensitiveLess key' key = false := by
  simpa [caseInsensitiveLess] using List.le_of_lt h

theorem less_self (h : folded key = folded key') : caseInsensitiveLess key key' = false := by
  simp [caseInsensitiveLess, h]

theorem folded_trichotomy (key key' : List UInt8) :
    folded key < folded key' ∨ folded key = folded key' ∨ folded key' < folded key := by
  obtain h | h := List.le_total_of_asymm (folded key) (folded key')
  · obtain h | h := List.le_iff_lt_or_eq.mp h
    · exact .inl h
    · exact .inr (.inl h)
  · obtain h | h := List.le_iff_lt_or_eq.mp h
    · exact .inr (.inr h)
    · exact .inr (.inl h.symm)

theorem setHeader_before (h : folded key < folded k) :
    setHeader key val ((k, v) :: hs) = (key, val) :: (k, v) :: hs := by
  simp [setHeader, less_iff.mpr h]

theorem setHeader_behind (h : folded k < folded key) :
    setHeader key val ((k, v) :: hs) = (k, v) :: setHeader key val hs := by
  simp [setHeader, less_iff.mpr h, less_eq_false h]

theorem setHeader_at (h : folded k = folded key) : setHeader key val ((k, v) :: hs) = (k, val) :: hs := by
  simp [setHeader, less_self h, less_self h.symm]

theorem setHeader_comm_of_less (h : folded key < folded key') (hs : MapType) :
    setHeader key val (setHeader key' val' hs) = setHeader key' val' (setHeader key val hs) := by
  induction hs with
  | nil =>
    have hnil : ∀ key val, setHeader key val [] = [(key, val)] := fun _ _ => rfl
    rw [hnil, hnil, setHeader_before h, setHeader_behind h, hnil]
  | cons x hs ih =>
    obtain ⟨k, v⟩ := x
    obtain hk | hk | hk := folded_trichotomy k key
    · have hk' : folded k < folded key' := List.lt_trans hk h
      rw [setHeader_behind hk', setHeader_behind hk, setHeader_behind hk, setHeader_behind hk', ih]
    · have hk' : folded k < folded key' := hk ▸ h
      rw [setHeader_behind hk', setHeader_at hk, setHeader_at hk, setHeader_behind hk']
    · rw [setHeader_before hk, setHeader_behind h]
      obtain hk' | hk' | hk' := folded_trichotomy k key'
      · rw [setHeader_behind hk', setHeader_before hk]
      · rw [setHeader_at hk', setHeader_before hk]
      · rw [setHeader_before hk', setHeader_before h]

theorem setHeader_comm (h : folded key ≠ folded key') (hs : MapType) :
    setHeader key val (setHeader key' val' hs) = setHeader key' val' (setHeader key val hs) := by
  obtain hk | hk | hk := folded_trichotomy key key'
  · exact setHeader_comm_of_less hk hs
  · exact absurd hk h
  · exact (setHeader_comm_of_less hk hs).symm

theorem setHeader_last (h : ∀ x ∈ hs, folded x.1 < folded key) : setHeader key val hs = hs ++ [(key, val)] := by
  induction hs with
  | nil => rfl
  | cons x hs ih =>
    obtain ⟨hx, hhs⟩ := List.forall_mem_cons.mp h
    rw [setHeader_behind hx, ih hhs, List.cons_append]

/-- The entries of a map, set one after the other behind those of `front`. -/
theorem foldl_setHeader (front hs : MapType)
    (h : (front ++ hs).Pairwise fun x y => folded x.1 < folded y.1) :
    hs.foldl (fun m x => setHeader x.1 x.2 m) front = front ++ hs := by
  induction hs generalizing front with
  | nil => simp
  | cons x hs ih =>
    have hlast : setHeader x.1 x.2 front = front ++ [x] :=
      setHeader_last fun y hy => (List.pairwise_append.mp h).2.2 y hy x (List.mem_cons_self ..)
    rw [List.foldl_cons, hlast, ih (front ++ [x]) (by simpa using h), List.append_assoc]
    rfl

theorem foldl_setHeader_comm (h : ∀ x ∈ hs, folded x.1 ≠ folded key) (front : MapType) :
    hs.foldl (fun m x => setHeader x.1 x.2 m) (setHeader key val front) =
      setHeader key val (hs.foldl (fun m x => setHeader x.1 x.2 m) front) := by
  induction hs generalizing front with
  | nil => rfl
  | cons x hs ih =>
    obtain ⟨hx, hhs⟩ := List.forall_mem_cons.mp h
    rw [List.foldl_cons, List.foldl_cons, setHeader_comm hx, ih hhs]

theorem getHeader_cons : getHeader key ((k, v) :: hs) = if folded k = folded key then some v else getHeader key hs := by
  obtain h | h | h := folded_trichotomy k key
  · have hne : folded k ≠ folded key := fun he => List.lt_irrefl _ (he ▸ h)
    simp [getHeader, less_iff.mpr h, hne]
  · simp [getHeader, less_self h, less_self h.symm, h]
  · have hne : folded k ≠ folded key := fun he => List.lt_irrefl _ (he ▸ h)
    simp [getHeader, less_iff.mpr h, hne]

theorem getHeader_setHeader : getHeader key' (setHeader key val hs) =
    if folded key = folded key' then some val else getHeader key' hs := by
  induction hs with
  | nil => rw [setHeader, getHeader_cons]
  | cons x hs ih =>
    obtain ⟨k, v⟩ := x
    obtain h | h | h := folded_trichotomy key k
    · rw [setHeader_before h, getHeader_cons]
    · rw [setHeader_at h.symm, getHeader_cons, getHeader_cons, h]
      split <;> rfl
    · rw [setHeader_behind h, getHeader_cons, ih, getHeader_cons]
      by_cases hk : folded key = folded key'
      · have hne : folded k ≠ folded key' := fun he => List.lt_irrefl _ (hk ▸ he ▸ h)
        simp [hk, hne]
      · simp [hk]

theorem getHeader_eq_none (h : ∀ x ∈ hs, folded x.1 ≠ folded key) : getHeader key hs = none := by
  induction hs with
  | nil => rfl
  | cons x hs ih =>
    obtain ⟨hx, hhs⟩ := List.forall_mem_cons.mp h
    rw [getHeader_cons, if_neg hx, ih hhs]

end Headers

namespace Http11

/-- The requests whose text the grammar takes apart again. The headers are in the order
of the map. -/
structure Dumpable (relaxed : Bool) (r : HttpRequest) : Prop where
  method : ∀ c ∈ bytes (httpMethod2String r.method), methodChar c = true
  version : r.version = 0x10 ∨ r.version = 0x11
  path : IsPath relaxed r.path
  query : Pchars relaxed (oneOf "/?") r.query
  fragment : Pchars relaxed (oneOf "/?") r.fragment
  sorted : r.headers.Pairwise fun x y => caseInsensitiveLess x.1 y.1 = true
  names : ∀ x ∈ r.headers, x.1 ≠ [] ∧ ∀ c ∈ x.1, token c = true
  others : ∀ x ∈ r.headers, folded x.1 ≠ folded (bytes "connection") ∧ folded x.1 ≠ folded (bytes "content-length")
  values : ∀ x ∈ r.headers, x.2 ≠ [] ∧ (∀ c ∈ x.2, printable c = true) ∧ ∀ c ∈ x.2.head?, blank c = false

section RoundTrip

variable {relaxed : Bool} {r : HttpRequest}

theorem Dumpable.method_mem (h : Dumpable relaxed r) : (r.method, httpMethod2String r.method) ∈ httpMethodMap := by
  have hm := h.method
  cases hmethod : r.method with
  | invalidMethod =>
    rw [hmethod] at hm
    exact absurd (hm 60 (by decide)) (by decide)
  | _ => decide

def Dumpable.line (h : Dumpable relaxed r) : Line relaxed where
  method := bytes (httpMethod2String r.method)
  path := r.path
  query := r.query
  fragment := r.fragment
  minor := 48 + (r.version &&& 0x0F)
  method_ne := by
    have hall : ∀ x ∈ httpMethodMap, bytes x.2 ≠ [] := by decide
    exact hall (r.method, httpMethod2String r.method) h.method_mem
  method_le := by
    have hall : ∀ x ∈ httpMethodMap, (bytes x.2).length ≤ 20 := by decide
    exact hall (r.method, httpMethod2String r.method) h.method_mem
  method_chars := h.method
  path_ok := h.path
  query_ok := h.query
  fragment_ok := h.fragment
  minor_ok := by
    obtain hv | hv := h.version <;> rw [hv] <;> decide

theorem decimal_ne (n : Nat) : decimal n ≠ [] := by simp [decimal, Nat.toDigits_ne_nil]

theorem decimal_digit {n : Nat} {c : UInt8} (h : c ∈ decimal n) : digit c = true := by
  obtain ⟨d, hd, rfl⟩ := List.mem_map.mp h
  have hdigit := Nat.isDigit_of_mem_toDigits (by decide) le_rfl hd
  simp only [Char.isDigit, Bool.and_eq_true, decide_eq_true_eq, UInt32.le_iff_toNat_le] at hdigit
  obtain ⟨hlo, hhi⟩ := hdigit
  change 48 ≤ d.toNat at hlo
  change d.toNat ≤ 57 at hhi
  have hmod : d.toNat % 256 = d.toNat := Nat.mod_eq_of_lt (by omega)
  simp [digit, between, UInt8.le_iff_toNat_le, hmod, hlo, hhi]

theorem digit_printable {c : UInt8} (h : digit c = true) : printable c = true ∧ blank c = false := by
  have hall : ∀ n < 256, digit (UInt8.ofNat n) = true →
      printable (UInt8.ofNat n) = true ∧ blank (UInt8.ofNat n) = false := by decide +kernel
  simpa using hall c.toNat c.toNat_lt (by simpa using h)

theorem connection_ne : bytes "Connection" ≠ [] := by decide

theorem connection_token : ∀ c ∈ bytes "Connection", token c = true := List.all_eq_true.mp (by decide +kernel)

theorem connection_value (r : HttpRequest) :
    r.connection ≠ [] ∧ (∀ c ∈ r.connection, printable c = true) ∧ ∀ c ∈ r.connection.head?, blank c = false := by
  refine ⟨?_, ?_, ?_⟩
  · cases hc : r.close <;> simp [HttpRequest.connection, hc, bytes]
  · cases hc : r.close <;> simp only [HttpRequest.connection, hc] <;> decide +kernel
  · cases hc : r.close <;> simp only [HttpRequest.connection, hc] <;> decide +kernel

def connectionField (r : HttpRequest) : Field where
  name := bytes "Connection"
  value := r.connection
  name_ne := connection_ne
  name_token := connection_token
  value_ne := (connection_value r).1
  value_printable := (connection_value r).2.1
  value_head := (connection_value r).2.2

def lengthField (r : HttpRequest) : Field where
  name := bytes "Content-Length"
  value := decimal r.body.length
  name_ne := by decide
  name_token := List.all_eq_true.mp (by decide +kernel)
  value_ne := decimal_ne _
  value_printable _ hc := (digit_printable (decimal_digit hc)).1
  value_head _ hc := (digit_printable (decimal_digit (List.mem_of_mem_head? hc))).2

def Dumpable.headerFields (h : Dumpable relaxed r) : List Field :=
  r.headers.attach.map fun x => ⟨x.1.1, x.1.2, (h.names x.1 x.2).1, (h.names x.1 x.2).2, (h.values x.1 x.2).1,
    (h.values x.1 x.2).2.1, (h.values x.1 x.2).2.2⟩

theorem Dumpable.entries (h : Dumpable relaxed r) : h.headerFields.map (fun f => (f.name, f.value)) = r.headers := by
  rw [Dumpable.headerFields, List.map_map]
  exact List.attach_map_subtype_val r.headers

def Dumpable.fields (h : Dumpable relaxed r) : List Field :=
  connectionField r :: h.headerFields ++ if r.body = [] then [] else [lengthField r]

theorem Dumpable.head_eq (h : Dumpable relaxed r) :
    r.head = h.line.text ++ h.fields.flatMap Field.text ++ [13, 10] := by
  have hheaders : h.headerFields.flatMap Field.text =
      r.headers.flatMap fun x => x.1 ++ bytes ": " ++ x.2 ++ bytes "\r\n" := by
    have htext : Field.text = fun f => (fun x : List UInt8 × List UInt8 =>
        x.1 ++ bytes ": " ++ x.2 ++ bytes "\r\n") (f.name, f.value) := by
      funext f
      simp [Field.text, bytes]
    conv_rhs => rw [← h.entries]
    rw [List.flatMap_map, htext]
  have hversion : bytes " HTTP/" ++ decimal (r.version >>> 4).toNat ++ bytes "." ++
      decimal (r.version &&& 0x0F).toNat ++ bytes "\r\n" = 32 :: (h.line.version ++ [13, 10]) := by
    unfold Line.version Dumpable.line
    obtain hv | hv := h.version <;> simp only [hv] <;> decide
  have hline : h.line.text = bytes (httpMethod2String r.method) ++ bytes " " ++ r.path ++ part 63 r.query ++
      part 35 r.fragment ++ (bytes " HTTP/" ++ decimal (r.version >>> 4).toNat ++ bytes "." ++
        decimal (r.version &&& 0x0F).toNat ++ bytes "\r\n") := by
    rw [hversion]
    simp [Line.text, Line.target, Dumpable.line, bytes]
  have hlast : (if r.body = [] then bytes "\r\n" else
      bytes "Content-Length: " ++ decimal r.body.length ++ bytes "\r\n\r\n") =
        (if r.body = [] then [] else [lengthField r]).flatMap Field.text ++ [13, 10] := by
    by_cases hb : r.body = []
    · simp [hb, bytes]
    · simp [hb, bytes, Field.text, lengthField]
  have hconn : bytes "Connection: " ++ r.connection ++ bytes "\r\n" = (connectionField r).text := by
    simp [bytes, Field.text, connectionField]
  rw [HttpRequest.head, hlast, hconn, ← hheaders, hline, Dumpable.fields]
  simp only [List.cons_append, List.flatMap_cons, List.flatMap_append, List.append_assoc]

def setAll (fs : List Field) : MapType := fs.foldl (fun hs f => setHeader f.name f.value hs) []

theorem Dumpable.setAll_fields (h : Dumpable relaxed r) : setAll h.fields = r.received.headers := by
  have hheaders : ∀ front, h.headerFields.foldl (fun hs f => setHeader f.name f.value hs) front =
      r.headers.foldl (fun hs x => setHeader x.1 x.2 hs) front := by
    intro front
    conv_rhs => rw [← h.entries]
    rw [List.foldl_map]
  have hsorted : (([] : MapType) ++ r.headers).Pairwise fun x y => folded x.1 < folded y.1 :=
    h.sorted.imp less_iff.mp
  have hfirst : (h.headerFields.foldl (fun hs f => setHeader f.name f.value hs)
      (setHeader (bytes "Connection") r.connection [])) = setHeader (bytes "Connection") r.connection r.headers := by
    have hothers : ∀ x ∈ r.headers, folded x.1 ≠ folded (bytes "Connection") := by
      intro x hx
      rw [show folded (bytes "Connection") = folded (bytes "connection") by decide]
      exact (h.others x hx).1
    rw [hheaders, foldl_setHeader_comm hothers, foldl_setHeader [] r.headers hsorted,
      List.nil_append]
  rw [setAll, Dumpable.fields, List.cons_append, List.foldl_cons, List.foldl_append]
  have hconn : (connectionField r).name = bytes "Connection" ∧ (connectionField r).value = r.connection := ⟨rfl, rfl⟩
  rw [hconn.1, hconn.2, hfirst]
  by_cases hb : r.body = []
  · simp [HttpRequest.received, hb]
  · simp [HttpRequest.received, hb, lengthField]

def parsed (r : HttpRequest) (hs : MapType) : RequestState :=
  { data :=
      { method := r.method, version := r.version, path := r.path, query := r.query, fragment := r.fragment,
        headers := hs } }

/-- A header block with the request line of `r`. -/
def Dumpable.block (h : Dumpable relaxed r) (fs : List Field) (eol : List UInt8) : List UInt8 :=
  h.line.text ++ fs.flatMap Field.text ++ eol

theorem Dumpable.does (h : Dumpable relaxed r) (fs : List Field) {data eol : List UInt8}
    (hat : At data 0 (h.block fs eol)) (hlen : (h.block fs eol).length < 2 ^ 64) (g : Regs RequestMark FieldLen) :
    ∃ g', Does relaxed data 0 (h.line.trace ++ fs.flatMap Field.trace ++ ([18] :: Ragel.silent eol.tail)) g {} g'
      (parsed r (setAll fs)) := by
  simp only [Dumpable.block, List.length_append] at hlen
  obtain ⟨hatl, hatf⟩ := hat.append.1.append
  obtain ⟨g₁, hline⟩ := Does.line (g := g) (s := {}) h.line h.method_mem rfl hatl (by omega)
  obtain ⟨g₂, hfields⟩ := Does.fields relaxed (g := g₁) fs hatf (by omega)
  have hend : ∀ g p s, Does relaxed data p ([18] :: Ragel.silent eol.tail) g s (setMark g .fieldStart p) s :=
    fun g p s => Does.startField.append (Does.silent eol.tail)
  have hall := (hline.then (by rw [h.line.length_trace]) hfields).append (hend ..)
  refine ⟨setMark g₂ .fieldStart (0 + (h.line.trace ++ fs.flatMap Field.trace).length), ?_⟩
  have hversion : minorVersion h.line.minor = r.version := by
    have hminor : ∀ v : UInt8, v = 0x10 ∨ v = 0x11 → minorVersion (48 + (v &&& 0x0F)) = v := by
      rintro v (rfl | rfl) <;> decide
    exact hminor _ h.version
  have hpart : ∀ s : List UInt8, (if s = [] then ([] : List UInt8) else s) = s := by
    intro s
    split
    · symm
      assumption
    · rfl
  have hstate : parsed r (setAll fs) =
      { data :=
          { method := r.method, version := minorVersion h.line.minor, path := r.path,
            query := if r.query = [] then [] else r.query,
            fragment := if r.fragment = [] then [] else r.fragment,
            headers := setAll fs } } := by
    rw [hversion, hpart, hpart, parsed]
  rw [hstate]
  exact hall

theorem Dumpable.execute (h : Dumpable relaxed r) {fs : List Field} (hfs : ∀ f ∈ fs, endsBlock f.name = false)
    {eol data rest : List UInt8} (he : IsEnd eol) {len : Nat} (queryStart : Nat)
    (hdata : data.take len = h.block fs eol ++ rest) (hlen : (h.block fs eol).length < 2 ^ 64) :
    ∃ cs g, isFinished (httpParser relaxed) ⟨some cs, g, parsed r (setAll fs)⟩ = true ∧
      requestFrontend.execute (httpParser relaxed) ⟨some (httpParser relaxed).start, requestRegs queryStart, {}⟩
        data len = some (⟨some cs, g, parsed r (setAll fs)⟩, (h.block fs eol).length) := by
  obtain ⟨T, hrun, hfinal⟩ := run_head h.line hfs he
  have hne : h.block fs eol ≠ [] := by
    obtain rfl | rfl := he <;> simp [Dumpable.block]
  have hdone : (RequestAction.op .done).isStop = true := rfl
  have hstop : ∀ a ∈ (main relaxed).table, (RequestAction.op a).isStop = false := by
    rw [main_table]
    decide
  obtain ⟨cs, hcs, hscan⟩ := Ragel.scan_complete hdone hstop data (fun _ h => h) hrun
    (S := [(main relaxed).stamp 0]) (by simp) hfinal hne (requestFrontend.reset (requestRegs queryStart)) 0 rest
  have hat : At data 0 (h.block fs eol) := by
    refine ⟨rest ++ data.drop len, ?_⟩
    rw [List.drop_zero, ← List.append_assoc, ← hdata, List.take_append_drop]
  obtain ⟨g, hregs, hstate⟩ := h.does fs hat hlen (requestFrontend.reset (requestRegs queryStart))
  have hmachine : Ragel.machine (main relaxed) .done hdone hstop = httpParser relaxed := rfl
  have hstart : (httpParser relaxed).start = [(main relaxed).stamp 0] := rfl
  have hfinished : (httpParser relaxed).final = Ragel.isFinal := rfl
  have hfold : requestFrontend.handle = onRequest := rfl
  have hguard : requestFrontend.guard data len = true := rfl
  rw [Dumpable.block] at hdata
  rw [hmachine, hregs, ← hdata] at hscan
  refine ⟨cs, g, ?_, ?_⟩
  · rw [isFinished, hfinished]
    exact hcs
  · simp only [Frontend.execute, hguard, if_true, hstart, hscan, hfold, hstate, Option.map_some, Nat.zero_add,
      Dumpable.block]

theorem Dumpable.contentLength (h : Dumpable relaxed r) {lexicalCast : List UInt8 → Option UInt64}
    (hcast : lexicalCast (decimal r.body.length) = some (UInt64.ofNat r.body.length)) (hlen : r.body.length < 2 ^ 64) :
    contentLength lexicalCast r.received.headers = r.body.length := by
  have hconn : folded (bytes "Connection") ≠ folded (bytes "content-length") := by decide
  have hsame : folded (bytes "Content-Length") = folded (bytes "content-length") := by decide
  have hnone := getHeader_eq_none fun x hx => (h.others x hx).2
  by_cases hb : r.body = []
  · simp [HttpRequest.received, hb, Http.contentLength, getHeader_setHeader, hconn, hnone]
  · have hmod : (UInt64.ofNat r.body.length).toNat = r.body.length := by simpa using Nat.mod_eq_of_lt hlen
    simp [HttpRequest.received, hb, Http.contentLength, getHeader_setHeader, hsame, hcast, hmod]

theorem getHeader_received (r : HttpRequest) :
    getHeader (bytes "connection") r.received.headers = some r.connection := by
  have hsame : folded (bytes "Connection") = folded (bytes "connection") := by decide
  have hother : folded (bytes "Content-Length") ≠ folded (bytes "connection") := by decide
  by_cases hb : r.body = []
  · simp [HttpRequest.received, hb, getHeader_setHeader, hsame]
  · simp [HttpRequest.received, hb, getHeader_setHeader, hsame, hother]

theorem init_parsed (r : HttpRequest) :
    ({ (parsed r r.received.headers).data with body := r.body }).init = r.received := by
  have hinit : ∀ hs, getHeader (bytes "connection") hs = some r.connection →
      ({ (parsed r hs).data with body := r.body }).init = { r with headers := hs } := by
    intro hs hconn
    cases hc : r.close with
    | true =>
      have hvalue : r.connection = bytes "close" := by simp [HttpRequest.connection, hc]
      have hne : ¬ bytes "close" = [] := by decide
      have hkeep : ¬ folded (bytes "close") = folded (bytes "keep-alive") := by decide
      simp [HttpRequest.init, parsed, hconn, hvalue, hne, hkeep]
    | false =>
      have hvalue : r.connection = bytes "keep-alive" := by simp [HttpRequest.connection, hc]
      have hne : ¬ bytes "keep-alive" = [] := by decide
      simp [HttpRequest.init, parsed, hconn, hvalue, hne]
  exact hinit r.received.headers (getHeader_received r)

theorem Dumpable.recvHeader (h : Dumpable relaxed r) {fs : List Field}
    (hfs : ∀ f ∈ fs, endsBlock f.name = false) {eol : List UInt8} (he : IsEnd eol) (queryStart fuel : Nat)
    {memory piece rest : List UInt8} {source source' : Source}
    (hread : readPiece memory.length source = some (piece, source')) (hpiece : piece = h.block fs eol ++ rest)
    (hfit : piece.length ≤ memory.length) (hlen : (h.block fs eol).length < 2 ^ 64) :
    ∃ cs g data, Http.recvHeader requestFrontend (httpParser relaxed) memory.length (fuel + 1)
        ⟨some (httpParser relaxed).start, requestRegs queryStart, {}⟩ memory 0 source =
          .done (⟨some cs, g, parsed r (setAll fs)⟩, data, rest.length, source') ∧ data.take rest.length = rest := by
  have hpos : 0 < (h.block fs eol).length := by
    obtain rfl | rfl := he <;> simp [Dumpable.block]
  have hne : piece ≠ [] := by
    rw [hpiece]
    simp [List.ne_nil_of_length_pos hpos]
  have hplen : piece.length = (h.block fs eol).length + rest.length := by rw [hpiece, List.length_append]
  have htake := take_overlay_zero memory piece
  obtain ⟨cs, g, hfinished, hexec⟩ := h.execute hfs he queryStart (htake.trans hpiece) hlen
  have hstep := recvHeader_step fuel hread hne hexec (by simp [Frontend.hasError, requestFrontend, parsed])
    (by omega)
  rw [if_pos hfinished, hplen, Nat.add_sub_cancel_left] at hstep
  refine ⟨cs, g, _, hstep, ?_⟩
  have hover : (overlay memory 0 piece).length = memory.length := length_overlay (by omega)
  rw [take_memmove (by omega), List.take_drop, ← hplen, htake, hpiece, List.drop_left]

theorem Dumpable.recvRequest (h : Dumpable relaxed r) {fs : List Field}
    (hfs : ∀ f ∈ fs, endsBlock f.name = false) {eol : List UInt8} (he : IsEnd eol)
    (lexicalCast : List UInt8 → Option UInt64) (queryStart : Nat) {memory piece rest : List UInt8}
    {source source' : Source} (hread : readPiece memory.length source = some (piece, source'))
    (hpiece : piece = h.block fs eol ++ rest) (hfit : piece.length ≤ memory.length)
    (hlen : (h.block fs eol).length < 2 ^ 64) :
    Http.recvRequest (httpParser relaxed) lexicalCast queryStart memory source =
      recvRest lexicalCast (setAll fs) rest source' >>= fun body =>
        .done ({ (parsed r (setAll fs)).data with body := body }).init := by
  obtain ⟨cs, g, data, hheader, hdata⟩ := h.recvHeader hfs he queryStart source.flatten.length hread hpiece hfit hlen
  change Http.recvHeader requestFrontend (httpParser relaxed) memory.length _
    ⟨some (httpParser relaxed).start, requestRegs queryStart, {}⟩ memory 0 _ >>= _ = _
  rw [hheader, done_bind]
  simp only [hdata]
  rfl

theorem readPiece_dump {memory first : List UInt8} {source : Source} (htext : first ++ source.flatten = r.dump)
    (hreads : ∀ p ∈ first :: source, p ≠ [] ∧ p.length < 2 ^ 31)
    (hhead : r.head.length ≤ min first.length memory.length) :
    ∃ rest source', readPiece memory.length (first :: source) = some (r.head ++ rest, source') ∧
      rest ++ source'.flatten = r.body ∧ (r.head ++ rest).length = min first.length memory.length ∧
      ∀ p ∈ source', p ≠ [] ∧ p.length < 2 ^ 31 := by
  obtain ⟨piece, source', hread, hall, hplen, hreads'⟩ : ∃ piece source',
      readPiece memory.length (first :: source) = some (piece, source') ∧
      piece ++ source'.flatten = r.dump ∧ piece.length = min first.length memory.length ∧
      ∀ p ∈ source', p ≠ [] ∧ p.length < 2 ^ 31 := by
    obtain ⟨hfirst, hsource⟩ := List.forall_mem_cons.mp hreads
    refine ⟨_, _, rfl, ?_, by rw [List.length_take, Nat.min_comm], ?_⟩
    · split
      · rename_i hle
        rw [List.take_of_length_le hle, htext]
      · rw [List.flatten_cons, ← List.append_assoc, List.take_append_drop, htext]
    · split
      · exact hsource
      · refine List.forall_mem_cons.mpr ⟨⟨?_, ?_⟩, hsource⟩
        · apply List.ne_nil_of_length_pos
          rw [List.length_drop]
          omega
        · rw [List.length_drop]
          omega
  obtain ⟨rest, hpiece, hbody⟩ : ∃ rest, piece = r.head ++ rest ∧ rest ++ source'.flatten = r.body := by
    rw [HttpRequest.dump] at hall
    obtain ⟨rest, hp, hb⟩ | ⟨rest, hp, hb⟩ := List.append_eq_append_iff.mp hall
    · have hnil : rest = [] := by
        apply List.eq_nil_of_length_eq_zero
        have := congrArg List.length hp
        rw [List.length_append] at this
        omega
      subst hnil
      exact ⟨[], by simpa using hp.symm, by simpa using hb⟩
    · exact ⟨rest, hp, hb.symm⟩
  rw [hpiece] at hread hplen
  exact ⟨rest, source', hread, hbody, hplen, hreads'⟩

/-- No header name looks like the end of the header block. -/
def WellNamed (r : HttpRequest) : Prop := ∀ x ∈ r.headers, endsBlock x.1 = false

instance (r : HttpRequest) : Decidable (WellNamed r) := inferInstanceAs (Decidable (∀ x ∈ r.headers, _))

theorem Dumpable.wellNamed_fields (h : Dumpable relaxed r) (hu : WellNamed r) :
    ∀ f ∈ h.fields, endsBlock f.name = false := by
  have hconn : endsBlock (connectionField r).name = false :=
    (by decide : endsBlock (bytes "Connection") = false)
  have hlength : endsBlock (lengthField r).name = false :=
    (by decide : endsBlock (bytes "Content-Length") = false)
  have hheaders : ∀ f ∈ h.headerFields, endsBlock f.name = false := by
    intro f hf
    have hmem := List.mem_map_of_mem (f := fun f : Field => (f.name, f.value)) hf
    rw [h.entries] at hmem
    exact hu _ hmem
  intro f hf
  rw [Dumpable.fields, List.cons_append, List.mem_cons, List.mem_append] at hf
  obtain rfl | hf | hf := hf
  · exact hconn
  · exact hheaders f hf
  · split at hf
    · cases hf
    · obtain rfl := List.mem_singleton.mp hf
      exact hlength

/-- What is received of a request whose header block arrives in the first read: it depends
on the `int` that `readFixedSize` returns for the bytes that the first read does not bring. -/
theorem recvRequest_dump (h : Dumpable relaxed r) (hu : WellNamed r) {lexicalCast : List UInt8 → Option UInt64}
    (hcast : lexicalCast (decimal r.body.length) = some (UInt64.ofNat r.body.length)) (queryStart : Nat)
    {memory first : List UInt8} {source : Source} (htext : first ++ source.flatten = r.dump)
    (hsize : r.dump.length < 2 ^ 64) (hreads : ∀ p ∈ first :: source, p ≠ [] ∧ p.length < 2 ^ 31)
    (hhead : r.head.length ≤ min first.length memory.length) :
    recvRequest (httpParser relaxed) lexicalCast queryStart memory (first :: source) =
      if r.dump.length = min first.length memory.length ∨
        0 < toInt (r.dump.length - min first.length memory.length) then .done r.received
      else .closed := by
  obtain ⟨rest, source', hread, hbody, hplen, hreads'⟩ := readPiece_dump htext hreads hhead
  have hlens := congrArg List.length hbody
  have hsum : r.dump.length = r.head.length + r.body.length := List.length_append
  have hblock : h.block h.fields [13, 10] = r.head := h.head_eq.symm
  rw [List.length_append] at hlens
  rw [← hplen, List.length_append]
  rw [List.length_append] at hplen
  have hreq := h.recvRequest (h.wellNamed_fields hu) (.inl rfl) lexicalCast queryStart hread (by rw [hblock])
    (by rw [List.length_append]; omega) (by rw [hblock]; omega)
  rw [h.setAll_fields] at hreq
  have hrest : recvRest lexicalCast r.received.headers rest source' =
      if source'.flatten.length = 0 ∨ 0 < toInt source'.flatten.length then .done r.body else .closed := by
    have hret := recvBody_ret rest source' (fun p hp => (hreads' p hp).1) (fun p hp => (hreads' p hp).2)
      (by unfold modulus; omega)
    rw [recvRest, h.contentLength hcast (by omega), ← hlens]
    simp only [hret, hbody]
    split <;> rename_i heq <;> split at heq <;> simp_all
  have hn : r.dump.length - (r.head.length + rest.length) = source'.flatten.length := by omega
  have heq : r.dump.length = r.head.length + rest.length ↔ source'.flatten.length = 0 := by omega
  rw [hreq, hrest, hn]
  simp only [heq]
  split
  · rw [done_bind, init_parsed]
  · rfl

theorem getHeader_foldl {key : List UInt8} {fs : List Field} (h : ∀ f ∈ fs, folded f.name ≠ folded key)
    (front : MapType) : getHeader key (fs.foldl (fun hs f => setHeader f.name f.value hs) front) =
      getHeader key front := by
  induction fs generalizing front with
  | nil => rfl
  | cons f fs ih =>
    obtain ⟨hf, hfs⟩ := List.forall_mem_cons.mp h
    rw [List.foldl_cons, ih hfs, getHeader_setHeader, if_neg hf]

theorem Dumpable.distinct (h : Dumpable relaxed r) :
    h.fields.Pairwise fun f g => folded f.name ≠ folded g.name := by
  have hsame : folded (bytes "Connection") = folded (bytes "connection") := by decide
  have hlength : folded (bytes "Content-Length") = folded (bytes "content-length") := by decide
  have hother : folded (bytes "connection") ≠ folded (bytes "content-length") := by decide
  have hmem : ∀ f ∈ h.headerFields, (f.name, f.value) ∈ r.headers := by
    intro f hf
    have hmem := List.mem_map_of_mem (f := fun f : Field => (f.name, f.value)) hf
    rwa [h.entries] at hmem
  have hlast : ∀ g ∈ (if r.body = [] then [] else [lengthField r]), g = lengthField r := by
    intro g hg
    split at hg
    · cases hg
    · exact List.mem_singleton.mp hg
  have hheaders : h.headerFields.Pairwise fun f g => folded f.name ≠ folded g.name := by
    have hsorted := h.sorted
    rw [← h.entries, List.pairwise_map] at hsorted
    refine hsorted.imp fun {f g} hlt he => ?_
    have hless : folded f.name < folded g.name := less_iff.mp hlt
    rw [he] at hless
    exact List.lt_irrefl _ hless
  have hends : (if r.body = [] then [] else [lengthField r]).Pairwise fun f g => folded f.name ≠ folded g.name := by
    split
    · exact .nil
    · exact List.pairwise_singleton _ _
  rw [Dumpable.fields, List.cons_append, List.pairwise_cons, List.pairwise_append]
  refine ⟨fun g hg => ?_, hheaders, hends, fun f hf g hg => ?_⟩
  · change folded (bytes "Connection") ≠ _
    rw [hsame]
    obtain hg | hg := List.mem_append.mp hg
    · exact ((h.others _ (hmem g hg)).1).symm
    · rw [hlast g hg]
      change _ ≠ folded (bytes "Content-Length")
      rwa [hlength]
  · rw [hlast g hg]
    change _ ≠ folded (bytes "Content-Length")
    rw [hlength]
    exact (h.others _ (hmem f hf)).2

theorem endsBlock_split {name : List UInt8} (h : endsBlock name = true) :
    ∃ eol rest, IsEnd eol ∧ name = eol ++ rest := by
  simp only [endsBlock, Bool.or_eq_true, List.isPrefixOf_iff_prefix] at h
  obtain ⟨rest, rfl⟩ | ⟨rest, rfl⟩ := h
  · exact ⟨_, rest, .inr rfl, rfl⟩
  · exact ⟨_, rest, .inl rfl, rfl⟩

/-- A name that begins with the end of a line ends the header block: its header and the
body are not received. -/
theorem recvRequest_broken (h : Dumpable relaxed r) (hu : ¬ WellNamed r) (lexicalCast : List UInt8 → Option UInt64)
    (queryStart : Nat) {memory first : List UInt8} {source : Source} (htext : first ++ source.flatten = r.dump)
    (hsize : r.dump.length < 2 ^ 64) (hreads : ∀ p ∈ first :: source, p ≠ [] ∧ p.length < 2 ^ 31)
    (hhead : r.head.length ≤ min first.length memory.length) :
    ∃ q, recvRequest (httpParser relaxed) lexicalCast queryStart memory (first :: source) = .done q ∧
      q.headers ≠ r.received.headers := by
  obtain ⟨rest, source', hread, -, hplen, -⟩ := readPiece_dump htext hreads hhead
  have hsum : r.dump.length = r.head.length + r.body.length := List.length_append
  obtain ⟨f, hf⟩ : ∃ f, (connectionField r :: h.headerFields).find? (fun f => endsBlock f.name) = some f := by
    simp only [WellNamed, not_forall, Bool.not_eq_false] at hu
    obtain ⟨x, hx, hend⟩ := hu
    rw [← h.entries] at hx
    obtain ⟨f, hf, rfl⟩ := List.mem_map.mp hx
    exact Option.isSome_iff_exists.mp (List.find?_isSome.mpr ⟨f, List.mem_cons_of_mem _ hf, hend⟩)
  obtain ⟨hend, fs, fs', hsplit, hgood⟩ := List.find?_eq_some_iff_append.mp hf
  obtain ⟨eol, name, he, hname⟩ := endsBlock_split hend
  have hfields : h.fields = fs ++ f :: (fs' ++ if r.body = [] then [] else [lengthField r]) := by
    rw [Dumpable.fields, hsplit, List.append_assoc, List.cons_append]
  obtain ⟨tail, htail⟩ : ∃ tail, r.head = h.block fs eol ++ tail := by
    refine ⟨name ++ 58 :: 32 :: f.value ++ [13, 10] ++ (fs' ++ if r.body = [] then [] else [lengthField r]).flatMap
      Field.text ++ [13, 10], ?_⟩
    rw [h.head_eq, hfields, Dumpable.block, List.flatMap_append, List.flatMap_cons, Field.text, hname]
    simp only [List.append_assoc]
  have hpairs := h.distinct
  rw [hfields, List.pairwise_append, List.pairwise_cons] at hpairs
  obtain ⟨-, ⟨hbehind, -⟩, hbefore⟩ := hpairs
  have hheadlen := congrArg List.length htail
  rw [List.length_append] at hheadlen hplen
  have hpiece : r.head ++ rest = h.block fs eol ++ (tail ++ rest) := by rw [htail, List.append_assoc]
  have hreq := h.recvRequest (fun g hg => by simpa using hgood g hg) he lexicalCast queryStart hread hpiece
    (by rw [List.length_append]; omega) (by omega)
  have hnolength : ∀ g ∈ fs, folded g.name ≠ folded (bytes "content-length") := by
    intro g hg
    have hmem : g ∈ connectionField r :: h.headerFields := hsplit ▸ List.mem_append_left _ hg
    obtain rfl | hmem := List.mem_cons.mp hmem
    · exact (by decide : folded (bytes "Connection") ≠ folded (bytes "content-length"))
    · have hmem := List.mem_map_of_mem (f := fun f : Field => (f.name, f.value)) hmem
      rw [h.entries] at hmem
      exact (h.others _ hmem).2
  have hlength : contentLength lexicalCast (setAll fs) = 0 := by
    rw [contentLength, setAll, getHeader_foldl hnolength]
    rfl
  rw [recvRest, hlength] at hreq
  have hheaders : ∀ q : HttpRequest, q.init.headers = q.headers := by
    intro q
    simp only [HttpRequest.init]
    split <;> rfl
  refine ⟨_, hreq, ?_⟩
  rw [hheaders]
  change setAll fs ≠ _
  intro hsame
  have hlost : getHeader f.name (setAll fs) = none :=
    getHeader_foldl (fun g hg => hbefore g hg f (List.mem_cons_self ..)) _
  have hthere : getHeader f.name r.received.headers = some f.value := by
    rw [← h.setAll_fields, setAll, hfields, List.foldl_append, List.foldl_cons,
      getHeader_foldl fun g hg => (hbehind g hg).symm, getHeader_setHeader, if_pos rfl]
  rw [hsame, hthere] at hlost
  cases hlost

/-- A request is returned as it was dumped if and only if no header name looks like the end
of the header block, and the first read brings all bytes or the number of bytes that are
missing then is a positive `int`. -/
theorem recvRequest_dump_iff (h : Dumpable relaxed r) {lexicalCast : List UInt8 → Option UInt64}
    (hcast : lexicalCast (decimal r.body.length) = some (UInt64.ofNat r.body.length)) (queryStart : Nat)
    {memory first : List UInt8} {source : Source} (htext : first ++ source.flatten = r.dump)
    (hsize : r.dump.length < 2 ^ 64) (hreads : ∀ p ∈ first :: source, p ≠ [] ∧ p.length < 2 ^ 31)
    (hhead : r.head.length ≤ min first.length memory.length) :
    recvRequest (httpParser relaxed) lexicalCast queryStart memory (first :: source) = .done r.received ↔
      WellNamed r ∧ (r.dump.length = min first.length memory.length ∨
        0 < toInt (r.dump.length - min first.length memory.length)) := by
  by_cases hu : WellNamed r
  · rw [recvRequest_dump h hu hcast queryStart htext hsize hreads hhead]
    split
    · rename_i hok
      exact iff_of_true rfl ⟨hu, hok⟩
    · rename_i hno
      exact iff_of_false (fun hc => by cases hc) fun hc => hno hc.2
  · obtain ⟨q, hq, hne⟩ := recvRequest_broken h hu lexicalCast queryStart htext hsize hreads hhead
    rw [hq]
    refine iff_of_false (fun hc => ?_) fun hc => hu hc.1
    obtain rfl := Outcome.done.inj hc
    exact hne rfl

end RoundTrip

def readDecimal (s : List UInt8) : Option UInt64 := some (UInt64.ofNat (natural 10 s))

def search : HttpRequest where
  method := .post
  close := false
  path := bytes "/a%20b"
  query := bytes "q=/?"
  fragment := bytes "top"
  body := [0, 10]
  headers := [(bytes "Accept", bytes "text/html, */*"), (bytes "host", bytes "a b")]

theorem search_dumpable : Dumpable false search where
  method := List.all_eq_true.mp (by decide +kernel)
  version := .inr rfl
  path := ⟨bytes "a%20b", rfl, by decide,
    .byte (by decide) (.pct (by decide) (by decide) (.byte (by decide) .nil))⟩
  query := .byte (by decide) (.byte (by decide) (.byte (by decide) (.byte (by decide) .nil)))
  fragment := .byte (by decide) (.byte (by decide) (.byte (by decide) .nil))
  sorted := by decide +kernel
  names := by decide +kernel
  others := by decide +kernel
  values := by decide +kernel

theorem recvRequest_dump_search :
    search.received.headers =
      [(bytes "Accept", bytes "text/html, */*"), (bytes "Connection", bytes "keep-alive"),
        (bytes "Content-Length", bytes "2"), (bytes "host", bytes "a b")] ∧
    recvRequest (httpParser false) readDecimal 0 (List.replicate 200 0) [search.head, [0], [10]] =
      .done search.received := by
  refine ⟨by decide, (recvRequest_dump_iff search_dumpable (by decide) 0 (by decide) (by decide) ?_ ?_).mpr ?_⟩
  · decide +kernel
  · decide +kernel
  · exact ⟨by decide +kernel, .inr (by decide +kernel)⟩

def upload (body : List UInt8) : HttpRequest := { method := .post, body := body }

theorem upload_dumpable (body : List UInt8) : Dumpable false (upload body) where
  method := List.all_eq_true.mp (show (bytes (httpMethod2String .post)).all methodChar = true by decide +kernel)
  version := .inr rfl
  path := ⟨[], rfl, by decide, .nil⟩
  query := .nil
  fragment := .nil
  sorted := .nil
  names := by simp [upload]
  others := by simp [upload]
  values := by simp [upload]

theorem upload_pieces (a b : List UInt8) : [(upload (a ++ b)).head, a, b].flatten = (upload (a ++ b)).dump := by
  simp [HttpRequest.dump, upload]

theorem recvRequest_upload {a b : List UInt8} (ha : a ≠ [] ∧ a.length < 2 ^ 31) (hb : b ≠ [] ∧ b.length < 2 ^ 31)
    (hlen : (a ++ b).length = 2 ^ 31) :
    recvRequest (httpParser false) readDecimal 0 (List.replicate 4096 0) [(upload (a ++ b)).head, a, b] = .closed := by
  have hbody : (upload (a ++ b)).body = a ++ b := rfl
  have hne : a ++ b ≠ [] := by simp [ha.1]
  have hhead : (upload (a ++ b)).head.length = 66 := by
    have htext : (upload (a ++ b)).head =
        bytes "POST / HTTP/1.1\r\nConnection: close\r\nContent-Length: 2147483648\r\n\r\n" := by
      rw [HttpRequest.head, hbody, if_neg hne, hlen]
      simp only [upload, HttpRequest.connection]
      decide +kernel
    rw [htext]
    decide +kernel
  have hdump : (upload (a ++ b)).dump.length = 66 + 2 ^ 31 := by
    rw [HttpRequest.dump, List.length_append, hhead, hbody, hlen]
  have hcast : readDecimal (decimal (upload (a ++ b)).body.length) =
      some (UInt64.ofNat (upload (a ++ b)).body.length) := by
    rw [hbody, hlen]
    decide +kernel
  rw [recvRequest_dump (upload_dumpable _) (by simp [WellNamed, upload]) hcast 0
    (by simp [HttpRequest.dump, hbody]) (by rw [hdump]; decide) ?_ (by rw [hhead, List.length_replicate]; omega)]
  · rw [hdump, hhead, List.length_replicate, if_neg]
    decide
  · refine List.forall_mem_cons.mpr ⟨⟨List.ne_nil_of_length_pos (by omega), by omega⟩, ?_⟩
    exact List.forall_mem_cons.mpr ⟨ha, List.forall_mem_cons.mpr ⟨hb, by simp⟩⟩

theorem recvRequest_loses_upload :
    Dumpable false (upload (List.replicate (2 ^ 30) 0 ++ List.replicate (2 ^ 30) 0)) ∧
    [(upload (List.replicate (2 ^ 30) 0 ++ List.replicate (2 ^ 30) 0)).head, List.replicate (2 ^ 30) 0,
      List.replicate (2 ^ 30) 0].flatten = (upload (List.replicate (2 ^ 30) 0 ++ List.replicate (2 ^ 30) 0)).dump ∧
    recvRequest (httpParser false) readDecimal 0 (List.replicate 4096 0)
      [(upload (List.replicate (2 ^ 30) 0 ++ List.replicate (2 ^ 30) 0)).head, List.replicate (2 ^ 30) 0,
        List.replicate (2 ^ 30) 0] = .closed := by
  have hpiece : List.replicate (2 ^ 30) (0 : UInt8) ≠ [] ∧ (List.replicate (2 ^ 30) (0 : UInt8)).length < 2 ^ 31 := by
    rw [List.length_replicate]
    exact ⟨List.ne_nil_of_length_pos (by rw [List.length_replicate]; decide), by decide⟩
  refine ⟨upload_dumpable _, upload_pieces _ _, recvRequest_upload hpiece hpiece ?_⟩
  rw [List.length_append, List.length_replicate]
  decide

end Http11

end Windgent.Http
