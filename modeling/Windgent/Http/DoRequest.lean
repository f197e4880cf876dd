import Windgent.Http.RequestRoundTrip
import Windgent.UriParser.Create

namespace Windgent.Http

open MachineInt

/-- The loop of `doRequest` over the headers that it is given, in the order of the map: the
request and `has_host`. -/
def addHeader (r : HttpRequest × Bool) (h : List UInt8 × List UInt8) : HttpRequest × Bool :=
  if folded h.1 = folded (bytes "connection") then
    (if folded h.2 = folded (bytes "keep-alive") then { r.1 with close := false } else r.1, r.2)
  else
    ({ r.1 with headers := setHeader h.1 h.2 r.1.headers },
      if !r.2 && decide (folded h.1 = folded (bytes "host")) then decide (h.2 ≠ []) else r.2)

def addHeaders (host : List UInt8) (headers : MapType) (req : HttpRequest) : HttpRequest :=
  let r := headers.foldl addHeader (req, false)
  if r.2 then r.1 else { r.1 with headers := setHeader (bytes "Host") host r.1.headers }

def HttpConnection.doRequest (method : HttpMethod) (uri : UriParser.Uri) (headers : MapType) (body : List UInt8) :
    HttpRequest :=
  addHeaders uri.host headers
    { method := method, path := uri.getPath, query := uri.query, fragment := uri.fragment, body := body }

namespace HttpConnectionPool

def url (uri : UriParser.Uri) : List UInt8 :=
  uri.getPath ++ (if uri.query = [] then [] else bytes "?") ++ uri.query ++
    (if uri.fragment = [] then [] else bytes "#") ++ uri.fragment

/-- The request that `HttpConnectionPool::doRequest` makes of a url: all of it is the path. -/
def doRequest (host vhost : List UInt8) (method : HttpMethod) (url : List UInt8) (headers : MapType)
    (body : List UInt8) : HttpRequest :=
  addHeaders (if vhost = [] then host else vhost) headers
    { method := method, path := url, close := false, body := body }

end HttpConnectionPool

def lastValue (key : List UInt8) (headers : MapType) : Option (List UInt8) :=
  (headers.reverse.find? fun x => folded x.1 = folded key).map Prod.snd

/-- Headers that may be sent: names of the grammar that do not begin with the end of a line,
and visible values. -/
structure Given (headers : MapType) : Prop where
  names : ∀ x ∈ headers, x.1 ≠ [] ∧ ∀ c ∈ x.1, Http11.token c = true
  unbroken : ∀ x ∈ headers, Http11.endsBlock x.1 = false
  others : ∀ x ∈ headers, folded x.1 ≠ folded (bytes "content-length")
  values : ∀ x ∈ headers, x.2 ≠ [] ∧ (∀ c ∈ x.2, Http11.printable c = true) ∧ ∀ c ∈ x.2.head?, Http11.blank c = false

structure Asks (method : HttpMethod) (path query fragment body : List UInt8) (close : Bool) (host : List UInt8)
    (headers : MapType) (r : HttpRequest) : Prop where
  line : r.method = method ∧ r.version = 0x11 ∧ r.path = path ∧ r.query = query ∧ r.fragment = fragment
  body : r.body = body
  close : r.close = close
  host : getHeader (bytes "host") r.headers = some ((lastValue (bytes "host") headers).getD host)
  headers : ∀ key, folded key ≠ folded (bytes "host") → folded key ≠ folded (bytes "connection") →
    folded key ≠ folded (bytes "content-length") → getHeader key r.headers = lastValue key headers

def KeepsAlive (headers : MapType) : Prop :=
  ∃ x ∈ headers, folded x.1 = folded (bytes "connection") ∧ folded x.2 = folded (bytes "keep-alive")

instance (headers : MapType) : Decidable (KeepsAlive headers) :=
  inferInstanceAs (Decidable (∃ x ∈ headers, _))

section Headers

variable {host key : List UInt8} {headers : MapType} {req : HttpRequest}

theorem foldl_concat (headers : MapType) (x : List UInt8 × List UInt8) (r : HttpRequest × Bool) :
    (headers ++ [x]).foldl addHeader r = addHeader (headers.foldl addHeader r) x := by
  rw [List.foldl_append]
  rfl

theorem lastValue_concat (headers : MapType) (x : List UInt8 × List UInt8) :
    lastValue key (headers ++ [x]) = if folded x.1 = folded key then some x.2 else lastValue key headers := by
  rw [lastValue, List.reverse_append, List.reverse_singleton, List.singleton_append, List.find?_cons]
  by_cases h : folded x.1 = folded key
  · simp [h]
  · simp [h, lastValue]

theorem keepsAlive_concat (headers : MapType) (x : List UInt8 × List UInt8) : KeepsAlive (headers ++ [x]) ↔
    KeepsAlive headers ∨ (folded x.1 = folded (bytes "connection") ∧ folded x.2 = folded (bytes "keep-alive")) := by
  simp only [KeepsAlive, List.mem_append, List.mem_singleton, or_and_right, exists_or, exists_eq_left]

theorem foldl_fields (headers : MapType) (req : HttpRequest) :
    (headers.foldl addHeader (req, false)).1 =
      { req with
        close := req.close && !decide (KeepsAlive headers)
        headers := (headers.foldl addHeader (req, false)).1.headers } := by
  induction headers using List.reverseRecOn with
  | nil => simp [KeepsAlive]
  | append_singleton headers x ih =>
    rw [foldl_concat, addHeader]
    generalize headers.foldl addHeader (req, false) = r at ih ⊢
    rw [ih]
    by_cases hc : folded x.1 = folded (bytes "connection")
    · by_cases hk : folded x.2 = folded (bytes "keep-alive")
      · have hall : KeepsAlive (headers ++ [x]) := (keepsAlive_concat headers x).mpr (.inr ⟨hc, hk⟩)
        simp only [if_pos hc, if_pos hk, decide_eq_true hall, Bool.not_true, Bool.and_false]
      · have hsame : KeepsAlive (headers ++ [x]) ↔ KeepsAlive headers := by
          rw [keepsAlive_concat]
          exact or_iff_left fun h => hk h.2
        simp only [if_pos hc, if_neg hk, hsame]
    · have hsame : KeepsAlive (headers ++ [x]) ↔ KeepsAlive headers := by
        rw [keepsAlive_concat]
        exact or_iff_left fun h => hc h.1
      simp only [if_neg hc, hsame]

theorem getHeader_foldl (hkey : folded key ≠ folded (bytes "connection")) (headers : MapType)
    (hreq : req.headers = []) :
    getHeader key (headers.foldl addHeader (req, false)).1.headers = lastValue key headers := by
  induction headers using List.reverseRecOn with
  | nil =>
    rw [List.foldl_nil, hreq]
    rfl
  | append_singleton headers x ih =>
    rw [foldl_concat, addHeader, lastValue_concat]
    by_cases hc : folded x.1 = folded (bytes "connection")
    · have hne : folded x.1 ≠ folded key := fun h => hkey (h.symm.trans hc)
      rw [if_pos hc, if_neg hne, ← ih]
      split
      · rfl
      · rfl
    · rw [if_neg hc]
      simp only [getHeader_setHeader, ih]

theorem hasHost_foldl (hvalues : ∀ x ∈ headers, x.2 ≠ []) (req : HttpRequest) :
    (headers.foldl addHeader (req, false)).2 = (lastValue (bytes "host") headers).isSome := by
  have hother : folded (bytes "connection") ≠ folded (bytes "host") := by decide
  induction headers using List.reverseRecOn with
  | nil => rfl
  | append_singleton headers x ih =>
    have ih := ih fun y hy => hvalues y (List.mem_append_left _ hy)
    have hx := hvalues x (List.mem_append_right _ (List.mem_singleton_self x))
    rw [foldl_concat, addHeader, lastValue_concat]
    by_cases hc : folded x.1 = folded (bytes "connection")
    · have hne : folded x.1 ≠ folded (bytes "host") := fun h => hother (hc.symm.trans h)
      rw [if_pos hc, if_neg hne]
      exact ih
    · rw [if_neg hc]
      by_cases hh : folded x.1 = folded (bytes "host")
      · rw [if_pos hh]
        simp only [hh, decide_true, Bool.and_true, hx, ne_eq, not_false_eq_true, Option.isSome_some]
        cases (headers.foldl addHeader (req, false)).2 <;> rfl
      · rw [if_neg hh]
        simp only [hh, decide_false, Bool.and_false, Bool.false_eq_true, if_false]
        exact ih

theorem mem_setHeader {val : List UInt8} {hs : MapType} {y : List UInt8 × List UInt8} (h : y ∈ setHeader key val hs) :
    y ∈ hs ∨ (y.2 = val ∧ (y.1 = key ∨ ∃ v, (y.1, v) ∈ hs)) := by
  induction hs with
  | nil =>
    obtain rfl := List.mem_singleton.mp h
    exact .inr ⟨rfl, .inl rfl⟩
  | cons x hs ih =>
    obtain ⟨k, v⟩ := x
    obtain hk | hk | hk := folded_trichotomy key k
    · rw [setHeader_before hk] at h
      obtain rfl | h := List.mem_cons.mp h
      · exact .inr ⟨rfl, .inl rfl⟩
      · exact .inl h
    · rw [setHeader_at hk.symm] at h
      obtain rfl | h := List.mem_cons.mp h
      · exact .inr ⟨rfl, .inr ⟨v, List.mem_cons_self⟩⟩
      · exact .inl (List.mem_cons_of_mem _ h)
    · rw [setHeader_behind hk] at h
      obtain rfl | h := List.mem_cons.mp h
      · exact .inl List.mem_cons_self
      · obtain h | ⟨hv, hn | ⟨w, hw⟩⟩ := ih h
        · exact .inl (List.mem_cons_of_mem _ h)
        · exact .inr ⟨hv, .inl hn⟩
        · exact .inr ⟨hv, .inr ⟨w, List.mem_cons_of_mem _ hw⟩⟩

theorem setHeader_sorted {val : List UInt8} {hs : MapType} (h : hs.Pairwise fun x y => folded x.1 < folded y.1) :
    (setHeader key val hs).Pairwise fun x y => folded x.1 < folded y.1 := by
  induction hs with
  | nil => exact List.pairwise_singleton _ _
  | cons x hs ih =>
    obtain ⟨k, v⟩ := x
    obtain ⟨hx, hhs⟩ := List.pairwise_cons.mp h
    obtain hk | hk | hk := folded_trichotomy key k
    · rw [setHeader_before hk]
      refine List.pairwise_cons.mpr ⟨List.forall_mem_cons.mpr ⟨hk, fun y hy => ?_⟩, h⟩
      exact List.lt_trans hk (hx y hy)
    · rw [setHeader_at hk.symm]
      exact List.pairwise_cons.mpr ⟨hx, hhs⟩
    · rw [setHeader_behind hk]
      refine List.pairwise_cons.mpr ⟨fun y hy => ?_, ih hhs⟩
      obtain hy | ⟨-, hn | ⟨w, hw⟩⟩ := mem_setHeader hy
      · exact hx y hy
      · exact hn ▸ hk
      · exact hx (y.1, w) hw

/-- The entries of a map that is set have the names and the values that are given. -/
theorem addHeader_forall {N V : List UInt8 → Prop} {headers : MapType}
    (h : ∀ x ∈ headers, folded x.1 ≠ folded (bytes "connection") → N x.1 ∧ V x.2) (hreq : req.headers = []) :
    (headers.foldl addHeader (req, false)).1.headers.Pairwise (fun x y => folded x.1 < folded y.1) ∧
      ∀ x ∈ (headers.foldl addHeader (req, false)).1.headers, N x.1 ∧ V x.2 := by
  induction headers using List.reverseRecOn with
  | nil =>
    rw [List.foldl_nil, hreq]
    exact ⟨.nil, fun x hx => absurd hx List.not_mem_nil⟩
  | append_singleton headers x ih =>
    obtain ⟨hsorted, hall⟩ := ih fun y hy => h y (List.mem_append_left _ hy)
    rw [foldl_concat, addHeader]
    by_cases hc : folded x.1 = folded (bytes "connection")
    · rw [if_pos hc]
      split
      · exact ⟨hsorted, hall⟩
      · exact ⟨hsorted, hall⟩
    · rw [if_neg hc]
      obtain ⟨hname, hvalue⟩ := h x (List.mem_append_right _ (List.mem_singleton_self x)) hc
      refine ⟨setHeader_sorted hsorted, fun y hy => ?_⟩
      obtain hy | ⟨hv, hn | ⟨w, hw⟩⟩ := mem_setHeader hy
      · exact hall y hy
      · exact ⟨hn ▸ hname, hv ▸ hvalue⟩
      · exact ⟨(hall _ hw).1, hv ▸ hvalue⟩

theorem foldl_congr {req' : HttpRequest} (h : req.headers = req'.headers) (headers : MapType) :
    (headers.foldl addHeader (req, false)).1.headers = (headers.foldl addHeader (req', false)).1.headers ∧
      (headers.foldl addHeader (req, false)).2 = (headers.foldl addHeader (req', false)).2 := by
  induction headers using List.reverseRecOn with
  | nil => exact ⟨h, rfl⟩
  | append_singleton headers x ih =>
    rw [foldl_concat, foldl_concat, addHeader, addHeader]
    generalize headers.foldl addHeader (req, false) = r at ih ⊢
    generalize headers.foldl addHeader (req', false) = r' at ih ⊢
    obtain ⟨hh, hb⟩ := ih
    by_cases hc : folded x.1 = folded (bytes "connection")
    · rw [if_pos hc, if_pos hc]
      refine ⟨?_, hb⟩
      split
      · exact hh
      · exact hh
    · rw [if_neg hc, if_neg hc]
      exact ⟨by simp only [hh], by simp only [hb]⟩

theorem addHeaders_eq (host : List UInt8) (headers : MapType) (hreq : req.headers = []) :
    addHeaders host headers req =
      { req with
        close := req.close && !decide (KeepsAlive headers)
        headers := (addHeaders host headers {}).headers } := by
  have hfields := foldl_fields headers req
  have hnone : req.headers = ({} : HttpRequest).headers := hreq
  obtain ⟨hh, hb⟩ := foldl_congr hnone headers
  by_cases hhas : (headers.foldl addHeader (req, false)).2 = true
  · simp only [addHeaders, hhas, ← hb, if_true, ← hh]
    exact hfields
  · simp only [addHeaders, hhas, ← hb, ← hh]
    rw [hfields]
    rfl

theorem getHeader_addHeaders (hg : Given headers) (host : List UInt8) (hreq : req.headers = []) :
    getHeader (bytes "host") (addHeaders host headers req).headers =
        some ((lastValue (bytes "host") headers).getD host) ∧
      ∀ key, folded key ≠ folded (bytes "host") → folded key ≠ folded (bytes "connection") →
        getHeader key (addHeaders host headers req).headers = lastValue key headers := by
  have hsame : folded (bytes "Host") = folded (bytes "host") := by decide
  have hother : folded (bytes "host") ≠ folded (bytes "connection") := by decide
  have hget := fun key (hkey : folded key ≠ folded (bytes "connection")) => getHeader_foldl hkey headers hreq
  have hhas := hasHost_foldl (fun x hx => (hg.values x hx).1) req
  unfold addHeaders
  cases hl : lastValue (bytes "host") headers with
  | some v =>
    rw [hl, Option.isSome_some] at hhas
    simp only [hhas, if_true]
    exact ⟨(hget _ hother).trans hl, fun key _ hc => hget key hc⟩
  | none =>
    rw [hl, Option.isSome_none] at hhas
    simp only [hhas, Bool.false_eq_true, if_false, getHeader_setHeader, hsame, if_true]
    refine ⟨rfl, fun key hh hc => ?_⟩
    rw [if_neg (Ne.symm hh)]
    exact hget key hc

def Visible (v : List UInt8) : Prop :=
  v ≠ [] ∧ (∀ c ∈ v, Http11.printable c = true) ∧ ∀ c ∈ v.head?, Http11.blank c = false

instance (v : List UInt8) : Decidable (Visible v) := inferInstanceAs (Decidable (_ ∧ _ ∧ _))

theorem addHeaders_entries (hg : Given headers) (hhost : Visible host) (hreq : req.headers = []) :
    (addHeaders host headers req).headers.Pairwise (fun x y => caseInsensitiveLess x.1 y.1 = true) ∧
      ∀ x ∈ (addHeaders host headers req).headers, (x.1 ≠ [] ∧ (∀ c ∈ x.1, Http11.token c = true) ∧
        Http11.endsBlock x.1 = false ∧ folded x.1 ≠ folded (bytes "connection") ∧
        folded x.1 ≠ folded (bytes "content-length")) ∧ Visible x.2 := by
  obtain ⟨hsorted, hall⟩ := addHeader_forall (V := Visible)
    (N := fun n => n ≠ [] ∧ (∀ c ∈ n, Http11.token c = true) ∧ Http11.endsBlock n = false ∧
      folded n ≠ folded (bytes "connection") ∧ folded n ≠ folded (bytes "content-length"))
    (fun x hx hc => ⟨⟨(hg.names x hx).1, (hg.names x hx).2, hg.unbroken x hx, hc, hg.others x hx⟩, hg.values x hx⟩)
    hreq
  by_cases hb : (headers.foldl addHeader (req, false)).2 = true
  · simp only [addHeaders, hb, if_true]
    exact ⟨hsorted.imp less_iff.mpr, hall⟩
  · simp only [addHeaders, hb]
    refine ⟨(setHeader_sorted hsorted).imp less_iff.mpr, fun x hx => ?_⟩
    obtain hx | ⟨hv, hn | ⟨w, hw⟩⟩ := mem_setHeader hx
    · exact hall x hx
    · rw [hn, hv]
      exact ⟨⟨by decide, List.all_eq_true.mp (by decide +kernel), by decide, by decide, by decide⟩, hhost⟩
    · exact ⟨(hall _ hw).1, hv ▸ hhost⟩

end Headers

/-! What `Uri::Create` accepts fits into a request line. -/

section Grammar

open UriParser Ragel
open Http11 (Pchars IsPath)

variable {extra : UInt8 → Bool} {w : List UInt8}

theorem Http11.Pchars.append {relaxed : Bool} {u v : List UInt8} (hu : Pchars relaxed extra u)
    (hv : Pchars relaxed extra v) :
    Pchars relaxed extra (u ++ v) := by
  induction hu with
  | nil => exact hv
  | byte hc _ ih => exact .byte hc ih
  | pct hx hy _ ih => exact .pct hx hy ih

theorem pchars_star {e : Rule} (he : ∀ u ∈ lang e, Pchars false extra u) (h : w ∈ lang (.star e)) :
    Pchars false extra w := by
  obtain ⟨L, rfl, hL⟩ := Language.mem_kstar.mp h
  clear h
  induction L with
  | nil => exact .nil
  | cons u L ih =>
    obtain ⟨hu, hL⟩ := List.forall_mem_cons.mp hL
    exact (he u hu).append (ih hL)

theorem plain_eq (c : UInt8) : Http11.plain false c = UriParser.plain c := by
  simp [Http11.plain, UriParser.plain, Http11.unreserved, UriParser.unreserved, Http11.subDelims, Http11.moreDelims,
    UriParser.subDelims]

theorem pchars_pchar (h : w ∈ lang (pchar : Rule)) : Pchars false extra w := by
  obtain ⟨c, hc, rfl⟩ | h := h
  · exact .byte (by rw [plain_eq, hc, Bool.true_or]) .nil
  · obtain ⟨u, v, rfl, hu, hv⟩ := mem_lang_seq.mp h
    obtain ⟨a, b, rfl, ⟨x, hx, rfl⟩, ⟨y, hy, rfl⟩⟩ := mem_lang_seq.mp hv
    obtain rfl := mem_lang_byte.mp hu
    exact .pct hx hy .nil

theorem pchars_segments (h : w ∈ lang (segments : Rule)) : Pchars false (· = 47) w := by
  refine pchars_star (fun u hu => ?_) h
  obtain ⟨a, b, rfl, ha, hb⟩ := mem_lang_seq.mp hu
  obtain rfl := mem_lang_byte.mp ha
  exact .byte (by decide) (pchars_star (fun u hu => pchars_pchar hu) hb)

theorem pchars_pathAbempty (h : w ∈ lang (pathAbempty : Rule)) : Pchars false (· = 47) w := by
  obtain ⟨a, b, rfl, ha, hb⟩ := mem_lang_seq.mp h
  refine Http11.Pchars.append ?_ (pchars_segments hb)
  obtain ha | rfl := mem_lang_opt.mp ha
  · obtain ⟨c, d, rfl, hc, hd⟩ := mem_lang_seq.mp ha
    obtain rfl := mem_lang_byte.mp hc
    exact .byte (by decide) (pchars_star (fun u hu => pchars_pchar hu) hd)
  · exact .nil

theorem isPath_of_pathAbempty (h : w ∈ lang (pathAbempty : Rule)) (hne : w ≠ []) (hslash : w.tail.head? ≠ some 47) :
    IsPath false w := by
  obtain ⟨c, w, rfl⟩ := List.exists_cons_of_ne_nil hne
  have hstamp : Exp.stamp (pathAbempty : Rule) 0 = (pathAbempty : Exp Nat) := rfl
  obtain rfl : c = 47 := by
    have hpath : c :: w ∈ lang (pathAbempty : Exp Nat) := by rwa [← hstamp, lang_stamp]
    exact path_head hpath c rfl
  refine ⟨w, rfl, hslash, ?_⟩
  cases pchars_pathAbempty h with
  | byte _ hw => exact hw

theorem pchars_queryText (h : w ∈ lang (queryText : Rule)) : Pchars false (Http11.oneOf "/?") w := by
  refine pchars_star (fun u hu => ?_) h
  obtain hu | ⟨c, hc, rfl⟩ := hu
  · exact pchars_pchar hu
  · exact .byte (by rw [hc, Bool.or_true]) .nil

theorem host_alphabet : ∀ n < 256,
    (alphabet (regName : Rule) (UInt8.ofNat n) || alphabet (ipv4address : Rule) (UInt8.ofNat n)) = true →
      Http11.blank (UInt8.ofNat n) = false := by
  decide +kernel

theorem visible_host (h : w ∈ lang (regName : Rule) ∨ w ∈ lang (ipv4address : Rule)) (hne : w ≠ [])
    (hw : ∀ c ∈ w, Http11.printable c = true) : Visible w := by
  refine ⟨hne, hw, fun c hc => ?_⟩
  have hmem := List.mem_of_mem_head? hc
  have hall := host_alphabet c.toNat c.toNat_lt
  rw [UInt8.ofNat_toNat, Bool.or_eq_true] at hall
  exact hall (h.imp (fun h => mem_alphabet h hmem) fun h => mem_alphabet h hmem)

end Grammar

section Delivery

open UriParser Ragel

variable {x : Parts} {headers : MapType} {method : HttpMethod} {body : List UInt8}

theorem method_chars (h : method ≠ .msearch ∧ method ≠ .invalidMethod) :
    ∀ c ∈ bytes (httpMethod2String method), Http11.methodChar c = true := by
  obtain ⟨hm, hi⟩ := h
  refine List.all_eq_true.mp ?_
  cases method with
  | msearch => exact absurd rfl hm
  | invalidMethod => exact absurd rfl hi
  | _ => decide +kernel

/-- A URL of this kind, with a path that does not look like a host. The grammar of an IPv4
address reads the byte 2 as a digit. -/
structure Requestable (x : Parts) : Prop where
  wellFormed : x.WellFormed
  host : ∀ c ∈ x.host, Http11.printable c = true
  single : x.path.tail.head? ≠ some 47

theorem Requestable.visible_host (h : Requestable x) : Visible x.host :=
  Http.visible_host h.wellFormed.host h.wellFormed.host_ne_nil h.host

def requestPath (x : Parts) : List UInt8 := if x.path = [] then bytes "/" else x.path

theorem Requestable.isPath (h : Requestable x) : Http11.IsPath false (requestPath x) := by
  unfold requestPath
  split
  · exact ⟨[], rfl, by decide, .nil⟩
  · rename_i hne
    exact isPath_of_pathAbempty h.wellFormed.path hne h.single

theorem Requestable.part (h : Requestable x) :
    Http11.Pchars false (Http11.oneOf "/?") (x.query.getD []) ∧
      Http11.Pchars false (Http11.oneOf "/?") (x.fragment.getD []) := by
  constructor
  · cases hq : x.query with
    | none => exact .nil
    | some q => exact pchars_queryText (h.wellFormed.query q hq).2
  · cases hf : x.fragment with
    | none => exact .nil
    | some f => exact pchars_queryText (h.wellFormed.fragment f hf).2

def requested (method : HttpMethod) (x : Parts) (host : List UInt8) (close : Bool) (headers : MapType)
    (body : List UInt8) :
    HttpRequest :=
  addHeaders host headers
    { method := method, close := close, path := requestPath x, query := x.query.getD [], fragment := x.fragment.getD [],
      body := body }

theorem requested_eq (method : HttpMethod) (x : Parts) (host : List UInt8) (close : Bool) (headers : MapType)
    (body : List UInt8) : requested method x host close headers body =
      { method := method, close := close && !decide (KeepsAlive headers), path := requestPath x,
        query := x.query.getD [], fragment := x.fragment.getD [], body := body,
        headers := (addHeaders host headers {}).headers } :=
  addHeaders_eq host headers rfl

theorem Requestable.dumpable (h : Requestable x) (hmethod : method ≠ .msearch ∧ method ≠ .invalidMethod)
    (hg : Given headers) {host : List UInt8} (hhost : Visible host) (close : Bool) :
    Http11.Dumpable false (requested method x host close headers body) := by
  have hnone : ({} : HttpRequest).headers = [] := rfl
  obtain ⟨hsorted, hentries⟩ := addHeaders_entries hg hhost hnone
  rw [requested_eq]
  exact
    { method := method_chars hmethod
      version := .inr rfl
      path := h.isPath
      query := h.part.1
      fragment := h.part.2
      sorted := hsorted
      names := fun y hy => ⟨(hentries y hy).1.1, (hentries y hy).1.2.1⟩
      others := fun y hy => (hentries y hy).1.2.2.2
      values := fun y hy => (hentries y hy).2 }

theorem wellNamed_requested (x : Parts) (hg : Given headers) {host : List UInt8} (hhost : Visible host) (close : Bool) :
    Http11.WellNamed (requested method x host close headers body) := by
  have hnone : ({} : HttpRequest).headers = [] := rfl
  rw [requested_eq]
  exact fun y hy => ((addHeaders_entries hg hhost hnone).2 y hy).1.2.2.1

theorem getHeader_received_of_ne (r : HttpRequest) {key : List UInt8} (hc : folded key ≠ folded (bytes "connection"))
    (hl : folded key ≠ folded (bytes "content-length")) :
    getHeader key r.received.headers = getHeader key r.headers := by
  have hconn : folded (bytes "Connection") ≠ folded key := fun he => hc (he.symm.trans (by decide))
  have hlength : folded (bytes "Content-Length") ≠ folded key := fun he => hl (he.symm.trans (by decide))
  unfold HttpRequest.received
  by_cases hb : r.body = []
  · simp only [hb, if_true, getHeader_setHeader, hconn, if_false]
  · simp only [hb, if_false, getHeader_setHeader, hconn, hlength]

theorem asks_received (hg : Given headers) (host : List UInt8) (close : Bool) :
    Asks method (requestPath x) (x.query.getD []) (x.fragment.getD []) body (close && !decide (KeepsAlive headers)) host
      headers (requested method x host close headers body).received := by
  have hnone : ({} : HttpRequest).headers = [] := rfl
  obtain ⟨hhost, hothers⟩ := getHeader_addHeaders hg host hnone
  rw [requested_eq]
  exact
    { line := ⟨rfl, rfl, rfl, rfl, rfl⟩
      body := rfl
      close := rfl
      host := (getHeader_received_of_ne _ (by decide) (by decide)).trans hhost
      headers := fun key hh hc hl => (getHeader_received_of_ne _ hc hl).trans (hothers key hh hc) }

/-- The server receives the request as it was asked for, once all of its text has come. -/
theorem Requestable.received (h : Requestable x) (hmethod : method ≠ .msearch ∧ method ≠ .invalidMethod)
    (hg : Given headers) {host : List UInt8} (hhost : Visible host) (close : Bool)
    {lexicalCast : List UInt8 → Option UInt64}
    (hcast : lexicalCast (Http.decimal body.length) = some (UInt64.ofNat body.length)) (queryStart : Nat)
    {memory first : List UInt8} {source : Source} {req : HttpRequest}
    (hsame : req.head = (requested method x host close headers body).head) (hbody : req.body = body)
    (htext : first ++ source.flatten = req.dump) (hsize : req.dump.length < 2 ^ 64)
    (hreads : ∀ p ∈ first :: source, p ≠ [] ∧ p.length < 2 ^ 31)
    (hhead : req.head.length ≤ min first.length memory.length) :
    recvRequest (Http11.httpParser false) lexicalCast queryStart memory (first :: source) =
      if req.dump.length = min first.length memory.length ∨
        0 < toInt (req.dump.length - min first.length memory.length) then
          .done (requested method x host close headers body).received
      else .closed := by
  have hrequested : (requested method x host close headers body).body = body := by rw [requested_eq]
  have hdump : req.dump = (requested method x host close headers body).dump := by
    rw [HttpRequest.dump, HttpRequest.dump, hsame, hbody, hrequested]
  rw [hdump] at htext hsize ⊢
  rw [hsame] at hhead
  exact Http11.recvRequest_dump (h.dumpable hmethod hg hhost close) (wellNamed_requested x hg hhost close)
    (by rw [hrequested]; exact hcast) queryStart htext hsize hreads hhead

/-- What the server makes of the text of a request, when the first read brings the header block. -/
def Delivers (lexicalCast : List UInt8 → Option UInt64) (req r : HttpRequest) : Prop :=
  ∀ queryStart memory first source, first ++ source.flatten = req.dump → req.dump.length < 2 ^ 64 →
    (∀ p ∈ first :: source, p ≠ [] ∧ p.length < 2 ^ 31) → req.head.length ≤ min first.length memory.length →
    recvRequest (Http11.httpParser false) lexicalCast queryStart memory (first :: source) =
      if req.dump.length = min first.length memory.length ∨
        0 < toInt (req.dump.length - min first.length memory.length) then .done r
      else .closed

end Delivery

open UriParser in
def nose : Parts :=
  ⟨bytes "http", none, bytes "sylar.com", none, bytes "/over", some (bytes "name=ferret"), some (bytes "nose")⟩

open UriParser Ragel in
theorem nose_requestable : Requestable nose where
  wellFormed :=
    { scheme := mem_lang_of_matches rfl (by decide +kernel)
      userinfo := by rintro _ ⟨⟩
      host := .inl (mem_lang_of_matches rfl (by decide +kernel))
      host_ne_nil := by decide
      port := by rintro _ ⟨⟩
      path := mem_lang_of_matches rfl (by decide +kernel)
      query := by
        rintro _ ⟨⟩
        exact ⟨by decide, mem_lang_of_matches rfl (by decide +kernel)⟩
      fragment := by
        rintro _ ⟨⟩
        exact ⟨by decide, mem_lang_of_matches rfl (by decide +kernel)⟩ }
  host := by decide +kernel
  single := by decide

def hosts : MapType :=
  [(bytes "Host", bytes "a"), (bytes "connection", bytes "Keep-Alive"),
    (bytes "host", bytes "b"), (bytes "x-id", bytes "7")]

theorem hosts_given : Given hosts where
  names := by decide +kernel
  unbroken := by decide +kernel
  others := by decide +kernel
  values := by decide +kernel

end Windgent.Http
