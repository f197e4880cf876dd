import Windgent.Http.RequestRoundTrip
import Mathlib.Data.List.Find
import Mathlib.Data.List.TakeWhile

namespace Windgent.Http

open Scanner Ragel Http11

def string2HttpMethod (m : List UInt8) : HttpMethod :=
  ((httpMethodMap.find? fun x => bytes x.2 = m.takeWhile (· ≠ 0)).map Prod.fst).getD .invalidMethod

/-- What the first callback of a new parser leaves. -/
def firstReport (relaxed : Bool) (queryStart : Nat) (data : List UInt8) (len : Nat) : Option RequestState :=
  (scan (httpParser relaxed) data (httpParser relaxed).start (requestFrontend.reset (requestRegs queryStart)) 0
    (data.take len)).events.head?.bind (onRequest {})

structure IsMethod (t : List UInt8) : Prop where
  ne : t ≠ []
  le : t.length ≤ 20
  chars : ∀ c ∈ t, methodChar c = true

def answer (t : List UInt8) : RequestState :=
  if string2HttpMethod t = .invalidMethod then { error := 1000 } else { data := { method := string2HttpMethod t } }

variable {relaxed : Bool} {queryStart len : Nat} {data t rest : List UInt8}

theorem IsMethod.of_all (h : t ≠ [] ∧ t.length ≤ 20 ∧ t.all methodChar = true) : IsMethod t :=
  ⟨h.1, h.2.1, List.all_eq_true.mp h.2.2⟩

theorem strncmp_length_iff (s : List UInt8) (h : 0 ∉ s) : strncmp s t s.length = true ↔ s <+: t := by
  induction s generalizing t with
  | nil => simp [strncmp]
  | cons a s ih =>
    obtain ⟨h0, h⟩ := not_or.mp (mt List.mem_cons.mpr h)
    cases t with
    | nil => simp [strncmp, h0]
    | cons b t =>
      rw [strncmp, List.length_cons, Nat.add_sub_cancel, List.cons_prefix_cons, ← ih h, eq_comm (a := a)]
      simp

theorem prefix_blank_iff {s : List UInt8} (h : 32 ∉ s) : s <+: t ++ [32] ↔ s <+: t := by
  constructor
  · intro hs
    obtain hs | rfl := List.prefix_concat_iff.mp hs |>.symm
    · exact hs
    · simp at h
  · exact fun hs => hs.trans (List.prefix_append ..)

theorem chars2HttpMethod_eq (hdata : data.take (t.length + 1) = t ++ [32]) : chars2HttpMethod data =
    ((httpMethodMap.find? fun x => bytes x.2 <+: t).map Prod.fst).getD .invalidMethod := by
  have htake : data.take (t.length + 1) = (t ++ [32]).take (t.length + 1) := by
    rw [hdata, List.take_of_length_le (by simp)]
  have hblank : data[t.length]? = some 32 := by
    rw [← List.getElem?_take_of_lt (Nat.lt_succ_self t.length), hdata]
    simp
  have hplain : ∀ x ∈ httpMethodMap, (0 : UInt8) ∉ bytes x.2 ∧ (32 : UInt8) ∉ bytes x.2 := by decide
  rw [chars2HttpMethod_delimited htake hblank, chars2HttpMethod]
  congr 2
  refine List.find?_congr fun x hx => ?_
  obtain ⟨h0, h32⟩ := hplain x hx
  rw [Bool.eq_iff_iff, strncmp_length_iff _ h0, prefix_blank_iff h32, decide_eq_true_iff]

theorem string2HttpMethod_eq (ht : IsMethod t) : string2HttpMethod t =
    ((httpMethodMap.find? fun x => bytes x.2 = t).map Prod.fst).getD .invalidMethod := by
  have hself : t.takeWhile (· ≠ 0) = t := by
    rw [List.takeWhile_eq_self_iff]
    rintro c hc
    refine decide_eq_true ?_
    rintro rfl
    exact absurd (ht.chars 0 hc) (by decide)
  rw [string2HttpMethod, hself]

theorem names_valid : ∀ x ∈ httpMethodMap, x.1 ≠ .invalidMethod := by decide

/-- No name begins with another one. -/
theorem names_prefix_free : ∀ x ∈ httpMethodMap, ∀ y ∈ httpMethodMap, bytes y.2 <+: bytes x.2 → y = x := by
  decide +kernel

theorem find_unique {α : Type} {l : List α} {p : α → Bool} {x : α} (hx : x ∈ l) (hp : p x = true)
    (h : ∀ y ∈ l, p y = true → y = x) : l.find? p = some x := by
  cases hfind : l.find? p with
  | none => exact absurd hp (List.find?_eq_none.mp hfind x hx)
  | some y => rw [h y (List.mem_of_find?_eq_some hfind) (List.find?_some hfind)]

theorem string2HttpMethod_other (ht : IsMethod t) (h : ∀ x ∈ httpMethodMap, t ≠ bytes x.2) :
    string2HttpMethod t = .invalidMethod := by
  have hfind : httpMethodMap.find? (fun y => bytes y.2 = t) = none := by
    rw [List.find?_eq_none]
    exact fun x hx => by simpa using (h x hx).symm
  rw [string2HttpMethod_eq ht, hfind]
  rfl

theorem chars_eq_string_iff (ht : IsMethod t) (hdata : data.take (t.length + 1) = t ++ [32]) :
    chars2HttpMethod data = string2HttpMethod t ↔
      (∃ x ∈ httpMethodMap, t = bytes x.2) ∨ ∀ x ∈ httpMethodMap, ¬bytes x.2 <+: t := by
  rw [chars2HttpMethod_eq hdata]
  by_cases hname : ∃ x ∈ httpMethodMap, t = bytes x.2
  · obtain ⟨x, hx, rfl⟩ := hname
    have hprefix : httpMethodMap.find? (fun y => bytes y.2 <+: bytes x.2) = some x :=
      find_unique hx (by simp) fun y hy h => names_prefix_free x hx y hy (by simpa using h)
    have hequal : httpMethodMap.find? (fun y => bytes y.2 = bytes x.2) = some x :=
      find_unique hx (by simp) fun y hy h => names_prefix_free x hx y hy (by simp_all)
    rw [string2HttpMethod_eq ht, hprefix, hequal]
    exact iff_of_true rfl (.inl ⟨x, hx, rfl⟩)
  · have hother : ∀ x ∈ httpMethodMap, t ≠ bytes x.2 := fun x hx h => hname ⟨x, hx, h⟩
    rw [string2HttpMethod_other ht hother, or_iff_right hname]
    cases hfind : httpMethodMap.find? fun x => bytes x.2 <+: t with
    | none => simpa using List.find?_eq_none.mp hfind
    | some x =>
      have hx := List.mem_of_find?_eq_some hfind
      have hpre : bytes x.2 <+: t := by simpa using List.find?_some hfind
      exact iff_of_false (names_valid x hx) fun h => h x hx hpre

def lineOf (relaxed : Bool) (ht : IsMethod t) : Http11.Line relaxed where
  method := t
  path := [47]
  query := []
  fragment := []
  minor := 49
  method_ne := ht.ne
  method_le := ht.le
  method_chars := ht.chars
  path_ok := ⟨[], rfl, by simp, .nil⟩
  query_ok := .nil
  fragment_ok := .nil
  minor_ok := by decide

theorem done_stops : (RequestAction.op .done).isStop = true := rfl

theorem table_runs (relaxed : Bool) : ∀ a ∈ (main relaxed).table, (RequestAction.op a).isStop = false := by
  rw [main_table]
  decide

theorem perform_opening (g : Regs RequestMark FieldLen) :
    perform RequestAction.op data 0 (([0] :: silent t).map (actions (main relaxed).table)) g =
      (setMark g .mark 0, []) := by
  have hmark : actions (main relaxed).table [0] = [.mark] := by
    rw [main_table]
    decide
  have hnone : actions (main relaxed).table [] = [] := by
    rw [main_table]
    decide
  have hmap : ([0] :: silent t).map (actions (main relaxed).table) = [.mark] :: List.replicate t.length [] := by
    simp [silent, hmark, hnone]
  rw [hmap, perform, perform_silent]
  simp [runOps, RequestAction.op, Op.isStop, Op.regs, Op.events, setMark]

theorem perform_method (c : UInt8) (g : Regs RequestMark FieldLen) :
    (perform RequestAction.op data 0 (([0] :: silent t ++ [[1]]).map (actions (main relaxed).table)) g).2 =
      [⟨.requestMethod, [⟨data, (c :: t).length, (c :: t).length⟩]⟩] := by
  have hmethod : actions (main relaxed).table [1] = [.requestMethod] := by
    rw [main_table]
    decide
  rw [List.map_append, perform_append, perform_opening]
  simp [perform, runOps, RequestAction.op, Op.isStop, Op.events, Scanner.token, hmethod, silent, setMark]

/-- At the blank behind a method the callback for it is called, as the first one. -/
theorem firstReport_eq (ht : IsMethod t) (hdata : data.take len = t ++ 32 :: rest) :
    firstReport relaxed queryStart data len = some (onRequestMethod {} ⟨data, t.length, t.length⟩) := by
  obtain ⟨T, hrun, -⟩ := run_head (lineOf relaxed ht) (List.forall_mem_nil fun f : Http11.Field => endsBlock f.name = false) (.inl rfl)
  have htext : (lineOf relaxed ht).text ++ [].flatMap Field.text ++ [13, 10] =
      (t ++ [32]) ++ ((lineOf relaxed ht).target ++ 32 :: ((lineOf relaxed ht).version ++ [13, 10]) ++ [13, 10]) := by
    simp [Http11.Line.text, lineOf]
  rw [htext] at hrun
  obtain ⟨σ, σ', U, hσ, hlen, hfirst, hsecond⟩ := hrun.split
  have htrace : σ = [0] :: silent t.tail ++ [[1]] := by
    have hpos := List.length_pos_of_ne_nil ht.ne
    obtain ⟨τ, hτ⟩ : ∃ τ, (lineOf relaxed ht).trace = ([0] :: silent t.tail ++ [[1]]) ++ τ :=
      ⟨_, List.append_cons ([0] :: silent t.tail) [1] _⟩
    rw [hτ, List.append_assoc, List.append_assoc] at hσ
    refine (List.append_inj_left hσ ?_).symm
    simp [hlen, silent]
    omega
  have hU : ¬Final U := by
    generalize hw : (lineOf relaxed ht).target ++ 32 :: ((lineOf relaxed ht).version ++ [13, 10]) ++ [13, 10] = w
      at hsecond
    cases hsecond with
    | nil => simp at hw
    | cons hf _ _ => exact hf
  obtain ⟨S', -, hscan⟩ := scan_run done_stops (table_runs relaxed) data (fun _ h => h) hfirst
    (S := [(main relaxed).stamp 0])
    (by simp) hU (requestFrontend.reset (requestRegs queryStart)) 0 rest
  have hmachine : machine (main relaxed) .done done_stops (table_runs relaxed) = httpParser relaxed := rfl
  have hstart : (httpParser relaxed).start = [(main relaxed).stamp 0] := rfl
  have hwhole : t ++ 32 :: rest = t ++ [32] ++ rest := by simp
  rw [firstReport, hdata, hstart, hwhole, ← hmachine, hscan, htrace]
  obtain ⟨c, t, rfl⟩ := List.exists_cons_of_ne_nil ht.ne
  simp only [List.tail_cons, perform_method c]
  rfl

theorem take_blank {w : List UInt8} (hdata : data.take len = w ++ 32 :: rest) :
    data.take (w.length + 1) = w ++ [32] := by
  have hle : w.length + 1 ≤ len := by
    have hlen := congrArg List.length hdata
    simp only [List.length_take, List.length_append, List.length_cons] at hlen
    omega
  rw [← Nat.min_eq_left hle, ← List.take_take, hdata]
  rw [List.take_append, List.take_of_length_le (by omega), Nat.add_sub_cancel_left]
  rfl

theorem onRequestMethod_eq_answer_iff {m : Token} :
    onRequestMethod {} m = answer t ↔ chars2HttpMethod m.ptr = string2HttpMethod t := by
  rw [onRequestMethod, answer]
  constructor
  · intro h
    split at h <;> split at h
    · simp_all
    · cases congrArg RequestState.error h
    · cases congrArg RequestState.error h
    · exact congrArg (fun s => s.data.method) h
  · intro h
    simp only [h]

theorem run_method (relaxed : Bool) (ht : IsMethod t) : ∃ U,
    Run (fun _ => False) {(main relaxed).stamp 0} t ([0] :: silent t.tail) U ∧ ¬Final U ∧
      ∀ c, methodChar c = false → c ≠ 32 → Stuck U c := by
  obtain ⟨T, hrun, -, -, hstuck⟩ := scans_method ht.ne ht.le ht.chars
  have hline := hrun.seq (P := fun _ => False) (f := .seq (.text (bytes " "))
    (.seq (.alt ((uri relaxed).stamp 2) ((relativeRef relaxed).stamp 9))
      (.seq (.text (bytes " ")) (.seq (httpVersion.stamp 16) (crlf.stamp 18)))))
    (fun c hc => moves_blank (by rintro rfl; exact absurd hc (by decide)) _) (fun _ h => by cases h)
  have hrequest := (hline.seq (P := fun _ => False) (f := .star (messageHeader.stamp 18)) (fun _ h => h.elim)
    fun _ _ h => h).seq (P := fun _ => False) (f := crlf.stamp 22) (fun _ h => h.elim) fun _ _ h => h
  simp only [Set.image_singleton, ← requestLine_stamp] at hrequest
  obtain ⟨d, t, rfl⟩ := List.exists_cons_of_ne_nil ht.ne
  have hmoves : moves ((socketRequest relaxed).stamp 22) d = [] :=
    moves_socketRequest (ht.chars d List.mem_cons_self) 22
  have hmain := hrequest.alt_left hmoves fun h => by cases h
  rw [← main_stamp] at hmain
  refine ⟨_, hmain, ?_, fun c hc hne => ?_⟩
  · rintro ⟨_, ⟨_, ⟨_, ⟨x, hx, rfl⟩, rfl⟩, rfl⟩, ho⟩
    have hcrlf : out (crlf.stamp 22) = none := rfl
    simp [out, hcrlf] at ho
  · rintro _ ⟨_, ⟨_, ⟨x, hx, rfl⟩, rfl⟩, rfl⟩
    have hstop := hstuck c hc x hx
    have hblank : moves (.text (bytes " ")) c = [] := by
      have hb : bytes " " = [32] := by decide
      simp [hb, Exp.text, Exp.byte, moves, hne]
    have hout : out (.text (bytes " ")) = none := rfl
    have hnil : ((out x).elim [] fun _ => ([] : List Move)) = [] := by cases out x <;> rfl
    simp only [moves, out, hstop, hblank, hout]
    simp [hnil]

theorem firstReport_refused {c : UInt8} (ht : IsMethod t) (hc : methodChar c = false) (hne : c ≠ 32)
    (hdata : data.take len = t ++ c :: rest) : firstReport relaxed queryStart data len = none := by
  obtain ⟨U, hrun, hU, hstuck⟩ := run_method relaxed ht
  obtain ⟨S', hS', hscan⟩ := scan_run done_stops (table_runs relaxed) data (fun _ h => h) hrun
    (S := [(main relaxed).stamp 0]) (by simp) hU (requestFrontend.reset (requestRegs queryStart)) 0 (c :: rest)
  have hnext : Ragel.next (main relaxed).table .done S' c = none := by
    have hnil : candidates S' c = [] := by
      rw [candidates, List.flatMap_eq_nil_iff]
      exact fun e he => hstuck c hc hne e (hS' ▸ he)
    simp [Ragel.next, kept, hnil]
  have hmachine : machine (main relaxed) .done done_stops (table_runs relaxed) = httpParser relaxed := rfl
  have hnext' : (httpParser relaxed).next S' c = none := hnext
  have hstart : (httpParser relaxed).start = [(main relaxed).stamp 0] := rfl
  rw [hmachine] at hscan
  rw [firstReport, hdata, hstart, hscan, perform_opening]
  simp only [scan, hnext']
  rfl

theorem firstReport_answer_iff {c : UInt8} (ht : IsMethod t) (hc : methodChar c = false)
    (hdata : data.take len = t ++ c :: rest) : firstReport relaxed queryStart data len = some (answer t) ↔
      c = 32 ∧ ((∃ x ∈ httpMethodMap, t = bytes x.2) ∨ ∀ x ∈ httpMethodMap, ¬bytes x.2 <+: t) := by
  by_cases hblank : c = 32
  · subst hblank
    rw [and_iff_right rfl, firstReport_eq ht hdata, ← chars_eq_string_iff ht (take_blank hdata), Option.some.injEq]
    exact onRequestMethod_eq_answer_iff
  · rw [firstReport_refused ht hc hblank hdata]
    simp [hblank]

theorem method_mem {m : HttpMethod} (h : m ≠ .invalidMethod) : (m, httpMethod2String m) ∈ httpMethodMap := by
  cases m <;> first | decide | exact absurd rfl h

theorem isMethod_name {m : HttpMethod} (h : m ≠ .invalidMethod) (hm : m ≠ .msearch) :
    IsMethod (bytes (httpMethod2String m)) := by
  have hall : ∀ x ∈ httpMethodMap, x.1 ≠ .msearch →
      bytes x.2 ≠ [] ∧ (bytes x.2).length ≤ 20 ∧ (bytes x.2).all methodChar = true := by decide +kernel
  exact .of_all (hall _ (method_mem h) hm)

theorem answer_name {m : HttpMethod} (h : m ≠ .invalidMethod) :
    answer (bytes (httpMethod2String m)) = { data := { method := m } } := by
  have hall : ∀ x ∈ httpMethodMap, string2HttpMethod (bytes x.2) = x.1 := by decide +kernel
  rw [answer, hall _ (method_mem h), if_neg h]

theorem HttpRequest.dump_begins (r : HttpRequest) : ∃ u, r.dump = bytes (httpMethod2String r.method) ++ 32 :: u := by
  have hblank : bytes " " = [32] := by decide
  exact ⟨_, by simp only [HttpRequest.dump, HttpRequest.head, hblank, List.append_assoc, List.singleton_append]; rfl⟩

/-- The methods that the parser answers as it should, and those that a dumped request comes
back with. -/
theorem methods_iff (relaxed : Bool) (queryStart : Nat) :
    (∀ (data t rest : List UInt8) (c : UInt8) (len : Nat), IsMethod t → methodChar c = false →
      data.take len = t ++ c :: rest → (firstReport relaxed queryStart data len = some (answer t) ↔
        c = 32 ∧ ((∃ x ∈ httpMethodMap, t = bytes x.2) ∨ ∀ x ∈ httpMethodMap, ¬bytes x.2 <+: t))) ∧
    ∀ (r : HttpRequest) (data rest : List UInt8) (len : Nat), r.method ≠ .invalidMethod →
      data.take len = r.dump ++ rest →
      (firstReport relaxed queryStart data len = some { data := { method := r.method } } ↔ r.method ≠ .msearch) := by
  refine ⟨fun data t rest c len ht hc hdata => firstReport_answer_iff ht hc hdata,
    fun r data rest len hvalid hdata => ?_⟩
  obtain ⟨u, hu⟩ := r.dump_begins
  rw [hu, List.append_assoc, List.cons_append] at hdata
  by_cases hm : r.method = .msearch
  · have hname : bytes (httpMethod2String r.method) = [77] ++ 45 :: bytes "SEARCH" := by
      rw [hm]
      decide
    rw [hname, List.append_assoc, List.cons_append] at hdata
    rw [firstReport_refused (t := [77]) (c := 45) (.of_all (by decide)) (by decide) (by decide) hdata]
    simp [hm]
  · rw [← answer_name hvalid, firstReport_answer_iff (isMethod_name hvalid hm) (by decide) hdata]
    exact iff_of_true ⟨rfl, .inl ⟨_, method_mem hvalid, rfl⟩⟩ hm

theorem methods_of_get : firstReport false 0 (bytes "GET / HTTP/1.1") 14 = some (answer (bytes "GET")) ∧
    firstReport false 0 (HttpRequest.dump {}) (HttpRequest.dump {}).length = some { data := { method := .get } } := by
  refine ⟨((methods_iff false 0).1 (bytes "GET / HTTP/1.1") (bytes "GET") (bytes "/ HTTP/1.1") 32 14
    (.of_all (by decide)) (by decide) (by decide)).mpr ⟨rfl, .inl ⟨(.get, "GET"), by decide, rfl⟩⟩, ?_⟩
  exact ((methods_iff false 0).2 {} (HttpRequest.dump {}) [] (HttpRequest.dump {}).length (by decide) (by simp)).mpr
    (by decide)

/-- `GETX` is taken for `GET`, and `M-SEARCH` is refused. -/
theorem method_extended : firstReport false 0 (bytes "GETX / HTTP/1.1") 15 = some { data := { method := .get } } ∧
    answer (bytes "GETX") = { error := 1000 } ∧
    firstReport false 0 (HttpRequest.dump { method := .msearch }) (HttpRequest.dump { method := .msearch }).length =
      none := by
  refine ⟨?_, by decide, ?_⟩
  · have hgetx : IsMethod (bytes "GETX") := .of_all (by decide)
    have hdata : (bytes "GETX / HTTP/1.1").take 15 = bytes "GETX" ++ 32 :: bytes "/ HTTP/1.1" := by decide
    rw [firstReport_eq hgetx hdata]
    decide
  · have hm : IsMethod [77] := .of_all (by decide)
    have hdata : (HttpRequest.dump { method := .msearch }).take (HttpRequest.dump { method := .msearch }).length =
        [77] ++ 45 :: (HttpRequest.dump { method := .msearch }).drop 2 := by decide +kernel
    exact firstReport_refused hm (by decide) (by decide) hdata

end Windgent.Http
