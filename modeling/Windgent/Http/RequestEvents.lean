import Windgent.Http.RequestText

namespace Windgent.Http.Http11

open Ragel Scanner MachineInt

/-- The text `w` stands at position `p` of the buffer. -/
def At (data : List UInt8) (p : Nat) (w : List UInt8) : Prop := ∃ rest, data.drop p = w ++ rest

section Events

variable {data w w' : List UInt8} {p : Nat}

theorem At.append (h : At data p (w ++ w')) : At data p w ∧ At data (p + w.length) w' := by
  obtain ⟨rest, h⟩ := h
  rw [List.append_assoc] at h
  refine ⟨⟨_, h⟩, rest, ?_⟩
  rw [← List.drop_drop, h, List.drop_left]

theorem stringOf_at (h : At data p w) (hw : w.length < 2 ^ 64) (upto : Int) :
    stringOf ⟨data.drop p, upto, w.length⟩ = some w := by
  obtain ⟨rest, h⟩ := h
  have hlen : toUInt64 (w.length : Int) = w.length := by
    unfold toUInt64 modulus
    omega
  simp [stringOf, string, hlen, h]

/-- The actions of the embeddings `τ` at position `p` take the parser from registers `g`
and state `s` to `g'` and `s'`. -/
structure Does (relaxed : Bool) (data : List UInt8) (p : Nat) (τ : List (List Nat))
    (g : Regs RequestMark FieldLen) (s : RequestState) (g' : Regs RequestMark FieldLen) (s' : RequestState) :
    Prop where
  regs : (perform RequestAction.op data p (τ.map (actions (main relaxed).table)) g).1 = g'
  state : (perform RequestAction.op data p (τ.map (actions (main relaxed).table)) g).2.foldlM onRequest s = some s'

variable {relaxed : Bool} {τ τ' : List (List Nat)} {g g' g'' : Regs RequestMark FieldLen}
  {s s' s'' : RequestState}

theorem Does.append (h : Does relaxed data p τ g s g' s') (h' : Does relaxed data (p + τ.length) τ' g' s' g'' s'') :
    Does relaxed data p (τ ++ τ') g s g'' s'' := by
  obtain ⟨rfl, hs⟩ := h
  obtain ⟨hg, hs'⟩ := h'
  have hp := perform_append RequestAction.op data p (τ.map (actions (main relaxed).table))
    (τ'.map (actions (main relaxed).table)) g
  rw [List.length_map] at hp
  rw [← List.map_append] at hp
  constructor
  · rw [hp]
    exact hg
  · rw [hp, List.foldlM_append, hs]
    exact hs'

theorem Does.then {q : Nat} (h : Does relaxed data p τ g s g' s') (hq : p + τ.length = q)
    (h' : Does relaxed data q τ' g' s' g'' s'') : Does relaxed data p (τ ++ τ') g s g'' s'' :=
  h.append (hq ▸ h')

theorem main_table : (main relaxed).table =
    [.mark, .requestMethod, .mark, .requestPath, .startQuery, .queryString, .requestUri, .mark, .fragment,
      .mark, .requestPath, .startQuery, .queryString, .requestUri, .mark, .fragment, .mark, .httpVersion,
      .startField, .writeField, .startValue, .writeValue, .mark, .requestPath, .xml, .mark, .requestPath, .mark,
      .json] := by
  cases relaxed <;> rfl

theorem Does.silent (w : List UInt8) : Does relaxed data p (silent w) g s g s := by
  have ha : actions (main relaxed).table [] = [] := by
    rw [main_table]
    decide
  have hm : (Ragel.silent w).map (actions (main relaxed).table) = List.replicate w.length [] := by
    simp [Ragel.silent, ha]
  constructor
  · rw [hm, perform_silent]
  · rw [hm, perform_silent]
    rfl

theorem Does.single {t : List Nat} (as : List RequestAction) (ha : actions (main relaxed).table t = as)
    (hg : (runOps data p (as.map RequestAction.op) g).1 = g')
    (hs : (runOps data p (as.map RequestAction.op) g).2.foldlM onRequest s = some s') :
    Does relaxed data p [t] g s g' s' := by
  constructor
  · simp [perform, ha, hg]
  · simpa [perform, ha] using hs

def setMark (g : Regs RequestMark FieldLen) (r : RequestMark) (p : Nat) : Regs RequestMark FieldLen :=
  { g with pos := Function.update g.pos r p }

theorem token_mark (r : RequestMark) (n : Nat) :
    Scanner.token (L := FieldLen) data (p + n) (setMark g r p) (r, none) = ⟨data.drop p, n, n⟩ := by
  simp [Scanner.token, setMark]

theorem Does.token {t o : List Nat} {r : RequestMark} (a b : RequestAction) (as : List RequestAction)
    (kind : RequestCallback) (ht : actions (main relaxed).table t = [a]) (ha : a.op = .mark r)
    (ho : actions (main relaxed).table o = b :: as) (hb : b.op = .emit kind [(r, none)])
    (has : ∀ x ∈ as, x.op = .skip) (hw : w ≠ [])
    (hs : onRequest s ⟨kind, [⟨data.drop p, w.length, w.length⟩]⟩ = some s') :
    Does relaxed data p (t :: Ragel.silent w.tail ++ [o]) g s (setMark g r p) s' := by
  obtain ⟨c, w, rfl⟩ := List.exists_cons_of_ne_nil hw
  have hskip : ∀ (as : List RequestAction) (g : Regs RequestMark FieldLen) (q : Nat), (∀ x ∈ as, x.op = .skip) →
      runOps data q (as.map RequestAction.op) g = (g, []) := by
    intro as
    induction as with
    | nil => exact fun _ _ _ => rfl
    | cons x as ih =>
      intro g q h
      obtain ⟨hx, has⟩ := List.forall_mem_cons.mp h
      simp [runOps, hx, Op.isStop, Op.regs, Op.events, ih g q has]
  have hfirst : Does relaxed data p [t] g s (setMark g r p) s :=
    Does.single _ ht (by simp [runOps, ha, Op.isStop, Op.regs, setMark]) (by simp [runOps, ha, Op.isStop, Op.events])
  have hlen : p + 1 + (Ragel.silent w).length = p + (c :: w).length := by
    simp [Ragel.silent]
    omega
  have hlast : Does relaxed data (p + 1 + (Ragel.silent w).length) [o] (setMark g r p) s (setMark g r p) s' := by
    refine Does.single _ ho ?_ ?_
    · simp [runOps, hb, Op.isStop, Op.regs, hskip as _ _ has]
    · rw [hlen]
      simp only [List.map_cons, runOps, hb, Op.isStop, Op.events, Op.regs, hskip as _ _ has, Bool.false_eq_true,
        if_false, List.map_nil, List.append_nil, token_mark, List.foldlM_cons, List.foldlM_nil, hs]
      rfl
  have hp : p + ([t] ++ Ragel.silent w).length = p + 1 + (Ragel.silent w).length := by
    simp
    omega
  exact (hfirst.append (Does.silent w)).append (hp ▸ hlast)

theorem Does.method {m : List UInt8} (hm : m ≠ []) :
    Does relaxed data p ([0] :: Ragel.silent m.tail ++ [[1]]) g s (setMark g .mark p)
      (onRequestMethod s ⟨data.drop p, m.length, m.length⟩) := by
  refine Does.token .mark .requestMethod [] .requestMethod ?_ rfl ?_ rfl (by simp) hm rfl
  all_goals
    rw [main_table]
    decide

theorem Does.path {o : List Nat} {as : List RequestAction} {path : List UInt8}
    (ho : actions (main relaxed).table o = .requestPath :: as) (has : ∀ x ∈ as, x.op = .skip) (hp : path ≠ [])
    (hat : At data p path) (hlen : path.length < 2 ^ 64) :
    Does relaxed data p ([9] :: Ragel.silent path.tail ++ [o]) g s (setMark g .mark p)
      { s with data := { s.data with path := path } } := by
  refine Does.token .mark _ as .requestPath ?_ rfl ho rfl has hp ?_
  · rw [main_table]
    decide
  · simp [onRequest, onRequestPath, stringOf_at hat hlen]

theorem Does.query {q : List UInt8} (hq : q ≠ []) (hat : At data p q) (hlen : q.length < 2 ^ 64) :
    Does relaxed data p ([11] :: Ragel.silent q.tail ++ [[12, 13]]) g s (setMark g .queryStart p)
      { s with data := { s.data with query := q } } := by
  refine Does.token .startQuery .queryString [.requestUri] .queryString ?_ rfl ?_ rfl
    (by simp [RequestAction.op]) hq ?_
  · rw [main_table]
    decide
  · rw [main_table]
    decide
  · simp [onRequest, onRequestQuery, stringOf_at hat hlen]

theorem Does.fragment {fr : List UInt8} (hfr : fr ≠ []) (hat : At data p fr) (hlen : fr.length < 2 ^ 64) :
    Does relaxed data p ([14] :: Ragel.silent fr.tail ++ [[15]]) g s (setMark g .mark p)
      { s with data := { s.data with fragment := fr } } := by
  refine Does.token .mark .fragment [] .fragment ?_ rfl ?_ rfl (by simp) hfr ?_
  · rw [main_table]
    decide
  · rw [main_table]
    decide
  · simp [onRequest, onRequestFragment, stringOf_at hat hlen]

theorem Does.version {v : List UInt8} (hv : v ≠ []) :
    Does relaxed data p ([16] :: Ragel.silent v.tail ++ [[17]]) g s (setMark g .mark p)
      (onRequestVersion s ⟨data.drop p, v.length, v.length⟩) := by
  refine Does.token .mark .httpVersion [] .httpVersion ?_ rfl ?_ rfl (by simp) hv rfl
  all_goals
    rw [main_table]
    decide

theorem Does.startField : Does relaxed data p [[18]] g s (setMark g .fieldStart p) s := by
  refine Does.single [.startField] ?_ (by simp [runOps, RequestAction.op, Op.isStop, Op.regs, setMark])
    (by simp [runOps, RequestAction.op, Op.isStop, Op.events])
  rw [main_table]
  decide

theorem Does.writeField :
    Does relaxed data p [[19]] g s
      { g with len := Function.update g.len .fieldLen ((p : Int) - g.pos .fieldStart) } s := by
  refine Does.single [.writeField] ?_ (by simp [runOps, RequestAction.op, Op.isStop, Op.regs])
    (by simp [runOps, RequestAction.op, Op.isStop, Op.events])
  rw [main_table]
  decide

theorem Does.startValue : Does relaxed data p [[20]] g s (setMark g .mark p) s := by
  refine Does.single [.startValue] ?_ (by simp [runOps, RequestAction.op, Op.isStop, Op.regs, setMark])
    (by simp [runOps, RequestAction.op, Op.isStop, Op.events])
  rw [main_table]
  decide

theorem Does.writeValue {name value : Token}
    (hname : ⟨data.drop (g.pos .fieldStart), (p : Int) - g.pos .fieldStart, g.len .fieldLen⟩ = name)
    (hvalue : ⟨data.drop (g.pos .mark), (p : Int) - g.pos .mark, (p : Int) - g.pos .mark⟩ = value)
    (hs : onRequestHttpField s name value = some s') : Does relaxed data p [[21]] g s g s' := by
  refine Does.single [.writeValue] ?_ (by simp [runOps, RequestAction.op, Op.isStop, Op.regs]) ?_
  · rw [main_table]
    decide
  · subst hname hvalue
    simp [runOps, RequestAction.op, Op.isStop, Op.events, onRequest, Scanner.token, hs]

variable (relaxed) in
theorem Does.field (f : Field) (hat : At data p f.text) (hlen : f.text.length < 2 ^ 64) :
    ∃ g', Does relaxed data p f.trace g s g'
      { s with data := { s.data with headers := setHeader f.name f.value s.data.headers } } := by
  obtain ⟨c, name, hname⟩ := List.exists_cons_of_ne_nil f.name_ne
  obtain ⟨d, value, hvalue⟩ := List.exists_cons_of_ne_nil f.value_ne
  have htext : f.text = f.name ++ ([58, 32] ++ (f.value ++ [13, 10])) := by simp [Field.text]
  rw [htext] at hat hlen
  simp only [List.length_append] at hlen
  obtain ⟨hatname, hat⟩ := hat.append
  obtain ⟨-, hat⟩ := hat.append
  obtain ⟨hatvalue, -⟩ := hat.append
  have hn : f.name.length = name.length + 1 := by simp [hname]
  have hv : f.value.length = value.length + 1 := by simp [hvalue]
  have htrace : f.trace = [[18]] ++ Ragel.silent name ++ [[19]] ++ [[20]] ++ [[20]] ++ Ragel.silent value ++ [[21]] ++
      Ragel.silent [10] := by
    simp [Field.trace, hname, hvalue, Ragel.silent]
  let n := f.name.length
  let g₁ : Regs RequestMark FieldLen :=
    { setMark g .fieldStart p with len := Function.update g.len .fieldLen n }
  let g₂ := setMark (setMark g₁ .mark (p + n + 1)) .mark (p + n + 2)
  have h₁ : Does relaxed data p ([[18]] ++ Ragel.silent name ++ [[19]]) g s g₁ s := by
    refine (Does.startField.append (Does.silent name)).then (q := p + n) (by simp [Ragel.silent, n, hn]) ?_
    have hw : Does relaxed data (p + n) [[19]] (setMark g .fieldStart p) s
        { setMark g .fieldStart p with
          len := Function.update g.len .fieldLen (((p + n : Nat) : Int) - (setMark g .fieldStart p).pos .fieldStart) }
        s := Does.writeField
    simpa [setMark, g₁] using hw
  have h₂ : Does relaxed data p ([[18]] ++ Ragel.silent name ++ [[19]] ++ [[20]] ++ [[20]]) g s g₂ s :=
    (h₁.then (q := p + n + 1) (by simp [Ragel.silent, n, hn]; omega) Does.startValue).then (q := p + n + 2)
      (by simp [Ragel.silent, n, hn]; omega) Does.startValue
  have hsn : stringOf ⟨data.drop p, (n + 2 + f.value.length : Nat), (n : Nat)⟩ = some f.name :=
    stringOf_at hatname (by omega) _
  have hsv : stringOf ⟨data.drop (p + n + 2), (f.value.length : Nat), (f.value.length : Nat)⟩ = some f.value :=
    stringOf_at hatvalue (by omega) _
  have hfield : onRequestHttpField s ⟨data.drop p, (n + 2 + f.value.length : Nat), (n : Nat)⟩
      ⟨data.drop (p + n + 2), (f.value.length : Nat), (f.value.length : Nat)⟩ =
        some { s with data := { s.data with headers := setHeader f.name f.value s.data.headers } } := by
    have h0 : toUInt64 (n : Int) ≠ 0 := by
      unfold toUInt64 modulus
      omega
    rw [onRequestHttpField, fieldOf, if_neg h0, hsn, hsv]
    rfl
  refine ⟨g₂, ?_⟩
  rw [htrace]
  refine ((h₂.append (Does.silent value)).then (q := p + n + 2 + f.value.length) (by
    simp [Ragel.silent, n, hn, hv]; omega) (Does.writeValue ?_ ?_ hfield)).append (Does.silent [10])
  · simp [g₂, g₁, setMark]
    omega
  · simp [g₂, g₁, setMark]

theorem Field.length_trace (f : Field) : f.trace.length = f.text.length := by
  have hn := List.length_pos_of_ne_nil f.name_ne
  have hv := List.length_pos_of_ne_nil f.value_ne
  simp [Field.trace, Field.text, Ragel.silent]
  omega

variable (relaxed) in
theorem Does.fields (fs : List Field) (hat : At data p (fs.flatMap Field.text))
    (hlen : (fs.flatMap Field.text).length < 2 ^ 64) :
    ∃ g', Does relaxed data p (fs.flatMap Field.trace) g s g'
      { s with data :=
        { s.data with headers := fs.foldl (fun hs f => setHeader f.name f.value hs) s.data.headers } } := by
  induction fs generalizing p g s with
  | nil => exact ⟨g, Does.silent []⟩
  | cons f fs ih =>
    rw [List.flatMap_cons] at hat hlen
    rw [List.length_append] at hlen
    obtain ⟨hatf, hatfs⟩ := hat.append
    obtain ⟨g₁, hf⟩ := Does.field relaxed (g := g) (s := s) f hatf (by omega)
    obtain ⟨g₂, hfs⟩ := ih (g := g₁) hatfs (by omega)
    refine ⟨g₂, ?_⟩
    rw [List.flatMap_cons]
    exact hf.then (by rw [f.length_trace]) hfs

variable (relaxed) in
theorem Does.target {path q : List UInt8} (hp : path ≠ []) (hat : At data p (path ++ part 63 q))
    (hlen : (path ++ part 63 q).length < 2 ^ 64) :
    ∃ g', Does relaxed data p ([9] :: Ragel.silent path.tail ++ partTrace [10] [11] q ++ [targetOut q]) g s g'
      { s with data := { s.data with path := path, query := if q = [] then s.data.query else q } } := by
  obtain ⟨hatp, hatq⟩ := hat.append
  rw [List.length_append] at hlen
  have hpos := List.length_pos_of_ne_nil hp
  by_cases hq : q = []
  · subst hq
    refine ⟨setMark g .mark p, ?_⟩
    have ho : actions (main relaxed).table [10, 13] = [.requestPath, .requestUri] := by
      rw [main_table]
      decide
    have hd := Does.path (g := g) (s := s) ho (by simp [RequestAction.op]) hp hatp (by omega)
    simpa [partTrace, targetOut] using hd
  · simp only [part, hq, if_false] at hatq hlen
    obtain ⟨-, hatq⟩ := At.append (w := [63]) hatq
    rw [List.length_cons] at hlen
    have ho : actions (main relaxed).table [10] = [.requestPath] := by
      rw [main_table]
      decide
    have hd := Does.path (g := g) (s := s) ho (by simp) hp hatp (by omega)
    have hend : p + ([9] :: Ragel.silent path.tail ++ [[10]]).length = p + path.length + 1 := by
      simp [Ragel.silent]
      omega
    have hboth := hd.then hend (Does.query hq hatq (by omega))
    refine ⟨setMark (setMark g .mark p) .queryStart (p + path.length + 1), ?_⟩
    simpa [partTrace, targetOut, hq] using hboth

theorem Does.reference (l : Line relaxed) (hat : At data p l.target) (hlen : l.target.length < 2 ^ 64) :
    ∃ g', Does relaxed data p (l.targetTrace ++ [if l.fragment = [] then targetOut l.query else [15]]) g s g'
      { s with data :=
        { s.data with
          path := l.path
          query := if l.query = [] then s.data.query else l.query
          fragment := if l.fragment = [] then s.data.fragment else l.fragment } } := by
  have hp : l.path ≠ [] := by
    obtain ⟨t, ht, -, -⟩ := l.path_ok
    simp [ht]
  rw [Line.target] at hat hlen
  obtain ⟨hatt, hatf⟩ := hat.append
  rw [List.length_append] at hlen
  obtain ⟨g₁, ht⟩ := Does.target relaxed (g := g) (s := s) hp hatt (by omega)
  by_cases hf : l.fragment = []
  · refine ⟨g₁, ?_⟩
    simpa [Line.targetTrace, partTrace, hf] using ht
  · simp only [part, hf, if_false] at hatf hlen
    obtain ⟨-, hatf⟩ := At.append (w := [35]) hatf
    have hend : p + ([9] :: Ragel.silent l.path.tail ++ partTrace [10] [11] l.query ++ [targetOut l.query]).length =
        p + (l.path ++ part 63 l.query).length + 1 := by
      have hpos := List.length_pos_of_ne_nil hp
      by_cases hq : l.query = []
      · simp [hq, partTrace, part, Ragel.silent]
        omega
      · have hqpos := List.length_pos_of_ne_nil hq
        simp [hq, partTrace, part, Ragel.silent]
        omega
    have hboth := ht.then hend (Does.fragment hf hatf (by rw [List.length_cons] at hlen; omega))
    refine ⟨setMark g₁ .mark (p + (l.path ++ part 63 l.query).length + 1), ?_⟩
    simpa [Line.targetTrace, partTrace, hf] using hboth

theorem chars2HttpMethod_name {x : HttpMethod × String} (hx : x ∈ httpMethodMap)
    (hat : At data p (bytes x.2 ++ [32])) : chars2HttpMethod (data.drop p) = x.1 := by
  have hall : ∀ x ∈ httpMethodMap, chars2HttpMethod (bytes x.2 ++ [32]) = x.1 := by decide +kernel
  obtain ⟨rest, hat⟩ := hat
  rw [← hall x hx]
  refine chars2HttpMethod_delimited (k := (bytes x.2).length) ?_ (by simp [hat])
  rw [hat, List.take_append_of_le_length (by simp)]

def minorVersion (d : UInt8) : UInt8 := if d = 49 then 0x11 else 0x10

theorem onRequestVersion_at {d : UInt8} (hd : oneOf "01" d = true) (hat : At data p (bytes "HTTP/1." ++ [d])) :
    onRequestVersion s ⟨data.drop p, (8 : Nat), (8 : Nat)⟩ =
      { s with data := { s.data with version := minorVersion d } } := by
  obtain ⟨rest, hat⟩ := hat
  have htake : (data.drop p).take 8 = (bytes "HTTP/1." ++ [d]).take 8 := by
    rw [hat, List.take_append_of_le_length (by simp [bytes])]
  have h8 : toUInt64 (8 : Nat) = 8 := by decide
  have hor : d = 48 ∨ d = 49 := by simpa [oneOf, show bytes "01" = [48, 49] by decide] using hd
  have hversion : versionOf ⟨data.drop p, (8 : Nat), (8 : Nat)⟩ = some (minorVersion d) := by
    rw [versionOf, h8, strncmp_bounded _ htake, strncmp_bounded _ htake]
    obtain rfl | rfl := hor <;> decide
  rw [onRequestVersion, hversion]
  rfl

theorem Line.length_targetTrace (l : Line relaxed) : l.targetTrace.length = l.target.length := by
  obtain ⟨t, ht, -, -⟩ := l.path_ok
  have hpart : ∀ (o t lead) (s : List UInt8), (partTrace o t s).length = (part lead s).length := by
    intro o t lead s
    cases s with
    | nil => rfl
    | cons c s => simp [partTrace, part, Ragel.silent]
  simp only [Line.targetTrace, Line.target, List.length_append, List.length_cons, hpart _ _ 63 l.query,
    hpart _ _ 35 l.fragment]
  simp [Ragel.silent, ht]

theorem Line.length_trace (l : Line relaxed) : l.trace.length = l.text.length := by
  have hm := List.length_pos_of_ne_nil l.method_ne
  simp only [Line.trace, Line.text, List.length_append, List.length_cons, l.length_targetTrace]
  simp [Ragel.silent, Line.version]
  omega

/-- The request line. -/
theorem Does.line (l : Line relaxed) {x : HttpMethod × String} (hx : x ∈ httpMethodMap)
    (hm : l.method = bytes x.2) (hat : At data p l.text) (hlen : l.text.length < 2 ^ 64) :
    ∃ g', Does relaxed data p l.trace g s g'
      { s with data :=
        { s.data with
          method := x.1
          version := minorVersion l.minor
          path := l.path
          query := if l.query = [] then s.data.query else l.query
          fragment := if l.fragment = [] then s.data.fragment else l.fragment } } := by
  have htext : l.text = (l.method ++ [32]) ++ (l.target ++ ([32] ++ (l.version ++ [13, 10]))) := by
    simp [Line.text]
  have hpos := List.length_pos_of_ne_nil l.method_ne
  rw [htext] at hat hlen
  simp only [List.length_append] at hlen
  obtain ⟨hatm, hat⟩ := hat.append
  obtain ⟨hatt, hat⟩ := hat.append
  obtain ⟨-, hat⟩ := hat.append
  obtain ⟨hatv, -⟩ := hat.append
  have hname : onRequestMethod s ⟨data.drop p, l.method.length, l.method.length⟩ =
      { s with data := { s.data with method := x.1 } } := by
    have hvalid : ∀ x ∈ httpMethodMap, x.1 ≠ .invalidMethod := by decide
    rw [onRequestMethod, chars2HttpMethod_name hx (hm ▸ hatm), if_neg (hvalid x hx)]
  have hmethod : Does relaxed data p ([0] :: Ragel.silent l.method.tail ++ [[1]]) g s (setMark g .mark p)
      (onRequestMethod s ⟨data.drop p, l.method.length, l.method.length⟩) := Does.method l.method_ne
  rw [hname] at hmethod
  have hend : p + ([0] :: Ragel.silent l.method.tail ++ [[1]]).length = p + (l.method ++ [32]).length := by
    simp [Ragel.silent]
    omega
  obtain ⟨g₁, href⟩ := Does.reference (g := setMark g .mark p)
    (s := { s with data := { s.data with method := x.1 } }) l hatt (by omega)
  have hfirst := hmethod.then hend href
  have hend' : p + ([0] :: Ragel.silent l.method.tail ++ [[1]] ++
      (l.targetTrace ++ [if l.fragment = [] then targetOut l.query else [15]])).length =
      p + (l.method ++ [32]).length + l.target.length + ([32] : List UInt8).length := by
    have hone : (l.targetTrace ++ [if l.fragment = [] then targetOut l.query else [15]]).length =
        l.target.length + 1 := by
      rw [List.length_append, l.length_targetTrace, List.length_singleton]
    rw [List.length_append, ← Nat.add_assoc, hend, hone, List.length_singleton, Nat.add_assoc _ _ 1]
  have hver : l.version ≠ [] := by simp [Line.version]
  have hvlen : l.version.length = 8 := by simp [Line.version, bytes]
  have hversion := hfirst.then hend' (Does.version (v := l.version) hver)
  rw [hvlen, onRequestVersion_at l.minor_ok hatv] at hversion
  have htrace : l.trace = [0] :: Ragel.silent l.method.tail ++ [[1]] ++
      (l.targetTrace ++ [if l.fragment = [] then targetOut l.query else [15]]) ++
      ([16] :: Ragel.silent l.version.tail ++ [[17]]) ++ Ragel.silent [10] := by
    simp [Line.trace, Ragel.silent]
  rw [htrace]
  exact ⟨_, hversion.append (Does.silent [10])⟩

end Events

end Windgent.Http.Http11
