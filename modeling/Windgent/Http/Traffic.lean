import Windgent.Http.Exchange
import Windgent.Http.RequestRoundTrip
import Windgent.Http.ResponseRoundTrip
import Windgent.Http.Server

namespace Windgent.Http.Traffic

open MachineInt Transition Custody HttpClient

def written (text : List UInt8) (o : Stream.Outcome) : List UInt8 := o.final.moved.filterMap fun p => text[p.1]?

/-- The pool with its clients and what they ask, the bytes that are on their way on each
connection, and the sessions of the server. The last fields are history: the answer that was
sent last on each connection, with its number, and the responses that the clients were given. -/
structure State (C : Type) where
  exchange : Exchange.State C
  asked : C → HttpRequest
  up : Nat → List UInt8
  down : Nat → List UInt8
  session : Nat → Bool
  served : Nat
  answered : Nat → Option (Nat × HttpResponse)
  log : List (HttpRequest × HttpResponse)

/-- The steps of the clients, and an iteration of `handleClient`: a call that reads has its
buffer and the results of its reads, a call that writes the results of its writes. -/
inductive Action (C : Type) where
  | pool (a : Pool.Action C)
  | sendRequest (c : C) (req : HttpRequest) (rs : List Int)
  | serve (n queryStart : Nat) (memory : List UInt8) (source : Source) (rs : List Int)
  | recvResponse (c : C) (memory : List UInt8) (source : Source)

section Model

variable {C : Type} [DecidableEq C] (relaxed : Bool) (fnmatch : List UInt8 → List UInt8 → Bool) (server : HttpServer)
variable (lexicalCast : List UInt8 → Option UInt64) (l : Pool.Limits)

def State.connect (s : State C) : Pool.Action C → State C
  | .create _ _ =>
    let n := s.exchange.pool.next
    { s with
      up := Function.update s.up n []
      down := Function.update s.down n []
      session := Function.update s.session n true }
  | _ => s

def poolStep (s : State C) (a : Pool.Action C) : Option (State C) :=
  (Exchange.poolStep l s.exchange a).map fun e => { s.connect a with exchange := e }

def sendRequest (s : State C) (c : C) (n : Nat) (req : HttpRequest) (rs : List Int) : Option (State C) :=
  let text := req.dump
  (Exchange.sendRequest s.exchange c n text.length rs).map fun e =>
    { s with
      exchange := e
      asked := Function.update s.asked c req
      up := if s.exchange.connected n then
          Function.update s.up n (s.up n ++ written text (Stream.writeFixedSize text.length rs))
        else s.up }

/-- An iteration of `handleClient` that receives a request. The tables of the dispatcher are
those of the moment. -/
def serve (s : State C) (n queryStart : Nat) (memory : List UInt8) (source : Source) (rs : List Int) :
    Option (State C) :=
  match recvRequest (Http11.httpParser relaxed) lexicalCast queryStart memory source with
  | .done req =>
    let out := server.answer fnmatch s.served req
    let text := out.2.dump
    some { s with
      up := Function.update s.up n ((s.up n).drop source.flatten.length)
      down := Function.update s.down n (s.down n ++ written text (Stream.writeFixedSize text.length rs))
      session := Function.update s.session n !(!server.isKeepAlive || out.1.close)
      served := s.served + 1
      answered := Function.update s.answered n (some (s.served, out.2)) }
  | .waiting | .closed | .crashed => none

def recvResponse (s : State C) (c : C) (n : Nat) (memory : List UInt8) (source : Source) : Option (State C) :=
  let source := if s.exchange.connected n then source else [[]]
  (Exchange.recvResponse httpclientParser lexicalCast s.exchange c n memory source).map fun e =>
    { s with
      exchange := e
      down := Function.update s.down n ((s.down n).drop source.flatten.length)
      log := match Http.recvResponse httpclientParser lexicalCast memory source with
        | .done rsp => (s.asked c, rsp) :: s.log
        | .waiting | .closed | .crashed => s.log }

def step (s : State C) : Action C → Option (State C)
  | .pool a => poolStep l s a
  | .sendRequest c req rs =>
    match s.exchange.pool.pc c, s.exchange.phase c with
    | .holding n, .ready => sendRequest s c n req rs
    | _, _ => none
  | .serve n queryStart memory source rs =>
    if s.session n && source.flatten <+: s.up n then
      serve relaxed fnmatch server lexicalCast s n queryStart memory source rs
    else none
  | .recvResponse c memory source =>
    match s.exchange.pool.pc c, s.exchange.phase c with
    | .holding n, .sent => if source.flatten <+: s.down n then recvResponse lexicalCast s c n memory source else none
    | _, _ => none

omit [DecidableEq C] in
theorem State.connect_of_ne {s : State C} {a : Pool.Action C} (h : ∀ c now, a ≠ .create c now) : s.connect a = s := by
  cases a with
  | create c now => exact absurd rfl (h c now)
  | _ => rfl

structure Init (s : State C) : Prop where
  exchange : Exchange.Init s.exchange
  answered : ∀ n, s.answered n = none
  log : s.log = []

def State.answer (s : State C) (q : HttpRequest) : HttpResponse := (server.answer fnmatch s.served q.received).2

def Sendable (text : List UInt8) (rs : List Int) : Prop :=
  text.length < 2 ^ 64 ∧ Stream.Admissible rs (Stream.writeFixedSize text.length rs) ∧
    Stream.Clean true text.length rs text.length

def Readable (head memory : List UInt8) (source : Source) : Prop :=
  (∀ p ∈ source, p ≠ [] ∧ p.length < 2 ^ 31) ∧ head <+: (source.headD []).take memory.length

/-- Requests that the grammar takes apart again. -/
def Receivable (relaxed : Bool) (r : HttpRequest) : Prop := Http11.Dumpable relaxed r ∧ Http11.WellNamed r

/-- The steps in which the messages are of the kind that the grammars take apart again, the
header block of a message arrives in one read, and a connection whose request could not be sent
is too old or used up. -/
def Regular (s : State C) : Action C → Prop
  | .pool a => Exchange.Spent l s.exchange (.pool a)
  | .sendRequest _ req rs => Receivable relaxed req ∧ Sendable req.dump rs
  | .serve n _ memory source rs =>
    (∀ p ∈ source, p ≠ []) ∧ ∀ c, s.exchange.pool.pc c = .holding n → s.exchange.phase c = .sent →
      Readable (s.asked c).head memory source ∧ HttpClient.Dumpable (s.answer fnmatch server (s.asked c)) ∧
        Sendable (s.answer fnmatch server (s.asked c)).dump rs
  | .recvResponse c memory source => ∃ pieces tail, source = pieces ++ tail ∧ Tail tail ∧ (∀ p ∈ pieces, p ≠ []) ∧
      (pieces = [] ∨ ∀ n, s.exchange.pool.pc c = .holding n →
        ∀ x ∈ s.answered n, Readable (x : Nat × HttpResponse).2.head memory pieces)

end Model

section Writes

open Windgent.Stream

theorem loop_moved {wrap : Bool} {call : Transfer → Int → Transfer} (hc : Mover wrap call) {length : Nat}
    (hlen : length < modulus) (rs : List Int) (t left : Nat) (ht : t + left = length)
    (ha : Admissible rs (loop call length rs (moved t) left)) (hclean : Clean wrap length rs left) :
    ∃ k ≤ length, (loop call length rs (moved t) left).final.moved = diagonal k := by
  induction rs generalizing t left with
  | nil =>
    refine ⟨t, by omega, ?_⟩
    unfold loop
    split <;> rfl
  | cons r rs ih =>
    by_cases hl : left = 0
    · refine ⟨t, by omega, ?_⟩
      rw [hl, loop_done]
      rfl
    · simp only [Clean, hl, if_false] at hclean
      have hhead : IsInt r ∧ r ≤ left := by
        by_cases hu : toUInt64 r = 0
        · exact ha (left, r) (by simp [loop, hl, hu])
        · exact ha (left, r) (by simp [loop_cons rs _ hl hu])
      obtain ⟨hr, hle⟩ := hhead
      obtain rfl | ⟨h0, hclean⟩ | ⟨h0, -, hsum⟩ := hclean
      · refine ⟨t, by omega, ?_⟩
        have hz : toUInt64 0 = 0 := rfl
        simp only [loop, hl, hz, if_false, if_true]
        rfl
      · have hu : toUInt64 r = r.toNat := toUInt64_of_nonneg hr h0.le
        rw [loop_cons rs _ hl (by omega), hc.advance t r hr h0 (by omega), hu,
          subU64_of_le (by omega) (by omega)] at ha ⊢
        refine ih (t + r.toNat) (left - r.toNat) (by omega) (fun p hp => ha p ?_) hclean
        exact List.mem_cons_of_mem _ hp
      · refine ⟨t, by omega, ?_⟩
        have hne : toUInt64 r ≠ 0 := fun h => h0.ne ((toUInt64_eq_zero hr).mp h)
        have hzero := (subU64_negative (by omega) hr h0).1.mpr hsum
        rw [loop_cons rs _ hl hne, hzero, loop_done]
        exact (hc.negative t r hr h0).1

theorem filterMap_diagonal (text : List UInt8) {k : Nat} (hk : k ≤ text.length) :
    (diagonal k).filterMap (fun p => text[p.1]?) = text.take k := by
  induction k with
  | zero => rfl
  | succ k ih =>
    have hget : text[k]? = some text[k] := List.getElem?_eq_getElem (by omega)
    rw [diagonal_add, List.filterMap_append, ih (by omega), List.take_add_one]
    simp [hget]

variable {text : List UInt8} {rs : List Int}

theorem Sendable.written (h : Sendable text rs) :
    written text (writeFixedSize text.length rs) <+: text ∧
      ∀ v, (writeFixedSize text.length rs).ret = some v → 0 < v →
        Traffic.written text (writeFixedSize text.length rs) = text := by
  obtain ⟨hlen, ha, hclean⟩ := h
  have hlt : text.length < modulus := hlen
  obtain ⟨k, hk, hmoved⟩ := loop_moved writeBuffer_mover hlt rs 0 text.length (Nat.zero_add _) ha hclean
  have hsent : Traffic.written text (writeFixedSize text.length rs) = text.take k := by
    have hm : (writeFixedSize text.length rs).final.moved = diagonal k := hmoved
    rw [Traffic.written, hm, filterMap_diagonal text hk]
  refine ⟨hsent ▸ List.take_prefix k text, fun v hv hpos => ?_⟩
  have hfaithful := (loop_faithful_iff writeBuffer_mover hlt rs 0 text.length (Nat.zero_add _) ha).mpr hclean
  have hall := hfaithful.positive_iff.mp ⟨v, hv, hpos⟩
  rw [hsent, diagonal_injective (hmoved.symm.trans hall), List.take_length]

end Writes

section Reads

variable {relaxed : Bool} {lexicalCast : List UInt8 → Option UInt64} {memory : List UInt8} {source tail : Source}

theorem Readable.cons {head : List UInt8} (h : Readable head memory source) (hne : head ≠ []) :
    ∃ first rest, source = first :: rest ∧ (∀ p ∈ first :: rest, p ≠ [] ∧ p.length < 2 ^ 31) ∧
      head.length ≤ min first.length memory.length := by
  obtain ⟨hreads, hhead⟩ := h
  cases source with
  | nil =>
    rw [List.headD_nil, List.take_nil, List.prefix_nil] at hhead
    exact absurd hhead hne
  | cons first rest =>
    refine ⟨first, rest, rfl, hreads, ?_⟩
    have hle := hhead.length_le
    rwa [List.headD_cons, List.length_take, Nat.min_comm] at hle

/-- A request that is received from a part of a text is that of the text, and the part is all of it. -/
theorem recvRequest_part {q req : HttpRequest} (hq : Receivable relaxed q)
    (hcast : lexicalCast (decimal q.body.length) = some (UInt64.ofNat q.body.length)) (queryStart : Nat)
    (hread : Readable q.head memory source) (htext : source.flatten <+: q.dump) (hsize : q.dump.length < 2 ^ 64)
    (hdone : recvRequest (Http11.httpParser relaxed) lexicalCast queryStart memory source = .done req) :
    source.flatten = q.dump ∧ req = q.received := by
  obtain ⟨h, hu⟩ := hq
  have hne : q.head ≠ [] := by
    rw [h.head_eq]
    simp
  obtain ⟨first, source, rfl, hreads, hhead⟩ := hread.cons hne
  by_cases hall : first ++ source.flatten = q.dump
  · refine ⟨hall, ?_⟩
    rw [Http11.recvRequest_dump h hu hcast queryStart hall hsize hreads hhead] at hdone
    split at hdone
    · exact (Outcome.done.inj hdone).symm
    · cases hdone
  · obtain ⟨piece, source', hpiece, hflat, hplen, hreads'⟩ := readPiece_first (n := memory.length) rfl hreads
    rw [List.flatten_cons, ← hflat] at htext
    rw [← hflat] at hall
    rw [← hplen] at hhead
    have hdump : q.dump = q.head ++ q.body := rfl
    rw [hdump] at htext hall hsize
    rw [List.length_append] at hsize
    obtain ⟨rest, hrest, hbody⟩ := prefix_of_le htext hhead
    have hpl : piece.length = q.head.length + rest.length := by rw [hrest, List.length_append]
    have hblock : h.block h.fields [13, 10] = q.head := h.head_eq.symm
    have hrequest := h.recvRequest (h.wellNamed_fields hu) (.inl rfl) lexicalCast queryStart hpiece
      (by rw [hblock, hrest]) (by omega) (by rw [hblock]; omega)
    rw [h.setAll_fields] at hrequest
    have hwait := recvRest_part (h.contentLength hcast (by omega)) hbody hreads' (.inl rfl) (by omega)
    have hmissing : ¬ rest ++ source'.flatten = q.body := by
      intro hsame
      refine hall ?_
      rw [hrest, List.append_assoc, hsame]
    rw [List.append_nil, if_neg hmissing, if_pos rfl] at hwait
    rw [hrequest, hwait] at hdone
    cases hdone

theorem recvRequest_nil {σ : Type} (M : RequestMachine σ) (queryStart : Nat) :
    recvRequest M lexicalCast queryStart memory [] = .waiting := rfl

theorem recvResponse_tail {σ : Type} (M : ResponseMachine σ) (h : Tail tail) (rsp : HttpResponse) :
    Http.recvResponse M lexicalCast memory tail ≠ .done rsp := by
  obtain rfl | rfl := h
  · intro hdone
    cases hdone
  · intro hdone
    have hread : readPiece (memory.length - 0) [[]] = some ([], []) := by
      simp [readPiece]
    simp only [Http.recvResponse, recvHeader, hread, if_true] at hdone
    cases hdone

/-- A response that is received from a part of a text is that of the text, and the part is all of it. -/
theorem recvResponse_part {r rsp : HttpResponse} (h : HttpClient.Dumpable r)
    (hcast : lexicalCast (decimal r.body.length) = some (UInt64.ofNat r.body.length))
    (htail : Tail tail) (hread : source = [] ∨ Readable r.head memory source) (htext : source.flatten <+: r.dump)
    (hsize : r.dump.length < 2 ^ 64)
    (hdone : Http.recvResponse httpclientParser lexicalCast memory (source ++ tail) = .done rsp) :
    source.flatten = r.dump ∧ rsp = r.received := by
  obtain rfl | hread := hread
  · exact absurd hdone (recvResponse_tail _ htail rsp)
  · have hne : r.head ≠ [] := by
      rw [h.head_eq]
      simp
    obtain ⟨first, source, rfl, hreads, hhead⟩ := hread.cons hne
    rw [recvResponse_start h hcast htext hsize hreads htail hhead] at hdone
    split at hdone
    · split at hdone
      · rename_i hall
        split at hdone
        · exact ⟨hall, (Outcome.done.inj hdone).symm⟩
        · cases hdone
      · split at hdone <;> cases hdone
    · cases hdone

end Reads

section Pool

variable {C : Type} [DecidableEq C] {l : Pool.Limits}

theorem step_holding {s t : Pool.State C} {a : Pool.Action C} {n : Nat} (h : Pool.step l s a = some t)
    (hn : s.pc a.client = .holding n) : a = .release a.client := by
  cases Pool.step_does h with
  | release hp => rfl
  | _ hp => cases hp.symm.trans hn

theorem known_ready {log : List (Nat × Exchange.Error)} {connected : Nat → Bool} {phase : Exchange.Phase} {p : Pool.Pc}
    (h : Exchange.Known log connected phase p) (hp : ∀ n, p ≠ .holding n) : phase = .ready := by
  cases p with
  | dropping invalid size ptr =>
    cases ptr with
    | none => exact h
    | some k => exact h.1
  | created n => exact h.1
  | holding n => exact absurd rfl (hp n)
  | checking n => exact h.1
  | pushing n => exact h.1
  | idle => exact h
  | started now => exact h
  | creating => exact h
  | deleting n => exact h
  | deleted => exact h

/-- What a step of the pool is to the clients and their connections. -/
structure Frame (l : Pool.Limits) (s t : Exchange.State C) (a : Pool.Action C) : Prop where
  step : ∃ b : Pool.Action C, b.client = a.client ∧ Pool.step l s.pool b = some t.pool ∧
    (b = .release a.client → ∃ r, s.phase a.client = .done r ∧ t.phase a.client = .ready) ∧
    (b ≠ .release a.client → t.phase a.client = s.phase a.client)
  phase : ∀ d, d ≠ a.client → t.phase d = s.phase d
  log : t.log = s.log
  connected : ∀ n ≠ s.pool.next, t.connected n = s.connected n
  next : (t.pool.next = s.pool.next ∧ t.connected = s.connected ∧ ∀ c now, a ≠ .create c now) ∨
    ∃ c now, a = .create c now

theorem next_eq {s t : Pool.State C} {a : Pool.Action C} (h : Pool.step l s a = some t)
    (ha : ∀ c now, a ≠ .create c now) : t.next = s.next := by
  cases Pool.step_does h with
  | create hp => exact absurd rfl (ha _ _)
  | _ hp => rfl

theorem next_le_succ {s t : Pool.State C} {a : Pool.Action C} (h : Pool.step l s a = some t) : t.next ≤ s.next + 1 := by
  cases Pool.step_does h with
  | create hp => exact le_rfl
  | _ hp => exact Nat.le_succ _

theorem frame_quiet {s : Exchange.State C} {p : Pool.State C} {a b : Pool.Action C}
    (hp : Pool.step l s.pool b = some p) (hc : b.client = a.client) (hcreate : ∀ c now, b ≠ .create c now)
    (ha : ∀ c now, a ≠ .create c now) (hrelease : b ≠ .release a.client) :
    Frame l s { s with pool := p } a where
  step := ⟨b, hc, hp, fun h => absurd h hrelease, fun _ => rfl⟩
  phase _ _ := rfl
  log := rfl
  connected _ _ := rfl
  next := .inl ⟨next_eq hp hcreate, rfl, ha⟩

theorem poolStep_frame {s t : Exchange.State C} {a : Pool.Action C} (ht : Exchange.poolStep l s a = some t) :
    Frame l s t a := by
  cases a with
  | create c now =>
    obtain ⟨p, hp, rfl⟩ := Option.map_eq_some_iff.mp ht
    exact
      { step := ⟨_, rfl, hp, fun h => (by cases h), fun _ => rfl⟩
        phase := fun _ _ => rfl
        log := rfl
        connected := fun n hn => Function.update_of_ne hn _ _
        next := .inr ⟨c, now, rfl⟩ }
  | release c =>
    simp only [Exchange.poolStep] at ht
    split at ht
    · rename_i r hr
      obtain ⟨p, hp, rfl⟩ := Option.map_eq_some_iff.mp ht
      exact
        { step := ⟨_, rfl, hp, fun _ => ⟨r, hr, Function.update_self ..⟩, fun h => absurd rfl h⟩
          phase := fun d hd => Function.update_of_ne hd _ _
          log := rfl
          connected := fun _ _ => rfl
          next := .inl ⟨next_eq hp (by rintro _ _ ⟨⟩), rfl, by rintro _ _ ⟨⟩⟩ }
    · cases ht
  | check c connected now =>
    obtain ⟨p, hp, rfl⟩ := Option.map_eq_some_iff.mp ht
    obtain ⟨b, ho, -⟩ := Exchange.observe_check s c connected now
    rw [ho] at hp
    exact frame_quiet hp rfl (by rintro _ _ ⟨⟩) (by rintro _ _ ⟨⟩) (by rintro ⟨⟩)
  | begin c now | pop c connected | drop c | subtract c | fail c | increment c | delete c | decrement c | push c =>
    obtain ⟨p, hp, rfl⟩ := Option.map_eq_some_iff.mp ht
    exact frame_quiet hp rfl (by rintro _ _ ⟨⟩) (by rintro _ _ ⟨⟩) (by rintro ⟨⟩)

theorem Frame.idle {s t : Exchange.State C} {a : Pool.Action C} (h : Frame l s t a) (hs : Exchange.Inv s) :
    s.phase a.client ≠ .sent ∧ t.phase a.client ≠ .sent := by
  obtain ⟨b, hc, hp, hrelease, hother⟩ := h.step
  by_cases hb : b = .release a.client
  · obtain ⟨r, hr, hready⟩ := hrelease hb
    rw [hr, hready]
    exact ⟨by rintro ⟨⟩, by rintro ⟨⟩⟩
  · have hready : s.phase a.client = .ready := by
      refine known_ready (hs.clients a.client) fun n hn => hb ?_
      rw [← hc] at hn ⊢
      exact step_holding hp hn
    rw [hother hb, hready]
    exact ⟨by rintro ⟨⟩, by rintro ⟨⟩⟩

theorem Frame.others {s t : Exchange.State C} {a : Pool.Action C} (h : Frame l s t a) {d : C} (hd : d ≠ a.client) :
    t.pool.pc d = s.pool.pc d := by
  obtain ⟨b, hc, hp, -⟩ := h.step
  exact (Pool.step_effect hp).others d (hc ▸ hd)

end Pool

section Invariant

variable {C : Type} [DecidableEq C] {relaxed : Bool} {fnmatch : List UInt8 → List UInt8 → Bool} {server : HttpServer}
variable {lexicalCast : List UInt8 → Option UInt64} {l : Pool.Limits} {s t : State C}

structure Answering (fnmatch : List UInt8 → List UInt8 → Bool) (server : HttpServer) (q : HttpRequest) (i : Nat)
    (rsp : HttpResponse) (down : List UInt8) : Prop where
  own : rsp = (server.answer fnmatch i q.received).2
  dumpable : HttpClient.Dumpable rsp
  size : rsp.dump.length < 2 ^ 64
  sent : down <+: rsp.dump

/-- What is on its way on a connected connection: nothing while no request is under way on it,
else the request or its answer. The answers in `given` have been received. -/
structure Inv (relaxed : Bool) (fnmatch : List UInt8 → List UInt8 → Bool) (server : HttpServer) (given : List Nat)
    (s : State C) : Prop where
  exchange : Exchange.Inv s.exchange
  quiet : ∀ n < s.exchange.pool.next, s.exchange.connected n = true →
    (∀ r, Exchange.last s.exchange.log n = some r → r = .ok) →
    (∀ c, s.exchange.pool.pc c = .holding n → s.exchange.phase c ≠ .sent) → s.up n = [] ∧ s.down n = []
  asked : ∀ c n, s.exchange.pool.pc c = .holding n → s.exchange.phase c = .sent → s.exchange.connected n = true →
    (Receivable relaxed (s.asked c) ∧ (s.asked c).dump.length < 2 ^ 64 ∧ s.up n = (s.asked c).dump ∧
        s.down n = []) ∨
    (s.up n = [] ∧ ∃ i rsp, s.answered n = some (i, rsp) ∧ i ∉ given ∧
      Answering fnmatch server (s.asked c) i rsp (s.down n))
  numbered : ∀ n i rsp, s.answered n = some (i, rsp) → i < s.served ∧
    ∀ m rsp', s.answered m = some (i, rsp') → m = n
  fresh : given.Nodup ∧ ∀ i ∈ given, i < s.served
  log : List.Forall₂ (fun x i => x.2 = (server.answer fnmatch i x.1.received).2.received) s.log given

theorem init_inv (h : Init s) : Inv relaxed fnmatch server [] s where
  exchange := Exchange.init_inv h.exchange
  quiet n hn := by
    rw [h.exchange.pool.next] at hn
    exact absurd hn (Nat.not_lt_zero n)
  asked c n hn := by
    rw [h.exchange.pool.pc] at hn
    cases hn
  numbered n i rsp hn := by
    rw [h.answered] at hn
    cases hn
  fresh := ⟨List.nodup_nil, fun i hi => absurd hi List.not_mem_nil⟩
  log := by
    rw [h.log]
    exact .nil

variable {given : List Nat}

theorem Inv.unique (h : Inv relaxed fnmatch server given s) {c d : C} {n : Nat} (hc : s.exchange.pool.pc c = .holding n)
    (hd : s.exchange.pool.pc d = .holding n) : d = c := by
  have hmine : ∀ e, s.exchange.pool.pc e = .holding n → n ∈ s.exchange.pool.held (.client e) := by
    intro e he
    simp only [Pool.State.held, he, Pool.Pc.owned, List.mem_singleton]
  exact Pool.Holder.client.inj (h.exchange.kept.unique (hmine d hd) (hmine c hc))

theorem Inv.held_lt (h : Inv relaxed fnmatch server given s) {c : C} {n : Nat}
    (hc : s.exchange.pool.pc c = .holding n) :
    n < s.exchange.pool.next := by
  refine h.exchange.kept.lt (h := .client c) ?_
  simp only [Pool.State.held, hc, Pool.Pc.owned, List.mem_singleton]

theorem Inv.poolStep (h : Inv relaxed fnmatch server given s) {a : Pool.Action C}
    (hok : Exchange.Spent l s.exchange (.pool a))
    (ht : poolStep l s a = some t) : Inv relaxed fnmatch server given t := by
  obtain ⟨e, he, rfl⟩ := Option.map_eq_some_iff.mp ht
  have hinv := h.exchange.poolStep hok he
  have hf := poolStep_frame he
  obtain ⟨hbefore, hafter⟩ := hf.idle h.exchange
  -- a client with a request under way has not moved
  have hsame : ∀ {d n}, e.pool.pc d = .holding n → e.phase d = .sent →
      s.exchange.pool.pc d = .holding n ∧ s.exchange.phase d = .sent := by
    intro d n hd hsent
    have hne : d ≠ a.client := by
      rintro rfl
      exact hafter hsent
    exact ⟨(hf.others hne).symm.trans hd, (hf.phase d hne).symm.trans hsent⟩
  have hquiet : ∀ n < s.exchange.pool.next, e.connected n = true → s.exchange.connected n = e.connected n →
      (∀ r, Exchange.last e.log n = some r → r = .ok) → (∀ c, e.pool.pc c = .holding n → e.phase c ≠ .sent) →
      s.up n = [] ∧ s.down n = [] := by
    intro n hn hconn hold hlast hno
    refine h.quiet n hn (hold.trans hconn) (fun r hr => hlast r (hf.log ▸ hr)) fun c hc hsent => ?_
    have hne : c ≠ a.client := by
      rintro rfl
      exact hbefore hsent
    exact hno c ((hf.others hne).trans hc) ((hf.phase c hne).trans hsent)
  obtain ⟨hnext, hconn, hne⟩ | ⟨c, now, rfl⟩ := hf.next
  · rw [State.connect_of_ne hne]
    refine ⟨hinv, fun n hn hc => ?_, fun d n hd hsent hc => ?_, h.numbered, h.fresh, h.log⟩
    · exact hquiet n (hnext ▸ hn) hc (by rw [hconn])
    · obtain ⟨hd, hsent⟩ := hsame hd hsent
      exact h.asked d n hd hsent (hconn ▸ hc)
  · refine ⟨hinv, fun n hn hc hlast hno => ?_, fun d n hd hsent hc => ?_, h.numbered, h.fresh, h.log⟩
    · by_cases hnew : n = s.exchange.pool.next
      · rw [hnew]
        exact ⟨Function.update_self .., Function.update_self ..⟩
      · have hlt : n < s.exchange.pool.next := by
          obtain ⟨b, hb, hp, -⟩ := hf.step
          have hle := (Pool.step_effect hp).moved.next_le
          have hone := next_le_succ hp
          change n < e.pool.next at hn
          omega
        have hold := hquiet n hlt hc (hf.connected n hnew).symm hlast hno
        exact ⟨(Function.update_of_ne hnew ..).trans hold.1, (Function.update_of_ne hnew ..).trans hold.2⟩
    · obtain ⟨hd, hsent⟩ := hsame hd hsent
      have hnew : n ≠ s.exchange.pool.next := (h.held_lt hd).ne
      have hold := h.asked d n hd hsent ((hf.connected n hnew).symm.trans hc)
      have hup : (s.connect (.create c now)).up n = s.up n := Function.update_of_ne hnew ..
      have hdown : (s.connect (.create c now)).down n = s.down n := Function.update_of_ne hnew ..
      simp only [hup, hdown]
      exact hold

theorem Inv.finish (h : Inv relaxed fnmatch server given s) {c : C} {n : Nat} (r : Exchange.Error)
    (connected : Nat → Bool) (hc : s.exchange.pool.pc c = .holding n)
    (hconn : ∀ m, m ≠ n → connected m = s.exchange.connected m)
    (ht : t.exchange = ({ s.exchange with connected := connected }).finish c n r) (hinv : Exchange.Inv t.exchange)
    (hup : ∀ m, m ≠ n → t.up m = s.up m) (hdown : ∀ m, m ≠ n → t.down m = s.down m)
    (hasked : ∀ d, d ≠ c → t.asked d = s.asked d) (hanswered : t.answered = s.answered) (hserved : t.served = s.served)
    (hmine : r = .ok → connected n = true → t.up n = [] ∧ t.down n = []) {given' : List Nat}
    (hother : ∀ m ≠ n, ∀ i rsp, s.answered m = some (i, rsp) → i ∉ given → i ∉ given')
    (hgiven : given'.Nodup ∧ ∀ i ∈ given', i < s.served)
    (hlog : List.Forall₂ (fun x i => x.2 = (server.answer fnmatch i x.1.received).2.received) t.log given') :
    Inv relaxed fnmatch server given' t := by
  have hpool : t.exchange.pool = s.exchange.pool := by rw [ht]; rfl
  have hsender : ∀ d, t.exchange.phase d = .sent → d ≠ c ∧ s.exchange.phase d = .sent := by
    intro d hd
    rw [ht] at hd
    change Function.update s.exchange.phase c (.done r) d = .sent at hd
    by_cases hdc : d = c
    · rw [hdc, Function.update_self] at hd
      cases hd
    · exact ⟨hdc, (Function.update_of_ne hdc _ _).symm.trans hd⟩
  have hconnected : t.exchange.connected = connected := by rw [ht]; rfl
  have hlast : t.exchange.log = (n, r) :: s.exchange.log := by rw [ht]; rfl
  have hnumbered := h.numbered
  rw [← hanswered, ← hserved] at hnumbered
  refine ⟨hinv, fun m hm hcm hlastm hno => ?_, fun d m hd hsent hcm => ?_, hnumbered, hserved ▸ hgiven, hlog⟩
  · rw [hconnected] at hcm
    rw [hlast] at hlastm
    by_cases hmn : m = n
    · subst hmn
      exact hmine (hlastm r Exchange.last_cons_self) hcm
    · rw [hup m hmn, hdown m hmn]
      refine h.quiet m (hpool ▸ hm) (hconn m hmn ▸ hcm) (fun q hq => hlastm q ?_) fun d hd hsent => ?_
      · rw [← hq]
        exact Exchange.last_cons_of_ne hmn
      · have hdc : d ≠ c := by
          rintro rfl
          exact hmn (Pool.Pc.holding.inj (hd.symm.trans hc))
        refine hno d (hpool ▸ hd) ?_
        rw [ht]
        exact (Function.update_of_ne hdc _ _).trans hsent
  · obtain ⟨hdc, hsent⟩ := hsender d hsent
    rw [hpool] at hd
    have hmn : m ≠ n := by
      rintro rfl
      exact hdc (h.unique hc hd)
    rw [hconnected] at hcm
    rw [hup m hmn, hdown m hmn, hasked d hdc, hanswered]
    exact (h.asked d m hd hsent (hconn m hmn ▸ hcm)).imp_right fun ⟨hup, i, rsp, hi, hnew, hanswer⟩ =>
      ⟨hup, i, rsp, hi, hother m hmn i rsp hi hnew, hanswer⟩

theorem Inv.sendRequest (h : Inv relaxed fnmatch server given s) {c : C} {n : Nat} {req : HttpRequest} {rs : List Int}
    (hc : s.exchange.pool.pc c = .holding n) (hready : s.exchange.phase c = .ready)
    (hdump : Receivable relaxed req) (hsend : Sendable req.dump rs)
    (ht : sendRequest s c n req rs = some t) : Inv relaxed fnmatch server given t := by
  obtain ⟨e, he, rfl⟩ := Option.map_eq_some_iff.mp ht
  have hinv := h.exchange.sendRequest hc hready he
  obtain ⟨ret, hret, rfl⟩ := Option.map_eq_some_iff.mp he
  have hup : ∀ m, m ≠ n → (if s.exchange.connected n then Function.update s.up n (s.up n ++ written req.dump
      (Stream.writeFixedSize req.dump.length rs)) else s.up) m = s.up m := by
    intro m hm
    split
    · exact Function.update_of_ne hm _ _
    · rfl
  have hfail : ∀ r : Exchange.Error, r ≠ .ok → Exchange.Inv (s.exchange.finish c n r) →
      Inv relaxed fnmatch server given { s with
        exchange := s.exchange.finish c n r
        asked := Function.update s.asked c req
        up := if s.exchange.connected n then Function.update s.up n (s.up n ++ written req.dump
          (Stream.writeFixedSize req.dump.length rs)) else s.up } := by
    intro r hr hinv
    refine h.finish r s.exchange.connected hc (fun _ _ => rfl) ?_ hinv hup ?_ ?_ ?_ ?_ (fun hok => absurd hok hr)
      (fun _ _ _ _ _ hi => hi) h.fresh h.log
    · rfl
    · exact fun _ _ => rfl
    · exact fun d hd => Function.update_of_ne hd _ _
    · rfl
    · rfl
  by_cases h0 : ret = 0
  · simp only [h0, if_true] at hinv ⊢
    exact hfail _ (by rintro ⟨⟩) hinv
  · by_cases hneg : ret < 0
    · simp only [h0, hneg, if_true, if_false] at hinv ⊢
      exact hfail _ (by rintro ⟨⟩) hinv
    · simp only [h0, hneg, if_false] at hinv ⊢
      have hphase : ∀ d, d ≠ c → Function.update s.exchange.phase c .sent d = s.exchange.phase d :=
        fun d hd => Function.update_of_ne hd _ _
      refine ⟨hinv, fun m hm hcm hlast hno => ?_, fun d m hd hsent hcm => ?_, h.numbered, h.fresh, h.log⟩
      · have hmn : m ≠ n := by
          rintro rfl
          exact hno c hc (Function.update_self ..)
        change (if _ then _ else _ : Nat → List UInt8) m = [] ∧ s.down m = []
        rw [hup m hmn]
        refine h.quiet m hm hcm hlast fun d hd hsent => hno d hd ?_
        have hdc : d ≠ c := by
          rintro rfl
          exact hmn (Pool.Pc.holding.inj (hd.symm.trans hc))
        exact (hphase d hdc).trans hsent
      · by_cases hdc : d = c
        · subst hdc
          obtain rfl : m = n := Pool.Pc.holding.inj (hd.symm.trans hc)
          have hconn : s.exchange.connected m = true := hcm
          have hknown := h.exchange.clients d
          rw [hc] at hknown
          have hquiet := h.quiet m (h.held_lt hc) hconn (hknown.2 (Or.inl hready)) fun d' hd' hsent' => by
            rw [h.unique hc hd', hready] at hsent'
            cases hsent'
          simp only [hconn, if_true] at hret
          have hall := hsend.written.2 ret hret (by omega)
          refine Or.inl ?_
          simp only [Function.update_self, hconn, if_true, hquiet, List.nil_append, hall]
          exact ⟨hdump, hsend.1, trivial, trivial⟩
        · have hmn : m ≠ n := by
            rintro rfl
            exact hdc (h.unique hc hd)
          have hold := h.asked d m hd ((hphase d hdc).symm.trans hsent) hcm
          simp only [Function.update_of_ne hdc, hup m hmn]
          exact hold

theorem Inv.serve (h : Inv relaxed fnmatch server given s)
    (hcast : ∀ k < 2 ^ 64, lexicalCast (decimal k) = some (UInt64.ofNat k)) {n queryStart : Nat} {memory : List UInt8}
    {source : Source} {rs : List Int} (hok : Regular relaxed fnmatch server l s (.serve n queryStart memory source rs))
    (hpart : source.flatten <+: s.up n)
    (ht : serve relaxed fnmatch server lexicalCast s n queryStart memory source rs = some t) :
    Inv relaxed fnmatch server given t := by
  obtain ⟨hne, hregular⟩ := hok
  unfold Traffic.serve at ht
  cases hreq : recvRequest (Http11.httpParser relaxed) lexicalCast queryStart memory source with
  | waiting | closed | crashed => rw [hreq] at ht; cases ht
  | done req =>
    rw [hreq] at ht
    obtain rfl := Option.some.inj ht
    have hempty : s.up n ≠ [] := by
      intro hup
      rw [hup, List.prefix_nil, List.flatten_eq_nil_iff] at hpart
      obtain rfl : source = [] := List.eq_nil_iff_forall_not_mem.mpr fun p hp => hne p hp (hpart p hp)
      rw [recvRequest_nil] at hreq
      cases hreq
    refine ⟨h.exchange, fun m hm hcm hlast hno => ?_, fun c m hc hsent hcm => ?_, fun m i rsp hm => ?_,
      ⟨h.fresh.1, fun i hi => (h.fresh.2 i hi).trans (Nat.lt_succ_self _)⟩, h.log⟩
    · have hold := h.quiet m hm hcm hlast hno
      have hmn : m ≠ n := by
        rintro rfl
        exact hempty hold.1
      exact ⟨(Function.update_of_ne hmn ..).trans hold.1, (Function.update_of_ne hmn ..).trans hold.2⟩
    · have hold := h.asked c m hc hsent hcm
      by_cases hmn : m = n
      · subst hmn
        obtain ⟨hdump, hsize, hup, hdown⟩ | ⟨hup, -⟩ := hold
        · obtain ⟨hread, hanswer, hsend⟩ := hregular c hc hsent
          rw [hup] at hpart
          have hbody : (s.asked c).body.length < 2 ^ 64 := by
            have hlen : (s.asked c).dump.length = (s.asked c).head.length + (s.asked c).body.length :=
              List.length_append
            omega
          obtain ⟨hall, rfl⟩ := recvRequest_part hdump (hcast _ hbody) queryStart hread hpart hsize hreq
          refine Or.inr ⟨?_, s.served, _, Function.update_self .., fun hi => lt_irrefl _ (h.fresh.2 _ hi), ?_⟩
          · simp only [Function.update_self, hup, ← hall, List.drop_length]
          · simp only [Function.update_self, hdown, List.nil_append]
            exact ⟨rfl, hanswer, hsend.1, hsend.written.1⟩
        · exact absurd hup hempty
      · simp only [Function.update_of_ne hmn]
        exact hold
    · -- the new answer has a number of its own
      have hold : ∀ k j r, k ≠ n →
          Function.update s.answered n (some (s.served, (server.answer fnmatch s.served req).2)) k =
          some (j, r) → s.answered k = some (j, r) := fun k j r hk hj => (Function.update_of_ne hk _ _).symm.trans hj
      have hnew : ∀ j r, Function.update s.answered n (some (s.served, (server.answer fnmatch s.served req).2)) n =
          some (j, r) → s.served = j := by
        intro j r hj
        rw [Function.update_self] at hj
        exact (Prod.mk.inj (Option.some.inj hj)).1
      by_cases hmn : m = n
      · subst hmn
        obtain rfl := hnew i rsp hm
        refine ⟨Nat.lt_succ_self _, fun k r hk => ?_⟩
        by_contra hkm
        exact lt_irrefl _ (h.numbered k _ r (hold k _ r hkm hk)).1
      · obtain ⟨hlt, hunique⟩ := h.numbered m i rsp (hold m i rsp hmn hm)
        refine ⟨hlt.trans (Nat.lt_succ_self _), fun k r hk => ?_⟩
        by_cases hkn : k = n
        · subst hkn
          obtain rfl := hnew i r hk
          exact absurd hlt (lt_irrefl _)
        · exact hunique k r (hold k i r hkn hk)

theorem Inv.recvResponse (h : Inv relaxed fnmatch server given s)
    (hcast : ∀ k < 2 ^ 64, lexicalCast (decimal k) = some (UInt64.ofNat k)) {c : C} {n : Nat} {memory : List UInt8}
    {source : Source} (hok : Regular relaxed fnmatch server l s (.recvResponse c memory source))
    (hc : s.exchange.pool.pc c = .holding n) (hsent : s.exchange.phase c = .sent)
    (hpart : source.flatten <+: s.down n)
    (ht : recvResponse lexicalCast s c n memory source = some t) : ∃ given, Inv relaxed fnmatch server given t := by
  obtain ⟨pieces, tail, rfl, htail, hne, hread⟩ := hok
  obtain ⟨e, he, rfl⟩ := Option.map_eq_some_iff.mp ht
  have hinv := h.exchange.recvResponse hc hsent he
  -- on a closed socket there is no response
  have hopen : ∀ rsp, Http.recvResponse httpclientParser lexicalCast memory
      (if s.exchange.connected n then pieces ++ tail else [[]]) = .done rsp → s.exchange.connected n = true := by
    intro rsp hdone
    by_contra hno
    rw [if_neg hno] at hdone
    exact recvResponse_tail _ (.inr rfl) rsp hdone
  unfold Exchange.recvResponse at he
  have hsame : (if s.exchange.connected n then (if s.exchange.connected n then pieces ++ tail else [[]]) else [[]]) =
      if s.exchange.connected n then pieces ++ tail else [[]] := by
    split <;> rfl
  rw [hsame] at he
  cases hres : Http.recvResponse httpclientParser lexicalCast memory
      (if s.exchange.connected n then pieces ++ tail else [[]]) with
  | waiting | crashed => rw [hres] at he; cases he
  | closed =>
    rw [hres] at he
    obtain rfl := Option.some.inj he
    refine ⟨given, h.finish .timeout (s.exchange.close n).connected hc (fun m hm => Function.update_of_ne hm _ _) ?_
      hinv ?_ ?_ ?_ ?_ ?_ ?_
      (fun _ _ _ _ _ hi => hi) h.fresh h.log⟩
    · rfl
    · exact fun _ _ => rfl
    · exact fun m hm => Function.update_of_ne hm _ _
    · exact fun _ _ => rfl
    · rfl
    · rfl
    · rintro ⟨⟩
  | done rsp =>
    have hconn := hopen rsp hres
    rw [hres] at he
    obtain rfl := Option.some.inj he
    rw [if_pos hconn] at hres
    have hflat : (pieces ++ tail).flatten = pieces.flatten := by
      rw [List.flatten_append, htail.flatten, List.append_nil]
    rw [hflat] at hpart
    obtain ⟨-, -, -, hdown⟩ | ⟨hup, i, r, hi, hnew, hanswer⟩ := h.asked c n hc hsent hconn
    · -- nothing has been answered
      have hnil : pieces = [] := by
        rw [hdown, List.prefix_nil, List.flatten_eq_nil_iff] at hpart
        exact List.eq_nil_iff_forall_not_mem.mpr fun p hp => hne p hp (hpart p hp)
      rw [hnil, List.nil_append] at hres
      exact absurd hres (recvResponse_tail _ htail rsp)
    · have hbody : r.body.length < 2 ^ 64 := by
        have hsize := hanswer.size
        rw [r.dump_head, List.length_append] at hsize
        omega
      obtain ⟨hall, rfl⟩ := recvResponse_part hanswer.dumpable (hcast _ hbody) htail
        (hread.imp_right fun hr => hr n hc (i, r) hi) (hpart.trans hanswer.sent) hanswer.size hres
      have hwhole : s.down n = pieces.flatten := by
        rw [hall] at hpart ⊢
        exact (hanswer.sent.eq_of_length_le hpart.length_le)
      refine ⟨i :: given, h.finish .ok s.exchange.connected hc (fun _ _ => rfl) ?_ hinv ?_ ?_ ?_ ?_ ?_ ?_ ?_
        ⟨h.fresh.1.cons hnew, List.forall_mem_cons.mpr ⟨(h.numbered n i r hi).1, h.fresh.2⟩⟩ ?_⟩
      · rfl
      · exact fun _ _ => rfl
      · exact fun m hm => Function.update_of_ne hm _ _
      · exact fun _ _ => rfl
      · rfl
      · rfl
      · refine fun _ _ => ⟨hup, ?_⟩
        simp only [hconn, if_true, Function.update_self, hflat, hwhole, List.drop_length]
      · rintro m hm j r' hj hout (_ | ⟨_, hmem⟩)
        · exact hm ((h.numbered n _ r hi).2 m r' hj)
        · exact hout hmem
      · exact .cons (congrArg HttpResponse.received hanswer.own) h.log

theorem Inv.step (h : Inv relaxed fnmatch server given s)
    (hcast : ∀ k < 2 ^ 64, lexicalCast (decimal k) = some (UInt64.ofNat k)) {a : Action C}
    (hok : Regular relaxed fnmatch server l s a) (ht : step relaxed fnmatch server lexicalCast l s a = some t) :
    ∃ given, Inv relaxed fnmatch server given t := by
  cases a with
  | pool a => exact ⟨given, h.poolStep hok ht⟩
  | sendRequest c req rs =>
    simp only [Traffic.step] at ht
    split at ht
    · rename_i n hc hready
      exact ⟨given, h.sendRequest hc hready hok.1 hok.2 ht⟩
    · cases ht
  | serve n queryStart memory source rs =>
    simp only [Traffic.step, Bool.and_eq_true, decide_eq_true_eq] at ht
    split at ht
    · rename_i hpart
      exact ⟨given, h.serve hcast hok hpart.2 ht⟩
    · cases ht
  | recvResponse c memory source =>
    simp only [Traffic.step] at ht
    split at ht
    · rename_i n hc hsent
      split at ht
      · rename_i hpart
        exact h.recvResponse hcast hok hc hsent hpart ht
      · cases ht
    · cases ht

/-- Whatever the clients of a pool do, in every run of regular steps each response that
`doRequest` returns is an answer of the server to the request of that call, and no answer is
returned by two calls. -/
theorem answers_of_run (hcast : ∀ k < 2 ^ 64, lexicalCast (decimal k) = some (UInt64.ofNat k))
    (h : Run Init (step relaxed fnmatch server lexicalCast l) (Regular relaxed fnmatch server l) s) :
    ∃ given : List Nat, given.Nodup ∧
      List.Forall₂ (fun x i => x.2 = (server.answer fnmatch i x.1.received).2.received) s.log given := by
  obtain ⟨given, hi⟩ := h.invariant (I := fun s => ∃ given, Inv relaxed fnmatch server given s)
    (fun _ h => ⟨[], init_inv h⟩) (by
      rintro _ _ _ ⟨_, hi⟩ hok ht
      exact hi.step hcast hok ht)
  exact ⟨given, hi.fresh.1, hi.log⟩

end Invariant

section Echo

def echo : HttpServer :=
  ⟨true, bytes "echo", fun _ => { default := some fun req rsp => (req, { rsp with body := req.path }) }⟩

def ask (path : List UInt8) : HttpRequest := { close := false, path := path }

def paths : List (List UInt8) := [bytes "/", bytes "/a"]

theorem ask_receivable : ∀ p ∈ paths, Receivable false (ask p) := by
  intro p hp
  have hpath : Http11.IsPath false p := by
    simp only [paths, List.mem_cons, List.not_mem_nil, or_false] at hp
    obtain rfl | rfl := hp
    · exact ⟨[], rfl, by decide, .nil⟩
    · exact ⟨bytes "a", rfl, by decide, .byte (by decide) .nil⟩
  refine ⟨?_, by simp [Http11.WellNamed, ask]⟩
  exact
    { method :=
        List.all_eq_true.mp (show (bytes (httpMethod2String .get)).all Http11.methodChar = true by decide +kernel)
      version := .inr rfl
      path := hpath
      query := .nil
      fragment := .nil
      sorted := .nil
      names := by simp [ask]
      others := by simp [ask]
      values := by simp [ask] }

theorem echo_dumpable (i : Nat) (path : List UInt8) :
    HttpClient.Dumpable (echo.answer (fun _ _ => false) i (ask path).received).2 := by
  have hreason : (echo.answer (fun _ _ => false) i (ask path).received).2.reason = [] := rfl
  have hheaders : (echo.answer (fun _ _ => false) i (ask path).received).2.headers =
      [(bytes "Server", bytes "echo")] := rfl
  have hwritten : (echo.answer (fun _ _ => false) i (ask path).received).2.written =
      [(bytes "Server", bytes "echo")] := by
    rw [HttpResponse.written, hheaders]
    decide +kernel
  exact
    { status := show -2 ^ 31 ≤ (200 : Int) ∧ (200 : Int) < 2 ^ 31 by decide
      version := .inr rfl
      reason := by simp [hreason]
      sorted := by simp [hheaders]
      names := by rw [hwritten]; decide +kernel
      others := by rw [hwritten]; decide +kernel
      values := by rw [hwritten]; decide +kernel }

instance (text : List UInt8) (rs : List Int) : Decidable (Sendable text rs) := inferInstanceAs (Decidable (_ ∧ _ ∧ _))

instance (head memory : List UInt8) (source : Source) : Decidable (Readable head memory source) :=
  inferInstanceAs (Decidable (_ ∧ _))

def allowed (s : State (Fin 2)) : Action (Fin 2) → Bool
  | .pool a => decide (Exchange.Spent ⟨1, 100, 5⟩ s.exchange (.pool a))
  | .sendRequest _ req rs => decide (∃ p ∈ paths, req = ask p) && decide (Sendable req.dump rs)
  | .serve n _ memory source rs =>
    decide (∀ p ∈ source, p ≠ []) && decide (∀ c, s.exchange.pool.pc c = .holding n → s.exchange.phase c = .sent →
      Readable (s.asked c).head memory source ∧ (∃ p ∈ paths, s.asked c = ask p) ∧
        Sendable (s.answer (fun _ _ => false) echo (s.asked c)).dump rs)
  | .recvResponse c memory source => decide (∀ p ∈ source, p ≠ []) &&
    match s.exchange.pool.pc c with
    | .holding n => (s.answered n).all fun x => decide (Readable x.2.head memory source)
    | _ => false

theorem allowed_regular {s : State (Fin 2)} {a : Action (Fin 2)} (h : allowed s a = true) :
    Regular false (fun _ _ => false) echo ⟨1, 100, 5⟩ s a := by
  cases a with
  | pool a =>
    simp only [allowed, decide_eq_true_eq] at h
    exact h
  | sendRequest c req rs =>
    simp only [allowed, Bool.and_eq_true, decide_eq_true_eq] at h
    obtain ⟨⟨p, hp, rfl⟩, hsend⟩ := h
    exact ⟨ask_receivable p hp, hsend⟩
  | serve n queryStart memory source rs =>
    simp only [allowed, Bool.and_eq_true, decide_eq_true_eq] at h
    refine ⟨h.1, fun c hc hsent => ?_⟩
    obtain ⟨hread, ⟨p, hp, hask⟩, hsend⟩ := h.2 c hc hsent
    refine ⟨hread, ?_, hsend⟩
    rw [State.answer, hask]
    exact echo_dumpable s.served p
  | recvResponse c memory source =>
    simp only [allowed, Bool.and_eq_true, decide_eq_true_eq] at h
    refine ⟨source, [], (List.append_nil _).symm, .inl rfl, h.1, .inr fun n hn x hx => ?_⟩
    have hread := h.2
    rw [hn] at hread
    simpa [Option.mem_def.mp hx] using hread

def noTraffic : State (Fin 2) :=
  ⟨Exchange.noExchange, fun _ => {}, fun _ => [], fun _ => [], fun _ => false, 0, fun _ => none, []⟩

theorem noTraffic_init : Init noTraffic := ⟨Exchange.noExchange_init, fun _ => rfl, rfl⟩

def opening (c : Fin 2) : List (Pool.Action (Fin 2)) :=
  [.begin c 5, .pop c fun _ => false, .subtract c, .create c 6, .increment c]

def passing (c d : Fin 2) : List (Pool.Action (Fin 2)) :=
  [.release c, .check c true 7, .push c, .begin d 8, .pop d fun _ => true, .subtract d]

def asking (c : Fin 2) (path : List UInt8) : List (Action (Fin 2)) :=
  let answer := (echo.answer (fun _ _ => false) 0 (ask path).received).2.dump
  [.sendRequest c (ask path) [4, (ask path).dump.length - 4],
    .serve 0 0 (List.replicate 60 0) [(ask path).dump] [answer.length],
    .recvResponse c (List.replicate 120 0) [answer]]

def lexicalCast (s : List UInt8) : Option UInt64 := (Framing.number s).map UInt64.ofNat

theorem answers_shared :
    ∃ s : State (Fin 2),
      s.log.map (fun x => (x.1.path, x.2.body)) = [(bytes "/a", bytes "/a"), (bytes "/", bytes "/")] ∧
      ∃ given : List Nat, given.Nodup ∧ List.Forall₂
        (fun x i => x.2 = (echo.answer (fun _ _ => false) i x.1.received).2.received) s.log given := by
  have h : (exec (guarded (step false (fun _ _ => false) echo lexicalCast ⟨1, 100, 5⟩) (fun s a => allowed s a = true))
      noTraffic ((opening 0).map .pool ++ asking 0 (bytes "/") ++ (passing 0 1).map .pool ++ asking 1 (bytes "/a"))).map
        (fun s => s.log.map fun x => (x.1.path, x.2.body)) =
          some [(bytes "/a", bytes "/a"), (bytes "/", bytes "/")] := by
    decide +kernel
  obtain ⟨s, hs, he⟩ := Option.map_eq_some_iff.mp h
  have hrun : Run Init (step false (fun _ _ => false) echo lexicalCast ⟨1, 100, 5⟩) (fun s a => allowed s a = true) s :=
    Run.exec (.start noTraffic_init) _ hs
  refine ⟨s, he, answers_of_run (fun k _ => ?_) (hrun.mono fun _ _ => allowed_regular)⟩
  rw [lexicalCast, Framing.number_decimal, Option.map_some]

end Echo

end Windgent.Http.Traffic
