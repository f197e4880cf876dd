import Windgent.Http.Message

namespace Windgent.Http

/-- What `Servlet::handle` makes of the two objects that it is given pointers to. -/
abbrev Servlet := HttpRequest → HttpResponse → HttpRequest × HttpResponse

structure ServletDispatcher where
  datas : List (List UInt8 × Option Servlet) := []
  globs : List (List UInt8 × Option Servlet) := []
  default : Option Servlet

section Dispatch

variable (fnmatch : List UInt8 → List UInt8 → Bool)

def ServletDispatcher.getMatchedServlet (d : ServletDispatcher) (uri : List UInt8) : Option Servlet :=
  match d.datas.find? (fun x => x.1 = uri) with
  | some x => x.2
  | none =>
    match d.globs.find? (fun x => fnmatch x.1 uri) with
    | some x => x.2
    | none => d.default

def ServletDispatcher.handle (d : ServletDispatcher) : Servlet := fun req rsp =>
  match d.getMatchedServlet fnmatch req.path with
  | some slt => slt req rsp
  | none => (req, rsp)

end Dispatch

def notFoundContent (name : List UInt8) : List UInt8 :=
  bytes "<html><head><title>404 Not Found</title></head><body><center><h1>404 Not Found</h1></center><hr><center>"
    ++ name ++ bytes "</center></body></html>"

def notFoundServlet (name : List UInt8) : Servlet := fun req rsp =>
  let headers := setHeader (bytes "Content-Type") (bytes "text/html")
    (setHeader (bytes "Server") (bytes "windgent/1.0.0") rsp.headers)
  (req, { rsp with status := 404, headers := headers, body := notFoundContent name })

def ServletDispatcher.new : ServletDispatcher := { default := some (notFoundServlet (bytes "nothing")) }

/-- `dispatcher i` is what the tables of `m_dispatcher` and its servlets are in the
iteration `i`; other threads may change both. -/
structure HttpServer where
  isKeepAlive : Bool
  name : List UInt8
  dispatcher : Nat → ServletDispatcher

inductive Call where
  | recvRequest (outcome : Option HttpRequest)
  | sendResponse (rsp : HttpResponse)
  | close
deriving DecidableEq

/-- Where `handleClient` has come to: it waits in `recvRequest`, it has returned, or it has
dereferenced a null pointer. -/
inductive Ending where
  | waiting | returned | crashed
deriving DecidableEq

structure Trace (E : Type) where
  calls : List E
  ending : Ending
deriving DecidableEq

namespace Trace

variable {E F : Type}

def after (es : List E) (t : Trace E) : Trace E := ⟨es ++ t.calls, t.ending⟩

def map (f : E → F) (t : Trace E) : Trace F := ⟨t.calls.map f, t.ending⟩

theorem map_after (f : E → F) (es : List E) (t : Trace E) : (t.after es).map f = (t.map f).after (es.map f) := by
  simp [map, after]

theorem after_inj {es : List E} {t u : Trace E} : t.after es = u.after es ↔ t = u := by
  cases t
  cases u
  simp [after]

end Trace

namespace HttpServer

variable (fnmatch : List UInt8 → List UInt8 → Bool) (server : HttpServer)

def response (req : HttpRequest) : HttpResponse :=
  { version := req.version, close := req.close || !server.isKeepAlive,
    headers := setHeader (bytes "Server") server.name [] }

def answer (i : Nat) (req : HttpRequest) : HttpRequest × HttpResponse :=
  (server.dispatcher i).handle fnmatch req (server.response req)

/-- The loop of `handleClient` from the iteration `i`, on the outcomes of its calls of
`recvRequest`. A null outcome is logged, and `req->getVersion()` follows. -/
def handleLoop (i : Nat) : List (Option HttpRequest) → Trace Call
  | [] => ⟨[], .waiting⟩
  | none :: _ => ⟨[.recvRequest none], .crashed⟩
  | some req :: outcomes =>
    let out := server.answer fnmatch i req
    let calls := [.recvRequest (some req), .sendResponse out.2]
    if !server.isKeepAlive || out.1.close then ⟨calls ++ [.close], .returned⟩
    else if server.isKeepAlive then (handleLoop (i + 1) outcomes).after calls
    else ⟨calls ++ [.close], .returned⟩

def handleClient (outcomes : List (Option HttpRequest)) : Trace Call := server.handleLoop fnmatch 0 outcomes

end HttpServer

inductive Exchange where
  | received (outcome : Option HttpRequest)
  | answered (close : Bool)
  | closed
deriving DecidableEq

def Call.exchange : Call → Exchange
  | .recvRequest o => .received o
  | .sendResponse rsp => .answered rsp.close
  | .close => .closed

/-- A session as it is meant: one answer for each request, up to the first null outcome or
the first request that is the last one, and one close. -/
def session (keepAlive : Bool) : List (Option HttpRequest) → Trace Exchange
  | [] => ⟨[], .waiting⟩
  | none :: _ => ⟨[.received none, .closed], .returned⟩
  | some req :: outcomes =>
    if req.close || !keepAlive then ⟨[.received (some req), .answered true, .closed], .returned⟩
    else (session keepAlive outcomes).after [.received (some req), .answered false]

def served (keepAlive : Bool) : List (Option HttpRequest) → List (Option HttpRequest)
  | [] => []
  | none :: _ => [none]
  | some req :: outcomes => some req :: if req.close || !keepAlive then [] else served keepAlive outcomes

namespace HttpServer

variable (fnmatch : List UInt8 → List UInt8 → Bool) (server : HttpServer)

/-- The servlets leave the close flags as `handleClient` gives them; the flag of the
request matters only on a server that keeps connections. -/
def LeavesClose (i : Nat) (req : HttpRequest) : Prop :=
  (server.answer fnmatch i req).2.close = (req.close || !server.isKeepAlive) ∧
    (server.isKeepAlive = true → (server.answer fnmatch i req).1.close = req.close)

def Regular (i : Nat) (outcome : Option HttpRequest) : Prop :=
  ∃ req, outcome = some req ∧ server.LeavesClose fnmatch i req

variable {fnmatch} {server}

variable (fnmatch server) in
theorem handleLoop_not_closed (i : Nat) (outcomes : List (Option HttpRequest)) :
    ((server.handleLoop fnmatch i outcomes).map Call.exchange).calls.head? ≠ some .closed := by
  cases outcomes with
  | nil => simp [handleLoop, Trace.map]
  | cons o outcomes =>
    cases o with
    | none => simp [handleLoop, Trace.map, Call.exchange]
    | some req =>
      rw [handleLoop]
      split
      · simp [Trace.map, Call.exchange]
      · split <;> simp [Trace.map, Trace.after, Call.exchange]

theorem handleLoop_last {i : Nat} {req : HttpRequest} {outcomes : List (Option HttpRequest)}
    (hlast : (req.close || !server.isKeepAlive) = true) :
    (server.handleLoop fnmatch i (some req :: outcomes)).map Call.exchange =
        ⟨[.received (some req), .answered true, .closed], .returned⟩ ↔
      server.LeavesClose fnmatch i req := by
  rw [handleLoop, LeavesClose, hlast]
  cases hk : server.isKeepAlive with
  | false => simp [Trace.map, Call.exchange]
  | true =>
    have hreq : req.close = true := by simpa [hk] using hlast
    cases hout : (server.answer fnmatch i req).1.close with
    | false =>
      refine iff_of_false (fun h => ?_) (by simp [hreq])
      have hcalls := congrArg Trace.calls h
      simp only [Bool.not_true, Bool.or_self, Bool.false_eq_true, if_false, if_true, Trace.map_after] at hcalls
      have hrest := congrArg (List.drop 2) hcalls
      refine handleLoop_not_closed fnmatch server (i + 1) outcomes ?_
      simpa [Trace.after] using congrArg List.head? hrest
    | true => simp [hreq, Trace.map, Call.exchange]

theorem handleLoop_next {i : Nat} {req : HttpRequest} {outcomes : List (Option HttpRequest)} {t : Trace Exchange}
    (hnext : (req.close || !server.isKeepAlive) = false) (ht : t.calls.head? ≠ some .closed) :
    (server.handleLoop fnmatch i (some req :: outcomes)).map Call.exchange =
        t.after [.received (some req), .answered false] ↔
      server.LeavesClose fnmatch i req ∧ (server.handleLoop fnmatch (i + 1) outcomes).map Call.exchange = t := by
  obtain ⟨hreq, hk⟩ : req.close = false ∧ server.isKeepAlive = true := by simpa using hnext
  rw [handleLoop, LeavesClose, hnext]
  cases hout : (server.answer fnmatch i req).1.close with
  | true =>
    cases t with
    | mk calls ending =>
      have hne : [Exchange.closed] ≠ calls := fun h => ht (by rw [← h, List.head?_cons])
      simp [hk, hreq, hne, Trace.map, Trace.after, Call.exchange]
  | false =>
    simp only [hk, hreq, Bool.not_true, Bool.or_self, Bool.false_eq_true, if_false, if_true, Trace.map_after,
      List.map_cons, List.map_nil, Call.exchange, implies_true, and_true]
    constructor
    · intro h
      have hflag : (server.answer fnmatch i req).2.close = false := by
        have hcalls := congrArg Trace.calls h
        simp only [Trace.after, List.cons_append] at hcalls
        exact Exchange.answered.inj (List.cons.inj (List.cons.inj hcalls).2).1
      rw [hflag, Trace.after_inj] at h
      exact ⟨hflag, h⟩
    · rintro ⟨hflag, h⟩
      rw [hflag, h]

theorem session_not_closed (keepAlive : Bool) (outcomes : List (Option HttpRequest)) :
    (session keepAlive outcomes).calls.head? ≠ some .closed := by
  cases outcomes with
  | nil => simp [session]
  | cons o outcomes =>
    cases o with
    | none => simp [session]
    | some req =>
      rw [session]
      split <;> simp [Trace.after]

variable (fnmatch server) in
theorem handleLoop_session_iff (i : Nat) (outcomes : List (Option HttpRequest)) :
    (server.handleLoop fnmatch i outcomes).map Call.exchange = session server.isKeepAlive outcomes ↔
      ∀ j o, (served server.isKeepAlive outcomes)[j]? = some o → server.Regular fnmatch (i + j) o := by
  induction outcomes generalizing i with
  | nil => simp [handleLoop, session, served, Trace.map]
  | cons o outcomes ih =>
    cases o with
    | none =>
      have hcrash : ¬ server.Regular fnmatch (i + 0) none := by simp [Regular]
      refine iff_of_false (by simp [handleLoop, session, Trace.map]) fun h => hcrash (h 0 none ?_)
      simp [served]
    | some req =>
      rw [session, served]
      cases hlast : req.close || !server.isKeepAlive with
      | true =>
        rw [if_pos rfl, if_pos rfl, handleLoop_last hlast]
        constructor
        · intro h j o hj
          obtain ⟨rfl, rfl⟩ : j = 0 ∧ some req = o := by simpa [List.getElem?_singleton] using hj
          exact ⟨req, rfl, h⟩
        · intro h
          obtain ⟨req', hreq, hleaves⟩ := h 0 (some req) rfl
          exact Option.some.inj hreq ▸ hleaves
      | false =>
        rw [if_neg (by simp), if_neg (by simp), handleLoop_next hlast (session_not_closed _ _), ih]
        constructor
        · rintro ⟨hreq, hrest⟩ j o hj
          cases j with
          | zero => exact ⟨req, (Option.some.inj hj).symm, hreq⟩
          | succ j => simpa only [Nat.add_right_comm, Nat.add_assoc] using hrest j o hj
        · intro h
          obtain ⟨req', hreq, hleaves⟩ := h 0 (some req) rfl
          refine ⟨Option.some.inj hreq ▸ hleaves, fun j o hj => ?_⟩
          simpa only [Nat.add_right_comm, Nat.add_assoc] using h (j + 1) o hj

/-- A session runs as it is meant exactly when `handleClient` receives no null outcome and
the servlets leave the close flags alone. -/
theorem handleClient_session_iff (fnmatch : List UInt8 → List UInt8 → Bool) (server : HttpServer)
    (outcomes : List (Option HttpRequest)) :
    (server.handleClient fnmatch outcomes).map Call.exchange = session server.isKeepAlive outcomes ↔
      ∀ i o, (served server.isKeepAlive outcomes)[i]? = some o →
        ∃ req, o = some req ∧ server.LeavesClose fnmatch i req := by
  simpa only [Nat.zero_add, Regular, handleClient] using handleLoop_session_iff fnmatch server 0 outcomes

/-- A peer that disconnects: `handleClient` dereferences the null request. -/
theorem handleClient_null_request :
    let server : HttpServer := ⟨true, bytes "windgent/1.0.0", fun _ => .new⟩
    let outcomes := [some { close := false }, none]
    (server.handleClient (fun _ _ => false) outcomes).ending = .crashed ∧
      (server.handleClient (fun _ _ => false) outcomes).map Call.exchange ≠ session true outcomes := by
  decide +kernel

end HttpServer

end Windgent.Http
