import Windgent.Http.Server
import Mathlib.Data.List.Induction

namespace Windgent.Http

/-- The tables of a dispatcher with its `m_mutex`, held or free. -/
structure LockedDispatcher where
  tables : ServletDispatcher
  held : Bool := false

namespace LockedDispatcher

/-- A write lock around a body; absent when the lock is held, which it then is for ever. -/
def wrLock (body : LockedDispatcher → Option LockedDispatcher) (d : LockedDispatcher) : Option LockedDispatcher :=
  if d.held then none else (body { d with held := true }).map fun d => { d with held := false }

def functionServlet (cb : Servlet) : Servlet := fun req rsp => cb req rsp

variable (uri : List UInt8)

def addServlet (slt : Option Servlet) : LockedDispatcher → Option LockedDispatcher := wrLock fun d =>
  some { d with tables := { d.tables with datas := (uri, slt) :: d.tables.datas.filter (·.1 ≠ uri) } }

def addServletFunction (cb : Servlet) : LockedDispatcher → Option LockedDispatcher := wrLock fun d =>
  some { d with tables :=
    { d.tables with datas := (uri, some (functionServlet cb)) :: d.tables.datas.filter (·.1 ≠ uri) } }

def addGlobServlet (slt : Option Servlet) : LockedDispatcher → Option LockedDispatcher := wrLock fun d =>
  some { d with tables := { d.tables with globs := d.tables.globs.eraseP (·.1 = uri) ++ [(uri, slt)] } }

/-- This overload calls the other one under its lock. -/
def addGlobServletFunction (cb : Servlet) : LockedDispatcher → Option LockedDispatcher := wrLock fun d =>
  addGlobServlet uri (some (functionServlet cb)) d

def delServlet : LockedDispatcher → Option LockedDispatcher := wrLock fun d =>
  some { d with tables := { d.tables with datas := d.tables.datas.filter (·.1 ≠ uri) } }

def delGlobServlet : LockedDispatcher → Option LockedDispatcher := wrLock fun d =>
  some { d with tables := { d.tables with globs := d.tables.globs.eraseP (·.1 = uri) } }

def getMatchedServlet (fnmatch : List UInt8 → List UInt8 → Bool) (d : LockedDispatcher) : Option (Option Servlet) :=
  if d.held then none else some (d.tables.getMatchedServlet fnmatch uri)

end LockedDispatcher

inductive Registration where
  | addServlet (uri : List UInt8) (slt : Option Servlet)
  | addServletFunction (uri : List UInt8) (cb : Servlet)
  | addGlobServlet (uri : List UInt8) (slt : Option Servlet)
  | addGlobServletFunction (uri : List UInt8) (cb : Servlet)
  | delServlet (uri : List UInt8)
  | delGlobServlet (uri : List UInt8)

namespace Registration

open LockedDispatcher

def run : Registration → LockedDispatcher → Option LockedDispatcher
  | addServlet uri slt => LockedDispatcher.addServlet uri slt
  | addServletFunction uri cb => LockedDispatcher.addServletFunction uri cb
  | addGlobServlet uri slt => LockedDispatcher.addGlobServlet uri slt
  | addGlobServletFunction uri cb => LockedDispatcher.addGlobServletFunction uri cb
  | delServlet uri => LockedDispatcher.delServlet uri
  | delGlobServlet uri => LockedDispatcher.delGlobServlet uri

/-- What a change does to the servlet of exactly `uri`: it registers one or deletes it. -/
def exact (uri : List UInt8) : Registration → Option (Option (Option Servlet))
  | addServlet u slt => if u = uri then some (some slt) else none
  | addServletFunction u cb => if u = uri then some (some (some (functionServlet cb))) else none
  | delServlet u => if u = uri then some none else none
  | _ => none

/-- What a change does to the servlet of a glob pattern. -/
def glob (pattern : List UInt8) : Registration → Option (Option (Option Servlet))
  | addGlobServlet u slt => if u = pattern then some (some slt) else none
  | addGlobServletFunction u cb => if u = pattern then some (some (some (functionServlet cb))) else none
  | delGlobServlet u => if u = pattern then some none else none
  | _ => none

def nested : Registration → Bool
  | addGlobServletFunction _ _ => true
  | _ => false

end Registration

/-- The last change that does something of a kind is number `i`, and it does `b`. -/
def Last {α β : Type} (f : α → Option β) (ops : List α) (i : Nat) (b : β) : Prop :=
  ops[i]?.bind f = some b ∧ ∀ j, i < j → ops[j]?.bind f = none

section History

variable {α β : Type} {f : α → Option β} {ops : List α} {op : α} {i j : Nat} {b b' : β}

theorem Last.lt (h : Last f ops i b) : i < ops.length := by
  obtain ⟨a, ha, -⟩ := Option.bind_eq_some_iff.mp h.1
  exact (List.getElem?_eq_some_iff.mp ha).1

theorem Last.unique (h : Last f ops i b) (h' : Last f ops j b') : i = j ∧ b = b' := by
  obtain hlt | rfl | hlt := Nat.lt_trichotomy i j
  · exact absurd (h.2 j hlt) (by simp [h'.1])
  · exact ⟨rfl, Option.some.inj (h.1.symm.trans h'.1)⟩
  · exact absurd (h'.2 i hlt) (by simp [h.1])

theorem last_nil : ¬Last f [] i b := fun h => absurd h.lt (Nat.not_lt_zero i)

theorem last_snoc : Last f (ops ++ [op]) i b ↔ i = ops.length ∧ f op = some b ∨ f op = none ∧ Last f ops i b := by
  have hleft : ∀ j, j < ops.length → (ops ++ [op])[j]? = ops[j]? := fun j hj => List.getElem?_append_left hj
  have hend : (ops ++ [op])[ops.length]? = some op := by simp
  have hout : ∀ j, ops.length < j → (ops ++ [op])[j]? = none := fun j hj => by simp; omega
  have hnone : ∀ j, ops.length ≤ j → ops[j]? = none := fun j hj => List.getElem?_eq_none hj
  constructor
  · intro h
    have hlt := h.lt
    rw [List.length_append, List.length_singleton] at hlt
    obtain hi | rfl := Nat.lt_or_eq_of_le (Nat.le_of_lt_succ hlt)
    · refine .inr ⟨by simpa [hend] using h.2 ops.length hi, by simpa [hleft i hi] using h.1, fun j hj => ?_⟩
      obtain hjlt | hjge := Nat.lt_or_ge j ops.length
      · rw [← hleft j hjlt]
        exact h.2 j hj
      · rw [hnone j hjge, Option.bind_none]
    · exact .inl ⟨rfl, by simpa [hend] using h.1⟩
  · rintro (⟨rfl, hop⟩ | ⟨hop, h⟩)
    · exact ⟨by rw [hend, Option.bind_some, hop], fun j hj => by rw [hout j hj, Option.bind_none]⟩
    · refine ⟨by rw [hleft i h.lt, h.1], fun j hj => ?_⟩
      obtain hjlt | rfl | hjgt := Nat.lt_trichotomy j ops.length
      · rw [hleft j hjlt, h.2 j hj]
      · rw [hend, Option.bind_some, hop]
      · rw [hout j hjgt, Option.bind_none]

end History

section Runs

open LockedDispatcher Registration

variable {ops : List Registration} {default : Option Servlet}

def runAll (default : Option Servlet) (ops : List Registration) : Option LockedDispatcher :=
  ops.foldlM (fun d op => op.run d) { tables := { default := default } }

/-- The servlet that the history calls for. -/
def Routed (fnmatch : List UInt8 → List UInt8 → Bool) (default : Option Servlet) (ops : List Registration)
    (uri : List UInt8) (slt : Option Servlet) : Prop :=
  (∃ i, Last (exact uri) ops i (some slt)) ∨
    (¬∃ i s, Last (exact uri) ops i (some s)) ∧
      ((∃ i pattern, Last (glob pattern) ops i (some slt) ∧ fnmatch pattern uri = true ∧
          ∀ j p s, Last (glob p) ops j (some s) → fnmatch p uri = true → i ≤ j) ∨
        (¬∃ i p s, Last (glob p) ops i (some s) ∧ fnmatch p uri = true) ∧ slt = default)

/-- What is promised after a history. -/
structure Routes (fnmatch : List UInt8 → List UInt8 → Bool) (default : Option Servlet) (ops : List Registration)
    (d : LockedDispatcher) : Prop where
  free : d.held = false
  distinct : (d.tables.globs.map Prod.fst).Nodup
  routed : ∀ uri, ∃ slt, d.getMatchedServlet uri fnmatch = some slt ∧ Routed fnmatch default ops uri slt

/-- The tables as the history determines them: the glob patterns in the order of their latest
registrations. -/
structure Recorded (default : Option Servlet) (ops : List Registration) (d : LockedDispatcher) : Prop where
  free : d.held = false
  default_eq : d.tables.default = default
  datas : ∀ uri slt, (uri, slt) ∈ d.tables.datas ↔ ∃ i, Last (exact uri) ops i (some slt)
  globs : ∃ l : List (Nat × List UInt8 × Option Servlet), d.tables.globs = l.map Prod.snd ∧
    (l.Pairwise fun x y => x.1 < y.1) ∧ ∀ i p s, (i, p, s) ∈ l ↔ Last (glob p) ops i (some s)

variable {d : LockedDispatcher} {op : Registration} {uri : List UInt8}

theorem patterns_nodup {l : List (Nat × List UInt8 × Option Servlet)} (hl : l.Pairwise fun x y => x.1 < y.1)
    (hlast : ∀ i p s, (i, p, s) ∈ l → Last (glob p) ops i (some s)) : (l.map fun x => x.2.1).Nodup := by
  rw [List.Nodup, List.pairwise_map]
  refine List.Pairwise.imp_of_mem ?_ hl
  rintro ⟨i, p, s⟩ ⟨j, q, t⟩ hx hy hlt rfl
  exact absurd ((hlast _ _ _ hx).unique (hlast _ _ _ hy)).1 (Nat.ne_of_lt hlt)

theorem eraseP_pattern {l : List (Nat × List UInt8 × Option Servlet)} (hl : (l.map fun x => x.2.1).Nodup) :
    (l.map Prod.snd).eraseP (·.1 = uri) = (l.filter fun x => x.2.1 ≠ uri).map Prod.snd := by
  induction l with
  | nil => rfl
  | cons x l ih =>
    obtain ⟨hx, hl⟩ := List.nodup_cons.mp hl
    by_cases h : x.2.1 = uri
    · have hrest : l.filter (fun y => y.2.1 ≠ uri) = l := by
        rw [List.filter_eq_self]
        exact fun y hy => decide_eq_true fun hyu => hx (List.mem_map.mpr ⟨y, hy, hyu.trans h.symm⟩)
      rw [List.map_cons, List.eraseP_cons_of_pos (by simpa using h), List.filter_cons_of_neg (by simpa using h), hrest]
    · rw [List.map_cons, List.eraseP_cons_of_neg (by simpa using h), List.filter_cons_of_pos (by simpa using h),
        List.map_cons, ih hl]

theorem Recorded.set_datas (new : Option (Option Servlet)) (h : Recorded default ops d)
    (hexact : ∀ u, exact u op = if uri = u then some new else none) (hglob : ∀ p, glob p op = none) :
    Recorded default (ops ++ [op])
      { d with tables :=
        { d.tables with datas := new.toList.map (uri, ·) ++ d.tables.datas.filter (·.1 ≠ uri) } } where
  free := h.free
  default_eq := h.default_eq
  datas := by
    intro u slt
    have hmem := h.datas u slt
    simp only [last_snoc, hexact, List.mem_append, List.mem_map, Option.mem_toList, List.mem_filter, hmem]
    by_cases hu : uri = u
    · subst hu
      simp [eq_comm]
    · simp [hu, Ne.symm hu]
  globs := by
    obtain ⟨l, hl, hsorted, hmem⟩ := h.globs
    refine ⟨l, hl, hsorted, fun i p s => ?_⟩
    rw [hmem, last_snoc, hglob]
    simp

theorem Recorded.set_globs (new : Option (Option Servlet)) (h : Recorded default ops d)
    (hglob : ∀ p, glob p op = if uri = p then some new else none) (hexact : ∀ u, exact u op = none) :
    Recorded default (ops ++ [op])
      { d with tables :=
        { d.tables with globs := d.tables.globs.eraseP (·.1 = uri) ++ new.toList.map (uri, ·) } } where
  free := h.free
  default_eq := h.default_eq
  datas := by
    intro u slt
    simp only [last_snoc, hexact, h.datas u slt]
    simp
  globs := by
    obtain ⟨l, hl, hsorted, hmem⟩ := h.globs
    have hnodup := patterns_nodup hsorted fun i p s => (hmem i p s).mp
    refine ⟨l.filter (fun x => x.2.1 ≠ uri) ++ new.toList.map fun s => (ops.length, uri, s), ?_, ?_, fun i p s => ?_⟩
    · rw [hl, eraseP_pattern hnodup]
      simp
    · rw [List.pairwise_append]
      refine ⟨hsorted.filter _, ?_, ?_⟩
      · cases new <;> simp
      · rintro ⟨i, p, s⟩ hx y hy
        obtain ⟨s', -, rfl⟩ := List.mem_map.mp hy
        exact ((hmem i p s).mp (List.mem_filter.mp hx).1).lt
    · simp only [last_snoc, hglob, List.mem_append, List.mem_map, Option.mem_toList, List.mem_filter, hmem]
      by_cases hp : uri = p
      · subst hp
        simp [eq_comm, and_comm]
      · simp [hp, Ne.symm hp]

theorem Recorded.nil : Recorded default [] { tables := { default := default } } where
  free := rfl
  default_eq := rfl
  datas := by simp [last_nil]
  globs := ⟨[], rfl, .nil, by simp [last_nil]⟩

theorem Recorded.step (h : Recorded default ops d) (hop : op.nested = false) :
    ∃ d', op.run d = some d' ∧ Recorded default (ops ++ [op]) d' := by
  obtain ⟨tables, held⟩ := d
  obtain rfl : held = false := h.free
  cases op with
  | addServlet uri slt =>
    exact ⟨_, rfl, h.set_datas (some slt) (fun u => rfl) fun p => rfl⟩
  | addServletFunction uri cb =>
    exact ⟨_, rfl, h.set_datas (some (some (functionServlet cb))) (fun u => rfl) fun p => rfl⟩
  | addGlobServlet uri slt =>
    exact ⟨_, rfl, h.set_globs (some slt) (fun p => rfl) fun u => rfl⟩
  | addGlobServletFunction uri cb => cases hop
  | delServlet uri =>
    exact ⟨_, rfl, h.set_datas none (fun u => rfl) fun p => rfl⟩
  | delGlobServlet uri =>
    have hset : Recorded default (ops ++ [.delGlobServlet uri]) _ := h.set_globs none (fun p => rfl) fun u => rfl
    rw [Option.toList_none, List.map_nil, List.append_nil] at hset
    exact ⟨_, rfl, hset⟩

theorem runAll_snoc : runAll default (ops ++ [op]) = (runAll default ops).bind op.run := by
  rw [runAll, List.foldlM_append]
  simp [runAll]

theorem runAll_recorded (h : ∀ op ∈ ops, op.nested = false) :
    ∃ d, runAll default ops = some d ∧ Recorded default ops d := by
  induction ops using List.reverseRecOn with
  | nil => exact ⟨_, rfl, .nil⟩
  | append_singleton ops op ih =>
    obtain ⟨d, hd, hrec⟩ := ih fun op hop => h op (List.mem_append_left _ hop)
    obtain ⟨d', hd', hrec'⟩ := hrec.step (h op (List.mem_append_right _ List.mem_cons_self))
    exact ⟨d', by rw [runAll_snoc, hd, Option.bind_some, hd'], hrec'⟩

/-- The lock is taken a second time. -/
theorem run_nested (h : op.nested = true) (d : LockedDispatcher) : op.run d = none := by
  cases op with
  | addGlobServletFunction uri cb =>
    simp only [Registration.run, LockedDispatcher.addGlobServletFunction, wrLock]
    split
    · rfl
    · rfl
  | _ => cases h

theorem Recorded.routes (h : Recorded default ops d) (fnmatch : List UInt8 → List UInt8 → Bool) :
    Routes fnmatch default ops d := by
  obtain ⟨l, hl, hsorted, hmem⟩ := h.globs
  have hnodup := patterns_nodup hsorted fun i p s => (hmem i p s).mp
  refine ⟨h.free, ?_, fun uri => ⟨d.tables.getMatchedServlet fnmatch uri, ?_, ?_⟩⟩
  · rw [hl, List.map_map]
    exact hnodup
  · rw [LockedDispatcher.getMatchedServlet, h.free]
    rfl
  · rw [ServletDispatcher.getMatchedServlet, hl, List.find?_map, h.default_eq]
    cases hdata : d.tables.datas.find? fun x => x.1 = uri with
    | some x =>
      have huri : x.1 = uri := by simpa using List.find?_some hdata
      exact .inl ((h.datas uri x.2).mp (huri ▸ List.mem_of_find?_eq_some hdata))
    | none =>
      refine .inr ⟨?_, ?_⟩
      · rintro ⟨i, s, hlast⟩
        exact absurd (List.find?_eq_none.mp hdata _ ((h.datas uri s).mpr ⟨i, hlast⟩)) (by simp)
      · cases hglob : l.find? ((fun x => fnmatch x.1 uri) ∘ Prod.snd) with
        | some x =>
          obtain ⟨hmatch, before, behind, rfl, hbefore⟩ := List.find?_eq_some_iff_append.mp hglob
          refine .inl ⟨x.1, x.2.1, (hmem _ _ _).mp (by simp), hmatch, fun j p s hlast hp => ?_⟩
          obtain hj | hj := List.mem_append.mp ((hmem j p s).mpr hlast)
          · exact absurd (hbefore _ hj) (by simp [hp])
          · obtain rfl | hj := List.mem_cons.mp hj
            · exact le_rfl
            · exact Nat.le_of_lt ((List.pairwise_cons.mp (List.pairwise_append.mp hsorted).2.1).1 _ hj)
        | none =>
          refine .inr ⟨?_, rfl⟩
          rintro ⟨i, p, s, hlast, hp⟩
          exact absurd (List.find?_eq_none.mp hglob _ ((hmem i p s).mpr hlast)) (by simp [hp])

/-- Every change returns and the tables are as promised, as long as the overload of
`addGlobServlet` with a callback is not used. -/
theorem routes_iff (fnmatch : List UInt8 → List UInt8 → Bool) (default : Option Servlet) (ops : List Registration) :
    (∀ past, past <+: ops → ∃ d, runAll default past = some d ∧ Routes fnmatch default past d) ↔
      ∀ op ∈ ops, op.nested = false := by
  constructor
  · intro h op hop
    obtain ⟨before, behind, rfl⟩ := List.append_of_mem hop
    by_contra hnested
    obtain ⟨d, hd, -⟩ := h (before ++ [op]) ⟨behind, by simp⟩
    rw [runAll_snoc] at hd
    obtain ⟨d₀, -, hrun⟩ := Option.bind_eq_some_iff.mp hd
    rw [run_nested (by simpa using hnested)] at hrun
    cases hrun
  · rintro h past ⟨rest, rfl⟩
    obtain ⟨d, hd, hrec⟩ : ∃ d, runAll default past = some d ∧ Recorded default past d :=
      runAll_recorded fun op hop => h op (List.mem_append_left _ hop)
    exact ⟨d, hd, hrec.routes fnmatch⟩

/-- A callback for a glob pattern is never registered. -/
theorem glob_callback_blocks :
    let ops : List Registration := [.addGlobServletFunction (bytes "/a/*") fun req rsp => (req, rsp)]
    runAll none ops = none ∧ ¬∀ past, past <+: ops → ∃ d, runAll none past = some d ∧
      Routes (fun p u => p = u) none past d := by
  refine ⟨rfl, fun h => ?_⟩
  obtain ⟨d, hd, -⟩ := h _ (List.prefix_refl _)
  cases hd

end Runs

end Windgent.Http
