import Windgent.Transition
import Mathlib.Data.List.Perm.Basic
import Mathlib.Data.List.Infix

namespace Windgent.Sections

open Transition

inductive Mode where
  | read
  | write
deriving DecidableEq

/-- What is done under a lock: each operation writes to the shared memory, and goes on as
what it has read says. -/
inductive Body (σ ρ : Type) where
  | ret (result : ρ)
  | op (write : σ → σ) (next : σ → Body σ ρ)

variable {Λ σ κ ρ : Type}

namespace Body

def run : Body σ ρ → σ → σ × ρ
  | ret r, s => (s, r)
  | op w next, s => (next s).run (w s)

inductive ReadOnly : Body σ ρ → Prop
  | ret (r : ρ) : ReadOnly (Body.ret r)
  | op {next : σ → Body σ ρ} (h : ∀ s, ReadOnly (next s)) : ReadOnly (Body.op id next)

theorem ReadOnly.run_fst {b : Body σ ρ} (h : ReadOnly b) (s : σ) : (b.run s).1 = s := by
  induction h with
  | ret r => rfl
  | op _ ih => exact ih s

theorem ReadOnly.next {w : σ → σ} {next : σ → Body σ ρ} (h : ReadOnly (Body.op w next)) (s : σ) :
    w = id ∧ ReadOnly (next s) := by
  cases h with
  | op h => exact ⟨rfl, h s⟩

end Body

structure Section (σ ρ : Type) where
  mode : Mode
  body : Body σ ρ
  readOnly : mode = .read → body.ReadOnly

/-- A scoped guard. Its constructor attempts to take the lock; `unlock`, which the destructor
calls too, is told whether the guard holds it. -/
structure Guard (Λ : Type) where
  construct : Mode → Λ → Λ × Bool
  unlock : Λ × Bool → Λ × Bool

def bump (m : Mode) (n : Mode → Nat) : Mode → Nat := fun m' => if m' = m then n m' + 1 else n m'

/-- The guard keeps count of its holders; a writer is alone. -/
structure Guard.Lawful (g : Guard Λ) (held : Λ → (Mode → Nat) → Prop) : Prop where
  taken : ∀ {l l' m n}, held l n → g.construct m l = (l', true) → held l' (bump m n)
  refused : ∀ {l l' m n}, held l n → g.construct m l = (l', false) → held l' n
  unlock : ∀ {l m n}, held l (bump m n) → held (g.unlock (l, true)).1 n
  unlocked : ∀ l, (g.unlock (l, true)).2 = false
  again : ∀ l, g.unlock (l, false) = (l, false)
  alone : ∀ {l n}, held l (bump .write n) → ∀ m, n m = 0

structure Job (σ κ ρ : Type) where
  call : κ
  rest : Body σ ρ
  locked : Bool

structure State (Λ σ κ ρ : Type) where
  lock : Λ
  shared : σ
  jobs : List (Job σ κ ρ)
  returned : List (κ × ρ)

inductive Label (κ : Type) where
  | enter (call : κ)
  | advance (i : Nat)
  | unlock (i : Nat)
  | leave (i : Nat)
deriving DecidableEq

section System

variable (g : Guard Λ) (sections : κ → Section σ ρ)

/-- One attempt of a guard's constructor. -/
def enter (s : State Λ σ κ ρ) (call : κ) : State Λ σ κ ρ :=
  match g.construct (sections call).mode s.lock with
  | (l, true) => { s with lock := l, jobs := s.jobs ++ [⟨call, (sections call).body, true⟩] }
  | (l, false) => { s with lock := l }

/-- The steps of the callers. The body ends before the lock is given up; the scope may end later. -/
def step (s : State Λ σ κ ρ) : Label κ → Option (State Λ σ κ ρ)
  | .enter call => some (enter g sections s call)
  | .advance i =>
    match s.jobs[i]? with
    | some ⟨call, .op w next, locked⟩ =>
      some { s with shared := w s.shared, jobs := s.jobs.set i ⟨call, next s.shared, locked⟩ }
    | _ => none
  | .unlock i =>
    match s.jobs[i]? with
    | some ⟨call, .ret r, locked⟩ =>
      some { s with
        lock := (g.unlock (s.lock, locked)).1
        jobs := s.jobs.set i ⟨call, .ret r, (g.unlock (s.lock, locked)).2⟩ }
    | _ => none
  | .leave i =>
    match s.jobs[i]? with
    | some ⟨call, .ret r, locked⟩ =>
      some { s with
        lock := (g.unlock (s.lock, locked)).1
        jobs := s.jobs.eraseIdx i
        returned := s.returned ++ [(call, r)] }
    | _ => none

def start (l : Λ) (shared : σ) : State Λ σ κ ρ := ⟨l, shared, [], []⟩

def taken (s : State Λ σ κ ρ) : Label κ → List κ
  | .enter call => if (g.construct (sections call).mode s.lock).2 then [call] else []
  | .advance _ | .unlock _ | .leave _ => []

/-- The calls of a run in the order in which they take the lock. -/
def acquired (s : State Λ σ κ ρ) : List (Label κ) → List κ
  | [] => []
  | label :: labels =>
    taken g sections s label ++ (step g sections s label).elim [] fun t => acquired t labels

end System

section Serial

variable (sections : κ → Section σ ρ)

def after (s : σ) (calls : List κ) : σ := calls.foldl (fun s call => ((sections call).body.run s).1) s

def answers (s : σ) : List κ → List (κ × ρ)
  | [] => []
  | call :: calls => (call, ((sections call).body.run s).2) :: answers ((sections call).body.run s).1 calls

theorem after_append (s : σ) (calls more : List κ) :
    after sections s (calls ++ more) = after sections (after sections s calls) more :=
  List.foldl_append

theorem answers_append (s : σ) (calls more : List κ) :
    answers sections s (calls ++ more) =
      answers sections s calls ++ answers sections (after sections s calls) more := by
  induction calls generalizing s with
  | nil => rfl
  | cons call calls ih => exact congrArg _ (ih _)

theorem answers_invariant {J : σ → List (κ × ρ) → Prop}
    (hstep : ∀ s log call, J s log →
      J ((sections call).body.run s).1 (log ++ [(call, ((sections call).body.run s).2)]))
    {s : σ} {log : List (κ × ρ)} (h : J s log) (calls : List κ) :
    J (after sections s calls) (log ++ answers sections s calls) := by
  induction calls generalizing s log with
  | nil => rwa [answers, List.append_nil]
  | cons call calls ih =>
    have hc := ih (hstep s log call h)
    rwa [List.append_assoc] at hc

end Serial

section Atomicity

variable {g : Guard Λ} {sections : κ → Section σ ρ} {held : Λ → (Mode → Nat) → Prop}

def holders (sections : κ → Section σ ρ) (jobs : List (Job σ κ ρ)) (m : Mode) : Nat :=
  jobs.countP fun j => j.locked && decide ((sections j.call).mode = m)

/-- What a call is going to return. -/
def promise (shared : σ) (j : Job σ κ ρ) : κ × ρ := (j.call, (j.rest.run shared).2)

/-- The calls look as if each had run alone when it took the lock, in this order. -/
structure Serialized (sections : κ → Section σ ρ) (held : Λ → (Mode → Nat) → Prop) (init : σ) (order : List κ)
    (s : State Λ σ κ ρ) : Prop where
  held : held s.lock (holders sections s.jobs)
  ended : ∀ j ∈ s.jobs, j.locked = false → ∃ r, j.rest = .ret r
  reading : ∀ j ∈ s.jobs, (sections j.call).mode = .read → j.rest.ReadOnly
  quiet : holders sections s.jobs .write = 0 → s.shared = after sections init order
  writing : ∀ j ∈ s.jobs, j.locked = true → (sections j.call).mode = .write →
    (j.rest.run s.shared).1 = after sections init order
  answers : (answers sections init order).Perm (s.returned ++ s.jobs.map (promise s.shared))

theorem holders_locked (jobs jobs' : List (Job σ κ ρ)) (call : κ) (rest : Body σ ρ) :
    holders sections (jobs ++ ⟨call, rest, true⟩ :: jobs') =
      bump (sections call).mode (holders sections (jobs ++ jobs')) := by
  funext m
  by_cases hm : m = (sections call).mode
  · simp [holders, bump, hm, List.countP_append]
    omega
  · simp [holders, bump, hm, Ne.symm hm, List.countP_append]

theorem holders_unlocked (jobs jobs' : List (Job σ κ ρ)) (call : κ) (rest : Body σ ρ) :
    holders sections (jobs ++ ⟨call, rest, false⟩ :: jobs') = holders sections (jobs ++ jobs') := by
  funext m
  simp [holders, List.countP_append]

theorem mode_of_holders {jobs : List (Job σ κ ρ)} {m : Mode} (h : holders sections jobs m = 0) {j : Job σ κ ρ}
    (hj : j ∈ jobs) (hl : j.locked = true) : (sections j.call).mode ≠ m := by
  intro hm
  have := List.countP_eq_zero.mp h j hj
  simp [hl, hm] at this

theorem unlocked_of_alone {jobs : List (Job σ κ ρ)} (h : ∀ m, holders sections jobs m = 0) {j : Job σ κ ρ}
    (hj : j ∈ jobs) : j.locked = false := by
  by_contra hl
  exact mode_of_holders (h (sections j.call).mode) hj (by simpa using hl) rfl

theorem split_at {α : Type} {l : List α} {i : Nat} {a : α} (h : l[i]? = some a) :
    ∃ l₁ l₂, l = l₁ ++ a :: l₂ ∧ (∀ b, l.set i b = l₁ ++ b :: l₂) ∧ l.eraseIdx i = l₁ ++ l₂ := by
  obtain ⟨hi, rfl⟩ := List.getElem?_eq_some_iff.mp h
  refine ⟨l.take i, l.drop (i + 1), ?_, fun b => ?_, ?_⟩
  · rw [List.getElem_cons_drop, List.take_append_drop]
  · rw [List.set_eq_take_append_cons_drop, if_pos hi]
  · exact List.eraseIdx_eq_take_drop_succ ..

/-- What a step does, with the call that takes the lock. -/
inductive Moves (g : Guard Λ) (sections : κ → Section σ ρ) (s : State Λ σ κ ρ) : List κ → State Λ σ κ ρ → Prop
  | refused {call : κ} {l : Λ} (h : g.construct (sections call).mode s.lock = (l, false)) :
    Moves g sections s [] { s with lock := l }
  | entered {call : κ} {l : Λ} (h : g.construct (sections call).mode s.lock = (l, true)) :
    Moves g sections s [call] { s with lock := l, jobs := s.jobs ++ [⟨call, (sections call).body, true⟩] }
  | advanced {jobs jobs' : List (Job σ κ ρ)} {call : κ} {w : σ → σ} {next : σ → Body σ ρ} {locked : Bool}
    (h : s.jobs = jobs ++ ⟨call, .op w next, locked⟩ :: jobs') :
    Moves g sections s []
      { s with shared := w s.shared, jobs := jobs ++ ⟨call, next s.shared, locked⟩ :: jobs' }
  | unlocked {jobs jobs' : List (Job σ κ ρ)} {call : κ} {r : ρ} {locked : Bool}
    (h : s.jobs = jobs ++ ⟨call, .ret r, locked⟩ :: jobs') :
    Moves g sections s [] { s with
      lock := (g.unlock (s.lock, locked)).1
      jobs := jobs ++ ⟨call, .ret r, (g.unlock (s.lock, locked)).2⟩ :: jobs' }
  | left {jobs jobs' : List (Job σ κ ρ)} {call : κ} {r : ρ} {locked : Bool}
    (h : s.jobs = jobs ++ ⟨call, .ret r, locked⟩ :: jobs') :
    Moves g sections s [] { s with
      lock := (g.unlock (s.lock, locked)).1
      jobs := jobs ++ jobs'
      returned := s.returned ++ [(call, r)] }

theorem moves_of_step {s t : State Λ σ κ ρ} {label : Label κ} (h : step g sections s label = some t) :
    Moves g sections s (taken g sections s label) t := by
  cases label with
  | enter call =>
    obtain rfl := Option.some.inj h
    obtain ⟨l, success, hl⟩ : ∃ l success, g.construct (sections call).mode s.lock = (l, success) := ⟨_, _, rfl⟩
    simp only [enter, taken, hl]
    cases success with
    | true => exact .entered hl
    | false => exact .refused hl
  | advance i =>
    simp only [step] at h
    split at h <;> cases h
    obtain ⟨jobs, jobs', hs, hset, -⟩ := split_at ‹_›
    rw [hset]
    exact .advanced hs
  | unlock i =>
    simp only [step] at h
    split at h <;> cases h
    obtain ⟨jobs, jobs', hs, hset, -⟩ := split_at ‹_›
    rw [hset]
    exact .unlocked hs
  | leave i =>
    simp only [step] at h
    split at h <;> cases h
    obtain ⟨jobs, jobs', hs, -, herase⟩ := split_at ‹_›
    rw [herase]
    exact .left hs

variable {init : σ} {order : List κ} {s t : State Λ σ κ ρ}

theorem Guard.Lawful.writer_alone (hg : g.Lawful held) {l : Λ} {n : Mode → Nat} (h : held l n) (hw : 0 < n .write) :
    n .write = 1 ∧ n .read = 0 := by
  let n' : Mode → Nat := fun m => if m = .write then n m - 1 else n m
  have hn : n = bump .write n' := by
    funext m
    cases m with
    | read => rfl
    | write => simp [bump, n']; omega
  have hz := hg.alone (hn ▸ h)
  have h1 := hz .write
  have h2 := hz .read
  simp [n'] at h1 h2
  omega

theorem Guard.Lawful.no_writer (hg : g.Lawful held) {l : Λ} {m : Mode} {n : Mode → Nat} (h : held l (bump m n)) :
    n .write = 0 := by
  by_contra hw
  cases m with
  | read =>
    have := hg.writer_alone h (Nat.pos_of_ne_zero hw)
    simp [bump] at this
  | write =>
    have := hg.writer_alone h (Nat.succ_pos _)
    simp [bump] at this
    omega

theorem after_concat (call : κ) :
    after sections init (order ++ [call]) = ((sections call).body.run (after sections init order)).1 :=
  after_append sections init order [call]

namespace Serialized

theorem start {l : Λ} (hl : held l fun _ => 0) :
    Serialized sections held init [] (Sections.start l init : State Λ σ κ ρ) where
  held := hl
  ended _ hj := absurd hj List.not_mem_nil
  reading _ hj := absurd hj List.not_mem_nil
  quiet _ := rfl
  writing _ hj := absurd hj List.not_mem_nil
  answers := .nil

theorem refused (hg : g.Lawful held) (h : Serialized sections held init order s) {call : κ} {l : Λ}
    (hl : g.construct (sections call).mode s.lock = (l, false)) :
    Serialized sections held init order { s with lock := l } :=
  { h with held := hg.refused h.held hl }

theorem entered (hg : g.Lawful held) (h : Serialized sections held init order s) {call : κ} {l : Λ}
    (hl : g.construct (sections call).mode s.lock = (l, true)) :
    Serialized sections held init (order ++ [call])
      { s with lock := l, jobs := s.jobs ++ [⟨call, (sections call).body, true⟩] } := by
  have hn : holders sections (s.jobs ++ [⟨call, (sections call).body, true⟩]) =
      bump (sections call).mode (holders sections s.jobs) := by
    rw [holders_locked, List.append_nil]
  have hheld := hg.taken h.held hl
  have hw := hg.no_writer hheld
  have hshared := h.quiet hw
  have hafter : after sections init (order ++ [call]) = ((sections call).body.run s.shared).1 := by
    rw [after_concat, hshared]
  refine ⟨?_, fun j hj => ?_, fun j hj => ?_, fun hq => ?_, fun j hj => ?_, ?_⟩
  · exact hn ▸ hheld
  · rcases List.mem_append.mp hj with hj | hj
    · exact h.ended j hj
    · cases List.mem_singleton.mp hj
      simp
  · rcases List.mem_append.mp hj with hj | hj
    · exact h.reading j hj
    · cases List.mem_singleton.mp hj
      exact (sections call).readOnly
  · -- nobody writes, so the call that entered reads
    have hm : (sections call).mode = .read := by
      cases hm : (sections call).mode with
      | read => rfl
      | write => simp [hn, hm, bump] at hq
    rw [hafter, ((sections call).readOnly hm).run_fst]
  · rcases List.mem_append.mp hj with hj | hj
    · exact fun hlocked hm => absurd hm (mode_of_holders hw hj hlocked)
    · cases List.mem_singleton.mp hj
      exact fun _ _ => hafter.symm
  · rw [answers_append, List.map_append, ← List.append_assoc, ← hshared]
    exact h.answers.append_right _

/-- What the others are going to return does not depend on the step of one that holds the lock. -/
theorem others (hg : g.Lawful held) (h : Serialized sections held init order s)
    {jobs jobs' : List (Job σ κ ρ)} {call : κ} {w : σ → σ} {next : σ → Body σ ρ}
    (hs : s.jobs = jobs ++ ⟨call, .op w next, true⟩ :: jobs') {j : Job σ κ ρ} (hj : j ∈ jobs ++ jobs') :
    promise (w s.shared) j = promise s.shared j ∧
      (j.locked = true → (sections j.call).mode = .write → w s.shared = s.shared) := by
  have hmem : jobs ++ jobs' ⊆ s.jobs := hs ▸ ((List.sublist_cons_self _ jobs').append_left jobs).subset
  have hown : (⟨call, .op w next, true⟩ : Job σ κ ρ) ∈ s.jobs := by simp [hs]
  have hheld := h.held
  rw [hs, holders_locked] at hheld
  cases hm : (sections call).mode with
  | read =>
    obtain ⟨rfl, -⟩ := (h.reading _ hown hm).next s.shared
    exact ⟨rfl, fun _ _ => rfl⟩
  | write =>
    rw [hm] at hheld
    have hl := unlocked_of_alone (hg.alone hheld) hj
    obtain ⟨r, hr⟩ := h.ended j (hmem hj) hl
    exact ⟨by simp [promise, hr, Body.run], fun hlocked => by simp [hl] at hlocked⟩

theorem advanced (hg : g.Lawful held) (h : Serialized sections held init order s)
    {jobs jobs' : List (Job σ κ ρ)} {call : κ} {w : σ → σ} {next : σ → Body σ ρ} {locked : Bool}
    (hs : s.jobs = jobs ++ ⟨call, .op w next, locked⟩ :: jobs') :
    Serialized sections held init order
      { s with shared := w s.shared, jobs := jobs ++ ⟨call, next s.shared, locked⟩ :: jobs' } := by
  have hown : (⟨call, .op w next, locked⟩ : Job σ κ ρ) ∈ s.jobs := by simp [hs]
  cases locked with
  | false =>
    obtain ⟨r, hr⟩ := h.ended _ hown rfl
    cases hr
  | true =>
    have hother := fun {j} (hj : j ∈ jobs ++ jobs') => h.others hg hs hj
    have hmem : jobs ++ jobs' ⊆ s.jobs := hs ▸ ((List.sublist_cons_self _ jobs').append_left jobs).subset
    have hcases : ∀ {j}, j ∈ jobs ++ ⟨call, next s.shared, true⟩ :: jobs' →
        j = ⟨call, next s.shared, true⟩ ∨ j ∈ jobs ++ jobs' := by
      intro j hj
      simpa [or_left_comm] using hj
    refine ⟨?_, fun j hj => ?_, fun j hj => ?_, fun hq => ?_, fun j hj => ?_, ?_⟩
    · have hheld := h.held
      rw [hs, holders_locked] at hheld
      rwa [holders_locked]
    · rcases hcases hj with rfl | hj
      · simp
      · exact h.ended j (hmem hj)
    · rcases hcases hj with rfl | hj
      · exact fun hm => ((h.reading _ hown hm).next s.shared).2
      · exact h.reading j (hmem hj)
    · have hr : (sections call).mode = .read := by
        cases hm : (sections call).mode with
        | read => rfl
        | write => simp [holders_locked, hm, bump] at hq
      obtain ⟨rfl, -⟩ := (h.reading _ hown hr).next s.shared
      refine h.quiet ?_
      rw [hs, holders_locked]
      rwa [holders_locked] at hq
    · rcases hcases hj with rfl | hj
      · exact fun hlocked hm => h.writing _ hown rfl hm
      · intro hlocked hm
        rw [(hother hj).2 hlocked hm]
        exact h.writing j (hmem hj) hlocked hm
    · have hmap : (jobs ++ ⟨call, next s.shared, true⟩ :: jobs').map (promise (w s.shared)) =
          s.jobs.map (promise s.shared) := by
        rw [hs, List.map_append, List.map_append, List.map_cons, List.map_cons,
          List.map_congr_left fun j hj => (hother (List.mem_append_left _ hj)).1,
          List.map_congr_left fun j hj => (hother (List.mem_append_right _ hj)).1]
        rfl
      exact hmap ▸ h.answers

theorem unlocked (hg : g.Lawful held) (h : Serialized sections held init order s)
    {jobs jobs' : List (Job σ κ ρ)} {call : κ} {r : ρ} {locked : Bool}
    (hs : s.jobs = jobs ++ ⟨call, .ret r, locked⟩ :: jobs') :
    Serialized sections held init order { s with
      lock := (g.unlock (s.lock, locked)).1
      jobs := jobs ++ ⟨call, .ret r, false⟩ :: jobs' } := by
  have hown : (⟨call, .ret r, locked⟩ : Job σ κ ρ) ∈ s.jobs := by simp [hs]
  cases locked with
  | false =>
    have h' := h
    rw [← hs, hg.again]
    exact h
  | true =>
    have hmem : ∀ {j}, j ∈ jobs ++ ⟨call, .ret r, false⟩ :: jobs' → j = ⟨call, .ret r, false⟩ ∨ j ∈ s.jobs := by
      intro j hj
      rw [hs]
      simp only [List.mem_append, List.mem_cons] at hj ⊢
      tauto
    have hheld := h.held
    rw [hs, holders_locked] at hheld
    refine ⟨?_, fun j hj => ?_, fun j hj => ?_, fun hq => ?_, fun j hj => ?_, ?_⟩
    · rw [holders_unlocked]
      exact hg.unlock hheld
    · rcases hmem hj with rfl | hj
      · exact fun _ => ⟨r, rfl⟩
      · exact h.ended j hj
    · rcases hmem hj with rfl | hj
      · exact fun _ => .ret r
      · exact h.reading j hj
    · cases hm : (sections call).mode with
      | write => exact h.writing _ hown rfl hm
      | read =>
        refine h.quiet ?_
        rw [holders_unlocked] at hq
        rw [hs, holders_locked, hm]
        exact hq
    · rcases hmem hj with rfl | hj
      · simp
      · exact h.writing j hj
    · have hmap : (jobs ++ ⟨call, .ret r, false⟩ :: jobs').map (promise s.shared) = s.jobs.map (promise s.shared) := by
        rw [hs, List.map_append, List.map_append]
        rfl
      exact hmap ▸ h.answers

theorem left (h : Serialized sections held init order s) {jobs jobs' : List (Job σ κ ρ)} {call : κ} {r : ρ}
    (hs : s.jobs = jobs ++ ⟨call, .ret r, false⟩ :: jobs') :
    Serialized sections held init order
      { s with jobs := jobs ++ jobs', returned := s.returned ++ [(call, r)] } := by
  have hmem : jobs ++ jobs' ⊆ s.jobs := hs ▸ ((List.sublist_cons_self _ jobs').append_left jobs).subset
  have hn : holders sections s.jobs = holders sections (jobs ++ jobs') := by rw [hs, holders_unlocked]
  refine ⟨hn ▸ h.held, fun j hj => h.ended j (hmem hj), fun j hj => h.reading j (hmem hj), fun hq => ?_,
    fun j hj => h.writing j (hmem hj), ?_⟩
  · exact h.quiet (hn ▸ hq)
  · have hp := h.answers
    rw [hs, List.map_append, List.map_cons] at hp
    rw [List.map_append, List.append_assoc]
    exact hp.trans (List.perm_middle.append_left _)

theorem moves (hg : g.Lawful held) (h : Serialized sections held init order s) {more : List κ}
    (hm : Moves g sections s more t) : Serialized sections held init (order ++ more) t := by
  cases hm with
  | refused hl => exact (List.append_nil order).symm ▸ h.refused hg hl
  | entered hl => exact h.entered hg hl
  | advanced hs => exact (List.append_nil order).symm ▸ h.advanced hg hs
  | @unlocked jobs jobs' call r locked hs =>
    have hb : (g.unlock (s.lock, locked)).2 = false := by
      cases locked with
      | false => rw [hg.again]
      | true => exact hg.unlocked _
    rw [hb, List.append_nil]
    exact h.unlocked hg hs
  | left hs => exact (List.append_nil order).symm ▸ (h.unlocked hg hs).left rfl

/-- In a run the order only grows, by the calls that take the lock. -/
theorem exec (hg : g.Lawful held) (h : Serialized sections held init order s) (labels : List (Label κ))
    (he : exec (step g sections) s labels = some t) :
    Serialized sections held init (order ++ acquired g sections s labels) t := by
  induction labels generalizing s order with
  | nil =>
    cases he
    exact (List.append_nil order).symm ▸ h
  | cons label labels ih =>
    obtain ⟨u, hu, ht⟩ := Option.bind_eq_some_iff.mp he
    have hrest := ih (h.moves hg (moves_of_step hu)) ht
    rw [List.append_assoc] at hrest
    rw [acquired, hu]
    exact hrest

end Serialized

/-- The order accounts for what was returned and for the memory, where nobody is writing to it. -/
structure Explains (sections : κ → Section σ ρ) (init : σ) (order : List κ) (s : State Λ σ κ ρ) : Prop where
  answers : (Sections.answers sections init order).Perm (s.returned ++ s.jobs.map (promise s.shared))
  shared : (∀ j ∈ s.jobs, j.locked = true → (sections j.call).mode = .read) → s.shared = after sections init order

def Exclusive (sections : κ → Section σ ρ) (s : State Λ σ κ ρ) : Prop :=
  s.jobs.Pairwise fun i j => i.locked = true → j.locked = true →
    (sections i.call).mode = .read ∧ (sections j.call).mode = .read

theorem Serialized.explains (h : Serialized sections held init order s) : Explains sections init order s where
  answers := h.answers
  shared hr := h.quiet <| List.countP_eq_zero.mpr fun j hj hw => by
    simp only [Bool.and_eq_true, decide_eq_true_eq] at hw
    rw [hr j hj hw.1] at hw
    cases hw.2

theorem Serialized.exclusive (hg : g.Lawful held) (h : Serialized sections held init order s) :
    Exclusive sections s := by
  refine List.pairwise_iff_forall_sublist.mpr fun {i j} hij hi hj => ?_
  -- the two are counted among the holders
  have hcount : ∀ m, (if (sections i.call).mode = m then 1 else 0) + (if (sections j.call).mode = m then 1 else 0) ≤
      holders sections s.jobs m := by
    intro m
    have hle : holders sections [i, j] m ≤ holders sections s.jobs m := hij.countP_le
    simpa [holders, List.countP_cons, hi, hj, Nat.add_comm] using hle
  have hr := hcount .read
  have hw := hcount .write
  have halone := hg.writer_alone h.held
  cases hmi : (sections i.call).mode <;> cases hmj : (sections j.call).mode <;>
    simp only [hmi, hmj, reduceCtorEq, if_true, if_false] at hr hw
  · exact ⟨rfl, rfl⟩
  all_goals
    have := halone (by omega)
    omega

/-- A call that entered after a state has its answer from those that took the lock after it. -/
theorem Explains.later {more : List κ} (hs : Explains sections init order s)
    (ht : Explains sections init (order ++ more) t) {e : κ × ρ} (he : e ∈ t.returned)
    (hr : e.1 ∉ s.returned.map Prod.fst) (hj : e.1 ∉ s.jobs.map Job.call) :
    e ∈ Sections.answers sections (after sections init order) more := by
  have hmem := ht.answers.mem_iff.mpr (List.mem_append_left _ he)
  rw [answers_append] at hmem
  refine (List.mem_append.mp hmem).resolve_left fun ho => ?_
  rcases List.mem_append.mp (hs.answers.mem_iff.mp ho) with h | h
  · exact hr (List.mem_map_of_mem h)
  · obtain ⟨j, hown, rfl⟩ := List.mem_map.mp h
    exact hj (List.mem_map_of_mem (f := Job.call) hown)

end Atomicity

end Windgent.Sections
