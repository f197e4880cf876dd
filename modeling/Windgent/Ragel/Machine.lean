import Windgent.Scanner
import Mathlib.Data.Set.Image
import Mathlib.Data.List.Basic

namespace Windgent.Ragel

open Scanner

/-- The transitions that a priority is embedded into: all of a machine, those out of its
start state, or those into its final states. -/
inductive Scope where
  | all | entering | finishing
deriving DecidableEq

/-- The expressions of a machine description over actions `A`, with the embeddings `>a`,
`@a` and `%a`. -/
inductive Exp (A : Type) where
  | eps
  | chars (p : UInt8 → Bool)
  | seq (e f : Exp A)
  | alt (e f : Exp A)
  | star (e : Exp A)
  | entering (a : A) (e : Exp A)
  | finishing (a : A) (e : Exp A)
  | leaving (a : A) (e : Exp A)
  | prior (scope : Scope) (name value : Nat) (e : Exp A)

section Combinators

variable {A : Type}

def Exp.opt (e : Exp A) : Exp A := .alt e .eps

def Exp.plus (e : Exp A) : Exp A := .seq e (.star e)

def Exp.upTo : Nat → Exp A → Exp A
  | 0, _ => .eps
  | n + 1, e => .opt (.seq e (.upTo n e))

def Exp.byte (c : UInt8) : Exp A := .chars (· = c)

def Exp.text : List UInt8 → Exp A
  | [] => .eps
  | [c] => .byte c
  | c :: cs => .seq (.byte c) (.text cs)

def Exp.cat : List (Exp A) → Exp A
  | [] => .eps
  | [e] => e
  | e :: es => .seq e (.cat es)

/-- `e :> f`, with a name of its own for the priorities. -/
def Exp.entryGuarded (name : Nat) (e f : Exp A) : Exp A :=
  .seq (.prior .all name 0 e) (.prior .entering name 1 f)

def Exp.finishGuarded (name : Nat) (e f : Exp A) : Exp A :=
  .seq (.prior .all name 0 e) (.prior .finishing name 1 f)

def Exp.simple : Exp A → Bool
  | .eps | .chars _ => true
  | .seq e f | .alt e f => e.simple && f.simple
  | .star e | .entering _ e | .finishing _ e | .leaving _ e => e.simple
  | .prior _ _ _ _ => false

/-- The embedded actions by the time of their embedding: entering actions before those
inside, the others behind. -/
def Exp.table : Exp A → List A
  | .eps | .chars _ => []
  | .seq e f | .alt e f => e.table ++ f.table
  | .star e | .prior _ _ _ e => e.table
  | .entering a e => a :: e.table
  | .finishing a e | .leaving a e => e.table ++ [a]

def Exp.stamp : Exp A → Nat → Exp Nat
  | .eps, _ => .eps
  | .chars p, _ => .chars p
  | .seq e f, k => .seq (e.stamp k) (f.stamp (k + e.table.length))
  | .alt e f, k => .alt (e.stamp k) (f.stamp (k + e.table.length))
  | .star e, k => .star (e.stamp k)
  | .entering _ e, k => .entering k (e.stamp (k + 1))
  | .finishing _ e, k => .finishing (k + e.table.length) (e.stamp k)
  | .leaving _ e, k => .leaving (k + e.table.length) (e.stamp k)
  | .prior s n v e, k => .prior s n v (e.stamp k)

theorem Exp.table_text (bs : List UInt8) : (Exp.text bs : Exp A).table = [] := by
  induction bs with
  | nil => rfl
  | cons c bs ih =>
    cases bs with
    | nil => rfl
    | cons d bs => exact ih

theorem Exp.stamp_text (bs : List UInt8) (k : Nat) : (Exp.text bs : Exp A).stamp k = .text bs := by
  induction bs generalizing k with
  | nil => rfl
  | cons c bs ih =>
    cases bs with
    | nil => rfl
    | cons d bs => exact congrArg (Exp.seq (.byte c)) (ih _)

end Combinators

/-- What is left of an expression behind a byte, with the embeddings and the priorities
of the transition. -/
structure Move where
  rest : Exp Nat
  fires : List Nat
  priors : List (Nat × Nat)

def Move.under (K : Exp Nat → Exp Nat) (m : Move) : Move := { m with rest := K m.rest }

def Move.fire (o : List Nat) (m : Move) : Move := { m with fires := o ++ m.fires }

def Move.weigh (name value : Nat) (m : Move) : Move := { m with priors := (name, value) :: m.priors }

/-- A transition that loses against another one on the same byte. -/
def Move.below (m m' : Move) : Bool :=
  m.priors.any fun x => m'.priors.any fun y => x.1 = y.1 && x.2 < y.2

/-- The leaving actions of a final state. Ragel embeds an entering action into a start state that is
final as well: the text is empty then, and the action is executed where it is left. -/
def out : Exp Nat → Option (List Nat)
  | .eps => some []
  | .chars _ => none
  | .seq e f => (out e).bind fun o => (out f).map (o ++ ·)
  | .alt e f =>
    match out e, out f with
    | some o, some o' => some (o ++ o')
    | some o, none => some o
    | none, o => o
  | .star e => some ((out e).getD [])
  | .entering a e => (out e).map (a :: ·)
  | .finishing _ e | .prior _ _ _ e => out e
  | .leaving a e => (out e).map (· ++ [a])

/-- The transitions on a byte. Leaving actions go to the transitions of what follows, an
entering action is gone behind the first byte. -/
def moves : Exp Nat → UInt8 → List Move
  | .eps, _ => []
  | .chars p, c => if p c then [⟨.eps, [], []⟩] else []
  | .seq e f, c =>
    (moves e c).map (.under (.seq · f)) ++ ((out e).elim [] fun o => (moves f c).map (.fire o))
  | .alt e f, c => moves e c ++ moves f c
  | .star e, c => (moves e c).map fun m => (m.under (.seq · (.star e))).fire ((out e).getD [])
  | .entering a e, c => (moves e c).map (.fire [a])
  | .finishing a e, c =>
    (moves e c).map fun m => (m.under (.finishing a)).fire (if (out m.rest).isSome then [a] else [])
  | .leaving a e, c => (moves e c).map (.under (.leaving a))
  | .prior .all n v e, c => (moves e c).map fun m => (m.under (.prior .all n v)).weigh n v
  | .prior .entering n v e, c => (moves e c).map (.weigh n v)
  | .prior .finishing n v e, c =>
    (moves e c).map fun m =>
      if (out m.rest).isSome then (m.under (.prior .finishing n v)).weigh n v
      else m.under (.prior .finishing n v)

section Moves

variable {p : UInt8 → Bool} {c : UInt8}

theorem moves_chars_eq_nil (h : p c = false) : moves (.chars p) c = [] := by
  simp [moves, h]

theorem moves_star_eq_nil {e : Exp Nat} (h : moves e c = []) : moves (.star e) c = [] := by
  simp [moves, h]

theorem out_upTo (n : Nat) (p : UInt8 → Bool) : out (.upTo n (.chars p)) = some [] := by
  cases n <;> rfl

theorem moves_upTo {n : Nat} (h : p c = false) : moves (.upTo n (.chars p)) c = [] := by
  cases n <;> simp [Exp.upTo, Exp.opt, moves, out, h]

end Moves

section Machine

variable {A P L K : Type} [DecidableEq A] {op : A → Op P L K}

/-- A state of the deterministic machine: the expressions that may follow. -/
abbrev Config := List (Exp Nat)

def candidates (S : Config) (c : UInt8) : List Move := S.flatMap (moves · c)

def kept (S : Config) (c : UInt8) : List Move :=
  (candidates S c).filter fun m => (candidates S c).all fun m' => !m.below m'

def isFinal (S : Config) : Bool := S.any fun e => (out e).isSome

/-- The actions with the given times, in order; an action is executed once. -/
def pick (table : List A) (fires : Nat → Bool) : List A :=
  ((table.zipIdx.filter fun x => fires x.2).map Prod.fst).eraseDups

def next (table : List A) (done : A) (S : Config) (c : UInt8) : Option (Config × List A) :=
  let ms := kept S c
  if ms.isEmpty then none
  else
    let S' := ms.map Move.rest
    some (S', pick table (fun i => ms.any fun m => m.fires.contains i) ++ if isFinal S' then [done] else [])

theorem mem_pick {table : List A} {fires : Nat → Bool} {a : A} (h : a ∈ pick table fires) : a ∈ table := by
  rw [pick, List.mem_eraseDups] at h
  obtain ⟨x, hx, rfl⟩ := List.mem_map.mp h
  exact (List.mem_zipIdx' (List.mem_of_mem_filter hx)).2 ▸ List.getElem_mem _

/-- The machine of `main := e @done`, for a `done` that is the only stop. -/
def machine (e : Exp A) (done : A) (hdone : (op done).isStop = true)
    (hstop : ∀ a ∈ e.table, (op a).isStop = false) : Machine Config A op where
  start := [e.stamp 0]
  next := next e.table done
  final := isFinal
  final_iff := by
    intro S c S' as h
    simp only [next] at h
    split at h
    · cases h
    · simp only [Option.some.injEq, Prod.mk.injEq] at h
      obtain ⟨rfl, rfl⟩ := h
      by_cases hf : isFinal ((kept S c).map Move.rest)
      · simp [hf, hdone]
      · simp only [hf, Bool.false_eq_true, if_false, List.append_nil, false_iff]
        rintro ⟨a, ha, hs⟩
        rw [hstop a (mem_pick ha)] at hs
        cases hs

end Machine

end Windgent.Ragel
