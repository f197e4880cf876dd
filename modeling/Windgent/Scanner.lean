import Mathlib.Data.List.Forall2
import Mathlib.Logic.Function.Basic
import Mathlib.Tactic.Common

namespace Windgent.Scanner

/-- An action of a scanner with position registers `P` and length registers `L`: set a
register to the position of the current byte, set a length from a register to there,
report the tokens that begin at some registers, leave the scanner behind the current
byte, or nothing. A reported token ends at the current byte or has a length register. -/
inductive Op (P L K : Type) where
  | mark (r : P)
  | span (l : L) (r : P)
  | emit (k : K) (args : List (P × Option L))
  | stop
  | skip

def Op.isStop {P L K : Type} : Op P L K → Bool
  | .stop => true
  | _ => false

/-- A table of transitions with actions. A missing transition is the error state, and
the final states are those that are entered with a stop. -/
structure Machine (σ A : Type) {P L K : Type} (op : A → Op P L K) where
  start : σ
  next : σ → UInt8 → Option (σ × List A)
  final : σ → Bool
  final_iff : ∀ s b s' as, next s b = some (s', as) → (final s' = true ↔ ∃ a ∈ as, (op a).isStop = true)

structure Regs (P L : Type) where
  pos : P → Nat
  len : L → Int

structure Token where
  ptr : List UInt8
  upto : Int
  len : Int
deriving DecidableEq

structure Event (K : Type) where
  kind : K
  args : List Token

def Token.Alike (t u : Token) : Prop :=
  t.len = u.len ∧ t.upto = u.upto ∧ t.ptr.take (t.upto + 1).toNat = u.ptr.take (t.upto + 1).toNat

def Event.Alike {K : Type} (e f : Event K) : Prop :=
  e.kind = f.kind ∧ List.Forall₂ Token.Alike e.args f.args

variable {σ A P L K : Type} [DecidableEq P] [DecidableEq L]

def Op.regs (p : Nat) (g : Regs P L) : Op P L K → Regs P L
  | .mark r => { g with pos := Function.update g.pos r p }
  | .span l r => { g with len := Function.update g.len l ((p : Int) - g.pos r) }
  | _ => g

def token (data : List UInt8) (p : Nat) (g : Regs P L) (x : P × Option L) : Token :=
  ⟨data.drop (g.pos x.1), (p : Int) - g.pos x.1, (x.2.map g.len).getD ((p : Int) - g.pos x.1)⟩

def Op.events (data : List UInt8) (p : Nat) (g : Regs P L) : Op P L K → List (Event K)
  | .emit k args => [⟨k, args.map (token data p g)⟩]
  | _ => []

/-- The actions of one transition, at position `p` of the buffer. -/
def runOps (data : List UInt8) (p : Nat) : List (Op P L K) → Regs P L → Regs P L × List (Event K)
  | [], g => (g, [])
  | o :: os, g =>
    if o.isStop then (g, [])
    else
      let t := runOps data p os (o.regs p g)
      (t.1, o.events data p g ++ t.2)

structure Scan (σ P L K : Type) where
  cs : Option σ
  halted : Bool
  regs : Regs P L
  events : List (Event K)
  pos : Nat

/-- Scan the bytes from position `p` of the buffer on. -/
def scan {op : A → Op P L K} (M : Machine σ A op) (data : List UInt8) :
    σ → Regs P L → Nat → List UInt8 → Scan σ P L K
  | cs, g, p, [] => ⟨some cs, false, g, [], p⟩
  | cs, g, p, b :: bs =>
    match M.next cs b with
    | none => ⟨none, true, g, [], p⟩
    | some (cs', as) =>
      let t := runOps data p (as.map op) g
      if (as.map op).any Op.isStop then ⟨some cs', true, t.1, t.2, p + 1⟩
      else
        let o := scan M data cs' t.1 (p + 1) bs
        { o with events := t.2 ++ o.events }

/-- Since when the registers hold: a length register holds since the register that it is
measured from does. -/
structure Births (P L : Type) where
  pos : P → Nat
  len : L → Nat

def Births.Before (c : Nat) (β : Births P L) : Prop := (∀ r, β.pos r < c) ∧ ∀ l, β.len l < c

omit [DecidableEq P] [DecidableEq L] in
theorem Births.Before.mono {N N' : Nat} {β : Births P L} (h : β.Before N) (hle : N ≤ N') : β.Before N' :=
  ⟨fun r => Nat.lt_of_lt_of_le (h.1 r) hle, fun l => Nat.lt_of_lt_of_le (h.2 l) hle⟩

def Op.births (p : Nat) (β : Births P L) : Op P L K → Births P L
  | .mark r => { β with pos := Function.update β.pos r p }
  | .span l r => { β with len := Function.update β.len l (β.pos r) }
  | _ => β

def Op.needs (p : Nat) (β : Births P L) : Op P L K → List (Nat × Nat)
  | .emit _ args => args.flatMap fun x => (β.pos x.1, p) :: (x.2.map fun l => (β.len l, p)).toList
  | _ => []

def needOps (p : Nat) : List (Op P L K) → Births P L → Births P L × List (Nat × Nat)
  | [], β => (β, [])
  | o :: os, β =>
    if o.isStop then (β, [])
    else
      let t := needOps p os (o.births p β)
      (t.1, o.needs p β ++ t.2)

/-- The stretches of a text that its tokens need in one buffer: from the byte that a
register was set at to the byte at which it is used. -/
def needs {op : A → Op P L K} (M : Machine σ A op) :
    σ → Births P L → Nat → List UInt8 → Births P L × List (Nat × Nat)
  | _, β, _, [] => (β, [])
  | cs, β, p, b :: bs =>
    match M.next cs b with
    | none => (β, [])
    | some (cs', as) =>
      let t := needOps p (as.map op) β
      if (as.map op).any Op.isStop then t
      else
        let o := needs M cs' t.1 (p + 1) bs
        (o.1, t.2 ++ o.2)

/-- The registers of a scan in a buffer that begins at position `c` of another one: what
is set since `c` is the same up to the shift. -/
structure Agree (c : Nat) (β : Births P L) (g h : Regs P L) : Prop where
  pos : ∀ r, c ≤ β.pos r → g.pos r = c + h.pos r
  len : ∀ l, c ≤ β.len l → g.len l = h.len l

section Shift

variable {op : A → Op P L K} {M : Machine σ A op} {text data : List UInt8} {c n : Nat}

omit [DecidableEq P] [DecidableEq L] in
theorem agree_zero (β : Births P L) (g : Regs P L) : Agree 0 β g g :=
  ⟨fun _ _ => (Nat.zero_add _).symm, fun _ _ => rfl⟩

omit [DecidableEq P] [DecidableEq L] in
theorem agree_of_before {β : Births P L} (hβ : β.Before c) (g h : Regs P L) : Agree c β g h :=
  ⟨fun r hr => absurd (hβ.1 r) (Nat.not_lt.mpr hr), fun l hl => absurd (hβ.2 l) (Nat.not_lt.mpr hl)⟩

theorem Agree.step {β : Births P L} {g h : Regs P L} (ha : Agree c β g h) (q : Nat) (o : Op P L K) :
    Agree c (o.births (c + q) β) (o.regs (c + q) g) (o.regs q h) := by
  cases o with
  | mark r =>
    refine ⟨fun r' hr' => ?_, ha.len⟩
    by_cases heq : r' = r
    · subst heq
      simp [Op.regs]
    · simp only [Op.births, Op.regs, Function.update_of_ne heq] at hr' ⊢
      exact ha.pos r' hr'
  | span l r =>
    refine ⟨ha.pos, fun l' hl' => ?_⟩
    by_cases heq : l' = l
    · subst heq
      simp only [Op.births, Op.regs, Function.update_self] at hl' ⊢
      rw [ha.pos r hl']
      push_cast
      omega
    · simp only [Op.births, Op.regs, Function.update_of_ne heq] at hl' ⊢
      exact ha.len l' hl'
  | emit k args => exact ha
  | stop => exact ha
  | skip => exact ha

omit [DecidableEq P] [DecidableEq L] in
theorem token_alike {β : Births P L} {g h : Regs P L} (ha : Agree c β g h)
    (hd : data.take n = (text.drop c).take n) {q : Nat} (hq : q < n) {x : P × Option L}
    (hp : c ≤ β.pos x.1) (hl : ∀ l ∈ x.2, c ≤ β.len l) :
    (token text (c + q) g x).Alike (token data q h x) := by
  have hpos := ha.pos x.1 hp
  have hupto : ((c + q : Nat) : Int) - g.pos x.1 = (q : Int) - h.pos x.1 := by
    rw [hpos]
    push_cast
    omega
  have htake : ((q : Int) - h.pos x.1 + 1).toNat = q + 1 - h.pos x.1 := by omega
  refine ⟨?_, hupto, ?_⟩
  · obtain ⟨r, l⟩ := x
    cases l with
    | none => exact hupto
    | some l => exact ha.len l (hl l rfl)
  · have hshort : (text.drop c).take (q + 1) = data.take (q + 1) := by
      have := congrArg (List.take (q + 1)) hd
      rw [List.take_take, List.take_take, Nat.min_eq_left hq] at this
      exact this.symm
    simp only [token, hupto, htake]
    rw [hpos, ← List.drop_drop, ← List.drop_take, ← List.drop_take, hshort]

omit [DecidableEq P] [DecidableEq L] in
theorem events_alike {β : Births P L} {g h : Regs P L} (ha : Agree c β g h)
    (hd : data.take n = (text.drop c).take n) {q : Nat} (hq : q < n) (o : Op P L K)
    (hneeds : ∀ x ∈ o.needs (c + q) β, c ≤ x.1) :
    List.Forall₂ Event.Alike (o.events text (c + q) g) (o.events data q h) := by
  cases o with
  | emit k args =>
    refine .cons ⟨rfl, ?_⟩ .nil
    rw [List.forall₂_map_left_iff, List.forall₂_map_right_iff, List.forall₂_same]
    intro x hx
    have hsub : ∀ y ∈ (β.pos x.1, c + q) :: (x.2.map fun l => (β.len l, c + q)).toList, c ≤ y.1 :=
      fun y hy => hneeds y (List.mem_flatMap.mpr ⟨x, hx, hy⟩)
    refine token_alike ha hd hq (hsub _ (List.mem_cons_self ..)) (fun l hl => ?_)
    refine hsub (β.len l, c + q) (List.mem_cons_of_mem _ ?_)
    rw [Option.mem_def.mp hl]
    exact List.mem_singleton_self _
  | mark r => exact .nil
  | span l r => exact .nil
  | stop => exact .nil
  | skip => exact .nil

theorem runOps_alike (hd : data.take n = (text.drop c).take n) {q : Nat} (hq : q < n)
    (os : List (Op P L K)) {β : Births P L} {g h : Regs P L} (ha : Agree c β g h)
    (hneeds : ∀ x ∈ (needOps (c + q) os β).2, c ≤ x.1) :
    Agree c (needOps (c + q) os β).1 (runOps text (c + q) os g).1 (runOps data q os h).1 ∧
      List.Forall₂ Event.Alike (runOps text (c + q) os g).2 (runOps data q os h).2 := by
  induction os generalizing β g h with
  | nil => exact ⟨ha, .nil⟩
  | cons o os ih =>
    cases hstop : o.isStop with
    | true =>
      simp only [needOps, runOps, hstop, if_true]
      exact ⟨ha, .nil⟩
    | false =>
      simp only [needOps, runOps, hstop, Bool.false_eq_true, if_false] at hneeds ⊢
      obtain ⟨hregs, hevents⟩ := ih (ha.step q o) (fun x hx => hneeds x (List.mem_append_right _ hx))
      have hhead := events_alike ha hd hq o (fun x hx => hneeds x (List.mem_append_left _ hx))
      exact ⟨hregs, List.rel_append hhead hevents⟩

structure Scan.Alike (c : Nat) (β : Births P L) (o o' : Scan σ P L K) : Prop where
  cs : o.cs = o'.cs
  halted : o.halted = o'.halted
  pos : o.pos = c + o'.pos
  regs : Agree c β o.regs o'.regs
  events : List.Forall₂ Event.Alike o.events o'.events

/-- The scan of a part of a text in a buffer of its own, by induction on the part. -/
theorem scan_alike (hd : data.take n = (text.drop c).take n) (bs : List UInt8) (cs : σ) (q : Nat)
    (hq : q + bs.length ≤ n) {β : Births P L} {g h : Regs P L} (ha : Agree c β g h)
    (hneeds : ∀ x ∈ (needs M cs β (c + q) bs).2, c ≤ x.1) :
    (scan M text cs g (c + q) bs).Alike c (needs M cs β (c + q) bs).1 (scan M data cs h q bs) := by
  induction bs generalizing cs q β g h with
  | nil => exact ⟨rfl, rfl, rfl, ha, .nil⟩
  | cons b bs ih =>
    have hlen : q < n := by
      rw [List.length_cons] at hq
      omega
    cases hnext : M.next cs b with
    | none =>
      simp only [scan, needs, hnext]
      exact ⟨rfl, rfl, rfl, ha, .nil⟩
    | some x =>
      obtain ⟨cs', as⟩ := x
      cases hstop : (as.map op).any Op.isStop with
      | true =>
        simp only [scan, needs, hnext, hstop, if_true] at hneeds ⊢
        obtain ⟨hregs, hevents⟩ := runOps_alike hd hlen (as.map op) ha hneeds
        exact ⟨rfl, rfl, Nat.add_assoc c q 1, hregs, hevents⟩
      | false =>
        simp only [scan, needs, hnext, hstop, Bool.false_eq_true, if_false] at hneeds ⊢
        obtain ⟨hregs, hevents⟩ :=
          runOps_alike hd hlen (as.map op) ha (fun x hx => hneeds x (List.mem_append_left _ hx))
        have hrest := ih cs' (q + 1) (by rw [List.length_cons] at hq; omega) hregs
          (fun x hx => hneeds x (List.mem_append_right _ hx))
        exact ⟨hrest.cs, hrest.halted, hrest.pos, hrest.regs, List.rel_append hevents hrest.events⟩

end Shift

section Append

variable {op : A → Op P L K} {M : Machine σ A op}

theorem scan_pos (data : List UInt8) (bs : List UInt8) (cs : σ) (g : Regs P L) (p : Nat) :
    p ≤ (scan M data cs g p bs).pos ∧ (scan M data cs g p bs).pos ≤ p + bs.length := by
  induction bs generalizing cs g p with
  | nil => simp [scan]
  | cons b bs ih =>
    cases hnext : M.next cs b with
    | none => simp [scan, hnext]
    | some x =>
      obtain ⟨cs', as⟩ := x
      cases hstop : (as.map op).any Op.isStop with
      | true =>
        simp only [scan, hnext, hstop, if_true, List.length_cons]
        omega
      | false =>
        simp only [scan, hnext, hstop, Bool.false_eq_true, if_false, List.length_cons]
        have := ih cs' (runOps data p (as.map op) g).1 (p + 1)
        omega

theorem scan_running (data : List UInt8) (bs : List UInt8) (cs : σ) (g : Regs P L) (p : Nat)
    (hrun : (scan M data cs g p bs).halted = false) :
    (scan M data cs g p bs).pos = p + bs.length ∧
      ∃ cs', (scan M data cs g p bs).cs = some cs' ∧ (bs ≠ [] → M.final cs' = false) := by
  induction bs generalizing cs g p with
  | nil => exact ⟨rfl, cs, rfl, fun h => absurd rfl h⟩
  | cons b bs ih =>
    cases hnext : M.next cs b with
    | none => simp [scan, hnext] at hrun
    | some x =>
      obtain ⟨cs', as⟩ := x
      cases hstop : (as.map op).any Op.isStop with
      | true => simp [scan, hnext, hstop] at hrun
      | false =>
        simp only [scan, hnext, hstop, Bool.false_eq_true, if_false] at hrun ⊢
        obtain ⟨hpos, cs'', hcs, hfinal⟩ := ih cs' _ (p + 1) hrun
        refine ⟨?_, cs'', hcs, fun _ => ?_⟩
        · rw [hpos, List.length_cons]
          omega
        · cases bs with
          | nil =>
            obtain rfl : cs' = cs'' := by simpa [scan] using hcs
            rw [← Bool.not_eq_true, M.final_iff cs b cs' as hnext]
            simpa [List.any_eq_false] using hstop
          | cons b' bs => exact hfinal (List.cons_ne_nil _ _)

theorem scan_halted (data : List UInt8) (bs : List UInt8) (cs : σ) (g : Regs P L) (p : Nat)
    (hhalt : (scan M data cs g p bs).halted = true) {cs' : σ} (hcs : (scan M data cs g p bs).cs = some cs') :
    M.final cs' = true ∧ p < (scan M data cs g p bs).pos := by
  induction bs generalizing cs g p with
  | nil => simp [scan] at hhalt
  | cons b bs ih =>
    cases hnext : M.next cs b with
    | none => simp [scan, hnext] at hcs
    | some x =>
      obtain ⟨cs'', as⟩ := x
      cases hstop : (as.map op).any Op.isStop with
      | true =>
        simp only [scan, hnext, hstop, if_true, Option.some.injEq] at hcs ⊢
        subst hcs
        refine ⟨?_, Nat.lt_succ_self p⟩
        rw [M.final_iff cs b _ as hnext]
        simpa using hstop
      | false =>
        simp only [scan, hnext, hstop, Bool.false_eq_true, if_false] at hhalt hcs ⊢
        obtain ⟨hfinal, hpos⟩ := ih _ _ _ hhalt hcs
        exact ⟨hfinal, Nat.lt_of_succ_lt hpos⟩

theorem scan_append_halted (data : List UInt8) (xs ys : List UInt8) (cs : σ) (g : Regs P L) (p : Nat)
    (hhalt : (scan M data cs g p xs).halted = true) :
    scan M data cs g p (xs ++ ys) = scan M data cs g p xs := by
  induction xs generalizing cs g p with
  | nil => simp [scan] at hhalt
  | cons b xs ih =>
    cases hnext : M.next cs b with
    | none => simp [scan, hnext]
    | some x =>
      obtain ⟨cs', as⟩ := x
      cases hstop : (as.map op).any Op.isStop with
      | true => simp [scan, hnext, hstop]
      | false =>
        simp only [scan, hnext, hstop, Bool.false_eq_true, if_false, List.cons_append] at hhalt ⊢
        rw [ih _ _ _ hhalt]

theorem scan_append_running (data : List UInt8) (xs ys : List UInt8) (cs : σ) (g : Regs P L) (p : Nat)
    (hrun : (scan M data cs g p xs).halted = false) {cs' : σ} (hcs : (scan M data cs g p xs).cs = some cs') :
    scan M data cs g p (xs ++ ys) =
      let o := scan M data cs' (scan M data cs g p xs).regs (p + xs.length) ys
      { o with events := (scan M data cs g p xs).events ++ o.events } := by
  induction xs generalizing cs g p with
  | nil =>
    obtain rfl : cs = cs' := by simpa [scan] using hcs
    simp [scan]
  | cons b xs ih =>
    cases hnext : M.next cs b with
    | none => simp [scan, hnext] at hrun
    | some x =>
      obtain ⟨cs'', as⟩ := x
      cases hstop : (as.map op).any Op.isStop with
      | true => simp [scan, hnext, hstop] at hrun
      | false =>
        simp only [scan, hnext, hstop, Bool.false_eq_true, if_false, List.cons_append,
          List.length_cons] at hrun hcs ⊢
        rw [ih _ _ _ hrun hcs]
        simp only [List.append_assoc, Nat.add_comm, Nat.add_left_comm]

/-- A scan that ends inside the first part of the bytes. -/
theorem scan_prefix (data : List UInt8) (xs ys : List UInt8) (cs : σ) (g : Regs P L) (p : Nat)
    (hhalt : (scan M data cs g p (xs ++ ys)).halted = true) {cs' : σ}
    (hcs : (scan M data cs g p (xs ++ ys)).cs = some cs')
    (hpos : (scan M data cs g p (xs ++ ys)).pos ≤ p + xs.length) :
    scan M data cs g p xs = scan M data cs g p (xs ++ ys) := by
  cases hrun : (scan M data cs g p xs).halted with
  | true => exact (scan_append_halted data xs ys cs g p hrun).symm
  | false =>
    obtain ⟨-, cs₁, hcs₁, -⟩ := scan_running data xs cs g p hrun
    rw [scan_append_running data xs ys cs g p hrun hcs₁] at hhalt hcs hpos
    have := (scan_halted data ys cs₁ _ _ hhalt hcs).2
    exact absurd hpos (Nat.not_le.mpr this)

theorem needs_append (data : List UInt8) (xs ys : List UInt8) (cs : σ) (g : Regs P L) (β : Births P L) (p : Nat) :
    (∀ x ∈ (needs M cs β p xs).2, x ∈ (needs M cs β p (xs ++ ys)).2) ∧
      ∀ cs', (scan M data cs g p xs).halted = false → (scan M data cs g p xs).cs = some cs' →
        ∀ x ∈ (needs M cs' (needs M cs β p xs).1 (p + xs.length) ys).2, x ∈ (needs M cs β p (xs ++ ys)).2 := by
  induction xs generalizing cs g β p with
  | nil =>
    refine ⟨by simp [needs], fun cs' _ hcs x hx => ?_⟩
    obtain rfl : cs = cs' := by simpa [scan] using hcs
    exact hx
  | cons b xs ih =>
    cases hnext : M.next cs b with
    | none => simp [scan, needs, hnext]
    | some x =>
      obtain ⟨cs'', as⟩ := x
      cases hstop : (as.map op).any Op.isStop with
      | true => simp [scan, needs, hnext, hstop]
      | false =>
        simp only [scan, needs, hnext, hstop, Bool.false_eq_true, if_false, List.cons_append,
          List.length_cons]
        obtain ⟨hfirst, hrest⟩ := ih cs'' (runOps data p (as.map op) g).1 (needOps p (as.map op) β).1 (p + 1)
        refine ⟨fun x hx => ?_, fun cs' hrun hcs x hx => ?_⟩
        · obtain hx | hx := List.mem_append.mp hx
          · exact List.mem_append_left _ hx
          · exact List.mem_append_right _ (hfirst x hx)
        · rw [show p + (xs.length + 1) = p + 1 + xs.length by omega] at hx
          exact List.mem_append_right _ (hrest cs' hrun hcs x hx)

omit [DecidableEq P] [DecidableEq L] in
theorem Op.needs_at {p : Nat} {β : Births P L} {o : Op P L K} {x : Nat × Nat} (h : x ∈ o.needs p β) :
    x.2 = p := by
  cases o with
  | emit k args =>
    obtain ⟨y, -, hx⟩ := List.mem_flatMap.mp h
    obtain rfl | hx := List.mem_cons.mp hx
    · rfl
    · cases hy : y.2 with
      | none => simp [hy] at hx
      | some l =>
        obtain rfl : x = (β.len l, p) := by simpa [hy] using hx
        rfl
  | mark r => simp [Op.needs] at h
  | span l r => simp [Op.needs] at h
  | stop => simp [Op.needs] at h
  | skip => simp [Op.needs] at h

theorem needOps_at {p : Nat} (os : List (Op P L K)) {β : Births P L} {x : Nat × Nat}
    (h : x ∈ (needOps p os β).2) : x.2 = p := by
  induction os generalizing β with
  | nil => simp [needOps] at h
  | cons o os ih =>
    cases hstop : o.isStop with
    | true => simp [needOps, hstop] at h
    | false =>
      simp only [needOps, hstop, Bool.false_eq_true, if_false] at h
      obtain h | h := List.mem_append.mp h
      · exact Op.needs_at h
      · exact ih h

theorem needs_ge (bs : List UInt8) (cs : σ) (β : Births P L) (p : Nat) {x : Nat × Nat}
    (h : x ∈ (needs M cs β p bs).2) : p ≤ x.2 := by
  induction bs generalizing cs β p with
  | nil => simp [needs] at h
  | cons b bs ih =>
    cases hnext : M.next cs b with
    | none => simp [needs, hnext] at h
    | some y =>
      obtain ⟨cs', as⟩ := y
      cases hstop : (as.map op).any Op.isStop with
      | true =>
        simp only [needs, hnext, hstop, if_true] at h
        exact Nat.le_of_eq (needOps_at _ h).symm
      | false =>
        simp only [needs, hnext, hstop, Bool.false_eq_true, if_false] at h
        obtain h | h := List.mem_append.mp h
        · exact Nat.le_of_eq (needOps_at _ h).symm
        · exact Nat.le_of_succ_le (ih _ _ _ h)

theorem Births.Before.needOps {N p : Nat} (hp : p < N) (os : List (Op P L K)) {β : Births P L}
    (hβ : β.Before N) : (needOps p os β).1.Before N := by
  induction os generalizing β with
  | nil => exact hβ
  | cons o os ih =>
    cases hstop : o.isStop with
    | true => simpa [Scanner.needOps, hstop] using hβ
    | false =>
      simp only [Scanner.needOps, hstop, Bool.false_eq_true, if_false]
      apply ih
      cases o with
      | mark r =>
        refine ⟨fun r' => ?_, hβ.2⟩
        by_cases heq : r' = r
        · simpa [Op.births, heq] using hp
        · simpa [Op.births, heq] using hβ.1 r'
      | span l r =>
        refine ⟨hβ.1, fun l' => ?_⟩
        by_cases heq : l' = l
        · simpa [Op.births, heq] using hβ.1 r
        · simpa [Op.births, heq] using hβ.2 l'
      | emit k args => exact hβ
      | stop => exact hβ
      | skip => exact hβ

theorem Births.Before.needs {N : Nat} (bs : List UInt8) (cs : σ) (p : Nat) (hp : p + bs.length ≤ N)
    {β : Births P L} (hβ : β.Before N) : (needs M cs β p bs).1.Before N := by
  induction bs generalizing cs p β with
  | nil => exact hβ
  | cons b bs ih =>
    rw [List.length_cons] at hp
    cases hnext : M.next cs b with
    | none => simpa [Scanner.needs, hnext] using hβ
    | some x =>
      obtain ⟨cs', as⟩ := x
      have hops := hβ.needOps (p := p) (by omega) (as.map op)
      cases hstop : (as.map op).any Op.isStop with
      | true =>
        simp only [Scanner.needs, hnext, hstop, if_true]
        exact hops
      | false =>
        simp only [Scanner.needs, hnext, hstop, Bool.false_eq_true, if_false]
        exact ih _ _ (by omega) hops

end Append

end Windgent.Scanner
