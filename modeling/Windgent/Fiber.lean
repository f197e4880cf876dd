import Windgent.Scheduler.Basic
import Windgent.Transition
import Mathlib.Algebra.Group.Nat.Defs
import Mathlib.Data.Finset.Card
import Mathlib.Logic.Function.Basic

namespace Windgent.Fiber

open Transition Scheduler

structure Object where
  id : UInt64
  stacksize : UInt32
  state : FiberState
  stack : Option Nat
  cb : Bool
  sub : Bool
deriving DecidableEq

/-- The counters, the objects that are alive and the blocks of the allocator that have not been
freed. The ids of the sub-fibers created so far are a history variable. -/
structure State where
  fiberId : UInt64
  fiberCount : UInt64
  live : Finset Nat
  object : Nat → Object
  outstanding : Finset Nat
  created : List UInt64

def State.init : State := ⟨0, 0, ∅, fun _ => ⟨0, 0, .init, none, false, false⟩, ∅, []⟩

def free (outstanding : Finset Nat) : Option Nat → Finset Nat
  | none => outstanding
  | some ptr => outstanding.erase ptr

def dealloc (outstanding : Finset Nat) (ptr : Option Nat) : Finset Nat :=
  if ptr = none then free outstanding ptr else outstanding

def Object.Resting (o : Object) : Prop := o.state = .term ∨ o.state = .except ∨ o.state = .init

instance (o : Object) : Decidable o.Resting := inferInstanceAs (Decidable (_ ∨ _))

def Object.Destructible (o : Object) : Prop := if o.stack ≠ none then o.Resting else o.cb = false ∧ o.state = .exec

instance (o : Object) : Decidable o.Destructible := inferInstanceAs (Decidable (ite ..))

inductive Op where
  -- `Fiber()`
  | main (h : Nat)
  -- `Fiber(cb, stacksize)`, with the block that `malloc` finds
  | create (h ptr : Nat) (cb : Bool) (stacksize : UInt64)
  | destroy (h : Nat)
  | reset (h : Nat) (cb : Bool)
  -- `swapIn` or `call`
  | resume (h : Nat)
  -- the callback returns
  | returns (h : Nat)
  -- or throws
  | throws (h : Nat)
  | yieldToReady (h : Nat)
  | yieldToHold (h : Nat)
  -- the assignment of the scheduler behind `swapIn`
  | hold (h : Nat)
deriving DecidableEq

section Steps

variable (config : UInt32) (s : State)

def State.add (h : Nat) (o : Object) : State :=
  { s with fiberCount := s.fiberCount + 1, live := insert h s.live, object := Function.update s.object h o }

def main (h : Nat) : Option State :=
  if h ∈ s.live then none
  else some (s.add h ⟨0, 0, .exec, none, false, false⟩)

def create (h ptr : Nat) (cb : Bool) (stacksize : UInt64) : Option State :=
  if h ∈ s.live ∨ ptr ∈ s.outstanding then none
  else
    let id := s.fiberId + 1
    let size := if stacksize = 0 then config else stacksize.toUInt32
    some { s.add h ⟨id, size, .init, some ptr, cb, true⟩ with
      fiberId := id
      outstanding := insert ptr s.outstanding
      created := s.created ++ [id] }

/-- The destructor; a failed assertion ends the program. -/
def destroy (h : Nat) : Option State :=
  let o := s.object h
  if h ∈ s.live ∧ o.Destructible then
    some { s with
      fiberCount := s.fiberCount - 1
      live := s.live.erase h
      outstanding := if o.stack ≠ none then dealloc s.outstanding o.stack else s.outstanding }
  else none

def State.put (h : Nat) (o : Object) : State := { s with object := Function.update s.object h o }

/-- A live object is changed if it is in one of the states that its code asks for. -/
def change (h : Nat) (ok : Object → Prop) [DecidablePred ok] (f : Object → Object) : Option State :=
  if h ∈ s.live ∧ ok (s.object h) then some (s.put h (f (s.object h))) else none

def reset (h : Nat) (cb : Bool) : Option State :=
  change s h (fun o => o.stack ≠ none ∧ o.Resting) fun o => { o with cb := cb, state := .init }

/-- A fiber that has ended continues behind the last statement of `MainFunc`, an assertion that
never holds. -/
def resume (h : Nat) : Option State :=
  change s h (fun o => o.state = .init ∨ o.state = .hold ∨ o.state = .ready) fun o => { o with state := .exec }

def returns (h : Nat) : Option State :=
  change s h (fun o => o.stack ≠ none ∧ o.state = .exec ∧ o.cb = true) fun o => { o with cb := false, state := .term }

def throws (h : Nat) : Option State :=
  change s h (fun o => o.stack ≠ none ∧ o.state = .exec) fun o => { o with state := .except }

def yieldTo (v : FiberState) (h : Nat) : Option State :=
  change s h (fun o => o.state = .exec) fun o => { o with state := v }

def hold (h : Nat) : Option State :=
  change s h (fun o => o.state ≠ .ready ∧ o.state ≠ .term ∧ o.state ≠ .except) fun o => { o with state := .hold }

def step (s : State) : Op → Option State
  | .main h => main s h
  | .create h ptr cb stacksize => create config s h ptr cb stacksize
  | .destroy h => destroy s h
  | .reset h cb => reset s h cb
  | .resume h => resume s h
  | .returns h => returns s h
  | .throws h => throws s h
  | .yieldToReady h => yieldTo s .ready h
  | .yieldToHold h => yieldTo s .hold h
  | .hold h => hold s h

def totalFibers (s : State) : UInt64 := s.fiberCount

end Steps

inductive Outcome where
  | returned
  | threw
  | ready
  | hold
deriving DecidableEq

/-- What `Scheduler::run` does with a callback and its `cb_fiber`. The object `h` and the block
`ptr` are for the fiber that it makes if there is none. -/
def runCallback (cb_fiber : Option Nat) (h ptr : Nat) (o : Outcome) : List Op × Option Nat :=
  let f := cb_fiber.getD h
  let enter := if cb_fiber.isSome then [Op.reset f true] else [.create f ptr true 0]
  match o with
  | .returned => (enter ++ [.resume f, .returns f, .reset f false], some f)
  | .threw => (enter ++ [.resume f, .throws f, .reset f false], some f)
  | .ready => (enter ++ [.resume f, .yieldToReady f], none)
  | .hold => (enter ++ [.resume f, .yieldToHold f, .hold f], none)

def runCallbacks : Option Nat → List (Nat × Nat × Outcome) → List Op
  | _, [] => []
  | cb_fiber, (h, ptr, o) :: cs =>
    let r := runCallback cb_fiber h ptr o
    r.1 ++ runCallbacks r.2 cs

def IsStack (s : State) (b : Nat) : Prop := ∃ h ∈ s.live, (s.object h).sub = true ∧ (s.object h).stack = some b

structure Balanced (s : State) : Prop where
  total : (totalFibers s).toNat = s.live.card
  ids : s.created.Nodup
  owns : ∀ h ∈ s.live, (s.object h).sub = true → ∃ b ∈ s.outstanding, (s.object h).stack = some b ∧
    ∀ k ∈ s.live, (s.object k).stack = some b → k = h
  exact : ∀ b, b ∈ s.outstanding ↔ IsStack s b

/-- The steps that keep the balance: no sub-fiber is destroyed, and no counter overflows. -/
def Fine (s : State) : Op → Prop
  | .main _ => s.live.card + 1 < 2 ^ 64
  | .create _ _ _ _ => s.created.length < 2 ^ 64 ∧ s.live.card + 1 < 2 ^ 64
  | .destroy h => (s.object h).sub = false
  | _ => True

/-- What holds of the counters and the stacks in any case. -/
structure Inv (s : State) : Prop where
  count : s.fiberCount = UInt64.ofNat s.live.card
  created : s.created = (List.range s.created.length).map fun i => UInt64.ofNat (i + 1)
  fiberId : s.fiberId = UInt64.ofNat s.created.length
  sub : ∀ h ∈ s.live, (s.object h).sub = (s.object h).stack.isSome
  held : ∀ h ∈ s.live, ∀ b, (s.object h).stack = some b → b ∈ s.outstanding
  unique : ∀ h ∈ s.live, ∀ k ∈ s.live, ∀ b, (s.object h).stack = some b → (s.object k).stack = some b → k = h

section Counters

theorem toNat_ofNat_eq_iff (n : Nat) : (UInt64.ofNat n).toNat = n ↔ n < 2 ^ 64 := by
  rw [UInt64.toNat_ofNat']
  omega

theorem nodup_ids (n : Nat) : ((List.range n).map fun i => UInt64.ofNat (i + 1)).Nodup ↔ n ≤ 2 ^ 64 := by
  constructor
  · intro h
    by_contra hn
    have hinj := (List.nodup_map_iff_inj_on List.nodup_range).mp h
    have heq : (0 : Nat) = 2 ^ 64 :=
      hinj 0 (List.mem_range.mpr (by omega)) _ (List.mem_range.mpr (by omega)) (by decide)
    omega
  · intro hn
    refine List.Nodup.map_on (fun i hi j hj hij => ?_) List.nodup_range
    have hmod := congrArg UInt64.toNat hij
    rw [UInt64.toNat_ofNat', UInt64.toNat_ofNat'] at hmod
    have hi' := List.mem_range.mp hi
    have hj' := List.mem_range.mp hj
    omega

end Counters

section Balance

variable {s t : State} {h k ptr b : Nat}

theorem balanced_iff (hi : Inv s) :
    Balanced s ↔ s.live.card < 2 ^ 64 ∧ s.created.length ≤ 2 ^ 64 ∧ ∀ b ∈ s.outstanding, IsStack s b := by
  have htotal : (totalFibers s).toNat = s.live.card ↔ s.live.card < 2 ^ 64 := by
    rw [totalFibers, hi.count, toNat_ofNat_eq_iff]
  have hids : s.created.Nodup ↔ s.created.length ≤ 2 ^ 64 := by
    rw [hi.created, nodup_ids, List.length_map, List.length_range]
  constructor
  · intro hb
    exact ⟨htotal.mp hb.total, hids.mp hb.ids, fun b => (hb.exact b).mp⟩
  · rintro ⟨hcard, hlen, hout⟩
    refine ⟨htotal.mpr hcard, hids.mpr hlen, fun h hh hsub => ?_, fun b => ⟨hout b, ?_⟩⟩
    · obtain ⟨b, hb⟩ := Option.isSome_iff_exists.mp ((hi.sub h hh).symm.trans hsub)
      exact ⟨b, hi.held h hh b hb, hb, fun k hk hkb => hi.unique h hh k hk b hb hkb⟩
    · rintro ⟨h, hh, -, hb⟩
      exact hi.held h hh b hb

theorem inv_init : Inv State.init :=
  ⟨rfl, rfl, rfl, fun _ h => absurd h (Finset.notMem_empty _), fun _ h => absurd h (Finset.notMem_empty _),
    fun _ h => absurd h (Finset.notMem_empty _)⟩

theorem balanced_init : Balanced State.init :=
  (balanced_iff inv_init).mpr ⟨by decide, by decide, fun _ h => absurd h (Finset.notMem_empty _)⟩

end Balance

section Changes

variable {s t : State} {h b : Nat} {ok : Object → Prop} [DecidablePred ok] {f : Object → Object}

structure Same (s t : State) : Prop where
  fiberId : t.fiberId = s.fiberId
  fiberCount : t.fiberCount = s.fiberCount
  live : t.live = s.live
  stack : ∀ k, (t.object k).stack = (s.object k).stack
  sub : ∀ k, (t.object k).sub = (s.object k).sub
  outstanding : t.outstanding = s.outstanding
  created : t.created = s.created

theorem same_put {o : Object} (hstack : o.stack = (s.object h).stack) (hsub : o.sub = (s.object h).sub) :
    Same s (s.put h o) := by
  refine ⟨rfl, rfl, rfl, fun k => ?_, fun k => ?_, rfl, rfl⟩ <;>
    by_cases hk : k = h <;> simp [State.put, hk, hstack, hsub]

theorem same_of_change (ht : change s h ok f = some t) (hf : ∀ o, (f o).stack = o.stack ∧ (f o).sub = o.sub) :
    Same s t := by
  unfold change at ht
  split at ht
  · obtain rfl := Option.some.inj ht
    exact same_put (hf _).1 (hf _).2
  · cases ht

theorem put_object_self (s : State) (h : Nat) (o : Object) : (s.put h o).object h = o := Function.update_self ..

theorem change_put {o : Object} (hh : h ∈ s.live) (hok : ok o) :
    change (s.put h o) h ok f = some (s.put h (f o)) := by
  rw [change, put_object_self, if_pos ⟨hh, hok⟩, State.put, State.put, Function.update_idem]
  rfl

theorem Same.inv (hs : Same s t) (hi : Inv s) : Inv t where
  count := by rw [hs.fiberCount, hs.live, hi.count]
  created := by
    rw [hs.created]
    exact hi.created
  fiberId := by rw [hs.fiberId, hs.created, hi.fiberId]
  sub h hh := by
    rw [hs.sub, hs.stack]
    exact hi.sub h (hs.live ▸ hh)
  held h hh b hb := by
    rw [hs.outstanding]
    exact hi.held h (hs.live ▸ hh) b (hs.stack h ▸ hb)
  unique h hh k hk b hb hkb := hi.unique h (hs.live ▸ hh) k (hs.live ▸ hk) b (hs.stack h ▸ hb) (hs.stack k ▸ hkb)

theorem Same.isStack (hs : Same s t) : IsStack t b ↔ IsStack s b := by
  simp only [IsStack, hs.live, hs.sub, hs.stack]

theorem Same.balanced (hs : Same s t) (hi : Inv s) (hb : Balanced s) : Balanced t := by
  obtain ⟨hcard, hlen, hout⟩ := (balanced_iff hi).mp hb
  refine (balanced_iff (hs.inv hi)).mpr ⟨hs.live ▸ hcard, hs.created ▸ hlen, fun b hmem => ?_⟩
  exact hs.isStack.mpr (hout b (hs.outstanding ▸ hmem))

end Changes

section Creation

variable {s t : State} {h ptr b : Nat} {o : Object}

theorem add_object_self : (s.add h o).object h = o := Function.update_self ..

theorem add_object_of_mem (hh : h ∉ s.live) {k : Nat} (hk : k ∈ s.live) : (s.add h o).object k = s.object k :=
  Function.update_of_ne (ne_of_mem_of_not_mem hk hh) _ _

theorem count_add (hi : Inv s) (hh : h ∉ s.live) : (s.add h o).fiberCount = UInt64.ofNat (s.add h o).live.card := by
  change s.fiberCount + 1 = UInt64.ofNat (insert h s.live).card
  rw [Finset.card_insert_of_notMem hh, hi.count, UInt64.ofNat_add]
  rfl

theorem Inv.add {outstanding : Finset Nat} (hi : Inv s) (hh : h ∉ s.live) (hsub : o.sub = o.stack.isSome)
    (hkeep : s.outstanding ⊆ outstanding) (hnew : ∀ b, o.stack = some b → b ∈ outstanding ∧ b ∉ s.outstanding) :
    Inv { s.add h o with outstanding := outstanding } := by
  refine ⟨count_add (o := o) hi hh, hi.created, hi.fiberId, fun k hk => ?_, fun k hk b hb => ?_,
    fun k hk j hj b hb hb' => ?_⟩
  · obtain rfl | hk := Finset.mem_insert.mp hk
    · rwa [add_object_self]
    · rw [add_object_of_mem hh hk]
      exact hi.sub k hk
  · obtain rfl | hk := Finset.mem_insert.mp hk
    · rw [add_object_self] at hb
      exact (hnew b hb).1
    · rw [add_object_of_mem hh hk] at hb
      exact hkeep (hi.held k hk b hb)
  · obtain rfl | hk' := Finset.mem_insert.mp hk
    · rw [add_object_self] at hb
      obtain rfl | hj' := Finset.mem_insert.mp hj
      · rfl
      · rw [add_object_of_mem hh hj'] at hb'
        exact absurd (hi.held j hj' b hb') (hnew b hb).2
    · rw [add_object_of_mem hh hk'] at hb
      obtain rfl | hj' := Finset.mem_insert.mp hj
      · rw [add_object_self] at hb'
        exact absurd (hi.held k hk' b hb) (hnew b hb').2
      · rw [add_object_of_mem hh hj'] at hb'
        exact hi.unique k hk' j hj' b hb hb'

theorem IsStack.add (hh : h ∉ s.live) (hb : IsStack s b) : IsStack (s.add h o) b := by
  obtain ⟨k, hk, hsub, hstack⟩ := hb
  refine ⟨k, Finset.mem_insert_of_mem hk, ?_⟩
  rw [add_object_of_mem hh hk]
  exact ⟨hsub, hstack⟩

theorem main_eq_some (ht : main s h = some t) : h ∉ s.live ∧ t = s.add h ⟨0, 0, .exec, none, false, false⟩ := by
  unfold main at ht
  split at ht
  · cases ht
  · rename_i hh
    exact ⟨hh, (Option.some.inj ht).symm⟩

theorem Inv.main (hi : Inv s) (ht : main s h = some t) : Inv t := by
  obtain ⟨hh, rfl⟩ := main_eq_some ht
  exact hi.add hh rfl (Finset.Subset.refl _) fun _ hb => nomatch hb

theorem balanced_main (hi : Inv s) (hb : Balanced s) (ht : main s h = some t) :
    Balanced t ↔ s.live.card + 1 < 2 ^ 64 := by
  rw [balanced_iff (hi.main ht)]
  obtain ⟨-, hlen, hout⟩ := (balanced_iff hi).mp hb
  obtain ⟨hh, rfl⟩ := main_eq_some ht
  have hcard : (insert h s.live).card = s.live.card + 1 := Finset.card_insert_of_notMem hh
  constructor
  · intro hbal
    exact hcard ▸ hbal.1
  · intro hlt
    exact ⟨hcard.trans_lt hlt, hlen, fun b hmem => (hout b hmem).add hh⟩

variable {config : UInt32} {cb : Bool} {stacksize : UInt64}

theorem create_eq_some (ht : create config s h ptr cb stacksize = some t) :
    h ∉ s.live ∧ ptr ∉ s.outstanding ∧ ∃ o : Object, o.stack = some ptr ∧ o.sub = true ∧
      t = { s.add h o with
        fiberId := s.fiberId + 1
        outstanding := insert ptr s.outstanding
        created := s.created ++ [s.fiberId + 1] } := by
  unfold create at ht
  split at ht
  · cases ht
  · rename_i hno
    obtain ⟨hh, hptr⟩ := not_or.mp hno
    exact ⟨hh, hptr, _, rfl, rfl, (Option.some.inj ht).symm⟩

theorem Inv.create (hi : Inv s) (ht : create config s h ptr cb stacksize = some t) : Inv t := by
  obtain ⟨hh, hptr, o, hstack, hsub, rfl⟩ := create_eq_some ht
  have hid : s.fiberId + 1 = UInt64.ofNat (s.created.length + 1) := by
    rw [hi.fiberId, UInt64.ofNat_add]
    rfl
  have hadd : Inv { s.add h o with outstanding := insert ptr s.outstanding } := by
    refine hi.add hh (by rw [hsub, hstack]; rfl) (Finset.subset_insert ptr _) fun b hb => ?_
    obtain rfl := Option.some.inj (hstack.symm.trans hb)
    exact ⟨Finset.mem_insert_self _ _, hptr⟩
  refine ⟨hadd.count, ?_, ?_, hadd.sub, hadd.held, hadd.unique⟩
  · change s.created ++ [s.fiberId + 1] = _
    rw [List.length_append, List.length_singleton, List.range_succ, List.map_append, ← hi.created, hid]
    rfl
  · change s.fiberId + 1 = _
    rw [List.length_append, List.length_singleton, hid]

theorem balanced_create (hi : Inv s) (hb : Balanced s) (ht : create config s h ptr cb stacksize = some t) :
    Balanced t ↔ s.created.length < 2 ^ 64 ∧ s.live.card + 1 < 2 ^ 64 := by
  rw [balanced_iff (hi.create ht)]
  obtain ⟨-, hlen, hout⟩ := (balanced_iff hi).mp hb
  obtain ⟨hh, hptr, o, hstack, hsub, rfl⟩ := create_eq_some ht
  have hcard : (insert h s.live).card = s.live.card + 1 := Finset.card_insert_of_notMem hh
  have hlength : (s.created ++ [s.fiberId + 1]).length = s.created.length + 1 := List.length_append
  constructor
  · rintro ⟨hlt, hle, -⟩
    exact ⟨hlength.symm.trans_le hle, hcard.symm.trans_lt hlt⟩
  · rintro ⟨hlt, hcard'⟩
    refine ⟨hcard.trans_lt hcard', hlength.trans_le hlt, fun b hmem => ?_⟩
    obtain rfl | hmem := Finset.mem_insert.mp hmem
    · refine ⟨h, Finset.mem_insert_self _ _, ?_⟩
      rw [add_object_self]
      exact ⟨hsub, hstack⟩
    · exact (hout b hmem).add (o := o) hh

end Creation

section Destruction

variable {s t : State} {h : Nat}

/-- The test of `Dealloc` is the wrong way round: nothing is ever freed. -/
theorem dealloc_eq (outstanding : Finset Nat) (ptr : Option Nat) : dealloc outstanding ptr = outstanding := by
  unfold dealloc
  split
  · rename_i hp
    rw [hp]
    rfl
  · rfl

theorem destroy_eq_some (ht : destroy s h = some t) :
    h ∈ s.live ∧ t = { s with fiberCount := s.fiberCount - 1, live := s.live.erase h } := by
  unfold destroy at ht
  simp only [dealloc_eq, ite_self] at ht
  split at ht
  · rename_i hg
    exact ⟨hg.1, (Option.some.inj ht).symm⟩
  · cases ht

theorem Inv.destroy (hi : Inv s) (ht : destroy s h = some t) : Inv t := by
  obtain ⟨hh, rfl⟩ := destroy_eq_some ht
  refine ⟨?_, hi.created, hi.fiberId, fun k hk => hi.sub k (Finset.mem_of_mem_erase hk),
    fun k hk => hi.held k (Finset.mem_of_mem_erase hk),
    fun k hk j hj => hi.unique k (Finset.mem_of_mem_erase hk) j (Finset.mem_of_mem_erase hj)⟩
  change s.fiberCount - 1 = UInt64.ofNat (s.live.erase h).card
  have hcard := Finset.card_erase_add_one hh
  rw [hi.count, ← hcard, UInt64.ofNat_add]
  exact UInt64.add_sub_cancel _ _

theorem balanced_destroy (hi : Inv s) (hb : Balanced s) (ht : destroy s h = some t) :
    Balanced t ↔ (s.object h).sub = false := by
  rw [balanced_iff (hi.destroy ht)]
  obtain ⟨hcard, hlen, hout⟩ := (balanced_iff hi).mp hb
  obtain ⟨hh, rfl⟩ := destroy_eq_some ht
  constructor
  · rintro ⟨-, -, hout'⟩
    by_contra hsub
    -- the stack of the object is still there, and no other object has it
    obtain ⟨b, hmem, hstack, hunique⟩ := hb.owns h hh (by simpa using hsub)
    obtain ⟨k, hk, -, hkstack⟩ := hout' b hmem
    obtain ⟨hne, hk⟩ := Finset.mem_erase.mp hk
    exact hne (hunique k hk hkstack)
  · intro hsub
    refine ⟨(Finset.card_le_card (Finset.erase_subset h s.live)).trans_lt hcard, hlen, fun b hmem => ?_⟩
    obtain ⟨k, hk, hksub, hkstack⟩ := hout b hmem
    refine ⟨k, Finset.mem_erase.mpr ⟨fun he => ?_, hk⟩, hksub, hkstack⟩
    rw [he, hsub] at hksub
    cases hksub

end Destruction

section Runs

variable {config : UInt32} {s t : State}

theorem step_cases {op : Op} (ht : step config s op = some t) :
    (∃ h, op = .main h ∧ main s h = some t) ∨
    (∃ h ptr cb stacksize, op = .create h ptr cb stacksize ∧ create config s h ptr cb stacksize = some t) ∨
    (∃ h, op = .destroy h ∧ destroy s h = some t) ∨ (Fine s op ∧ Same s t) := by
  cases op with
  | main h => exact .inl ⟨h, rfl, ht⟩
  | create h ptr cb stacksize => exact .inr (.inl ⟨h, ptr, cb, stacksize, rfl, ht⟩)
  | destroy h => exact .inr (.inr (.inl ⟨h, rfl, ht⟩))
  | reset | resume | returns | throws | yieldToReady | yieldToHold | hold =>
    simp only [step, reset, resume, returns, throws, yieldTo, hold] at ht
    exact .inr (.inr (.inr ⟨trivial, same_of_change ht fun _ => ⟨rfl, rfl⟩⟩))

theorem Inv.step {op : Op} (hi : Inv s) (ht : step config s op = some t) : Inv t := by
  obtain ⟨h, rfl, ht⟩ | ⟨h, ptr, cb, stacksize, rfl, ht⟩ | ⟨h, rfl, ht⟩ | ⟨-, hs⟩ := step_cases ht
  · exact hi.main ht
  · exact hi.create ht
  · exact hi.destroy ht
  · exact hs.inv hi

theorem balanced_step {op : Op} (hi : Inv s) (hb : Balanced s) (ht : step config s op = some t) :
    Balanced t ↔ Fine s op := by
  obtain ⟨h, rfl, ht⟩ | ⟨h, ptr, cb, stacksize, rfl, ht⟩ | ⟨h, rfl, ht⟩ | ⟨hf, hs⟩ := step_cases ht
  · exact balanced_main hi hb ht
  · exact balanced_create hi hb ht
  · exact balanced_destroy hi hb ht
  · exact iff_of_true (hs.balanced hi hb) hf

theorem reset_keeps {h : Nat} {cb : Bool} (ht : reset s h cb = some t) :
    (t.object h).stack = (s.object h).stack ∧ t.live = s.live ∧ t.outstanding = s.outstanding := by
  have hs := same_of_change ht fun _ => ⟨rfl, rfl⟩
  exact ⟨hs.stack h, hs.live, hs.outstanding⟩

section Callbacks

variable {f h ptr : Nat} {o : Outcome}

theorem Same.trans {u : State} (hs : Same s t) (ht : Same t u) : Same s u where
  fiberId := ht.fiberId.trans hs.fiberId
  fiberCount := ht.fiberCount.trans hs.fiberCount
  live := ht.live.trans hs.live
  stack k := (ht.stack k).trans (hs.stack k)
  sub k := (ht.sub k).trans (hs.sub k)
  outstanding := ht.outstanding.trans hs.outstanding
  created := ht.created.trans hs.created

/-- A callback that ends gives the fiber back as it was. -/
theorem exec_runCallback (hf : f ∈ s.live) (hr : (s.object f).Resting) (hstack : (s.object f).stack ≠ none)
    (ho : o = .returned ∨ o = .threw) :
    exec (step config) s (runCallback (some f) h ptr o).1 =
      some (s.put f { s.object f with cb := false, state := .init }) := by
  have henter : reset s f true = some (s.put f { s.object f with cb := true, state := .init }) :=
    if_pos ⟨hf, hstack, hr⟩
  have hresume : resume (s.put f { s.object f with cb := true, state := .init }) f =
      some (s.put f { s.object f with cb := true, state := .exec }) := change_put hf (.inl rfl)
  obtain rfl | rfl := ho
  · have hrun : returns (s.put f { s.object f with cb := true, state := .exec }) f =
        some (s.put f { s.object f with cb := false, state := .term }) := change_put hf ⟨hstack, rfl, rfl⟩
    have hreset : reset (s.put f { s.object f with cb := false, state := .term }) f false =
        some (s.put f { s.object f with cb := false, state := .init }) := change_put hf ⟨hstack, .inl rfl⟩
    simp [runCallback, exec, step, henter, hresume, hrun, hreset]
  · have hrun : throws (s.put f { s.object f with cb := true, state := .exec }) f =
        some (s.put f { s.object f with cb := true, state := .except }) := change_put hf ⟨hstack, rfl⟩
    have hreset : reset (s.put f { s.object f with cb := true, state := .except }) f false =
        some (s.put f { s.object f with cb := false, state := .init }) := change_put hf ⟨hstack, .inr (.inl rfl)⟩
    simp [runCallback, exec, step, henter, hresume, hrun, hreset]

theorem exec_runCallbacks (hf : f ∈ s.live) (hr : (s.object f).Resting) (hstack : (s.object f).stack ≠ none)
    (cs : List (Nat × Nat × Outcome)) (hcs : ∀ c ∈ cs, c.2.2 = .returned ∨ c.2.2 = .threw) :
    ∃ t, exec (step config) s (runCallbacks (some f) cs) = some t ∧ Same s t := by
  induction cs generalizing s with
  | nil => exact ⟨s, rfl, rfl, rfl, rfl, fun _ => rfl, fun _ => rfl, rfl, rfl⟩
  | cons c cs ih =>
    obtain ⟨h, ptr, o⟩ := c
    obtain ⟨ho, hcs⟩ := List.forall_mem_cons.mp hcs
    have hfirst : exec (step config) s (runCallback (some f) h ptr o).1 = _ := exec_runCallback hf hr hstack ho
    have hsame : Same s (s.put f { s.object f with cb := false, state := .init }) := same_put rfl rfl
    have hrest : ((s.put f { s.object f with cb := false, state := .init }).object f).Resting :=
      .inr (.inr (by rw [put_object_self]))
    obtain ⟨u, hu, htu⟩ := ih (s := s.put f { s.object f with cb := false, state := .init }) hf hrest
      (by rwa [hsame.stack]) hcs
    have hnext : (runCallback (some f) h ptr o).2 = some f := by
      obtain rfl | rfl := ho <;> rfl
    refine ⟨u, ?_, hsame.trans htu⟩
    rw [runCallbacks, exec_append, hfirst, hnext]
    exact hu

end Callbacks

theorem resources_balance (config : UInt32) (ops : List Op) :
    (Throughout (step config) Balanced State.init ops ↔ Along (step config) Fine State.init ops) ∧
      ∀ s t h cb, reset s h cb = some t →
        (t.object h).stack = (s.object h).stack ∧ t.live = s.live ∧ t.outstanding = s.outstanding :=
  ⟨throughout_iff_along (fun _ _ _ hi => hi.step) (fun _ _ _ => balanced_step) inv_init balanced_init ops,
    fun _ _ _ _ => reset_keeps⟩

/-- A fiber is created, runs to its end and is destroyed. -/
theorem stack_leaks :
    ¬ Throughout (step 131072) Balanced State.init [.create 0 5 true 0, .resume 0, .returns 0, .destroy 0] := by
  rintro ⟨-, h⟩
  obtain ⟨-, h⟩ := h _ rfl
  obtain ⟨-, h⟩ := h _ rfl
  obtain ⟨-, h⟩ := h _ rfl
  obtain ⟨k, hk, -⟩ := ((h _ rfl).exact 5).mp (by decide)
  exact absurd hk (by decide +revert)

end Runs

end Windgent.Fiber
