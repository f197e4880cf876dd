import Windgent.Ragel.Runs

namespace Windgent.Ragel

open Scanner

variable {A P L K S : Type} [DecidableEq A] [DecidableEq P] [DecidableEq L]

/-- The actions of the embeddings `τ` at position `p` take the registers from `g` to `g'`
and the state of the callbacks from `s` to `s'`. -/
structure Calls (op : A → Op P L K) (table : List A) (handle : S → Event K → Option S) (data : List UInt8) (p : Nat)
    (τ : List (List Nat)) (g : Regs P L) (s : S) (g' : Regs P L) (s' : S) : Prop where
  regs : (perform op data p (τ.map (actions table)) g).1 = g'
  state : (perform op data p (τ.map (actions table)) g).2.foldlM handle s = some s'

def marked (g : Regs P L) (r : P) (p : Nat) : Regs P L := { g with pos := Function.update g.pos r p }

section Calls

variable {op : A → Op P L K} {table : List A} {handle : S → Event K → Option S} {data : List UInt8} {p q : Nat}
  {τ τ' : List (List Nat)} {t : List Nat} {g g' g'' : Regs P L} {s s' s'' : S}

theorem Calls.append (h : Calls op table handle data p τ g s g' s')
    (h' : Calls op table handle data (p + τ.length) τ' g' s' g'' s'') :
    Calls op table handle data p (τ ++ τ') g s g'' s'' := by
  obtain ⟨rfl, hs⟩ := h
  obtain ⟨hg, hs'⟩ := h'
  have hp := perform_append op data p (τ.map (actions table)) (τ'.map (actions table)) g
  rw [List.length_map, ← List.map_append] at hp
  constructor
  · rw [hp]
    exact hg
  · rw [hp, List.foldlM_append, hs]
    exact hs'

theorem Calls.then (h : Calls op table handle data p τ g s g' s') (hq : p + τ.length = q)
    (h' : Calls op table handle data q τ' g' s' g'' s'') : Calls op table handle data p (τ ++ τ') g s g'' s'' :=
  h.append (hq ▸ h')

omit [DecidableEq P] [DecidableEq L] in
theorem mem_actions {a : A} : a ∈ actions table t ↔ ∃ i ∈ t, table[i]? = some a := by
  simp only [actions, pick, List.mem_eraseDups, List.mem_map, List.mem_filter, List.contains_iff_mem]
  constructor
  · rintro ⟨⟨a, i⟩, ⟨hmem, hi⟩, rfl⟩
    exact ⟨i, hi, by simpa using List.mem_zipIdx_iff_getElem?.mp hmem⟩
  · rintro ⟨i, hi, ha⟩
    exact ⟨(a, i), ⟨List.mem_zipIdx_iff_getElem?.mpr (by simpa using ha), hi⟩, rfl⟩

theorem Calls.silent (w : List UInt8) : Calls op table handle data p (silent w) g s g s := by
  have ha : actions table [] = [] := List.eq_nil_iff_forall_not_mem.mpr fun a h => by
    obtain ⟨i, hi, -⟩ := mem_actions.mp h
    cases hi
  have hm : (Ragel.silent w).map (actions table) = List.replicate w.length [] := by
    simp [Ragel.silent, ha]
  constructor
  · rw [hm, perform_silent]
  · rw [hm, perform_silent]
    rfl

theorem Calls.single {as : List A} (ha : actions table t = as) (hg : (runOps data p (as.map op) g).1 = g')
    (hs : (runOps data p (as.map op) g).2.foldlM handle s = some s') :
    Calls op table handle data p [t] g s g' s' := by
  constructor
  · simp [perform, ha, hg]
  · simpa [perform, ha] using hs

theorem runOps_skips {os : List (Op P L K)} (h : ∀ o ∈ os, o = .skip) : runOps data p os g = (g, []) := by
  induction os with
  | nil => rfl
  | cons o os ih =>
    obtain ⟨rfl, hos⟩ := List.forall_mem_cons.mp h
    simp [runOps, Op.isStop, Op.regs, Op.events, ih hos]

omit [DecidableEq L] in
theorem marked_marked (g : Regs P L) (r : P) (p : Nat) : marked (marked g r p) r p = marked g r p := by
  simp [marked]

theorem runOps_marks {os : List (Op P L K)} {r : P} (h : ∀ o ∈ os, o = .mark r ∨ o = .skip) (hr : .mark r ∈ os) :
    runOps data p os g = (marked g r p, []) := by
  induction os generalizing g with
  | nil => cases hr
  | cons o os ih =>
    obtain ⟨ho, hos⟩ := List.forall_mem_cons.mp h
    by_cases hmem : .mark r ∈ os
    · obtain rfl | rfl := ho
      · have hm : runOps data p os (marked g r p) = (marked g r p, []) := by rw [ih hos hmem, marked_marked]
        simpa [runOps, Op.isStop, Op.regs, Op.events, marked] using hm
      · simp [runOps, Op.isStop, Op.regs, Op.events, ih hos hmem]
    · obtain rfl : .mark r = o := by simpa [hmem] using hr
      have hskip : ∀ o ∈ os, o = .skip := fun o ho => (hos o ho).resolve_left fun he => hmem (he ▸ ho)
      simp [runOps, Op.isStop, Op.regs, Op.events, runOps_skips hskip, marked]

theorem Calls.marks {r : P} (h : ∀ i ∈ t, ∃ a, table[i]? = some a ∧ (op a = .mark r ∨ op a = .skip))
    (hr : ∃ i ∈ t, ∃ a, table[i]? = some a ∧ op a = .mark r) :
    Calls op table handle data p [t] g s (marked g r p) s := by
  have hall : ∀ o ∈ (actions table t).map op, o = .mark r ∨ o = .skip := by
    intro o ho
    obtain ⟨a, ha, rfl⟩ := List.mem_map.mp ho
    obtain ⟨i, hi, hat⟩ := mem_actions.mp ha
    obtain ⟨b, hb, hop⟩ := h i hi
    obtain rfl : b = a := Option.some.inj (hb.symm.trans hat)
    exact hop
  have hmem : .mark r ∈ (actions table t).map op := by
    obtain ⟨i, hi, a, ha, hop⟩ := hr
    exact List.mem_map.mpr ⟨a, mem_actions.mpr ⟨i, hi, ha⟩, hop⟩
  have hrun : runOps data p ((actions table t).map op) g = (marked g r p, []) := runOps_marks hall hmem
  exact Calls.single rfl (by rw [hrun]) (by rw [hrun]; rfl)

theorem Calls.skips (h : ∀ i ∈ t, ∃ a, table[i]? = some a ∧ op a = .skip) :
    Calls op table handle data p [t] g s g s := by
  have hall : ∀ o ∈ (actions table t).map op, o = .skip := by
    intro o ho
    obtain ⟨a, ha, rfl⟩ := List.mem_map.mp ho
    obtain ⟨i, hi, hat⟩ := mem_actions.mp ha
    obtain ⟨b, hb, hop⟩ := h i hi
    obtain rfl : b = a := Option.some.inj (hb.symm.trans hat)
    exact hop
  have hrun : runOps data p ((actions table t).map op) g = (g, []) := runOps_skips hall
  exact Calls.single rfl (by rw [hrun]) (by rw [hrun]; rfl)

theorem Calls.token {w : List UInt8} {o : List Nat} {r : P} {a b : A} {kind : K} (ht : actions table t = [a])
    (ha : op a = .mark r) (ho : actions table o = [b]) (hb : op b = .emit kind [(r, none)]) (hw : w ≠ [])
    (hs : handle s ⟨kind, [⟨data.drop p, w.length, w.length⟩]⟩ = some s') :
    Calls op table handle data p (t :: Ragel.silent w.tail ++ [o]) g s (marked g r p) s' := by
  obtain ⟨c, w, rfl⟩ := List.exists_cons_of_ne_nil hw
  have hfirst : Calls op table handle data p [t] g s (marked g r p) s :=
    Calls.single ht (by simp [runOps, ha, Op.isStop, Op.regs, marked]) (by simp [runOps, ha, Op.isStop, Op.events])
  have hend : p + ([t] ++ Ragel.silent w).length = p + (c :: w).length := by
    simp [Ragel.silent]
  have hlast : Calls op table handle data (p + (c :: w).length) [o] (marked g r p) s (marked g r p) s' := by
    refine Calls.single ho (by simp [runOps, hb, Op.isStop, Op.regs]) ?_
    have htoken : Scanner.token data (p + (c :: w).length) (marked g r p) (r, none) =
        ⟨data.drop p, (c :: w).length, (c :: w).length⟩ := by
      have hupto : ((p + (c :: w).length : Nat) : Int) - (p : Int) = ((c :: w).length : Nat) := by omega
      simp only [Scanner.token, marked, Function.update_self, Option.map_none, Option.getD_none, hupto]
    simp only [List.map_cons, List.map_nil, runOps, hb, Op.isStop, Op.events, Bool.false_eq_true, if_false,
      List.append_nil, htoken, List.foldlM_cons, List.foldlM_nil, hs]
    rfl
  exact (hfirst.append (Calls.silent w)).then hend hlast

end Calls

end Windgent.Ragel
