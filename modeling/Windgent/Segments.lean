import Mathlib.Tactic.Common
import Mathlib.Data.List.Basic
import Mathlib.Data.List.TakeDrop
import Mathlib.Data.List.GetD
import Mathlib.Tactic.Ring

namespace Windgent.Segments

variable {α : Type}

def slice (l : List α) (p n : Nat) : List α := (l.drop p).take n

def overwrite (l : List α) (p : Nat) (d : List α) : List α :=
  l.take p ++ d ++ l.drop (p + d.length)

theorem length_overwrite {l d : List α} {p : Nat} (h : p + d.length ≤ l.length) :
    (overwrite l p d).length = l.length := by
  simp only [overwrite, List.length_append, List.length_take, List.length_drop]
  omega

@[simp] theorem overwrite_nil (l : List α) (p : Nat) : overwrite l p [] = l := by
  simp [overwrite]

theorem slice_append_left {a r : List α} {p n : Nat} (h : p + n ≤ a.length) :
    slice (a ++ r) p n = slice a p n := by
  simp only [slice]
  rw [List.drop_append_of_le_length (by omega), List.take_append_of_le_length (by simp; omega)]

theorem slice_append_right (a r : List α) (p n : Nat) :
    slice (a ++ r) (a.length + p) n = slice r p n := by
  simp only [slice, List.drop_append, List.drop_eq_nil_of_le (show a.length ≤ a.length + p by omega),
    List.nil_append, Nat.add_sub_cancel_left]

theorem slice_append_cross {a r : List α} {p n : Nat} (hp : p ≤ a.length) (h : a.length ≤ p + n) :
    slice (a ++ r) p n = a.drop p ++ slice r 0 (n - (a.length - p)) := by
  simp only [slice, List.drop_zero]
  rw [List.drop_append_of_le_length hp, List.take_append, List.length_drop,
    List.take_of_length_le (by simp; omega)]

theorem overwrite_append_left {a r d : List α} {p : Nat} (h : p + d.length ≤ a.length) :
    overwrite (a ++ r) p d = overwrite a p d ++ r := by
  simp only [overwrite]
  rw [List.take_append_of_le_length (by omega), List.drop_append_of_le_length h]
  simp only [List.append_assoc]

theorem overwrite_append_right (a r d : List α) (p : Nat) :
    overwrite (a ++ r) (a.length + p) d = a ++ overwrite r p d := by
  simp only [overwrite, List.take_append, List.drop_append, Nat.add_assoc,
    List.take_of_length_le (show a.length ≤ a.length + p by omega), Nat.add_sub_cancel_left,
    List.drop_eq_nil_of_le (show a.length ≤ a.length + (p + d.length) by omega), List.nil_append,
    List.append_assoc]

theorem overwrite_append_cross {a r d : List α} {p : Nat} (hp : p ≤ a.length)
    (h : a.length ≤ p + d.length) :
    overwrite (a ++ r) p d =
      overwrite a p (d.take (a.length - p)) ++ overwrite r 0 (d.drop (a.length - p)) := by
  have hl : (d.take (a.length - p)).length = a.length - p := by simp; omega
  have hd : p + (a.length - p) = a.length := by omega
  simp only [overwrite, hl, hd, List.drop_length, List.append_nil, List.take_zero, List.nil_append,
    Nat.zero_add, List.length_drop]
  rw [List.take_append_of_le_length hp, List.drop_append, List.drop_eq_nil_of_le h,
    List.nil_append, List.append_assoc, List.append_assoc]
  congr 1
  rw [← List.append_assoc, List.take_append_drop]
  congr 2
  omega

theorem slice_take {l : List α} {p n m : Nat} (h : p + n ≤ m) : slice (l.take m) p n = slice l p n := by
  simp only [slice, List.drop_take, List.take_take]
  congr 1
  omega

theorem overwrite_take {l d : List α} {p m : Nat} (hp : p ≤ m) (hm : m ≤ l.length) :
    (overwrite l p d).take (max m (p + d.length)) = overwrite (l.take m) p d := by
  have ht : (l.take p).length = p := by simp; omega
  simp only [overwrite, List.append_assoc, List.take_append, ht, List.take_take]
  rw [Nat.min_eq_right (show p ≤ max m (p + d.length) by omega), Nat.min_eq_left hp,
    List.take_of_length_le (show d.length ≤ max m (p + d.length) - p by omega), List.drop_take]
  congr 3
  omega

theorem overwrite_overwrite {l d e : List α} {p : Nat} (h : p ≤ l.length) :
    overwrite (overwrite l p d) (p + d.length) e = overwrite l p (d ++ e) := by
  have hl : (l.take p ++ d).length = p + d.length := by
    simp only [List.length_append, List.length_take]
    omega
  have ho : overwrite (l.drop (p + d.length)) 0 e = e ++ l.drop (p + (d ++ e).length) := by
    simp only [overwrite, List.take_zero, List.nil_append, Nat.zero_add, List.drop_drop, List.length_append,
      Nat.add_assoc]
  have hr := overwrite_append_right (l.take p ++ d) (l.drop (p + d.length)) e 0
  rw [Nat.add_zero, hl, ho] at hr
  rw [overwrite.eq_def l p d, hr, overwrite]
  simp only [List.append_assoc]

structure Range where
  part : Nat
  base : Nat
  len : Nat
deriving DecidableEq

def Range.Inside (ls : List (List α)) (v : Range) : Prop :=
  v.part < ls.length ∧ v.base + v.len ≤ (ls.getD v.part []).length

def Range.cells (b : Nat) (v : Range) : List Nat := List.range' (b * v.part + v.base) v.len

def gather (ls : List (List α)) (vs : List Range) : List α :=
  vs.flatMap fun v => slice (ls.getD v.part []) v.base v.len

/-- Fill the ranges in order until the data end. -/
def scatter : List (List α) → List Range → List α → List (List α)
  | ls, [], _ => ls
  | ls, v :: vs, d => scatter (ls.modify v.part fun l => overwrite l v.base (d.take v.len)) vs (d.drop v.len)

def Uniform (b : Nat) (ls : List (List α)) : Prop := ∀ l ∈ ls, l.length = b

theorem Uniform.cons {b : Nat} {l : List α} {ls : List (List α)} :
    Uniform b (l :: ls) ↔ l.length = b ∧ Uniform b ls := by
  simp [Uniform]

theorem Uniform.append {b : Nat} {ks ls : List (List α)} (hk : Uniform b ks) (hl : Uniform b ls) :
    Uniform b (ks ++ ls) := by
  intro l h
  rcases List.mem_append.mp h with h | h
  · exact hk l h
  · exact hl l h

theorem Uniform.drop {b : Nat} {ls : List (List α)} (h : Uniform b ls) (k : Nat) :
    Uniform b (ls.drop k) := fun l hl => h l (List.mem_of_mem_drop hl)

theorem Uniform.take {b : Nat} {ls : List (List α)} (h : Uniform b ls) (k : Nat) :
    Uniform b (ls.take k) := fun l hl => h l (List.mem_of_mem_take hl)

theorem Uniform.length_flatten {b : Nat} {ls : List (List α)} (h : Uniform b ls) :
    ls.flatten.length = b * ls.length := by
  induction ls with
  | nil => simp
  | cons l ls ih =>
    obtain ⟨hl, hls⟩ := Uniform.cons.mp h
    simp only [List.flatten_cons, List.length_append, List.length_cons, ih hls, hl]
    ring

theorem Uniform.modify {b : Nat} {ls : List (List α)} (h : Uniform b ls) {f : List α → List α}
    (hf : ∀ l : List α, l.length = b → (f l).length = b) (k : Nat) : Uniform b (ls.modify k f) := by
  intro l hl
  obtain ⟨i, hi, rfl⟩ := List.getElem_of_mem hl
  rw [List.getElem_modify]
  rw [List.length_modify] at hi
  split
  · exact hf _ (h _ (List.getElem_mem hi))
  · exact h _ (List.getElem_mem hi)

theorem Uniform.flatten_modify {b : Nat} {ls : List (List α)} (h : Uniform b ls) {k base : Nat} {e : List α}
    (hk : k < ls.length) (he : base + e.length ≤ b) :
    (ls.modify k fun l => overwrite l base e).flatten = overwrite ls.flatten (b * k + base) e := by
  induction ls generalizing k with
  | nil => exact absurd hk (Nat.not_lt_zero k)
  | cons l ls ih =>
    obtain ⟨hl, hls⟩ := Uniform.cons.mp h
    cases k with
    | zero =>
      rw [List.modify_zero_cons, List.flatten_cons, List.flatten_cons, Nat.mul_zero, Nat.zero_add,
        overwrite_append_left (by omega)]
    | succ k =>
      have hp : b * (k + 1) + base = l.length + (b * k + base) := by
        rw [hl]
        ring
      rw [List.modify_succ_cons, List.flatten_cons, List.flatten_cons, ih hls (Nat.lt_of_succ_lt_succ hk), hp,
        overwrite_append_right]

theorem cells_cons {b p n : Nat} {v : Range} {vs : List Range}
    (h : (v :: vs).flatMap (Range.cells b) = List.range' p n) :
    v.len ≤ n ∧ (v.len ≠ 0 → b * v.part + v.base = p) ∧
      vs.flatMap (Range.cells b) = List.range' (p + v.len) (n - v.len) := by
  rw [List.flatMap_cons, Range.cells] at h
  have hn : v.len ≤ n := by
    have hlen := congrArg List.length h
    simp only [List.length_append, List.length_range'] at hlen
    omega
  have hsplit : List.range' p n = List.range' p v.len ++ List.range' (p + v.len) (n - v.len) := by
    have happ := List.range'_append_1 (s := p) (m := v.len) (n := n - v.len)
    rw [Nat.add_sub_cancel' hn] at happ
    exact happ.symm
  rw [hsplit] at h
  obtain ⟨hfirst, hrest⟩ := List.append_inj h (by simp only [List.length_range'])
  refine ⟨hn, fun hne => ?_, hrest⟩
  obtain ⟨m, hm⟩ := Nat.exists_eq_succ_of_ne_zero hne
  rw [hm, List.range'_succ, List.range'_succ] at hfirst
  exact (List.cons.inj hfirst).1

theorem Uniform.slice_flatten {b : Nat} {ls : List (List α)} (h : Uniform b ls) {k base n : Nat}
    (hk : k < ls.length) (hn : base + n ≤ b) :
    slice ls.flatten (b * k + base) n = slice (ls.getD k []) base n := by
  induction ls generalizing k with
  | nil => exact absurd hk (Nat.not_lt_zero k)
  | cons l ls ih =>
    obtain ⟨hl, hls⟩ := Uniform.cons.mp h
    cases k with
    | zero =>
      rw [List.flatten_cons, Nat.mul_zero, Nat.zero_add, slice_append_left (by omega)]
      rfl
    | succ k =>
      have hp : b * (k + 1) + base = l.length + (b * k + base) := by
        rw [hl]
        ring
      rw [List.flatten_cons, hp, slice_append_right, ih hls (Nat.lt_of_succ_lt_succ hk)]
      rfl

theorem slice_slice (l : List α) (p m n : Nat) (h : m ≤ n) : slice l p m ++ slice l (p + m) (n - m) = slice l p n := by
  simp only [slice, ← List.drop_drop]
  have hn : n = m + (n - m) := by omega
  conv_rhs => rw [hn, List.take_add]

theorem Uniform.gather_eq_slice {b p n : Nat} {ls : List (List α)} {vs : List Range} (h : Uniform b ls)
    (hin : ∀ v ∈ vs, v.Inside ls) (hcells : vs.flatMap (Range.cells b) = List.range' p n) :
    gather ls vs = slice ls.flatten p n := by
  induction vs generalizing p n with
  | nil =>
    have hn : n = 0 := by simpa using (congrArg List.length hcells).symm
    simp [gather, slice, hn]
  | cons v vs ih =>
    obtain ⟨hvn, hstart, hrest⟩ := cells_cons hcells
    obtain ⟨⟨hpart, hroom⟩, hin⟩ := List.forall_mem_cons.mp hin
    have hlen : (ls.getD v.part []).length = b := by
      rw [List.getD_eq_getElem _ _ hpart]
      exact h _ (List.getElem_mem hpart)
    have hfirst : slice (ls.getD v.part []) v.base v.len = slice ls.flatten p v.len := by
      by_cases hz : v.len = 0
      · simp [slice, hz]
      · rw [← h.slice_flatten hpart (by omega), hstart hz]
    have hnext : gather ls vs = slice ls.flatten (p + v.len) (n - v.len) := ih hin hrest
    rw [← slice_slice _ _ _ _ hvn, ← hfirst, ← hnext, gather, List.flatMap_cons]
    rfl

theorem Uniform.flatten_scatter {b p n : Nat} {ls : List (List α)} {vs : List Range} {d : List α} (h : Uniform b ls)
    (hin : ∀ v ∈ vs, v.Inside ls) (hcells : vs.flatMap (Range.cells b) = List.range' p n) (hd : d.length ≤ n)
    (hp : p + n ≤ ls.flatten.length) :
    Uniform b (scatter ls vs d) ∧ (scatter ls vs d).length = ls.length ∧
      (scatter ls vs d).flatten = overwrite ls.flatten p d := by
  induction vs generalizing ls p n d with
  | nil =>
    have hn : n = 0 := by simpa using (congrArg List.length hcells).symm
    have hnil : d = [] := List.eq_nil_of_length_eq_zero (by omega)
    exact ⟨h, rfl, by rw [hnil, overwrite_nil]; rfl⟩
  | cons v vs ih =>
    obtain ⟨hvn, hstart, hrest⟩ := cells_cons hcells
    obtain ⟨⟨hpart, hroom⟩, hin⟩ := List.forall_mem_cons.mp hin
    have hlen : ∀ i < ls.length, (ls.getD i []).length = b := by
      intro i hi
      rw [List.getD_eq_getElem _ _ hi]
      exact h _ (List.getElem_mem hi)
    have htake : (d.take v.len).length ≤ v.len := List.length_take_le _ _
    have hbase : v.base + (d.take v.len).length ≤ b := by
      have := hlen _ hpart
      omega
    have hu := h.modify (f := fun l => overwrite l v.base (d.take v.len))
      (fun l hl => (length_overwrite (by omega)).trans hl) v.part
    have hflat : (ls.modify v.part fun l => overwrite l v.base (d.take v.len)).flatten =
        overwrite ls.flatten p (d.take v.len) := by
      rw [h.flatten_modify hpart hbase]
      by_cases hz : v.len = 0
      · rw [hz, List.take_zero, overwrite_nil, overwrite_nil]
      · rw [hstart hz]
    have hinside : ∀ w ∈ vs, w.Inside (ls.modify v.part fun l => overwrite l v.base (d.take v.len)) := by
      intro w hw
      obtain ⟨hwp, hwr⟩ := hin w hw
      have hwm : w.part < (ls.modify v.part fun l => overwrite l v.base (d.take v.len)).length := by
        rwa [List.length_modify]
      refine ⟨hwm, ?_⟩
      rw [List.getD_eq_getElem _ _ hwm, hu _ (List.getElem_mem hwm), ← hlen _ hwp]
      exact hwr
    have hflatlen : (overwrite ls.flatten p (d.take v.len)).length = ls.flatten.length :=
      length_overwrite (by omega)
    obtain ⟨hu', hlen', hflat'⟩ := ih hu hinside hrest (d := d.drop v.len)
      (by rw [List.length_drop]; omega) (by rw [hflat, hflatlen]; omega)
    refine ⟨hu', hlen'.trans (List.length_modify _ _ _), ?_⟩
    rw [scatter, hflat', hflat]
    by_cases hshort : d.length ≤ v.len
    · rw [List.drop_eq_nil_of_le hshort, overwrite_nil, List.take_of_length_le hshort]
    · have hfull : (d.take v.len).length = v.len := by
        rw [List.length_take]
        omega
      have ho := overwrite_overwrite (l := ls.flatten) (d := d.take v.len) (e := d.drop v.len) (p := p) (by omega)
      rw [hfull, List.take_append_drop] at ho
      exact ho

end Windgent.Segments
