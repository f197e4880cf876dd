import Mathlib.Data.List.Pairwise
import Mathlib.Order.Defs.Unbundled
import Mathlib.Order.Defs.LinearOrder
import Mathlib.Order.Basic
import Mathlib.Order.Lattice

namespace Windgent.OrderedSet

variable {α : Type} (lt : α → α → Prop) [DecidableRel lt]

/-- Insertion into a set kept in ascending order: an equivalent element stays. -/
def insert (a : α) : List α → List α
  | [] => [a]
  | b :: l => if lt a b then a :: b :: l else if lt b a then b :: insert a l else b :: l

def lowerBound (a : α) (l : List α) : List α := l.dropWhile (fun b => lt b a)

def find (a : α) (l : List α) : Option α :=
  match lowerBound lt a l with
  | [] => none
  | b :: _ => if lt a b then none else some b

abbrev Ascending (l : List α) : Prop := l.Pairwise lt

variable {lt}

theorem mem_of_mem_insert {a b : α} {l : List α} (h : b ∈ insert lt a l) : b = a ∨ b ∈ l := by
  induction l with
  | nil => simpa [insert] using h
  | cons c l ih =>
    simp only [insert] at h
    split at h
    · simpa using h
    · split at h
      · rcases List.mem_cons.mp h with rfl | h
        · simp
        · exact (ih h).imp id (List.mem_cons_of_mem c)
      · exact .inr h

theorem mem_insert_of_mem (a : α) {b : α} {l : List α} (h : b ∈ l) : b ∈ insert lt a l := by
  induction l with
  | nil => simp at h
  | cons c l ih =>
    simp only [insert]
    split
    · exact List.mem_cons_of_mem _ h
    · split
      · rcases List.mem_cons.mp h with rfl | h
        · simp
        · exact List.mem_cons_of_mem _ (ih h)
      · exact h

theorem Ascending.insert (htrans : ∀ a b c, lt a b → lt b c → lt a c) {l : List α}
    (h : Ascending lt l) (a : α) : Ascending lt (insert lt a l) := by
  induction l with
  | nil => simp [OrderedSet.insert]
  | cons b l ih =>
    obtain ⟨hb, hl⟩ := List.pairwise_cons.mp h
    simp only [OrderedSet.insert]
    split
    · rename_i hab
      refine List.pairwise_cons.mpr ⟨fun c hc => ?_, h⟩
      rcases List.mem_cons.mp hc with rfl | hc
      · exact hab
      · exact htrans a b c hab (hb c hc)
    · split
      · rename_i hba
        refine List.pairwise_cons.mpr ⟨fun c hc => ?_, ih hl⟩
        rcases mem_of_mem_insert hc with rfl | hc
        · exact hba
        · exact hb c hc
      · exact h

section Total

variable (htri : ∀ a b : α, ¬ lt a b → ¬ lt b a → a = b)

include htri

theorem mem_insert_self (a : α) (l : List α) : a ∈ insert lt a l := by
  induction l with
  | nil => simp [insert]
  | cons b l ih =>
    simp only [insert]
    split
    · simp
    · split
      · exact List.mem_cons_of_mem _ ih
      · rename_i h1 h2
        simp [htri a b h1 h2]

theorem head_insert {a b : α} {l : List α} (h : (insert lt a l).head? = some b) (hne : b ≠ a) :
    lt b a ∧ l.head? = some b := by
  cases l with
  | nil => simp [insert, hne.symm] at h
  | cons c l =>
    simp only [insert] at h
    split at h
    · simp [hne.symm] at h
    · rename_i hac
      split at h
      · rename_i hca
        rw [List.head?_cons, Option.some.injEq] at h
        subst h
        exact ⟨hca, rfl⟩
      · rename_i hca
        rw [List.head?_cons, Option.some.injEq] at h
        subst h
        exact absurd (htri a c hac hca).symm hne

theorem find_eq {a b : α} {l : List α} (h : find lt a l = some b) : b = a ∧ a ∈ l := by
  unfold find lowerBound at h
  cases hd : l.dropWhile (fun b => lt b a) with
  | nil => simp [hd] at h
  | cons c l' =>
    simp only [hd] at h
    split at h
    · simp at h
    · rename_i hac
      rw [Option.some.injEq] at h
      subst h
      have hca : ¬ lt c a := by
        have hn := List.head?_dropWhile_not (fun b => decide (lt b a)) l
        simpa [hd] using hn
      have hm : c ∈ l := (List.dropWhile_sublist _).subset (hd ▸ List.mem_cons_self)
      obtain rfl := htri a c hac hca
      exact ⟨rfl, hm⟩

end Total

theorem find_of_mem (hirr : ∀ a, ¬ lt a a) {a : α} {l : List α} (h : Ascending lt l) (ha : a ∈ l) :
    find lt a l = some a := by
  have hd : ∃ l', l.dropWhile (fun b => decide (lt b a)) = a :: l' := by
    induction l with
    | nil => simp at ha
    | cons b l ih =>
      obtain ⟨hb, hl⟩ := List.pairwise_cons.mp h
      rcases List.mem_cons.mp ha with rfl | ha
      · exact ⟨l, by simp [hirr]⟩
      · obtain ⟨l', hl'⟩ := ih hl ha
        exact ⟨l', by simpa [hb a ha] using hl'⟩
  obtain ⟨l', hl'⟩ := hd
  unfold find lowerBound
  simp [hl', hirr]

theorem insert_perm {a : α} {l : List α} (h : ∀ b ∈ l, lt a b ∨ lt b a) : (insert lt a l).Perm (a :: l) := by
  induction l with
  | nil => exact .refl _
  | cons b l ih =>
    rw [List.forall_mem_cons] at h
    unfold insert
    split
    · exact .refl _
    · rename_i hab
      rw [if_pos (h.1.resolve_left hab)]
      exact ((ih h.2).cons b).trans (.swap a b l)

/-- A set comes back from its elements in any order. -/
theorem foldl_insert_perm (htrans : ∀ a b c, lt a b → lt b c → lt a c) (hirr : ∀ a, ¬ lt a a) {s l : List α}
    (h : Ascending lt s) (hp : l.Perm s) : l.foldl (fun s a => insert lt a s) [] = s := by
  have hcompare : s.Pairwise fun a b => lt a b ∨ lt b a := h.imp .inl
  have hl : l.Pairwise fun a b => lt a b ∨ lt b a := hcompare.perm hp.symm Or.symm
  have hfold : ∀ (l t : List α), Ascending lt t → (l.Pairwise fun a b => lt a b ∨ lt b a) →
      (∀ a ∈ l, ∀ b ∈ t, lt a b ∨ lt b a) →
        Ascending lt (l.foldl (fun s a => insert lt a s) t) ∧ (l.foldl (fun s a => insert lt a s) t).Perm (l ++ t) := by
    intro l
    induction l with
    | nil => exact fun t ht _ _ => ⟨ht, .refl t⟩
    | cons a l ih =>
      intro t ht hl hlt
      obtain ⟨ha, hl⟩ := List.pairwise_cons.mp hl
      have hins := insert_perm (hlt a List.mem_cons_self)
      obtain ⟨hasc, hperm⟩ := ih (insert lt a t) (ht.insert htrans a) hl fun b hb c hc => by
        rcases List.mem_cons.mp (hins.mem_iff.mp hc) with rfl | hc
        · exact (ha b hb).symm
        · exact hlt b (List.mem_cons_of_mem _ hb) c hc
      exact ⟨hasc, hperm.trans ((hins.append_left l).trans List.perm_middle)⟩
  obtain ⟨hasc, hperm⟩ := hfold l [] .nil hl fun _ _ _ hb => absurd hb List.not_mem_nil
  rw [List.append_nil] at hperm
  exact (hperm.trans hp).eq_of_pairwise (fun a b _ _ hab hba => absurd (htrans a b a hab hba) (hirr a)) hasc h

omit [DecidableRel lt] in
theorem Ascending.nodup (hirr : ∀ a, ¬ lt a a) {l : List α} (h : Ascending lt l) : l.Nodup := by
  refine List.Pairwise.imp (fun {a b} hab he => ?_) h
  subst he
  exact hirr a hab

omit [DecidableRel lt] in
theorem Ascending.congr {r : α → α → Prop} {l : List α} (h : Ascending lt l)
    (hc : ∀ a ∈ l, ∀ b ∈ l, lt a b → r a b) : Ascending r l :=
  List.Pairwise.imp_of_mem (fun ha hb hab => hc _ ha _ hb hab) h

omit [DecidableRel lt] in
/-- In ascending order a property that goes down along the order holds up to a cut. -/
theorem Ascending.takeWhile_eq_filter {l : List α} (h : Ascending lt l) {p : α → Bool}
    (hp : ∀ a ∈ l, ∀ b ∈ l, lt a b → p b = true → p a = true) : l.takeWhile p = l.filter p := by
  induction l with
  | nil => rfl
  | cons a l ih =>
    obtain ⟨ha, hl⟩ := List.pairwise_cons.mp h
    have hrest := ih hl fun b hb c hc => hp b (List.mem_cons_of_mem _ hb) c (List.mem_cons_of_mem _ hc)
    cases hpa : p a with
    | true => rw [List.takeWhile_cons_of_pos hpa, List.filter_cons_of_pos hpa, hrest]
    | false =>
      rw [List.takeWhile_cons_of_neg (by simp [hpa]), List.filter_cons_of_neg (by simp [hpa]), eq_comm,
        List.filter_eq_nil_iff]
      intro b hb hpb
      have := hp a List.mem_cons_self b (List.mem_cons_of_mem _ hb) (ha b hb) hpb
      rw [hpa] at this
      cases this

theorem find_key {κ : Type} [LinearOrder κ] (key : α → κ) {l : List α} (h : Ascending (fun a b => key a < key b) l)
    (a : α) : find (fun a b => key a < key b) a l = l.find? fun b => key b = key a := by
  induction l with
  | nil => rfl
  | cons b l ih =>
    obtain ⟨hb, hl⟩ := List.pairwise_cons.mp h
    obtain hlt | heq | hgt := lt_trichotomy (key b) (key a)
    · have hf : find (fun a b => key a < key b) a (b :: l) = find (fun a b => key a < key b) a l := by
        simp only [find, lowerBound, List.dropWhile_cons, hlt, decide_true, if_true]
      rw [hf, ih hl, List.find?_cons_of_neg (by simpa using hlt.ne)]
    · simp [find, lowerBound, heq]
    · have hnone : (b :: l).find? (fun b => key b = key a) = none := by
        rw [List.find?_eq_none]
        intro c hc
        have hac : key a < key c := by
          obtain rfl | hc := List.mem_cons.mp hc
          · exact hgt
          · exact hgt.trans (hb c hc)
        simpa using hac.ne'
      rw [hnone]
      simp [find, lowerBound, hgt, hgt.le.not_gt]

end Windgent.OrderedSet
