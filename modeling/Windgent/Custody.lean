import Mathlib.Data.List.Nodup
import Mathlib.Tactic.Common

namespace Windgent.Custody

variable {H : Type} [DecidableEq H]

/-- Each of the items below `next` is held exactly once, by its owner. -/
def Kept (held : H → List Nat) (next : Nat) : Prop :=
  ∃ owner : Nat → H, ∀ h n, (held h).count n = if n < next ∧ owner n = h then 1 else 0

variable {held held' : H → List Nat} {next : Nat}

theorem Kept.nodup (hk : Kept held next) (h : H) : (held h).Nodup := by
  obtain ⟨owner, hc⟩ := hk
  rw [List.nodup_iff_count_le_one]
  intro n
  rw [hc h n]
  split <;> omega

theorem Kept.lt (hk : Kept held next) {h : H} {n : Nat} (hn : n ∈ held h) : n < next := by
  obtain ⟨owner, hc⟩ := hk
  have hpos := List.count_pos_iff.mpr hn
  rw [hc h n] at hpos
  split at hpos
  · rename_i hlt
    exact hlt.1
  · omega

theorem Kept.unique (hk : Kept held next) {h h' : H} {n : Nat} (hn : n ∈ held h) (hn' : n ∈ held h') : h = h' := by
  obtain ⟨owner, hc⟩ := hk
  have howner : ∀ {k : H}, n ∈ held k → owner n = k := by
    intro k hm
    have hpos := List.count_pos_iff.mpr hm
    rw [hc k n] at hpos
    split at hpos
    · rename_i hk
      exact hk.2
    · omega
  exact (howner hn).symm.trans (howner hn')

theorem Kept.exists (hk : Kept held next) {n : Nat} (hn : n < next) : ∃ h, (held h).count n = 1 := by
  obtain ⟨owner, hc⟩ := hk
  exact ⟨owner n, by rw [hc, if_pos ⟨hn, rfl⟩]⟩

theorem kept_empty : Kept (fun _ : H => []) 0 ↔ Nonempty H := by
  constructor
  · rintro ⟨owner, -⟩
    exact ⟨owner 0⟩
  · rintro ⟨h⟩
    exact ⟨fun _ => h, fun k n => by simp⟩

theorem Kept.congr (hk : Kept held next) (h : ∀ k n, (held' k).count n = (held k).count n) : Kept held' next := by
  obtain ⟨owner, hc⟩ := hk
  exact ⟨owner, fun k n => (h k n).trans (hc k n)⟩

theorem Kept.move (hk : Kept held next) {a b : H} (hab : a ≠ b) (xs : List Nat)
    (ha : ∀ n, (held a).count n = (held' a).count n + xs.count n)
    (hb : ∀ n, (held' b).count n = (held b).count n + xs.count n)
    (ho : ∀ h n, h ≠ a → h ≠ b → (held' h).count n = (held h).count n) : Kept held' next := by
  obtain ⟨owner, hc⟩ := hk
  refine ⟨fun n => if n ∈ xs then b else owner n, fun h n => ?_⟩
  by_cases hx : n ∈ xs
  · have hpos := List.count_pos_iff.mpr hx
    have hold := ha n
    rw [hc a n] at hold
    have hin : n < next ∧ owner n = a := by
      by_contra hno
      rw [if_neg hno] at hold
      omega
    rw [if_pos hin] at hold
    have hown : owner n ≠ b := fun h => hab (hin.2.symm.trans h)
    have hone : xs.count n = 1 := by omega
    simp only [hx, if_true, hin.1, true_and]
    by_cases h1 : h = b
    · subst h1
      rw [hb n, hc h n, if_neg (fun hh => hown hh.2), hone, if_pos rfl]
    · rw [if_neg (Ne.symm h1)]
      by_cases h2 : h = a
      · subst h2
        omega
      · rw [ho h n h2 h1, hc h n, if_neg (fun hh => h2 (hh.2.symm.trans hin.2))]
  · have hzero := List.count_eq_zero.mpr hx
    simp only [hx, if_false]
    rw [← hc h n]
    by_cases h1 : h = b
    · subst h1
      rw [hb n, hzero, Nat.add_zero]
    · by_cases h2 : h = a
      · subst h2
        rw [ha n, hzero, Nat.add_zero]
      · exact ho h n h2 h1

theorem Kept.create (hk : Kept held next) {a : H} (ha : ∀ n, (held' a).count n = (held a).count n + [next].count n)
    (ho : ∀ h n, h ≠ a → (held' h).count n = (held h).count n) : Kept held' (next + 1) := by
  obtain ⟨owner, hc⟩ := hk
  refine ⟨fun n => if n = next then a else owner n, fun h n => ?_⟩
  have hcount : [next].count n = if n = next then 1 else 0 := by
    by_cases hn : n = next
    · simp [hn]
    · simp [hn, Ne.symm hn]
  by_cases hn : n = next
  · subst hn
    by_cases hh : h = a
    · subst hh
      rw [ha n, hc h n, hcount]
      simp
    · rw [ho h n hh, hc h n]
      simp [Ne.symm hh]
  · have hlt : n < next + 1 ↔ n < next := by omega
    simp only [hn, if_false, hlt]
    rw [← hc h n]
    by_cases hh : h = a
    · subst hh
      rw [ha n, hcount, if_neg hn, Nat.add_zero]
    · exact ho h n hh

end Windgent.Custody
