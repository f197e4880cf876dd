import Mathlib.Data.List.Basic
import Mathlib.Data.List.Nodup
import Mathlib.Data.List.Pairwise
import Mathlib.Tactic.Common

namespace Windgent

/-- A document: scalars, sequences, and maps with scalar keys. -/
inductive Yaml (α : Type) where
  | null
  | scalar (text : α)
  | seq (items : List (Yaml α))
  | map (entries : List (α × Yaml α))

structure Member (α : Type) where
  keys : List α
  place : List Nat
  node : Yaml α

namespace Yaml

variable {α β : Type}

mutual

/-- The members at and below a node, in document order. -/
def members (keys : List α) (place : List Nat) : Yaml α → List (Member α)
  | .null => [⟨keys, place, .null⟩]
  | .scalar text => [⟨keys, place, .scalar text⟩]
  | .seq items => [⟨keys, place, .seq items⟩]
  | .map entries => ⟨keys, place, .map entries⟩ :: entryMembers keys place 0 entries

def entryMembers (keys : List α) (place : List Nat) (i : Nat) : List (α × Yaml α) → List (Member α)
  | [] => []
  | (key, node) :: entries =>
    members (keys ++ [key]) (place ++ [i]) node ++ entryMembers keys place (i + 1) entries

end

mutual

def mapKeys (f : α → α) : Yaml α → Yaml α
  | .null => .null
  | .scalar text => .scalar text
  | .seq items => .seq (mapItemKeys f items)
  | .map entries => .map (mapEntryKeys f entries)

def mapItemKeys (f : α → α) : List (Yaml α) → List (Yaml α)
  | [] => []
  | node :: items => mapKeys f node :: mapItemKeys f items

def mapEntryKeys (f : α → α) : List (α × Yaml α) → List (α × Yaml α)
  | [] => []
  | (key, node) :: entries => (f key, mapKeys f node) :: mapEntryKeys f entries

end

end Yaml

def Member.mapKeys {α : Type} (f : α → α) (m : Member α) : Member α := ⟨m.keys.map f, m.place, m.node.mapKeys f⟩

namespace Yaml

variable {α β : Type}

mutual

theorem members_mapKeys (f : α → α) (keys : List α) (place : List Nat) :
    ∀ node : Yaml α, members (keys.map f) place (node.mapKeys f) = (members keys place node).map (Member.mapKeys f)
  | .null => rfl
  | .scalar _ => rfl
  | .seq _ => by simp [members, mapKeys, Member.mapKeys]
  | .map entries => by
    simp only [members, mapKeys, Member.mapKeys, List.map_cons, entryMembers_mapKeys f keys place 0 entries]

theorem entryMembers_mapKeys (f : α → α) (keys : List α) (place : List Nat) (i : Nat) :
    ∀ entries : List (α × Yaml α),
      entryMembers (keys.map f) place i (mapEntryKeys f entries) =
        (entryMembers keys place i entries).map (Member.mapKeys f)
  | [] => rfl
  | (key, node) :: entries => by
    have hn := members_mapKeys f (keys ++ [key]) (place ++ [i]) node
    have he := entryMembers_mapKeys f keys place (i + 1) entries
    rw [List.map_append, List.map_singleton] at hn
    rw [mapEntryKeys, entryMembers, entryMembers, List.map_append, hn, he]

end

mutual

theorem keys_of_mem_members {m : Member α} (keys : List α) (place : List Nat) :
    ∀ node : Yaml α, m ∈ members keys place node → keys <+: m.keys
  | .null, h | .scalar _, h | .seq _, h => by
    rw [members, List.mem_singleton] at h
    exact h ▸ List.prefix_refl keys
  | .map entries, h => by
    rcases List.mem_cons.mp h with rfl | h
    · exact List.prefix_refl keys
    · exact keys_of_mem_entryMembers keys place 0 entries h

theorem keys_of_mem_entryMembers {m : Member α} (keys : List α) (place : List Nat) (i : Nat) :
    ∀ entries : List (α × Yaml α), m ∈ entryMembers keys place i entries → keys <+: m.keys
  | (key, node) :: entries, h => by
    rcases List.mem_append.mp h with h | h
    · exact (List.prefix_append keys [key]).trans (keys_of_mem_members (keys ++ [key]) (place ++ [i]) node h)
    · exact keys_of_mem_entryMembers keys place (i + 1) entries h

end

mutual

theorem place_of_mem_members {m : Member α} (keys : List α) (place : List Nat) :
    ∀ node : Yaml α, m ∈ members keys place node → place <+: m.place
  | .null, h | .scalar _, h | .seq _, h => by
    rw [members, List.mem_singleton] at h
    exact h ▸ List.prefix_refl place
  | .map entries, h => by
    rcases List.mem_cons.mp h with rfl | h
    · exact List.prefix_refl place
    · obtain ⟨j, -, hj⟩ := place_of_mem_entryMembers keys place 0 entries h
      exact (List.prefix_append place [j]).trans hj

theorem place_of_mem_entryMembers {m : Member α} (keys : List α) (place : List Nat) (i : Nat) :
    ∀ entries : List (α × Yaml α), m ∈ entryMembers keys place i entries →
      ∃ j, i ≤ j ∧ place ++ [j] <+: m.place
  | (key, node) :: entries, h => by
    rcases List.mem_append.mp h with h | h
    · exact ⟨i, Nat.le_refl i, place_of_mem_members (keys ++ [key]) (place ++ [i]) node h⟩
    · obtain ⟨j, hj, hm⟩ := place_of_mem_entryMembers keys place (i + 1) entries h
      exact ⟨j, by omega, hm⟩

end

theorem place_inj {place q : List Nat} {i j : Nat} (hi : place ++ [i] <+: q) (hj : place ++ [j] <+: q) : i = j := by
  have h : place ++ [i] = place ++ [j] := by
    rw [List.prefix_iff_eq_take.mp hi, List.prefix_iff_eq_take.mp hj, List.length_append, List.length_append]
    rfl
  simpa using h

mutual

theorem nodup_members (keys : List α) (place : List Nat) :
    ∀ node : Yaml α, ((members keys place node).map Member.place).Nodup
  | .null | .scalar _ | .seq _ => List.nodup_singleton place
  | .map entries => by
    rw [members, List.map_cons, List.nodup_cons]
    refine ⟨fun h => ?_, nodup_entryMembers keys place 0 entries⟩
    obtain ⟨m, hm, hp⟩ := List.mem_map.mp h
    obtain ⟨j, -, hj⟩ := place_of_mem_entryMembers keys place 0 entries hm
    have hl := hj.length_le
    simp only [hp, List.length_append, List.length_singleton] at hl
    omega

theorem nodup_entryMembers (keys : List α) (place : List Nat) (i : Nat) :
    ∀ entries : List (α × Yaml α), ((entryMembers keys place i entries).map Member.place).Nodup
  | [] => List.nodup_nil
  | (key, node) :: entries => by
    rw [entryMembers, List.map_append, List.nodup_append]
    refine ⟨nodup_members (keys ++ [key]) (place ++ [i]) node, nodup_entryMembers keys place (i + 1) entries, ?_⟩
    intro p hp q hq he
    obtain ⟨m, hm, rfl⟩ := List.mem_map.mp hp
    obtain ⟨m', hm', rfl⟩ := List.mem_map.mp hq
    have h := place_of_mem_members (keys ++ [key]) (place ++ [i]) node hm
    obtain ⟨j, hj, h'⟩ := place_of_mem_entryMembers keys place (i + 1) entries hm'
    rw [he] at h
    have := place_inj h h'
    omega

end

/-- Two selections from one list agree when they agree on each of its elements, if what they
select still tells the element's place. -/
theorem filterMap_eq_iff {μ π : Type} {place : μ → π} {source : β → π} {f g : μ → Option β} {l : List μ}
    (hl : (l.map place).Nodup) (hf : ∀ m b, f m = some b → source b = place m)
    (hg : ∀ m b, g m = some b → source b = place m) :
    l.filterMap f = l.filterMap g ↔ ∀ m ∈ l, f m = g m := by
  induction l with
  | nil => simp
  | cons m l ih =>
    rw [List.map_cons, List.nodup_cons] at hl
    -- what the rest of the list gives comes from another place
    have hother : ∀ k : μ → Option β, (∀ m b, k m = some b → source b = place m) →
        ∀ b ∈ l.filterMap k, source b ≠ place m := by
      intro k hk b hb he
      obtain ⟨m', hm', hb⟩ := List.mem_filterMap.mp hb
      exact hl.1 (List.mem_map.mpr ⟨m', hm', by rw [← hk m' b hb, he]⟩)
    rw [List.forall_mem_cons, ← ih hl.2]
    cases hfm : f m with
    | none =>
      cases hgm : g m with
      | none => simp [hfm, hgm]
      | some b =>
        rw [List.filterMap_cons_none hfm, List.filterMap_cons_some hgm]
        refine ⟨fun h => ?_, fun h => absurd h.1 (by simp)⟩
        exact absurd (hg m b hgm) (hother f hf b (h ▸ List.mem_cons_self))
    | some a =>
      cases hgm : g m with
      | none =>
        rw [List.filterMap_cons_some hfm, List.filterMap_cons_none hgm]
        refine ⟨fun h => ?_, fun h => absurd h.1 (by simp)⟩
        exact absurd (hf m a hfm) (hother g hg a (h ▸ List.mem_cons_self))
      | some b => simp [hfm, hgm]

end Yaml

end Windgent
