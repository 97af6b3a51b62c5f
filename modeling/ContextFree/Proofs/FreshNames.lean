import ContextFree.OrderedSet.Lemmas
import ContextFree.Symbol.Fresh
import Std.Data.String.ToNat

/-!
This module contains the freshness of the names that are chosen for auxiliary variables. There are
more candidates with a number behind the whole name than there are used names, so one of them is
free.
-/

namespace ContextFree

namespace Symbol

theorem numbered_injective {stem : String} {m n : Nat}
    (h : (⟨stem ++ toString m⟩ : Symbol) = ⟨stem ++ toString n⟩) : m = n := by
  have suffixes : toString m = toString n := (String.append_right_inj stem).1 (Symbol.mk.inj h)
  exact Nat.repr_injective suffixes

theorem nodup_numbered (stem : String) (first count : Nat) :
    (numbered stem first count).Nodup := by
  unfold numbered
  rw [List.Nodup, List.pairwise_map]
  apply List.nodup_range.imp
  intro i j different same
  have := numbered_injective same
  omega

theorem length_numbered (stem : String) (first count : Nat) :
    (numbered stem first count).length = count := by
  simp [numbered]

/--
There are more names with one stem than are used.
-/
theorem exists_numbered_not_mem (used : OrderedSet Symbol) (stem : String) (first : Nat) :
    ∃ s ∈ numbered stem first (used.size + 1), ¬ s ∈ used := by
  apply Classical.byContradiction
  intro none
  have allUsed : numbered stem first (used.size + 1) ⊆ used.toList := by
    intro s hs
    apply Classical.byContradiction
    intro free
    exact none ⟨s, hs, free⟩
  have bound := (nodup_numbered stem first (used.size + 1)).length_le_of_subset allUsed
  rw [length_numbered] at bound
  simp only [OrderedSet.size] at bound
  omega

theorem exists_candidate_not_mem (used : OrderedSet Symbol) (base : Symbol) :
    ∃ s ∈ base.candidates (used.size + 1), ¬ s ∈ used := by
  obtain ⟨s, mem, free⟩ := exists_numbered_not_mem used base.name 2
  exact ⟨s, List.mem_append_right _ mem, free⟩

theorem fresh_not_mem (used : OrderedSet Symbol) (base : Symbol) : ¬ fresh used base ∈ used := by
  unfold fresh
  split
  · obtain ⟨s, mem, free⟩ := exists_candidate_not_mem used base
    cases found : (base.candidates (used.size + 1)).find? (· ∉ used) with
    | none =>
      have allUsed := List.find?_eq_none.1 found s mem
      simp only [decide_eq_true_eq, Decidable.not_not] at allUsed
      exact absurd allUsed free
    | some t =>
      have := List.find?_some found
      simpa using this
  · assumption

end Symbol

end ContextFree
