import ContextFree.Proofs.Nullability

/-!
This module contains that the search for nullable variables comes to an end by itself, and finds those
that derive the empty word. The search goes through the productions again and again until it has gone
through all of them without finding a variable.
-/

namespace ContextFree

namespace Productions

/--
Add the left-hand side of a production if it is not in the set but all symbols of the right-hand side
are, and make a note of it.
-/
def noteNullable (state : OrderedSet Symbol × Bool) (p : Production) : OrderedSet Symbol × Bool :=
  if p.lhs ∉ state.1 ∧ ∀ s ∈ p.rhs, s ∈ state.1 then (state.1.insert p.lhs, true) else state

/--
Go through the productions once, and tell whether a variable has been found.
-/
def nullablePass (ps : Productions) (nullable : OrderedSet Symbol) : OrderedSet Symbol × Bool :=
  ps.toList.foldl noteNullable (nullable, false)

variable {ps : Productions}

theorem noteNullable_eq (nullable : OrderedSet Symbol) (noted : Bool) (p : Production) :
    noteNullable (nullable, noted) p =
      (addNullable nullable p, noted || decide (addNullable nullable p ≠ nullable)) := by
  by_cases found : p.lhs ∉ nullable ∧ ∀ s ∈ p.rhs, s ∈ nullable
  · have added : addNullable nullable p = nullable.insert p.lhs := if_pos found.2
    have changed : nullable.insert p.lhs ≠ nullable := by
      intro same
      exact found.1 (same ▸ OrderedSet.mem_insert.2 (.inr rfl))
    rw [noteNullable, if_pos found, added, decide_eq_true changed, Bool.or_true]
  · have same : addNullable nullable p = nullable := by
      unfold addNullable
      split
      · rename_i all
        exact OrderedSet.insert_of_mem (Decidable.not_not.1 fun new => found ⟨new, all⟩)
      · rfl
    rw [noteNullable, if_neg found, same]
    simp

theorem nullablePass_eq (nullable : OrderedSet Symbol) :
    ps.nullablePass nullable =
      (ps.nullableScan nullable, decide (ps.nullableScan nullable ≠ nullable)) := by
  have pass := foldl_noted_eq (r := fun s t : OrderedSet Symbol => s.size < t.size)
    (fun _ _ _ => Nat.lt_trans) (fun _ => Nat.lt_irrefl _) addNullable_eq_or_size_lt noteNullable_eq
    ps.toList nullable false
  rwa [Bool.false_or] at pass

theorem exists_repeatsIn_nullable (ps : Productions) :
    ∃ n ≤ ps.vars.size + 1, RepeatsIn ps.nullablePass n ∅ ps.nullable := by
  have none : ∀ v, v ∈ (∅ : OrderedSet Symbol) → v ∈ ps.vars := by
    intro v hv
    exact absurd hv (OrderedSet.not_mem_empty v)
  refine exists_repeatsIn_stabilize (fun set => ∀ v, v ∈ set → v ∈ ps.vars)
    (fun set => ps.vars.size - set.size) none (fun _ => mem_vars_of_mem_nullableScan)
    (fun _ => left_nullableScan_lt) ?_ nullablePass_eq
  omega

end Productions

namespace Grammar

open Productions

/--
The search is over after one pass more than there are variables at the latest, and what it has found
then are the variables that derive the empty word.
-/
theorem nullable_exact (g : Grammar) :
    (∃ n ≤ g.vars.size + 1, RepeatsIn g.productions.nullablePass n ∅ g.nullable) ∧
      (∀ n found, RepeatsIn g.productions.nullablePass n ∅ found → found = g.nullable) ∧
      ∀ s, s ∈ g.nullable ↔ s ∈ g.vars ∧ g.productions.Derives [s] [] := by
  obtain ⟨n, few, search⟩ := exists_repeatsIn_nullable g.productions
  refine ⟨⟨n, few, search⟩, fun m found other => (other.unique search).2, fun s => ?_⟩
  constructor
  · intro isNullable
    exact ⟨mem_vars_of_mem_nullable isNullable, mem_nullable_iff_derives.1 isNullable⟩
  · rintro ⟨_, erased⟩
    exact mem_nullable_iff_derives.2 erased

/--
The first pass finds `B`, and the second one `A` and with it `S`.
-/
example :
    (ofProductions ⟨"S"⟩
      [.ofNames "A" ["a"], .ofNames "A" ["B", "B"], .ofNames "S" ["A", "B"], .ofNames "B" [],
        .ofNames "C" ["c", "B"]]).nullable.toList = [⟨"B"⟩, ⟨"A"⟩, ⟨"S"⟩] := by
  decide

end Grammar

end ContextFree
