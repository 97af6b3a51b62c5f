import ContextFree.Grammar.Lemmas
import Mathlib.Data.List.Perm.Subperm
import Mathlib.Order.Defs.Unbundled

/-!
This module contains that equivalent grammars are those with the same canonical form, which lists the
productions in ascending order. The order of productions leaves no choice: it is total, and no two
productions have the same place in it.
-/

namespace ContextFree

namespace Symbol

theorem compare_eq_lt_iff {s t : Symbol} : compare s t = .lt ↔ s.name < t.name :=
  compareOfLessAndEq_eq_lt

theorem compare_words_eq_lt_iff {u v : List Symbol} :
    compare u v = .lt ↔ List.Lex (fun s t => s.name < t.name) u v := by
  induction u generalizing v with
  | nil => cases v <;> simp
  | cons s u ih =>
    cases v with
    | nil => simp
    | cons t v =>
      rw [List.compare_cons_cons, Ordering.then_eq_lt, compare_eq_lt_iff, ih,
        Std.LawfulEqOrd.compare_eq_iff_eq, List.cons_lex_cons_iff]

end Symbol

namespace Production

/--
The production comes first in ascending order: its left-hand side does, or its right-hand side does
and the left-hand sides are the same. Of two right-hand sides the one comes first that has the first
smaller symbol, or that the other one continues.
-/
def Before (p q : Production) : Prop :=
  p.lhs.name < q.lhs.name ∨
    p.lhs = q.lhs ∧ List.Lex (fun s t => s.name < t.name) p.rhs q.rhs

variable {p q : Production} {ps qs : List Production}

theorem compare_eq_lt_iff : compare p q = .lt ↔ p.Before q := by
  have lexicographic :
      compare p q = (compare p.lhs q.lhs).then (compare p.rhs q.rhs) := rfl
  rw [lexicographic, Ordering.then_eq_lt, Symbol.compare_eq_lt_iff,
    Std.LawfulEqOrd.compare_eq_iff_eq, Symbol.compare_words_eq_lt_iff, Before]

theorem compare_eq_gt_iff : compare p q = .gt ↔ q.Before p :=
  Std.OrientedCmp.gt_iff_lt.trans compare_eq_lt_iff

theorem before_of_isLE (h : (compare p q).isLE = true) (different : p ≠ q) : p.Before q := by
  rw [← compare_eq_lt_iff]
  exact (Ordering.isLE_iff_eq_lt_or_eq_eq.1 h).resolve_right fun same =>
    different (Std.LawfulEqOrd.eq_of_compare same)

instance : IsStrictTotalOrder Production Before where
  irrefl p := by
    rw [← compare_eq_lt_iff, Std.ReflOrd.compare_self]
    nofun
  trans p q r := by
    simp only [← compare_eq_lt_iff]
    exact Std.TransCmp.lt_trans
  trichotomous p q notBefore notAfter := by
    rw [← compare_eq_lt_iff] at notBefore
    rw [← compare_eq_gt_iff] at notAfter
    apply Std.LawfulEqOrd.eq_of_compare
    cases order : compare p q with
    | lt => exact absurd order notBefore
    | eq => rfl
    | gt => exact absurd order notAfter

theorem sort_perm (ps : List Production) : (sort ps).Perm ps :=
  List.mergeSort_perm ps _

theorem pairwise_sort (ps : List Production) :
    (sort ps).Pairwise fun p q => (compare p q).isLE = true := by
  apply List.pairwise_mergeSort
  · intro p q r
    exact Std.TransCmp.isLE_trans
  · intro p q
    rw [Std.OrientedOrd.eq_swap (a := q)]
    cases compare p q <;> rfl

/--
The order of a list is lost when it is sorted, and nothing else is.
-/
theorem sort_eq_sort_iff : sort ps = sort qs ↔ ps.Perm qs := by
  constructor
  · intro same
    have sorted : ps.Perm (sort ps) := (sort_perm ps).symm
    rw [same] at sorted
    exact sorted.trans (sort_perm qs)
  · intro perm
    have sorted : (sort ps).Perm (sort qs) := ((sort_perm ps).trans perm).trans (sort_perm qs).symm
    refine sorted.eq_of_pairwise (fun p q _ _ before after => ?_) (pairwise_sort ps) (pairwise_sort qs)
    exact Std.LawfulEqOrd.eq_of_compare (Std.OrientedCmp.isLE_antisymm before after)

theorem pairwise_before_sort (nodup : ps.Nodup) : (sort ps).Pairwise Before := by
  have different : (sort ps).Nodup := (sort_perm ps).symm.nodup nodup
  exact ((pairwise_sort ps).and different).imp fun both => before_of_isLE both.1 both.2

end Production

namespace OrderedSet

universe u

variable {α : Type u} {s t : OrderedSet α}

/--
Elements of a set can be looked for in the other one alone if they are as many there.
-/
theorem equiv_iff_size_eq : s ≈ t ↔ s.size = t.size ∧ ∀ a, a ∈ s → a ∈ t := by
  constructor
  · intro same
    exact ⟨size_eq_of_equiv same, fun a => (same a).1⟩
  · rintro ⟨size, sub⟩
    have subset : s.toList ⊆ t.toList := fun a => sub a
    have inside := List.subperm_of_subset s.nodup subset
    exact equiv_iff_perm.2 (inside.perm_of_length_le (Nat.le_of_eq size.symm))

end OrderedSet

namespace Grammar

open Production

variable {g h : Grammar}

theorem canonical_eq_iff :
    g.canonical = h.canonical ↔
      g.start = h.start ∧ g.productions.toList.Perm h.productions.toList := by
  rw [canonical, canonical, Prod.mk.injEq, sort_eq_sort_iff]

/--
Productions are strictly and totally ordered, where only the same ones are taken for equal. So each
set of productions is listed in ascending order in one way, and grammars are equivalent, having the same
start variable and the same productions in any order, just if what they are hashed by is the same.
-/
theorem equiv_iff_canonical_eq :
    IsStrictTotalOrder Production Before ∧
      (∀ p q : Production, (compare p q = .lt ↔ p.Before q) ∧ (compare p q = .eq ↔ p = q) ∧
        (compare p q = .gt ↔ q.Before p)) ∧
      (∀ g : Grammar, g.canonical.1 = g.start ∧ g.canonical.2.Perm g.productions.toList ∧
        g.canonical.2.Pairwise Before) ∧
      ∀ g h : Grammar,
        (g ≈ h ↔ g.start = h.start ∧ g.productions.size = h.productions.size ∧
          ∀ p ∈ g.productions, p ∈ h.productions) ∧
        (g ≈ h ↔ g.canonical = h.canonical) := by
  refine ⟨inferInstance, fun p q => ?_, fun g => ?_, fun g h => ?_⟩
  · exact ⟨compare_eq_lt_iff, Std.LawfulEqOrd.compare_eq_iff_eq, compare_eq_gt_iff⟩
  · exact ⟨rfl, sort_perm _, pairwise_before_sort g.productions.nodup⟩
  · rw [canonical_eq_iff, equiv_iff, ← OrderedSet.equiv_iff_perm, ← OrderedSet.equiv_iff_size_eq]
    exact ⟨Iff.rfl, Iff.rfl⟩

end Grammar

end ContextFree
