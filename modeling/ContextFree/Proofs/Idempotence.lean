import ContextFree.Proofs.GreibachRounds
import ContextFree.Proofs.StartIsolation
import ContextFree.Transformation

/-!
This module contains that a transformation that brings grammars into a normal form changes nothing
when it is applied once more, not even the order of productions. What it leaves is in the normal form
that it is for, whichever way it came about, and a grammar in that form is left as it is.
-/

namespace ContextFree

namespace Grammar

open Productions

variable {g r : Grammar}

/--
The normal form of pruning: all productions are of needed variables, and none of them replaces a
variable by itself.
-/
def Pruned (g : Grammar) : Prop :=
  ∀ p ∈ g.productions, g.productions.Needs g.start p.lhs ∧ p.isSelfLoop = false

theorem pruned_useful : (Grammar.mk g.start g.useful).Pruned := by
  intro p mem
  obtain ⟨_, needed, proper⟩ := mem_useful.1 mem
  exact ⟨needs_useful_iff.2 needed, proper⟩

theorem pruned_of_prune (h : g.prune = .ok r) : r.Pruned := by
  obtain ⟨rfl, _⟩ := prune_eq_ok_iff.1 h
  exact pruned_useful

theorem useful_of_pruned (h : g.Pruned) : g.useful = g.productions := by
  apply OrderedSet.ext_toList
  refine List.filter_eq_self.2 fun p mem => ?_
  rw [decide_eq_true_eq, mem_reachable_iff]
  exact h p mem

theorem prune_of_pruned (h : g.Pruned) : g.prune = .ok g := by
  refine prune_eq_ok_iff.2 ⟨?_, fun v isVar terminal => ?_⟩
  · rw [useful_of_pruned h]
  · exact (mem_terminals.1 terminal).2 isVar

theorem isolated_of_isolateStart (h : g.isolateStart = .ok r) : r.occursInRhs r.start = false := by
  rw [isolateStart_eq] at h
  cases h
  split
  · rename_i occurs
    exact occursInRhs_withFreshStart occurs
  · rename_i occurs
    exact Bool.eq_false_iff.2 occurs

theorem isolateStart_of_isolated (h : g.occursInRhs g.start = false) :
    g.isolateStart = .ok g := by
  rw [isolateStart_eq, h, if_neg Bool.false_ne_true]

theorem toGreibach_of_isGreibach (h : g.isGreibach = true) : g.toGreibach = .ok g := by
  unfold toGreibach
  rw [if_pos h]

end Grammar

namespace Transformation

open Grammar

variable {t : Transformation} {g r : Grammar}

/--
The transformations that bring a grammar into a normal form.
-/
def isNormalizing : Transformation → Bool
  | prune | isolateStart | removeEpsilon | removeLeftRecursion | toGreibach => true
  | reverse | applyOptions _ | normalize _ | reparse | regroup | restart _ | addProduction _ =>
    false

/--
The grammar is in the normal form that the transformation is for.
-/
def Normal (t : Transformation) (g : Grammar) : Prop :=
  match t with
  | prune => g.Pruned
  | isolateStart => g.occursInRhs g.start = false
  | removeEpsilon => g.productions.ErasesNothingInside g.start
  | removeLeftRecursion => g.isLeftRecursive = false
  | toGreibach => g.isGreibach = true
  | reverse | applyOptions _ | normalize _ | reparse | regroup | restart _ | addProduction _ => False

theorem normal_of_apply (normalizing : t.isNormalizing = true) (h : t.apply g = .ok r) :
    t.Normal r := by
  cases t with
  | prune => exact pruned_of_prune h
  | isolateStart => exact isolated_of_isolateStart h
  | removeEpsilon => exact (erased_of_removeEpsilon h).inside
  | removeLeftRecursion => exact isLeftRecursive_removeLeftRecursion h
  | toGreibach => exact isGreibach_toGreibach h
  | reverse | applyOptions | normalize | reparse | regroup | restart | addProduction =>
    cases normalizing

theorem apply_of_normal (h : t.Normal g) : t.apply g = .ok g := by
  cases t with
  | prune => exact prune_of_pruned h
  | isolateStart => exact isolateStart_of_isolated h
  | removeEpsilon => exact removeEpsilon_of_inside h
  | removeLeftRecursion => exact removeLeftRecursion_of_straight h
  | toGreibach => exact toGreibach_of_isGreibach h
  | reverse | applyOptions | normalize | reparse | regroup | restart | addProduction => cases h

/--
The grammars that such a transformation leaves as they are are those in its normal form.
-/
theorem apply_eq_self_iff (normalizing : t.isNormalizing = true) :
    t.apply g = .ok g ↔ t.Normal g :=
  ⟨normal_of_apply normalizing, apply_of_normal⟩

/--
What comes out of a transformation that brings grammars into a normal form comes out unchanged when
the transformation is applied once more.
-/
theorem apply_again (normalizing : t.isNormalizing = true) (h : t.apply g = .ok r) :
    t.apply r = .ok r :=
  (apply_eq_self_iff normalizing).2 (normal_of_apply normalizing h)

set_option maxRecDepth 4000 in
theorem apply_again_changes_nothing :
    removeEpsilon.apply brackets = .ok outerBrackets ∧
      removeEpsilon.apply outerBrackets = .ok outerBrackets ∧
      removeLeftRecursion.apply roundabout = .ok straightRoundabout ∧
      removeLeftRecursion.apply straightRoundabout = .ok straightRoundabout ∧
      toGreibach.apply sums = .ok greibachSums ∧
      toGreibach.apply greibachSums = .ok greibachSums := by
  have erased : removeEpsilon.apply brackets = .ok outerBrackets := by rfl
  have straightened : removeLeftRecursion.apply roundabout = .ok straightRoundabout := by rfl
  have converted : toGreibach.apply sums = .ok greibachSums := by rfl
  exact ⟨erased, apply_again rfl erased, straightened, apply_again rfl straightened, converted,
    apply_again rfl converted⟩

end Transformation

end ContextFree
