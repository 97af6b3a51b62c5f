import ContextFree.Proofs.EpsilonRemoval
import ContextFree.Proofs.Straightening

/-!
This module contains the correctness of the removal of left recursion. A grammar is pruned, its
erasing productions are removed, its variables are treated, and it is pruned again. Pruning is what
finds out that a variable has lost all its productions.
-/

namespace ContextFree

namespace Grammar

open Productions

/--
What the removal of left recursion makes of a grammar that has some.
-/
structure Straightened (g r : Grammar) : Prop where
  straight : r.isLeftRecursive = false
  words : ∀ w, r.Generates w ↔ g.Generates w
  inside : r.productions.ErasesNothingInside r.start

variable {g r result : Grammar} {auxs : List Symbol} {w : List Symbol}

theorem removeLeftRecursion_of_straight (h : g.isLeftRecursive = false) :
    g.removeLeftRecursion = .ok g := by
  unfold removeLeftRecursion
  rw [if_neg]
  rw [h]
  exact Bool.false_ne_true

theorem removeLeftRecursion_eq_ok_iff (recursive : g.isLeftRecursive = true) :
    g.removeLeftRecursion = .ok r ↔
      ∃ pruned, g.prune = .ok pruned ∧ ∃ erased, pruned.removeEpsilon = .ok erased ∧
        if erased.isLeftRecursive then
          ∃ result, prune ⟨erased.start, erased.untangled⟩ = .ok result ∧
            result.checkedAgainst erased = .ok r
        else
          r = erased := by
  unfold removeLeftRecursion
  rw [if_pos recursive]
  simp only [bind_eq_ok_iff]
  refine exists_congr fun pruned => and_congr_right fun _ => ?_
  refine exists_congr fun erased => and_congr_right fun _ => ?_
  split
  · exact bind_eq_ok_iff
  · rw [Except.ok.injEq, eq_comm]

theorem exists_mem_vars_of_isLeftRecursive (h : g.isLeftRecursive = true) : ∃ v, v ∈ g.vars := by
  apply Classical.byContradiction
  intro none
  have straight : g.productions.isLeftRecursive = false := by
    rw [isLeftRecursive_eq_false_iff]
    intro v hv
    exact none ⟨v, mem_vars_of_mem_leadingCore hv⟩
  unfold isLeftRecursive at h
  rw [straight] at h
  cases h

theorem prune_of_straight (straight : g.isLeftRecursive = false) :
    g.prune = .ok ⟨g.start, g.useful⟩ := by
  refine prune_eq_ok_iff.2 ⟨rfl, fun v isVar lost => ?_⟩
  obtain ⟨occurs, notVar⟩ := Productions.mem_terminals.1 lost
  have needed := needs_useful_iff.1 (needs_of_mem_symbols_useful occurs)
  obtain ⟨p, mem, rfl⟩ := mem_vars.1 isVar
  exact notVar (lhs_mem_vars (mem_useful.2 ⟨mem, needed, isSelfLoop_of_straight straight mem⟩))

theorem Untangled.not_mem_auxs {v : Symbol} (untangled : Untangled g auxs) (isVar : v ∈ g.vars) :
    ¬ v ∈ auxs :=
  fun isAux => untangled.new v isAux (mem_symbols_of_mem_vars isVar)

theorem Untangled.complete (untangled : Untangled g auxs)
    (pruned : prune ⟨g.start, g.untangled⟩ = .ok result)
    (checked : result.checkedAgainst g = .ok r) :
    r = ⟨g.start, useful ⟨g.start, g.untangled⟩⟩ ∧
      r.productions.Complete (g.vars.insertMany auxs) := by
  obtain ⟨rfl, kept⟩ := checkedAgainst_eq_ok_iff.1 checked
  obtain ⟨rfl, derivable⟩ := prune_eq_ok_iff.1 pruned
  refine ⟨rfl, fun v hv => untangled.lhs v (vars_useful_subset hv), ?_⟩
  intro v hv
  -- the last check covers the old variables, that of the pruning the auxiliary ones
  rcases OrderedSet.mem_insertMany.1 hv with old | isAux
  · exact kept v old
  · exact derivable v (untangled.isVar v isAux)

theorem Untangled.straightened (untangled : Untangled g auxs) (isVar : g.start ∈ g.vars)
    (pruned : prune ⟨g.start, g.untangled⟩ = .ok result)
    (checked : result.checkedAgainst g = .ok r) : Straightened g r := by
  obtain ⟨rfl, complete⟩ := untangled.complete pruned checked
  have sub : ∀ p ∈ useful ⟨g.start, g.untangled⟩, p ∈ g.untangled := fun p mem =>
    (mem_useful.1 mem).1
  refine ⟨isLeftRecursive_eq_false_mono untangled.straight sub, ?_, untangled.inside.mono sub⟩
  intro w
  have isVar' : g.start ∈ g.vars.insertMany auxs := OrderedSet.mem_insertMany.2 (.inl isVar)
  rw [generates_useful_iff (g := ⟨g.start, g.untangled⟩) complete isVar',
    untangled.words g.start (untangled.not_mem_auxs isVar)]
  rw [Generates, yields_iff, and_iff_right isVar]

theorem straightened_of_removeLeftRecursion (recursive : g.isLeftRecursive = true)
    (h : g.removeLeftRecursion = .ok r) : Straightened g r := by
  obtain ⟨pruned, hp, erased, he, h⟩ := (removeLeftRecursion_eq_ok_iff recursive).1 h
  have inside := (erased_of_removeEpsilon he).inside
  have words : ∀ w, erased.Generates w ↔ g.Generates w := by
    intro w
    rw [generates_removeEpsilon_iff he, generates_prune_iff hp]
  split at h
  · rename_i recursive
    obtain ⟨result, hr, checked⟩ := h
    have trim := trim_removeEpsilon (trim_of_prune hp) he
    obtain ⟨v, hv⟩ := exists_mem_vars_of_isLeftRecursive recursive
    obtain ⟨auxs, untangled⟩ := exists_untangled inside
    have straightened := untangled.straightened (trim.start_mem_vars hv) hr checked
    exact ⟨straightened.straight, fun w => (straightened.words w).trans (words w),
      straightened.inside⟩
  · rename_i straight
    subst h
    exact ⟨Bool.eq_false_iff.2 straight, words, inside⟩

theorem removeLeftRecursion_cases (h : g.removeLeftRecursion = .ok r) :
    g.isLeftRecursive = false ∧ r = g ∨ g.isLeftRecursive = true ∧ Straightened g r := by
  cases recursive : g.isLeftRecursive with
  | false =>
    rw [removeLeftRecursion_of_straight recursive] at h
    cases h
    exact .inl ⟨rfl, rfl⟩
  | true => exact .inr ⟨rfl, straightened_of_removeLeftRecursion recursive h⟩

theorem isLeftRecursive_removeLeftRecursion (h : g.removeLeftRecursion = .ok r) :
    r.isLeftRecursive = false := by
  rcases removeLeftRecursion_cases h with ⟨straight, rfl⟩ | ⟨_, straightened⟩
  · exact straight
  · exact straightened.straight

theorem generates_removeLeftRecursion_iff (h : g.removeLeftRecursion = .ok r) :
    r.Generates w ↔ g.Generates w := by
  rcases removeLeftRecursion_cases h with ⟨_, rfl⟩ | ⟨_, straightened⟩
  · rfl
  · exact straightened.words w

theorem inside_removeLeftRecursion (inside : g.productions.ErasesNothingInside g.start)
    (h : g.removeLeftRecursion = .ok r) : r.productions.ErasesNothingInside r.start := by
  rcases removeLeftRecursion_cases h with ⟨_, rfl⟩ | ⟨_, straightened⟩
  · exact inside
  · exact straightened.inside

/--
Removing left recursion leaves none and keeps the language. If there was some then at most the start
variable has the empty word, and only if it occurs on no right-hand side.
-/
theorem removeLeftRecursion_straightens (h : g.removeLeftRecursion = .ok r) :
    r.isLeftRecursive = false ∧ (∀ w, r.Generates w ↔ g.Generates w) ∧
      (g.isLeftRecursive = true →
        ∀ v, r.productions.Derives [v] [] → v = r.start ∧ r.occursInRhs v = false) := by
  refine ⟨isLeftRecursive_removeLeftRecursion h, fun w => generates_removeLeftRecursion_iff h, ?_⟩
  intro recursive v
  exact eq_start_of_derives_nil (straightened_of_removeLeftRecursion recursive h).inside

/--
A grammar whose start variable leads back to itself through another one, which can be erased.
-/
def roundabout : Grammar :=
  ofProductions ⟨"S"⟩
    [.ofNames "S" ["A", "a"], .ofNames "S" ["b"], .ofNames "A" ["S", "c"], .ofNames "A" []]

def straightRoundabout : Grammar :=
  ofProductions ⟨"S"⟩
    [.ofNames "S" ["A", "a"], .ofNames "S" ["a"], .ofNames "S" ["b"],
      .ofNames "A" ["a", "c"], .ofNames "A" ["a", "c", "A2"],
      .ofNames "A" ["b", "c"], .ofNames "A" ["b", "c", "A2"],
      .ofNames "A2" ["a", "c"], .ofNames "A2" ["a", "c", "A2"]]

set_option maxRecDepth 4000 in
theorem removeLeftRecursion_straightens_roundabout :
    roundabout.removeLeftRecursion = .ok straightRoundabout ∧
      straightRoundabout.isLeftRecursive = false ∧
      (∀ w, straightRoundabout.Generates w ↔ roundabout.Generates w) ∧
      (roundabout.isLeftRecursive = true → ∀ v, straightRoundabout.productions.Derives [v] [] →
        v = straightRoundabout.start ∧ straightRoundabout.occursInRhs v = false) := by
  have converted : roundabout.removeLeftRecursion = .ok straightRoundabout := by rfl
  exact ⟨converted, removeLeftRecursion_straightens converted⟩

end Grammar

end ContextFree
