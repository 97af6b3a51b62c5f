import ContextFree.Proofs.FreshSearch
import ContextFree.Proofs.Turning

/-!
This module contains what the removal of the direct left recursion of a variable does to productions
that erase nothing: no production of the variable begins with it any more, and all variables that
there were keep their words. A variable that has nothing but recursive productions is left without
any.
-/

namespace ContextFree

namespace Productions

/--
What becomes of productions when the direct left recursion of `v` is removed. There may be one
variable more then.
-/
structure Straightens (ps : Productions) (vars : OrderedSet Symbol) (v : Symbol)
    (aux? : Option Symbol) (ps' : Productions) : Prop where
  words : ∀ s ∈ vars, ∀ w, Yields ps' (vars.insertMany aux?.toList) s w ↔ Yields ps vars s w
  lhs : ∀ p ∈ ps', p.lhs ∈ vars ∨ p.lhs ∈ aux?
  direct : ∀ p ∈ ps', p.lhs = v → p.first? ≠ some v
  nonempty : ∀ p ∈ ps', p.rhs ≠ []
  kept : (∃ p ∈ ps', p.lhs = v) ↔ ∃ p ∈ ps, p.lhs = v ∧ p.first? ≠ some v

variable {ps ps' : Productions} {vars used : OrderedSet Symbol} {v aux : Symbol}
  {aux? : Option Symbol} {w : List Symbol} {p : Production}

theorem recursiveOf_withoutSelfLoops_eq_nil_iff : (ps.withoutSelfLoops v).recursiveOf v = [] ↔
    ∀ p ∈ ps, p.lhs = v → p.first? = some v → p.rhs = [v] := by
  simp only [List.eq_nil_iff_forall_not_mem, mem_recursiveOf, mem_withoutSelfLoops]
  constructor
  · intro none p mem lhs starts
    apply Classical.byContradiction
    intro proper
    exact none p ⟨⟨mem, fun loop => proper loop.2⟩, lhs, starts⟩
  · rintro loops p ⟨⟨mem, proper⟩, lhs, starts⟩
    exact proper ⟨lhs, loops p mem lhs starts⟩

theorem mem_withoutSelfLoops_of_first (mem : p ∈ ps) (ends : p.first? ≠ some v) :
    p ∈ ps.withoutSelfLoops v := by
  refine mem_withoutSelfLoops.2 ⟨mem, fun loop => ends ?_⟩
  rw [Production.first?, loop.2]
  rfl

theorem Straightens.emptied (h : Straightens ps vars v aux? ps')
    (recursive : ∀ p ∈ ps, p.lhs = v → p.first? = some v) : ∀ p ∈ ps', p.lhs ≠ v := by
  intro p mem lhs
  obtain ⟨q, old, ofVar, ends⟩ := h.kept.1 ⟨p, mem, lhs⟩
  exact ends (recursive q old ofVar)

/--
A variable with nothing but recursive productions has no words, since it has the same ones when it
is left without a production.
-/
theorem Straightens.not_yields (h : Straightens ps vars v aux? ps') (isVar : v ∈ vars)
    (recursive : ∀ p ∈ ps, p.lhs = v → p.first? = some v) : ¬ Yields ps vars v w := by
  rw [← h.words v isVar, yields_iff]
  rintro ⟨p, mem, lhs, _⟩
  exact h.emptied recursive p mem lhs

section Removal

variable (nonempty : ∀ p ∈ ps, p.rhs ≠ []) (areVars : ∀ p ∈ ps, p.lhs ∈ vars)

include nonempty areVars

theorem straightens_withoutSelfLoops (direct : (ps.withoutSelfLoops v).recursiveOf v = []) :
    Straightens ps vars v none (ps.withoutSelfLoops v) := by
  have notFirst : ∀ p ∈ ps.withoutSelfLoops v, p.lhs = v → p.first? ≠ some v := by
    intro p mem lhs starts
    have recursive := mem_recursiveOf.2 ⟨mem, lhs, starts⟩
    rw [direct] at recursive
    cases recursive
  constructor
  · intro s hs w
    rw [Option.toList_none, OrderedSet.insertMany_nil, yields_iff_spells hs, yields_iff_spells hs]
    exact spells_withoutSelfLoops_iff
  · intro p mem
    exact .inl (areVars p (mem_withoutSelfLoops.1 mem).1)
  · exact notFirst
  · intro p mem
    exact nonempty p (mem_withoutSelfLoops.1 mem).1
  · constructor
    · rintro ⟨p, mem, lhs⟩
      exact ⟨p, (mem_withoutSelfLoops.1 mem).1, lhs, notFirst p mem lhs⟩
    · rintro ⟨p, mem, lhs, ends⟩
      exact ⟨p, mem_withoutSelfLoops_of_first mem ends, lhs⟩

theorem straightens_turnRight (isVar : v ∈ vars) (fresh : ¬ aux ∈ ps.symbols)
    (notVar : ¬ aux ∈ vars) :
    Straightens ps vars v (some aux) ((ps.withoutSelfLoops v).turnRight v aux) := by
  have old : ∀ p ∈ ps.withoutSelfLoops v, p ∈ ps := fun p mem => (mem_withoutSelfLoops.1 mem).1
  have nonempty' : ∀ p ∈ ps.withoutSelfLoops v, p.rhs ≠ [] := fun p mem => nonempty p (old p mem)
  have proper : ∀ p ∈ ps.withoutSelfLoops v, ¬ (p.lhs = v ∧ p.rhs = [v]) := fun p mem =>
    (mem_withoutSelfLoops.1 mem).2
  have ne : v ≠ aux := by
    rintro rfl
    exact notVar isVar
  have fresh' : ¬ aux ∈ (ps.withoutSelfLoops v).symbols := fun mem =>
    fresh (mem_symbols_mono old mem)
  constructor
  · intro s hs w
    have known : s ∈ vars.insert aux := OrderedSet.mem_insert.2 (.inl hs)
    have form : ¬ aux ∈ [s] := by
      rw [List.mem_singleton]
      rintro rfl
      exact notVar hs
    rw [Option.toList_some, OrderedSet.insertMany_cons, OrderedSet.insertMany_nil,
      yields_iff_spells known, yields_iff_spells hs, spells_turnRight_iff fresh' isVar notVar form,
      spells_withoutSelfLoops_iff]
  · intro p turned
    cases mem_turnRight_iff.1 turned with
    | old mem => exact .inl (areVars p (old p mem))
    | last | first => exact .inl isVar
    | auxLast | auxNext => exact .inr rfl
  · intro p turned lhs starts
    rcases (mem_turnRight_iff.1 turned).leads nonempty' proper starts with
      ⟨_, other⟩ | ⟨_, other, _⟩ | ⟨lhs', _⟩
    · exact other lhs
    · exact other rfl
    · exact ne (lhs.symm.trans lhs')
  · intro p turned
    exact (mem_turnRight_iff.1 turned).rhs_ne_nil nonempty' proper
  · constructor
    · rintro ⟨p, turned, lhs⟩
      cases mem_turnRight_iff.1 turned with
      | old _ other => exact absurd lhs other
      | last mem ends | first mem ends => exact ⟨_, old _ mem, rfl, ends⟩
      | auxLast | auxNext => exact absurd lhs.symm ne
    · rintro ⟨p, mem, rfl, ends⟩
      have kept := mem_withoutSelfLoops_of_first mem ends
      exact ⟨p, mem_turnRight_iff.2 (.last kept ends), rfl⟩

theorem exists_straightens (isVar : v ∈ vars) (symbolsUsed : ∀ s ∈ ps.symbols, s ∈ used)
    (varsUsed : ∀ s ∈ vars, s ∈ used) :
    ∃ aux? : Option Symbol,
      (ps.removeDirectRecursion used v).2 = used.insertMany aux?.toList ∧
      (∀ aux ∈ aux?, aux = Symbol.fresh used v) ∧
      (aux? = none ↔ ∀ p ∈ ps, p.lhs = v → p.first? = some v → p.rhs = [v]) ∧
      Straightens ps vars v aux? (ps.removeDirectRecursion used v).1 := by
  by_cases direct : (ps.withoutSelfLoops v).recursiveOf v = []
  · have result : ps.removeDirectRecursion used v = (ps.withoutSelfLoops v, used) := if_pos direct
    refine ⟨none, ?_, nofun, iff_of_true rfl ?_, ?_⟩
    · rw [result, Option.toList_none, OrderedSet.insertMany_nil]
    · exact recursiveOf_withoutSelfLoops_eq_nil_iff.1 direct
    · rw [result]
      exact straightens_withoutSelfLoops nonempty areVars direct
  · have result : ps.removeDirectRecursion used v =
        ((ps.withoutSelfLoops v).turnRight v (.fresh used v), used.insert (.fresh used v)) :=
      if_neg direct
    have free := Symbol.fresh_not_mem used v
    refine ⟨some (.fresh used v), ?_, ?_, iff_of_false nofun ?_, ?_⟩
    · rw [result, Option.toList_some, OrderedSet.insertMany_cons, OrderedSet.insertMany_nil]
    · rintro aux ⟨⟩
      rfl
    · rwa [← recursiveOf_withoutSelfLoops_eq_nil_iff]
    · rw [result]
      exact straightens_turnRight nonempty areVars isVar (fun mem => free (symbolsUsed _ mem))
        fun mem => free (varsUsed _ mem)

end Removal

/--
The direct left recursion of a variable is gone, nothing is erased as before, and every variable
that there was keeps its words. If the variable begins another production of its own than one that
replaces it by itself, there is an auxiliary variable, and a search that counts with words of 64
bits finds its name, which is not used before. A variable that begins all of its productions is left
without one, and it had no words.
-/
theorem removeDirectRecursion_exact (nonempty : ∀ p ∈ ps, p.rhs ≠ [])
    (areVars : ∀ p ∈ ps, p.lhs ∈ vars) (isVar : v ∈ vars)
    (symbolsUsed : ∀ s ∈ ps.symbols, s ∈ used) (varsUsed : ∀ s ∈ vars, s ∈ used)
    (few : used.size < Symbol.suffixLimit - 2) :
    ∃ aux? : Option Symbol,
      (ps.removeDirectRecursion used v).2 = used.insertMany aux?.toList ∧
      (∀ aux ∈ aux?, ¬ aux ∈ used ∧
        ∀ turns > 2 * used.size, Symbol.fresh? used v turns = some aux) ∧
      (aux? = none ↔ ∀ p ∈ ps, p.lhs = v → p.first? = some v → p.rhs = [v]) ∧
      Straightens ps vars v aux? (ps.removeDirectRecursion used v).1 ∧
      ((∀ p ∈ ps, p.lhs = v → p.first? = some v) →
        (∀ p ∈ (ps.removeDirectRecursion used v).1, p.lhs ≠ v) ∧ ∀ w, ¬ Yields ps vars v w) := by
  obtain ⟨aux?, joined, chosen, none_iff, straightens⟩ :=
    exists_straightens nonempty areVars isVar symbolsUsed varsUsed
  refine ⟨aux?, joined, fun aux isAux => ?_, none_iff, straightens, fun recursive => ?_⟩
  · rw [chosen aux isAux]
    exact ⟨Symbol.fresh_not_mem used v, fun _ => Symbol.fresh?_eq few⟩
  · exact ⟨straightens.emptied recursive, fun w => straightens.not_yields isVar recursive⟩

/--
Differences, where a variable also replaces itself, and one that has nothing but recursive
productions.
-/
def differences : Productions :=
  .ofList [.ofNames "E" ["E", "-", "T"], .ofNames "E" ["x"], .ofNames "E" ["E"],
    .ofNames "T" ["T", "E"], .ofNames "E" ["E", "E"], .ofNames "E" ["T"]]

def differenceVars : OrderedSet Symbol :=
  .ofList [⟨"E"⟩, ⟨"T"⟩]

def differenceNames : OrderedSet Symbol :=
  .ofList [⟨"E"⟩, ⟨"-"⟩, ⟨"T"⟩, ⟨"x"⟩, ⟨"E2"⟩]

theorem removeDirectRecursion_exact_differences :
    (differences.removeDirectRecursion differenceNames ⟨"E"⟩).1.toList =
        [.ofNames "T" ["T", "E"], .ofNames "E" ["x"], .ofNames "E" ["x", "E3"],
          .ofNames "E" ["T"], .ofNames "E" ["T", "E3"],
          .ofNames "E3" ["-", "T"], .ofNames "E3" ["-", "T", "E3"],
          .ofNames "E3" ["E"], .ofNames "E3" ["E", "E3"]] ∧
      (∀ p ∈ differences.toList, p.rhs ≠ []) ∧
      (∀ p ∈ differences.toList, p.lhs ∈ differenceVars) ∧
      (∀ s ∈ differences.symbols.toList, s ∈ differenceNames) ∧
      (∀ s ∈ differenceVars.toList, s ∈ differenceNames) ∧
      Symbol.fresh? differenceNames ⟨"E"⟩ 11 = some ⟨"E3"⟩ ∧
      Straightens differences differenceVars ⟨"E"⟩ (some ⟨"E3"⟩)
        (differences.removeDirectRecursion differenceNames ⟨"E"⟩).1 ∧
      (∀ p ∈ (differences.removeDirectRecursion differenceNames ⟨"T"⟩).1, p.lhs ≠ ⟨"T"⟩) ∧
      ∀ w, ¬ Yields differences differenceVars ⟨"T"⟩ w := by
  have nonempty : ∀ p ∈ differences.toList, p.rhs ≠ [] := by decide
  have areVars : ∀ p ∈ differences.toList, p.lhs ∈ differenceVars := by decide
  have symbolsUsed : ∀ s ∈ differences.symbols.toList, s ∈ differenceNames := by decide
  have varsUsed : ∀ s ∈ differenceVars.toList, s ∈ differenceNames := by decide
  have few : differenceNames.size < Symbol.suffixLimit - 2 := by decide
  have recursive : ∀ p ∈ differences.toList, p.lhs = ⟨"T"⟩ → p.first? = some ⟨"T"⟩ := by decide
  have removal {v : Symbol} (isVar : v ∈ differenceVars) :=
    removeDirectRecursion_exact nonempty areVars isVar symbolsUsed varsUsed few
  obtain ⟨aux?, _, chosen, none_iff, straightens, _⟩ := removal (v := ⟨"E"⟩) (by decide)
  obtain ⟨_, _, _, _, _, emptied⟩ := removal (v := ⟨"T"⟩) (by decide)
  have found : Symbol.fresh? differenceNames ⟨"E"⟩ 11 = some ⟨"E3"⟩ := by decide
  have same : aux? = some ⟨"E3"⟩ := by
    cases aux? with
    | none =>
      have loops := none_iff.1 rfl (.ofNames "E" ["E", "E"]) (by decide) rfl rfl
      exact absurd loops (by decide)
    | some aux => rw [← found, (chosen aux rfl).2 11 (by decide)]
  rw [same] at straightens
  exact ⟨by decide, nonempty, areVars, symbolsUsed, varsUsed, found, straightens,
    emptied recursive⟩

end Productions

end ContextFree
