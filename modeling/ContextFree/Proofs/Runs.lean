import ContextFree.Proofs.GreibachRounds
import ContextFree.Transformation

/-!
This module contains that no transformation fails on a productive grammar, however many of them are
applied one after another.
-/

namespace ContextFree

namespace Transformation

/--
The transformations that bring the whole grammar into another form.
-/
def isConversion : Transformation → Bool
  | prune | reverse | isolateStart | removeEpsilon | removeLeftRecursion | toGreibach
  | normalize _ => true
  | applyOptions _ | reparse | regroup | restart _ | addProduction _ => false

variable {g : Grammar} {t : Transformation} {ts : List Transformation}

theorem apply_of_productive (conversion : t.isConversion = true) (h : g.Productive) :
    ∃ r, t.apply g = .ok r ∧ r.Productive := by
  cases t with
  | prune => exact h.prune
  | reverse => exact ⟨g.reverse, rfl, h.reverse⟩
  | isolateStart => exact h.isolateStart
  | removeEpsilon => exact h.removeEpsilon
  | removeLeftRecursion => exact h.removeLeftRecursion
  | toGreibach => exact h.toGreibach
  | normalize options => exact h.normalize options
  | applyOptions | reparse | regroup | restart | addProduction => cases conversion

/--
On a productive grammar every one of a sequence of conversions succeeds and leaves a productive
grammar.
-/
theorem history_of_productive (conversions : ∀ t ∈ ts, t.isConversion = true)
    (h : g.Productive) :
    (∀ a ∈ history ts g, a.source.Productive ∧ ∃ r, a.outcome = .ok r ∧ r.Productive) ∧
      ∃ r, applyAll ts g = .ok r ∧ r.Productive := by
  induction ts generalizing g with
  | nil =>
    refine ⟨?_, g, rfl, h⟩
    intro a ha
    cases ha
  | cons t more ih =>
    obtain ⟨first, applied, productive⟩ :=
      apply_of_productive (conversions t List.mem_cons_self) h
    obtain ⟨later, all⟩ := ih (fun t ht => conversions t (List.mem_cons_of_mem _ ht)) productive
    constructor
    · intro a ha
      unfold history at ha
      rw [applied] at ha
      rcases List.mem_cons.1 ha with rfl | ha
      · exact ⟨h, first, rfl, productive⟩
      · exact later a ha
    · unfold applyAll
      rw [applied]
      exact all

theorem productive_brackets : Grammar.brackets.Productive := by
  intro v _ isVar
  have erased : Production.epsilon ⟨"S"⟩ ∈ Grammar.brackets.productions := by decide
  have only : v = ⟨"S"⟩ := by
    have all : ∀ v ∈ Grammar.brackets.vars.toList, v = ⟨"S"⟩ := by decide
    exact all v isVar
  subst only
  exact ⟨[], Grammar.yields_iff.2 ⟨isVar, .of_mem erased .nil⟩⟩

def oneOfEach : List Transformation :=
  [prune, reverse, isolateStart, removeEpsilon, removeLeftRecursion, toGreibach,
    normalize ⟨true⟩]

theorem history_of_productive_brackets :
    (∀ t ∈ oneOfEach, t.isConversion = true) ∧ Grammar.brackets.Productive ∧
      (∀ a ∈ history oneOfEach Grammar.brackets,
        a.source.Productive ∧ ∃ r, a.outcome = .ok r ∧ r.Productive) ∧
      ∃ r, applyAll oneOfEach Grammar.brackets = .ok r ∧ r.Productive := by
  have conversion : ∀ t ∈ oneOfEach, t.isConversion = true := by decide
  exact ⟨conversion, productive_brackets, history_of_productive conversion productive_brackets⟩

end Transformation

end ContextFree
