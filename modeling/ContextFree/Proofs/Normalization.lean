import ContextFree.Grammar.Normalization
import ContextFree.Proofs.GreibachConversion
import ContextFree.Proofs.Reversal

/-!
This module contains what normalization makes of the language of a grammar: the conversion to
Greibach normal form keeps it, and before that all words may be read backwards.
-/

namespace ContextFree

namespace Grammar

variable {g r : Grammar} {w : List Symbol} {options : NormalizationOptions}

theorem generates_applyOptions_iff : (g.applyOptions options).Generates w ↔
    if options.reversed then ∃ u, g.Generates u ∧ u.reverse = w else g.Generates w := by
  unfold applyOptions
  split
  · exact generates_reverse_iff
  · rfl

/--
Reading productions backwards reads the words backwards, loses no production, and is undone by doing
it again. Normalization leads to Greibach normal form, and the words are those of the grammar, read
backwards if that is asked for.
-/
theorem normalize_mirrors (g : Grammar) :
    (∀ w, g.reverse.Generates w ↔ ∃ u, g.Generates u ∧ u.reverse = w) ∧
      g.reverse.productions.toList = g.productions.toList.map Production.reverse ∧
      g.reverse.reverse = g ∧
      ∀ options r, g.normalize options = .ok r → r.isGreibach = true ∧
        ∀ w, r.Generates w ↔
          if options.reversed then ∃ u, g.Generates u ∧ u.reverse = w else g.Generates w := by
  refine ⟨fun w => generates_reverse_iff, toList_reverse g, reverse_reverse g, ?_⟩
  intro options r h
  refine ⟨isGreibach_toGreibach h, fun w => ?_⟩
  rw [generates_toGreibach_iff h, generates_applyOptions_iff]

/--
Any number of `x` before one `y`, which is right recursive and becomes left recursive when it is
read backwards.
-/
def row : Grammar :=
  ofProductions ⟨"R"⟩ [.ofNames "R" ["x", "R"], .ofNames "R" ["y"]]

def mirroredRow : Grammar :=
  ofProductions ⟨"R"⟩
    [.ofNames "R" ["y"], .ofNames "R" ["y", "R2"], .ofNames "R2" ["x"], .ofNames "R2" ["x", "R2"]]

theorem normalize_mirrors_row :
    row.normalize ⟨true⟩ = .ok mirroredRow ∧ mirroredRow.isGreibach = true ∧
      ∀ w, mirroredRow.Generates w ↔ ∃ u, row.Generates u ∧ u.reverse = w := by
  have converted : row.normalize ⟨true⟩ = .ok mirroredRow := by rfl
  exact ⟨converted, (normalize_mirrors row).2.2.2 ⟨true⟩ mirroredRow converted⟩

end Grammar

end ContextFree
