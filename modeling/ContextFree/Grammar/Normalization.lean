import ContextFree.Grammar.Greibach
import ContextFree.Grammar.Reversal

/-!
This module contains the conversion to Greibach normal form with options that change the grammar
beforehand.
-/

namespace ContextFree

structure NormalizationOptions where
  /--
  Read every production backwards, for generators that build words from right to left.
  -/
  reversed : Bool
  deriving DecidableEq, Inhabited, Repr

namespace Grammar

def applyOptions (g : Grammar) (options : NormalizationOptions) : Grammar :=
  if options.reversed then g.reverse else g

def normalize (g : Grammar) (options : NormalizationOptions) : Except GrammarError Grammar :=
  (g.applyOptions options).toGreibach

end Grammar

end ContextFree
