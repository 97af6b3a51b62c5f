import ContextFree.Grammar.Basic
import ContextFree.Symbol.Fresh

/-!
This module contains the replacement of a start variable that occurs on a right-hand side by one
that does not.
-/

namespace ContextFree

namespace Grammar

/--
A start variable that is no symbol of the grammar yet, named after the present one.
-/
def freshStart (g : Grammar) : Symbol :=
  .fresh g.symbols g.start

/--
If the start variable occurs on a right-hand side, derive it from a fresh start variable.
-/
def isolateStart (g : Grammar) : Except GrammarError Grammar :=
  if g.occursInRhs g.start then
    let start := g.freshStart
    (Grammar.addProduction ⟨start, g.productions⟩ ⟨start, [g.start]⟩).checkedAgainst g
  else
    .ok g

end Grammar

end ContextFree
