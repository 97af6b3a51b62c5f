import ContextFree.Grammar.Basic
import ContextFree.OrderedSet.Lemmas

/-!
This module contains the mirror image of a grammar, whose words are those of the grammar read
backwards.
-/

namespace ContextFree

namespace Grammar

def reverse (g : Grammar) : Grammar :=
  { g with productions := g.productions.map Production.reverse }

@[simp]
theorem start_reverse (g : Grammar) : g.reverse.start = g.start :=
  rfl

@[simp]
theorem toList_reverse (g : Grammar) :
    g.reverse.productions.toList = g.productions.toList.map Production.reverse :=
  OrderedSet.toList_map _ fun a b h => by
    rw [← Production.reverse_reverse a, h, Production.reverse_reverse]

end Grammar

end ContextFree
