/-!
This module contains the symbols that grammars are made of. Whether a symbol is a terminal or a
variable is a matter of the grammar that it is used in.
-/

namespace ContextFree

/--
A grammar symbol, known by its name. Any text is a name, also one that is empty or has blanks.
-/
structure Symbol where
  name : String
  deriving DecidableEq, Inhabited, Repr

namespace Symbol

instance : ToString Symbol where
  toString := name

/--
Symbols are ordered as their names are: character by character, by code point, and a name comes
before its continuations.
-/
instance : Ord Symbol where
  compare := compareOn name

instance : Std.TransOrd Symbol :=
  inferInstanceAs (Std.TransCmp (compareOn name))

instance : Std.LawfulEqOrd Symbol where
  eq_of_compare {a b} h := by
    cases a
    cases b
    exact congrArg Symbol.mk (Std.LawfulEqOrd.eq_of_compare h)

/--
How the empty word is written where text is meant for a reader.
-/
def emptyWord : String := "ε"

def spaced (word : List Symbol) : String :=
  " ".intercalate (word.map name)

end Symbol

end ContextFree
