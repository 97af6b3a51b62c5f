import ContextFree.Grammar.Basic
import ContextFree.OrderedMap.Basic

/-!
This module contains the formal definition of a grammar as text for a reader: variables, terminals,
productions and start variable, and then the productions with the alternatives of each variable on
one line.
-/

namespace ContextFree

namespace Grammar

/--
The start variable, even if it has no production, and then the other variables.
-/
def startAndVars (g : Grammar) : OrderedSet Symbol :=
  .insertMany (.ofList [g.start]) g.vars.toList

/--
The right-hand sides of each variable as they are written.
-/
def alternatives (g : Grammar) : OrderedMap Symbol (List String) :=
  .collect Production.lhs [] (fun texts p => texts ++ [p.rhsText]) g.productions.toList

/--
The line of a variable with all its alternatives, unless it has none.
-/
def line? (alternatives : OrderedMap Symbol (List String)) (v : Symbol) : Option String :=
  (alternatives.get? v).map fun texts =>
    "  " ++ v.name ++ " → " ++ " | ".intercalate texts ++ "\n"

def commaSeparated (symbols : OrderedSet Symbol) : String :=
  ", ".intercalate (symbols.toList.map Symbol.name)

def definition (g : Grammar) : String :=
  let vars := g.startAndVars
  let alternatives := g.alternatives
  "G = (\x7b" ++ commaSeparated vars ++ "\x7d, \x7b" ++ commaSeparated g.terminals ++
    "\x7d, P, " ++ g.start.name ++ ")\n\n" ++
    "P = \x7b\n" ++ String.join (vars.toList.filterMap (line? alternatives)) ++ "\x7d\n"

end Grammar

end ContextFree
