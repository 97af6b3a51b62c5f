import ContextFree.Grammar.LeftRecursion

/-!
This module contains Greibach normal form: every production starts with a terminal, except that the
start variable may be erased if it occurs on no right-hand side. A grammar is converted to it in
rounds, each of which replaces all leading variables by their right-hand sides.
-/

namespace ContextFree

namespace Grammar

/--
What is wrong with a production in a grammar with this start variable and these variables, if
anything.
-/
def violationOf (start : Symbol) (vars : OrderedSet Symbol) (p : Production) :
    Option GreibachViolation :=
  match p.first? with
  | none => if p.lhs = start then none else some (.erasing p)
  | some s => if s ∈ vars then some (.leadingVariable p) else none

def startErased (g : Grammar) : Bool :=
  Production.epsilon g.start ∈ g.productions

/--
What keeps the grammar from being in Greibach normal form: the first production with a violation, or
else an erasable start variable on a right-hand side.
-/
def greibachViolation? (g : Grammar) : Option GreibachViolation :=
  (g.productions.toList.findSome? (violationOf g.start g.vars)).or
    (if g.startErased ∧ g.occursInRhs g.start then some (.erasableStart g.start) else none)

def isGreibach (g : Grammar) : Bool :=
  g.greibachViolation?.isNone

def checkGreibach (g : Grammar) : Except GrammarError Grammar :=
  match g.greibachViolation? with
  | some violation => .error (.notGreibach violation)
  | none => .ok g

def substituteLeading (g : Grammar) : Grammar :=
  { g with productions := g.productions.substituteLeading (Productions.startsWith g.vars) }

/--
One round of the conversion: remove erasing productions and left recursion, then replace every
leading variable by its right-hand sides.
-/
def greibachRound (g : Grammar) : Except GrammarError Grammar := do
  let erased ← g.removeEpsilon
  let straight ← erased.removeLeftRecursion
  straight.substituteLeading.checkedAgainst straight

/--
Up to so many rounds, as long as the grammar is not in Greibach normal form.
-/
def greibachRounds : (rounds : Nat) → Grammar → Except GrammarError Grammar
  | 0, g => g.checkGreibach
  | rounds + 1, g =>
    if g.isGreibach then .ok g else g.greibachRound >>= greibachRounds rounds

/--
Convert the grammar to Greibach normal form. A grammar in that form stays as it is. After the first
round no variable leads back to itself, so a chain of variables that lead to one another has no more
links than there are variables, and every further round makes it shorter.
-/
def toGreibach (g : Grammar) : Except GrammarError Grammar :=
  if g.isGreibach then
    .ok g
  else do
    let first ← g.greibachRound
    first.greibachRounds first.vars.size

end Grammar

end ContextFree
