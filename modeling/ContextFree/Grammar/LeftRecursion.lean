import ContextFree.Grammar.Epsilon
import ContextFree.Grammar.Leading

/-!
This module contains the removal of left recursion. The variables are treated one after another:
leading occurrences of variables treated before are replaced by their right-hand sides, and then the
direct left recursion of the variable itself, `V ::= V α | β`, is turned to the right by an auxiliary
variable: `V ::= β | β A` and `A ::= α | α A`.
-/

namespace ContextFree

/--
Productions on their way to being free of left recursion.
-/
structure Untangling where
  productions : Productions
  /--
  The names that no auxiliary variable may have.
  -/
  used : OrderedSet Symbol
  treated : List Symbol

namespace Productions

/--
Replace the leading `w` of the productions of `v` by its right-hand sides.
-/
def unfoldLeading (v : Symbol) (ps : Productions) (w : Symbol) : Productions :=
  ps.substituteLeading fun p => p.lhs = v ∧ p.first? = some w

def withoutSelfLoops (ps : Productions) (v : Symbol) : Productions :=
  ps.filter fun p => ¬ (p.lhs = v ∧ p.isSelfLoop)

def recursiveOf (ps : Productions) (v : Symbol) : List Production :=
  (ps.of v).filter (·.first? = some v)

def otherOf (ps : Productions) (v : Symbol) : List Production :=
  (ps.of v).filter (·.first? ≠ some v)

def bothWays (v aux : Symbol) (word : List Symbol) : List Production :=
  [⟨v, word⟩, ⟨v, word ++ [aux]⟩]

/--
Turn the direct left recursion of `v` to the right: its own productions come last, each with and
without `aux` behind it, and then those of `aux`, for what follows `v` in the recursive ones.
-/
def turnRight (ps : Productions) (v aux : Symbol) : Productions :=
  OrderedSet.insertMany (ps.filter (·.lhs ≠ v))
    ((ps.otherOf v).flatMap (bothWays v aux ·.rhs) ++
      (ps.recursiveOf v).flatMap (bothWays aux aux ·.tail))

/--
Remove the direct left recursion of `v`. If there is some, the auxiliary variable for it is fresh and
joins the used names.
-/
def removeDirectRecursion (ps : Productions) (used : OrderedSet Symbol) (v : Symbol) :
    Productions × OrderedSet Symbol :=
  let ps := ps.withoutSelfLoops v
  if ps.recursiveOf v = [] then
    (ps, used)
  else
    let aux := Symbol.fresh used v
    (ps.turnRight v aux, used.insert aux)

end Productions

namespace Untangling

def ofProductions (ps : Productions) (used : OrderedSet Symbol) : Untangling :=
  ⟨ps, used, []⟩

def treat (state : Untangling) (v : Symbol) : Untangling :=
  let unfolded := state.treated.foldl (Productions.unfoldLeading v) state.productions
  let straight := unfolded.removeDirectRecursion state.used v
  ⟨straight.1, straight.2, state.treated ++ [v]⟩

end Untangling

namespace Grammar

/--
Treat variables of the grammar one after another. A production that erases the start variable takes
no part in that.
-/
def untangling (g : Grammar) (vars : List Symbol) : Untangling :=
  vars.foldl Untangling.treat
    (.ofProductions (g.productions.erase (.epsilon g.start)) g.symbols)

/--
The productions after all variables have been treated. One that erases the start variable comes back
at the end.
-/
def untangled (g : Grammar) : Productions :=
  let productions := (g.untangling g.vars.toList).productions
  let erasing := Production.epsilon g.start
  if erasing ∈ g.productions then productions.insert erasing else productions

/--
Remove left recursion. A grammar without any stays as it is; every other one is pruned and its
erasing productions are removed, and if it is still left recursive then its variables are treated
and it is pruned again.
-/
def removeLeftRecursion (g : Grammar) : Except GrammarError Grammar :=
  if g.isLeftRecursive then do
    let pruned ← g.prune
    let erased ← pruned.removeEpsilon
    if erased.isLeftRecursive then
      let result ← prune ⟨erased.start, erased.untangled⟩
      result.checkedAgainst erased
    else
      .ok erased
  else
    .ok g

end Grammar

end ContextFree
