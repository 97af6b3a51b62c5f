import ContextFree.Error
import ContextFree.OrderedSet.Basic

/-!
This module contains sets of productions and context-free grammars. Neither lists terminals and
variables: a symbol is a variable just if it is the left-hand side of a production.

The order of the productions is part of a grammar, and all answers follow it. Two grammars are
equivalent (`≈`) if they have the same start variable and the same productions in any order.
-/

namespace ContextFree

/--
A set of productions in the order in which they were first given.
-/
abbrev Productions := OrderedSet Production

namespace Productions

def of (ps : Productions) (v : Symbol) : List Production :=
  ps.toList.filter (·.lhs = v)

/--
All symbols in the order of their first appearance, where a left-hand side appears before the
right-hand side.
-/
def symbols (ps : Productions) : OrderedSet Symbol :=
  .ofList (ps.toList.flatMap fun p => p.lhs :: p.rhs)

/--
The left-hand sides in the order of their first appearance.
-/
def vars (ps : Productions) : OrderedSet Symbol :=
  .ofList (ps.toList.map Production.lhs)

/--
The symbols without a production, in the order of their first appearance.
-/
def terminals (ps : Productions) : OrderedSet Symbol :=
  let vars := ps.vars
  ps.symbols.filter (· ∉ vars)

def occursInRhs (ps : Productions) (s : Symbol) : Bool :=
  ps.toList.any (s ∈ ·.rhs)

end Productions

structure Grammar where
  start : Symbol
  productions : Productions
  deriving DecidableEq, Inhabited

namespace Grammar

/--
The grammar of a list of productions, of which the first copy of each counts.
-/
def ofProductions (start : Symbol) (productions : List Production) : Grammar :=
  ⟨start, .ofList productions⟩

/--
Add a production at the end, unless the grammar has it already.
-/
def addProduction (g : Grammar) (p : Production) : Grammar :=
  { g with productions := g.productions.insert p }

def productionsOf (g : Grammar) (v : Symbol) : List Production :=
  g.productions.of v

@[inherit_doc Productions.symbols]
def symbols (g : Grammar) : OrderedSet Symbol :=
  g.productions.symbols

@[inherit_doc Productions.vars]
def vars (g : Grammar) : OrderedSet Symbol :=
  g.productions.vars

@[inherit_doc Productions.terminals]
def terminals (g : Grammar) : OrderedSet Symbol :=
  g.productions.terminals

def occursInRhs (g : Grammar) (s : Symbol) : Bool :=
  g.productions.occursInRhs s

/--
The grammars have the same start variable and the same productions, whatever their order.
-/
instance : Setoid Grammar where
  r g h := g.start = h.start ∧ g.productions ≈ h.productions
  iseqv := {
    refl := fun _ => ⟨rfl, Setoid.refl _⟩
    symm := fun h => ⟨h.1.symm, Setoid.symm h.2⟩
    trans := fun h h' => ⟨h.1.trans h'.1, Setoid.trans h.2 h'.2⟩
  }

theorem equiv_iff {g h : Grammar} :
    g ≈ h ↔ g.start = h.start ∧ g.productions ≈ h.productions :=
  Iff.rfl

instance (g h : Grammar) : Decidable (g ≈ h) :=
  inferInstanceAs (Decidable (g.start = h.start ∧ g.productions ≈ h.productions))

/--
What equivalent grammars have in common, and what they can be hashed by: the start variable and the
productions in ascending order.
-/
def canonical (g : Grammar) : Symbol × List Production :=
  (g.start, Production.sort g.productions.toList)

/--
Accept `g` as what a transformation makes of `source`, unless a variable of `source` has lost all
its productions and is now taken for a terminal; then the first such variable is the error. The
start variable may be left without productions: its language is empty.
-/
def checkedAgainst (g source : Grammar) : Except GrammarError Grammar :=
  let vars := source.vars
  match g.terminals.toList.find? (· ∈ vars) with
  | some v => .error (.underivable v)
  | none => .ok g

end Grammar

end ContextFree
