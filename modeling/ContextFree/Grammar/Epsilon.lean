import ContextFree.Grammar.Nullable
import ContextFree.Grammar.Reachable
import ContextFree.Grammar.StartIsolation

/-!
This module contains the removal of productions that erase a variable. Occurrences of nullable
variables are dropped from right-hand sides instead. Afterwards only the start variable derives the
empty word, if any does, and then it occurs on no right-hand side.
-/

namespace ContextFree

namespace Productions

def ErasesOnly (ps : Productions) (start : Symbol) : Prop :=
  ∀ v ∈ ps.nullable.toList, v = start

instance (ps : Productions) (start : Symbol) : Decidable (ps.ErasesOnly start) :=
  inferInstanceAs (Decidable (∀ v ∈ ps.nullable.toList, v = start))

/--
The words that remain of a right-hand side when nullable symbols are kept or dropped in all ways
and purely nullable symbols are dropped. Words that keep an earlier symbol come first.
-/
def dropNullable (nullable purelyNullable : OrderedSet Symbol) :
    List Symbol → List (List Symbol)
  | [] => [[]]
  | s :: rest =>
    let words := dropNullable nullable purelyNullable rest
    if s ∈ purelyNullable then
      words
    else if s ∈ nullable then
      words.map (s :: ·) ++ words
    else
      words.map (s :: ·)

/--
The productions that take the place of `p`: those of the words that remain of its right-hand side.
Only the start variable keeps a production that erases it.
-/
def withoutNullable (start : Symbol) (nullable purelyNullable : OrderedSet Symbol)
    (p : Production) : List Production :=
  if p.isEpsilon then
    if p.lhs = start then [p] else []
  else
    ((dropNullable nullable purelyNullable p.rhs).filter
      fun word => word ≠ [] ∨ p.lhs = start).map (⟨p.lhs, ·⟩)

/--
Drop nullable symbols from all right-hand sides.
-/
def eraseNullable (ps : Productions) (start : Symbol) : Productions :=
  let nullable := ps.nullable
  let purelyNullable := ps.purelyNullable
  .ofList (ps.toList.flatMap (withoutNullable start nullable purelyNullable))

def eraseRounds (start : Symbol) : (rounds : Nat) → Productions → Productions
  | 0, ps => ps
  | rounds + 1, ps =>
    if ps.ErasesOnly start then ps else eraseRounds start rounds (ps.eraseNullable start)

end Productions

namespace Grammar

/--
The start variable derives the empty word and occurs on a right-hand side, where it would have to be
erased.
-/
def startErasedInside (g : Grammar) : Bool :=
  g.start ∈ g.nullable ∧ g.occursInRhs g.start

/--
The grammar whose start variable is fresh and is replaced by the present one or erased.
-/
def withErasableStart (g : Grammar) : Grammar :=
  let start := g.freshStart
  (Grammar.addProduction ⟨start, g.productions⟩ ⟨start, [g.start]⟩).addProduction (.epsilon start)

/--
Give the grammar a fresh start variable if the present one would have to be erased inside words.
-/
def isolateErasableStart (g : Grammar) : Grammar :=
  if g.startErasedInside then g.withErasableStart else g

/--
Remove the productions that erase a variable other than the start variable. A grammar in which
nothing but the start variable is nullable stays as it is, and every other one is pruned afterwards.
There are no more rounds than nullable variables.
-/
def eraseNullable (g : Grammar) : Except GrammarError Grammar :=
  if g.productions.ErasesOnly g.start then
    .ok g
  else do
    let erased := g.productions.eraseRounds g.start g.nullable.size
    let pruned ← prune ⟨g.start, erased⟩
    pruned.checkedAgainst g

/--
Remove the productions that erase a variable, except for one of a start variable that occurs on no
right-hand side.
-/
def removeEpsilon (g : Grammar) : Except GrammarError Grammar :=
  g.isolateErasableStart.eraseNullable

end Grammar

end ContextFree
