import ContextFree.Grammar.Greibach
import ContextFree.OrderedMap.Basic

/-!
This module contains grammars in Greibach normal form as generators of words consume them: grouped
by variable, with the leading terminal of each right-hand side set apart.
-/

namespace ContextFree

/--
A right-hand side in Greibach normal form.
-/
structure GreibachWord where
  terminal : Symbol
  tail : List Symbol
  deriving DecidableEq, Repr

namespace GreibachWord

/--
Right-hand sides are ordered as words are, symbol by symbol.
-/
instance : Ord GreibachWord where
  compare := compareLex (compareOn terminal) (compareOn tail)

instance : Std.TransOrd GreibachWord :=
  inferInstanceAs (Std.TransCmp (compareLex (compareOn terminal) (compareOn tail)))

instance : Std.LawfulEqOrd GreibachWord where
  eq_of_compare {v w} h := by
    obtain ⟨terminal, tail⟩ := compareLex_eq_eq.1 h
    cases v
    cases w
    congr
    · exact Std.LawfulEqOrd.eq_of_compare terminal
    · exact Std.LawfulEqOrd.eq_of_compare tail

def toList (w : GreibachWord) : List Symbol :=
  w.terminal :: w.tail

/--
The right-hand side of a production, unless it is empty.
-/
def ofProduction? (p : Production) : Option GreibachWord :=
  match p.rhs with
  | [] => none
  | terminal :: tail => some ⟨terminal, tail⟩

def toText (w : GreibachWord) : String :=
  Symbol.spaced w.toList

instance : ToString GreibachWord where
  toString := toText

end GreibachWord

/--
A variable with its right-hand sides.
-/
structure GreibachGroup where
  lhs : Symbol
  words : OrderedSet GreibachWord
  deriving DecidableEq

def GreibachGroup.productions (group : GreibachGroup) : List Production :=
  group.words.toList.map fun w => ⟨group.lhs, w.toList⟩

/--
A grammar in Greibach normal form, grouped by variable. The empty word has no place in a group.
-/
structure GreibachView where
  start : Symbol
  /--
  The start variable derives the empty word.
  -/
  erasable : Bool
  words : OrderedMap Symbol (OrderedSet GreibachWord)
  deriving DecidableEq

namespace GreibachView

/--
The view of a grammar without productions.
-/
def empty (start : Symbol) : GreibachView :=
  ⟨start, false, ∅⟩

/--
Take up a production: one more word of its variable, or a mark if it is erasing. In Greibach normal
form an erasing production belongs to the start variable.
-/
def add (view : GreibachView) (p : Production) : GreibachView :=
  match GreibachWord.ofProduction? p with
  | none => { view with erasable := true }
  | some w => { view with words := view.words.alter p.lhs ∅ (·.insert w) }

def groups (view : GreibachView) : List GreibachGroup :=
  view.words.entries.map fun entry => ⟨entry.1, entry.2⟩

def wordsOf (view : GreibachView) (v : Symbol) : List GreibachWord :=
  (view.groups.filter (·.lhs = v)).flatMap (·.words.toList)

def vars (view : GreibachView) : List Symbol :=
  view.groups.map GreibachGroup.lhs

/--
The views agree, whatever the order of groups and words.
-/
instance : Setoid GreibachView where
  r x y := x.start = y.start ∧ x.erasable = y.erasable ∧
    (∀ v, v ∈ x.vars ↔ v ∈ y.vars) ∧ ∀ v w, w ∈ x.wordsOf v ↔ w ∈ y.wordsOf v
  iseqv := {
    refl := fun _ => ⟨rfl, rfl, fun _ => Iff.rfl, fun _ _ => Iff.rfl⟩
    symm := fun h => ⟨h.1.symm, h.2.1.symm, fun v => (h.2.2.1 v).symm,
      fun v w => (h.2.2.2 v w).symm⟩
    trans := fun h h' => ⟨h.1.trans h'.1, h.2.1.trans h'.2.1,
      fun v => (h.2.2.1 v).trans (h'.2.2.1 v),
      fun v w => (h.2.2.2 v w).trans (h'.2.2.2 v w)⟩
  }

def productions (view : GreibachView) : List Production :=
  view.groups.flatMap GreibachGroup.productions

/--
The grammar of the view. A production that erases the start variable comes last.
-/
def toGrammar (view : GreibachView) : Grammar :=
  .ofProductions view.start
    (view.productions ++ if view.erasable then [.epsilon view.start] else [])

end GreibachView

namespace Grammar

def grouped (g : Grammar) : GreibachView :=
  g.productions.toList.foldl GreibachView.add (.empty g.start)

def greibachView (g : Grammar) : Except GrammarError GreibachView :=
  (fun g => g.grouped) <$> g.checkGreibach

end Grammar

end ContextFree
