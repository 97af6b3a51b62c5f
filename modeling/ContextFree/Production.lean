import ContextFree.Symbol

/-!
This module contains the productions of a context-free grammar, their shapes, their order and their
text.
-/

namespace ContextFree

/--
A production: the variable `lhs` may be replaced by the word `rhs`.
-/
structure Production where
  lhs : Symbol
  rhs : List Symbol
  deriving DecidableEq, Inhabited, Repr

namespace Production

def epsilon (lhs : Symbol) : Production :=
  ⟨lhs, []⟩

/--
A production written with the names of its symbols.
-/
def ofNames (lhs : String) (rhs : List String) : Production :=
  ⟨⟨lhs⟩, rhs.map Symbol.mk⟩

def isEpsilon (p : Production) : Bool :=
  p.rhs.isEmpty

/--
The production replaces its variable by that variable alone, and so derives nothing new.
-/
def isSelfLoop (p : Production) : Bool :=
  p.rhs == [p.lhs]

def first? (p : Production) : Option Symbol :=
  p.rhs.head?

def tail (p : Production) : List Symbol :=
  p.rhs.tail

/--
The same production with its right-hand side read backwards.
-/
def reverse (p : Production) : Production :=
  ⟨p.lhs, p.rhs.reverse⟩

/--
Productions are ordered by their left-hand sides, and those with the same one by their right-hand
sides, symbol by symbol, where a word comes before its continuations.
-/
instance : Ord Production where
  compare := compareLex (compareOn lhs) (compareOn rhs)

instance : Std.TransOrd Production :=
  inferInstanceAs (Std.TransCmp (compareLex (compareOn lhs) (compareOn rhs)))

instance : Std.LawfulEqOrd Production where
  eq_of_compare {p q} h := by
    obtain ⟨lhs, rhs⟩ := compareLex_eq_eq.1 h
    cases p
    cases q
    congr
    · exact Std.LawfulEqOrd.eq_of_compare lhs
    · exact Std.LawfulEqOrd.eq_of_compare rhs

/--
The productions in ascending order.
-/
def sort (ps : List Production) : List Production :=
  ps.mergeSort fun p q => (compare p q).isLE

/--
The text of a production: the variable, a delimiter, and each symbol of the right-hand side after a
space.
-/
def toText (p : Production) : String :=
  p.lhs.name ++ " ::=" ++ String.join (p.rhs.map fun s => " " ++ s.name)

instance : ToString Production where
  toString := toText

/--
The text of the right-hand side alone, for a reader: the empty word has a sign of its own.
-/
def rhsText (p : Production) : String :=
  if p.isEpsilon then Symbol.emptyWord else Symbol.spaced p.rhs

@[simp]
theorem isEpsilon_iff {p : Production} : p.isEpsilon = true ↔ p.rhs = [] :=
  List.isEmpty_iff

@[simp]
theorem isSelfLoop_iff {p : Production} : p.isSelfLoop = true ↔ p.rhs = [p.lhs] :=
  beq_iff_eq

theorem first?_eq_some_iff {p : Production} {s : Symbol} :
    p.first? = some s ↔ p.rhs = s :: p.tail := by
  obtain ⟨lhs, rhs⟩ := p
  cases rhs <;> simp [first?, tail, eq_comm]

@[simp]
theorem reverse_reverse (p : Production) : p.reverse.reverse = p := by
  simp [reverse]

theorem reverse_eq_iff {p q : Production} : p.reverse = q ↔ p = q.reverse := by
  constructor
  · rintro rfl
    rw [reverse_reverse]
  · rintro rfl
    rw [reverse_reverse]

end Production

end ContextFree
