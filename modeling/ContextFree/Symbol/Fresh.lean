import ContextFree.OrderedSet.Basic
import ContextFree.Symbol

/-!
This module contains the choice of names for auxiliary variables. A name that is taken gives way to
the first free one of a sequence of numbered names: a number at the end of the name is counted up,
and a name that does not end in a number, or whose numbers are all taken, is itself followed by the
numbers from 2 on.
-/

namespace ContextFree

namespace Symbol

/--
Suffixes are counted up below this number: they are words of 64 bits.
-/
def suffixLimit : Nat := UInt64.size

def trailingDigits (name : List Char) : List Char :=
  (name.reverse.takeWhile Char.isDigit).reverse

def stem (name : List Char) : List Char :=
  (name.reverse.dropWhile Char.isDigit).reverse

/--
The symbols `stem ++ first`, `stem ++ (first + 1)`, and so on, `count` of them.
-/
def numbered (stem : String) (first count : Nat) : List Symbol :=
  (List.range count).map fun i => ⟨stem ++ toString (first + i)⟩

/--
The numbered names that are tried in place of `base`, at least `count` of them: those that count up
a number at the end of `base`, if there is one below `suffixLimit`, as long as they stay below it,
and then `base` followed by 2, 3, and so on.
-/
def candidates (base : Symbol) (count : Nat) : List Symbol :=
  let digits := trailingDigits base.name.toList
  let value := Nat.ofDigitChars 10 digits 0
  let counted :=
    if digits ≠ [] ∧ value < suffixLimit then
      numbered (String.ofList (stem base.name.toList)) value (min count (suffixLimit - value))
    else
      []
  counted ++ numbered base.name 2 count

/--
A symbol that is not in `used`: `base` itself if it is free, and otherwise the first of its
candidates that is. One more candidate than there are used symbols is enough.
-/
def fresh (used : OrderedSet Symbol) (base : Symbol) : Symbol :=
  if base ∈ used then
    ((base.candidates (used.size + 1)).find? (· ∉ used)).getD base
  else
    base

end Symbol

end ContextFree
