import ContextFree.Grammar.GreibachView
import ContextFree.Grammar.Normalization
import ContextFree.Text.Definition
import ContextFree.Text.Notation
import ContextFree.Text.Table

/-!
This module contains a demonstration of the conversions on three small grammars, as text.
-/

namespace ContextFree

namespace Demonstration

/--
Text that is written piece by piece. What has been written stays when an error ends a part.
-/
abbrev Report := ExceptT GrammarError (StateM String)

namespace Report

def line (text : String) : Report Unit :=
  modify fun written => written ++ text ++ "\n"

def titled (title text : String) : Report Unit :=
  line (title ++ ":\n" ++ text)

/--
The result of a computation that may fail.
-/
def obtain {α : Type} (result : Except GrammarError α) : Report α :=
  ExceptT.mk (pure result)

def text (part : Report Unit) : String :=
  (part.run.run "").2

end Report

open Report

def parentheses : String :=
  "S ::= S S\nS ::= ( S )\nS ::="

/--
A grammar in which some variables can be erased.
-/
def erasable : Grammar :=
  .ofProductions ⟨"a"⟩
    [.ofNames "a" ["b", "c"], .ofNames "a" ["d", "e", "f"], .ofNames "b" ["a"], .ofNames "c" []]

/--
A grammar whose variable `A` derives no word.
-/
def endless : Grammar :=
  .ofProductions ⟨"S"⟩ [.ofNames "S" ["A", "s"], .ofNames "A" ["A", "a"]]

def conversion : Report Unit := do
  let grammar ← obtain (Grammar.parse parentheses)
  titled "Grammar" grammar.definition
  titled "Productions" grammar.productionTable.toText
  let erased ← obtain grammar.removeEpsilon
  titled "Without ε-productions" erased.definition
  let straight ← obtain erased.removeLeftRecursion
  titled "Without left recursion" straight.definition
  let greibach ← obtain grammar.toGreibach
  titled "Greibach Normal Form" greibach.definition
  let view ← obtain greibach.greibachView
  line ("Start symbol " ++ view.start.name ++ " (erasable: " ++
    (if view.erasable then "true" else "false") ++ ")")
  for group in view.groups do
    for word in group.words.toList do
      line ("  " ++ group.lhs.name ++ " → " ++ word.toText)

/--
The text of the chosen options: a bit mask, and their names if there are any.
-/
def optionsText (options : NormalizationOptions) : String :=
  "BitFlags<GrammarOption>(" ++ (if options.reversed then "0b1, Reversed" else "0b0") ++ ")"

def bothDirections : Report Unit := do
  titled "Grammar" erasable.toText
  for options in [⟨false⟩, ⟨true⟩] do
    let normalized ← obtain (erasable.normalize options)
    titled ("Normalized with " ++ optionsText options) normalized.toText

def failure : Report Unit := do
  let greibach ← obtain endless.toGreibach
  titled "Greibach Normal Form" greibach.toText

def text : String :=
  String.join ([conversion, bothDirections, failure].map Report.text)

end Demonstration

end ContextFree
