import ContextFree.Grammar.Basic
import ContextFree.Text.Blank
import ContextFree.Text.Lines
import ContextFree.Text.Reader

/-!
This module contains the notation for grammars as text, which has one production on every line that
is not blank: a variable, the delimiter `::=`, and the symbols of the right-hand side with blanks in
between. The variable of the first line is the start variable.
-/

namespace ContextFree

namespace Text

/--
What stands between the two sides of a production.
-/
def delimiter : List Char := [':', ':', '=']

namespace Reader

def blanks : Reader (List Char) :=
  takeWhile 0 isBlank

def symbol : Reader (List Char) :=
  takeWhile 1 (!isBlank ·)

/--
The two sides of a production: all that stands before the delimiter, and the symbols behind it.
-/
def sides : Reader (List Char × List (List Char)) := do
  let before ← (takeUntil delimiter <* literal delimiter).expecting "::="
  let symbols ← many (blanks *> symbol)
  let _ ← blanks
  atEnd
  return (before, symbols)

end Reader

def readLine (line : List Char) : Except ReadingFault Production :=
  match Reader.sides.readAll line with
  | .error failure => .error (.missing failure.expected)
  | .ok (before, symbols) =>
    let lhs := trim before
    if lhs = [] then
      .error .noLeftHandSide
    else if lhs.any isBlank then
      .error (.notOneSymbol (String.ofList lhs))
    else
      .ok ⟨⟨String.ofList lhs⟩, symbols.map fun word => ⟨String.ofList word⟩⟩

/--
Read lines, of which the first has the given number, as productions. Blank lines are skipped, and the
first line with a fault is the error.
-/
def readLines : (number : Nat) → List (List Char) → Except GrammarError (List Production)
  | _, [] => .ok []
  | number, line :: more =>
    if line.all isBlank then
      readLines (number + 1) more
    else
      match readLine line with
      | .error fault => .error (.unreadable number fault)
      | .ok p => (p :: ·) <$> readLines (number + 1) more

end Text

namespace Grammar

def parse (text : String) : Except GrammarError Grammar :=
  let lines := Text.lines text.toList
  match Text.readLines 1 lines with
  | .error e => .error e
  | .ok [] => .error (.unreadable (lines.length + 1) .noProductions)
  | .ok (p :: more) => .ok (ofProductions p.lhs (p :: more))

/--
The productions with those of the start variable moved to the front.
-/
def startFirst (g : Grammar) : List Production :=
  g.productions.toList.filter (·.lhs = g.start) ++ g.productions.toList.filter (·.lhs ≠ g.start)

/--
Write the grammar as text, with the productions of the start variable first and a line feed after
each production.
-/
def toText (g : Grammar) : String :=
  String.join (g.startFirst.map fun p => p.toText ++ "\n")

instance : ToString Grammar where
  toString := toText

end Grammar

end ContextFree
