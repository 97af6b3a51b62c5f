import ContextFree.Production

/-!
This module contains the causes for which a text is not read as a grammar or a grammar is not
transformed, and their wording.
-/

namespace ContextFree

/--
What a text lacks to be read as productions.
-/
inductive ReadingFault where
  /--
  A line that does not go on as is expected.
  -/
  | missing (expected : List String)
  /--
  A line with nothing but blanks before the delimiter.
  -/
  | noLeftHandSide
  /--
  A line with blanks inside what stands before the delimiter, which is given without the blanks
  around it.
  -/
  | notOneSymbol (lhs : String)
  | noProductions
  deriving DecidableEq, Repr

/--
What keeps a grammar from being in Greibach normal form.
-/
inductive GreibachViolation where
  | erasing (p : Production)
  | leadingVariable (p : Production)
  /--
  The start variable can be erased where it occurs on a right-hand side.
  -/
  | erasableStart (start : Symbol)
  deriving DecidableEq, Repr

/--
The reasons for which there is no resulting grammar.
-/
inductive GrammarError where
  /--
  A text is not in the notation for grammars; lines are counted from 1.
  -/
  | unreadable (line : Nat) (fault : ReadingFault)
  /--
  A variable is left without a production but is still needed.
  -/
  | underivable (v : Symbol)
  /--
  A grammar is not in the normal form that is asked for.
  -/
  | notGreibach (violation : GreibachViolation)
  deriving DecidableEq, Repr

def ReadingFault.message : ReadingFault → String
  | missing [] => ""
  | missing expected =>
    "expected " ++ ", ".intercalate (expected.map fun text => "`" ++ text ++ "`")
  | noLeftHandSide => "missing left-hand side before `::=`"
  | notOneSymbol lhs => "left-hand side `" ++ lhs ++ "` is not a single symbol"
  | noProductions => "expected at least one production"

def GreibachViolation.message : GreibachViolation → String
  | erasing p => p.toText ++ " derives the empty word"
  | leadingVariable p => p.toText ++ " does not start with a terminal"
  | erasableStart start =>
    "nullable start variable " ++ start.name ++ " occurs on a right-hand side"

def GrammarError.message : GrammarError → String
  | unreadable line fault => "Parse error on line " ++ toString line ++ ": " ++ fault.message
  | underivable v => "Grammar is malformed: variable " ++ v.name ++ " cannot be derived"
  | notGreibach violation =>
    "Precondition violated: grammar is not in Greibach normal form: " ++ violation.message

end ContextFree
