import ContextFree.Grammar.GreibachView
import ContextFree.Grammar.Normalization
import ContextFree.Text.Notation

/-!
This module contains the transformations of grammars as values, and sequences of them.
-/

namespace ContextFree

inductive Transformation where
  | prune
  | reverse
  | isolateStart
  | removeEpsilon
  | removeLeftRecursion
  | toGreibach
  | applyOptions (options : NormalizationOptions)
  | normalize (options : NormalizationOptions)
  | reparse
  | regroup
  | restart (start : Symbol)
  | addProduction (p : Production)
  deriving DecidableEq, Repr

namespace Transformation

def apply (t : Transformation) (g : Grammar) : Except GrammarError Grammar :=
  match t with
  | prune => g.prune
  | reverse => .ok g.reverse
  | isolateStart => g.isolateStart
  | removeEpsilon => g.removeEpsilon
  | removeLeftRecursion => g.removeLeftRecursion
  | toGreibach => g.toGreibach
  | applyOptions options => .ok (g.applyOptions options)
  | normalize options => g.normalize options
  | reparse => Grammar.parse g.toText
  | regroup => GreibachView.toGrammar <$> g.greibachView
  | restart start => .ok { g with start }
  | addProduction p => .ok (g.addProduction p)

/--
Apply transformations one after another as long as they succeed.
-/
def applyAll : List Transformation → Grammar → Except GrammarError Grammar
  | [], g => .ok g
  | t :: more, g => t.apply g >>= applyAll more

structure Attempt where
  source : Grammar
  outcome : Except GrammarError Grammar

namespace Attempt

/--
The grammar to go on with: what came out, or the same as before if there was an error.
-/
def current (a : Attempt) : Grammar :=
  match a.outcome with
  | .ok g => g
  | .error _ => a.source

end Attempt

/--
Try transformations one after another, where one that fails leaves the grammar as it is.
-/
def history : List Transformation → Grammar → List Attempt
  | [], _ => []
  | t :: more, g =>
    let attempt : Attempt := ⟨g, t.apply g⟩
    attempt :: history more attempt.current

end Transformation

end ContextFree
