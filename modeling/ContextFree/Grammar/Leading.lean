import ContextFree.Grammar.Lemmas
import ContextFree.Iteration

/-!
This module contains the replacement of leading variables by their right-hand sides, and the
recognition of left recursion: variables that lead back to themselves through the first symbols of
right-hand sides.
-/

namespace ContextFree

namespace Productions

def expansions (ps : Productions) (p : Production) : List Production :=
  match p.rhs with
  | [] => [p]
  | s :: rest => (ps.of s).map fun q => ⟨p.lhs, q.rhs ++ rest⟩

/--
Replace the leading symbol of every selected production by each of its right-hand sides. All
right-hand sides are taken from the productions as they are, and an empty right-hand side has no
leading symbol to replace.
-/
def substituteLeading (ps : Productions) (selected : Production → Bool) : Productions :=
  .ofList (ps.toList.flatMap fun p => if selected p then ps.expansions p else [p])

def startsWith (vars : OrderedSet Symbol) (p : Production) : Bool :=
  p.first?.any (· ∈ vars)

/--
A variable leads to another one if a production of it starts with that one.
-/
def LeadsTo (ps : Productions) (v w : Symbol) : Prop :=
  w ∈ ps.vars ∧ ∃ p ∈ ps.toList, p.lhs = v ∧ p.first? = some w

instance (ps : Productions) (v w : Symbol) : Decidable (LeadsTo ps v w) :=
  inferInstanceAs (Decidable (_ ∧ _))

/--
Keep the variables that have a production starting with a variable of the set.
-/
def leadingPart (ps : Productions) (set : OrderedSet Symbol) : OrderedSet Symbol :=
  set.filter fun v => ∃ p ∈ ps.toList, p.lhs = v ∧ startsWith set p

/--
The variables from which leading symbols can be followed without end.
-/
def leadingCore (ps : Productions) : OrderedSet Symbol :=
  stabilize ps.leadingPart (ps.vars.size + 1) ps.vars

/--
Some variable leads back to itself, directly or through others.
-/
def isLeftRecursive (ps : Productions) : Bool :=
  ps.leadingCore ≠ ∅

variable {ps : Productions}

theorem mem_expansions {p q : Production} {s : Symbol} {rest : List Symbol}
    (rhs : p.rhs = s :: rest) :
    q ∈ ps.expansions p ↔ ∃ a ∈ ps, a.lhs = s ∧ q = ⟨p.lhs, a.rhs ++ rest⟩ := by
  simp [expansions, rhs, and_assoc, eq_comm]

@[simp]
theorem mem_substituteLeading {selected : Production → Bool} {q : Production} :
    q ∈ ps.substituteLeading selected ↔
      ∃ p ∈ ps, if selected p then q ∈ ps.expansions p else q = p := by
  simp only [substituteLeading, OrderedSet.mem_ofList, List.mem_flatMap, OrderedSet.mem_toList]
  refine exists_congr fun p => and_congr_right fun _ => ?_
  split <;> simp

@[simp]
theorem startsWith_iff {vars : OrderedSet Symbol} {p : Production} :
    startsWith vars p = true ↔ ∃ v ∈ vars, p.first? = some v := by
  simp [startsWith, Option.any_eq_true, and_comm]

@[simp]
theorem mem_leadingPart {set : OrderedSet Symbol} {v : Symbol} :
    v ∈ ps.leadingPart set ↔ v ∈ set ∧ ∃ p ∈ ps, p.lhs = v ∧ startsWith set p = true := by
  simp [leadingPart, OrderedSet.mem_toList]

theorem leadingPart_leadingCore (ps : Productions) :
    ps.leadingPart ps.leadingCore = ps.leadingCore :=
  step_stabilize (fun _ => True) OrderedSet.size trivial (fun _ _ => trivial)
    (fun _ _ changed => OrderedSet.size_filter_lt changed) (Nat.le_succ _)

end Productions

namespace Grammar

@[inherit_doc Productions.isLeftRecursive]
def isLeftRecursive (g : Grammar) : Bool :=
  g.productions.isLeftRecursive

end Grammar

end ContextFree
