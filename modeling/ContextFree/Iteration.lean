/-!
This module contains `stabilize`, the repetition of a step until it changes nothing, on which the
searches of this library for the least or greatest solution of a system of rules are built. It bounds
the number of repetitions, but they come to the same end without a bound.
-/

namespace ContextFree

universe u

variable {α : Type u}

/--
A pass tells whether it has changed anything, and passes are made until one has not, which is the last
one of this number. Nothing bounds the number beforehand.
-/
inductive RepeatsIn (pass : α → α × Bool) : Nat → α → α → Prop where
  | last {a b : α} (unchanged : pass a = (b, false)) : RepeatsIn pass 1 a b
  | next {n : Nat} {a b c : α} (changed : pass a = (b, true)) (rest : RepeatsIn pass n b c) :
    RepeatsIn pass (n + 1) a c

theorem RepeatsIn.unique {pass : α → α × Bool} {m n : Nat} {a b c : α} (h : RepeatsIn pass m a b)
    (h' : RepeatsIn pass n a c) : m = n ∧ b = c := by
  induction h generalizing n with
  | last unchanged =>
    cases h' with
    | last unchanged' => exact ⟨rfl, congrArg Prod.fst (unchanged.symm.trans unchanged')⟩
    | next changed _ => cases congrArg Prod.snd (unchanged.symm.trans changed)
  | next changed _ ih =>
    cases h' with
    | last unchanged => cases congrArg Prod.snd (changed.symm.trans unchanged)
    | next changed' rest =>
      obtain rfl := congrArg Prod.fst (changed.symm.trans changed')
      exact (ih rest).imp_left (congrArg (· + 1))

variable [DecidableEq α]

section Pass

universe v

variable {β : Type v} {f : α → β → α} {note : α × Bool → β → α × Bool} {r : α → α → Prop}
  (trans : ∀ a b c, r a b → r b c → r a c) (irrefl : ∀ a, ¬ r a a)
  (change : ∀ a b, f a b = a ∨ r a (f a b))
  (noted : ∀ a told b, note (a, told) b = (f a b, told || decide (f a b ≠ a)))

include trans change in
omit [DecidableEq α] in
theorem foldl_eq_or (l : List β) (a : α) : l.foldl f a = a ∨ r a (l.foldl f a) := by
  induction l generalizing a with
  | nil => exact .inl rfl
  | cons b l ih =>
    rw [List.foldl_cons]
    rcases change a b with same | further
    · rw [same]
      exact ih a
    · rcases ih (f a b) with same | further'
      · rw [same]
        exact .inr further
      · exact .inr (trans _ _ _ further further')

include trans irrefl change noted in
/--
Where all changes go in one direction none of them is taken back, so that a pass has noted one just if
it does not come out where it began.
-/
theorem foldl_noted_eq (l : List β) (a : α) (told : Bool) :
    l.foldl note (a, told) = (l.foldl f a, told || decide (l.foldl f a ≠ a)) := by
  induction l generalizing a told with
  | nil => simp
  | cons b l ih =>
    rw [List.foldl_cons, noted, ih, List.foldl_cons, Bool.or_assoc]
    congr 2
    rcases change a b with same | further
    · simp [same]
    · have first : f a b ≠ a := by
        intro same
        rw [same] at further
        exact irrefl a further
      have kept : l.foldl f (f a b) ≠ a := by
        intro lost
        rcases foldl_eq_or trans change l (f a b) with same | further'
        · exact first (same.symm.trans lost)
        · rw [lost] at further'
          exact irrefl a (trans _ _ _ further further')
      rw [decide_eq_true first, decide_eq_true kept, Bool.true_or]

end Pass

/--
Apply `step` again and again, at most `bound` times, and stop early at a value that `step` leaves
as it is.
-/
def stabilize (step : α → α) : (bound : Nat) → α → α
  | 0, a => a
  | bound + 1, a =>
    let b := step a
    if b = a then a else stabilize step bound b

theorem stabilize_induction {step : α → α} {motive : α → Prop} {bound : Nat} {a : α}
    (start : motive a) (next : ∀ a, motive a → motive (step a)) :
    motive (stabilize step bound a) := by
  induction bound generalizing a with
  | zero => exact start
  | succ bound ih =>
    simp only [stabilize]
    split
    · exact start
    · exact ih (next a start)

section Measure

variable {step : α → α} (motive : α → Prop) (measure : α → Nat) {bound : Nat} {a : α}
  (start : motive a) (next : ∀ a, motive a → motive (step a))
  (decreasing : ∀ a, motive a → step a ≠ a → measure (step a) < measure a)
  (enough : measure a ≤ bound)

include start next decreasing enough

/--
The result is stable once the bound is at least a measure that decreases with every step that
changes something.
-/
theorem step_stabilize : step (stabilize step bound a) = stabilize step bound a := by
  induction bound generalizing a with
  | zero =>
    apply Decidable.byContradiction
    intro changed
    have := decreasing a start changed
    omega
  | succ bound ih =>
    simp only [stabilize]
    split
    · assumption
    · rename_i changed
      have := decreasing a start changed
      exact ih (next a start) (by omega)

/--
Such a bound makes no difference: passes that do the step and tell whether it has changed something
lead to the result as well, and there are no more of them than the measure and one.
-/
theorem exists_repeatsIn_stabilize {pass : α → α × Bool}
    (passes : ∀ a, pass a = (step a, decide (step a ≠ a))) :
    ∃ n ≤ measure a + 1, RepeatsIn pass n a (stabilize step bound a) := by
  have last (a : α) (same : step a = a) : RepeatsIn pass 1 a a := .last (by simp [passes, same])
  induction bound generalizing a with
  | zero =>
    refine ⟨1, Nat.le_add_left 1 _, last a (Decidable.byContradiction fun changed => ?_)⟩
    have := decreasing a start changed
    omega
  | succ bound ih =>
    simp only [stabilize]
    split
    · rename_i same
      exact ⟨1, Nat.le_add_left 1 _, last a same⟩
    · rename_i changed
      have := decreasing a start changed
      obtain ⟨n, le, rest⟩ := ih (next a start) (by omega)
      exact ⟨n + 1, by omega, .next (by simp [passes, changed]) rest⟩

end Measure

end ContextFree
