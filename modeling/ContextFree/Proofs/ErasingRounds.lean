import ContextFree.Proofs.EpsilonRemoval

/-!
This module contains how often the removal of erasing productions does what it could repeat without
end: it gives a grammar at most one fresh start variable, and goes through the productions at most once
to drop nullable symbols.
-/

namespace ContextFree

namespace Productions

/--
Nullable symbols are dropped as long as another variable than the start variable is nullable, and they
are dropped this number of times. Nothing bounds that number beforehand.
-/
inductive ErasesIn (start : Symbol) : Nat → Productions → Productions → Prop where
  | done {ps : Productions} (only : ps.ErasesOnly start) : ErasesIn start 0 ps ps
  | round {n : Nat} {ps ps' : Productions} (more : ¬ ps.ErasesOnly start)
    (rest : ErasesIn start n (ps.eraseNullable start) ps') : ErasesIn start (n + 1) ps ps'

variable {ps a b : Productions} {start : Symbol} {m n : Nat}

theorem ErasesIn.unique (h : ErasesIn start m ps a) (h' : ErasesIn start n ps b) :
    m = n ∧ a = b := by
  induction h generalizing n with
  | done only =>
    cases h' with
    | done => exact ⟨rfl, rfl⟩
    | round more => exact absurd only more
  | round more _ ih =>
    cases h' with
    | done only => exact absurd only more
    | round _ rest => exact (ih rest).imp_left (congrArg (· + 1))

theorem erasesIn_one (keeps : ps.KeepsStart start) (more : ¬ ps.ErasesOnly start) :
    ErasesIn start 1 ps (ps.eraseNullable start) :=
  .round more (.done (erasesNothingInside_eraseNullable keeps).erasesOnly)

end Productions

namespace Grammar

open Productions

/--
A grammar whose start variable would be erased inside words gets a fresh one, and its erasing
productions are removed instead. Otherwise nullable symbols are dropped in rounds, if there are others
than the start variable, and the result is pruned. These are the numbers of fresh start variables and
of rounds, and nothing bounds them beforehand.
-/
inductive RemovesEpsilonIn : (renamings rounds : Nat) → Grammar → Except GrammarError Grammar → Prop
    where
  | renamed {m n : Nat} {g : Grammar} {outcome : Except GrammarError Grammar}
    (inside : g.startErasedInside = true) (rest : RemovesEpsilonIn m n g.withErasableStart outcome) :
    RemovesEpsilonIn (m + 1) n g outcome
  | unchanged {g : Grammar} (outside : g.startErasedInside = false)
    (only : g.productions.ErasesOnly g.start) : RemovesEpsilonIn 0 0 g (.ok g)
  | erased {n : Nat} {g : Grammar} {ps : Productions} (outside : g.startErasedInside = false)
    (more : ¬ g.productions.ErasesOnly g.start) (rounds : ErasesIn g.start n g.productions ps) :
    RemovesEpsilonIn 0 n g (prune ⟨g.start, ps⟩ >>= fun pruned => pruned.checkedAgainst g)

variable {g : Grammar} {m n m' n' : Nat} {outcome outcome' : Except GrammarError Grammar}

theorem RemovesEpsilonIn.unique (h : RemovesEpsilonIn m n g outcome)
    (h' : RemovesEpsilonIn m' n' g outcome') : m = m' ∧ n = n' ∧ outcome = outcome' := by
  induction h generalizing m' with
  | renamed inside _ ih =>
    cases h' with
    | renamed _ rest => exact (ih rest).imp_left (congrArg (· + 1))
    | unchanged outside | erased outside => cases inside.symm.trans outside
  | unchanged outside only =>
    cases h' with
    | renamed inside => cases inside.symm.trans outside
    | unchanged => exact ⟨rfl, rfl, rfl⟩
    | erased _ more => exact absurd only more
  | erased outside more rounds =>
    cases h' with
    | renamed inside => cases inside.symm.trans outside
    | unchanged _ only => exact absurd only more
    | erased _ _ rounds' =>
      obtain ⟨rfl, rfl⟩ := rounds.unique rounds'
      exact ⟨rfl, rfl, rfl⟩

theorem removesEpsilonIn_of_outside (outside : g.startErasedInside = false) :
    RemovesEpsilonIn 0 (if g.productions.ErasesOnly g.start then 0 else 1) g g.eraseNullable := by
  split
  · rename_i only
    rw [eraseNullable_of_erasesOnly only]
    exact .unchanged outside only
  · rename_i more
    have keeps := keepsStart_iff.2 outside
    rw [eraseNullable_eq keeps more]
    exact .erased outside more (erasesIn_one keeps more)

/--
The removal of erasing productions comes to an end by itself. The start variable is renamed at most
once, since the fresh one is not erased inside words, and nullable symbols are dropped at most once,
since nothing but the start variable is nullable afterwards. Each of the two is done just if there is
a reason for it.
-/
theorem removeEpsilon_erases_once (g : Grammar) :
    RemovesEpsilonIn (if g.startErasedInside then 1 else 0)
        (if g.isolateErasableStart.productions.ErasesOnly g.isolateErasableStart.start then 0 else 1)
        g g.removeEpsilon ∧
      (∀ renamings rounds outcome, RemovesEpsilonIn renamings rounds g outcome →
        renamings ≤ 1 ∧ rounds ≤ 1 ∧ outcome = g.removeEpsilon) ∧
      (g.startErasedInside = true → g.withErasableStart.startErasedInside = false) ∧
      ∀ v ∈ g.isolateErasableStart.dropped.nullable, v = g.isolateErasableStart.start := by
  have renamedOnce (inside : g.startErasedInside = true) :
      g.withErasableStart.startErasedInside = false :=
    keepsStart_iff.1 (keepsStart_withErasableStart inside)
  have run : RemovesEpsilonIn (if g.startErasedInside then 1 else 0)
      (if g.isolateErasableStart.productions.ErasesOnly g.isolateErasableStart.start then 0 else 1)
      g g.removeEpsilon := by
    unfold removeEpsilon isolateErasableStart
    split
    · rename_i inside
      exact .renamed inside (removesEpsilonIn_of_outside (renamedOnce inside))
    · rename_i outside
      exact removesEpsilonIn_of_outside (Bool.eq_false_iff.2 outside)
  refine ⟨run, ?_, renamedOnce, ?_⟩
  · intro renamings rounds outcome other
    obtain ⟨rfl, rfl, same⟩ := other.unique run
    refine ⟨?_, ?_, same⟩
    · split <;> decide
    · split <;> decide
  · exact (erasesNothingInside_eraseNullable keepsStart_isolateErasableStart).eq_start

end Grammar

end ContextFree
