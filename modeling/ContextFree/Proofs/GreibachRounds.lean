import ContextFree.Grammar.Normalization
import ContextFree.Proofs.GreibachConversion
import ContextFree.Proofs.Productivity

/-!
This module contains that the conversion to Greibach normal form succeeds on productive grammars.
From the second round on there is nothing to do but to replace leading variables, which halves the
chains of them, so that there are never too few rounds.
-/

namespace ContextFree

namespace Grammar

open Productions

variable {g first : Grammar} {v s : Symbol} {n : Nat}

theorem needs_of_needs_substituteLeading (h : g.substituteLeading.productions.Needs v s) :
    g.productions.Needs v s := by
  induction h with
  | refl => exact .refl
  | step _ mem _ occurs ih =>
    rcases mem_substituteLeading_origin mem with ⟨old, _⟩ | ⟨p, hp, a, ha, rest, rhs, rfl⟩
    · exact ih.occurs old occurs
    · have all : ∀ s ∈ a.lhs :: rest, g.productions.Needs v s := by
        intro s hs
        exact Needs.occurs (p := p) ih hp (rhs ▸ hs)
      rcases List.mem_append.1 occurs with occurs | occurs
      · exact (all a.lhs List.mem_cons_self).occurs ha occurs
      · exact all _ (List.mem_cons_of_mem a.lhs occurs)

theorem Productive.substituteLeading (h : g.Productive) : g.substituteLeading.Productive := by
  intro v needed isVar
  obtain ⟨w, yields⟩ := h v (needs_of_needs_substituteLeading needed)
    (mem_vars_substituteLeading_iff.1 isVar)
  exact ⟨w, yields_substituteLeading_iff.2 yields⟩

theorem removeEpsilon_of_inside (inside : g.productions.ErasesNothingInside g.start) :
    g.removeEpsilon = .ok g := by
  have isolated : g.isolateErasableStart = g := by
    unfold Grammar.isolateErasableStart
    rw [if_neg]
    rw [startErasedInside_iff]
    rintro ⟨isNullable, occurs⟩
    obtain ⟨p, mem, occurs⟩ := occursInRhs_iff.1 occurs
    exact inside.not_mem_rhs p mem g.start occurs isNullable
  unfold Grammar.removeEpsilon
  rw [isolated]
  exact eraseNullable_of_erasesOnly inside.erasesOnly

theorem greibachRound_of_straight (inside : g.productions.ErasesNothingInside g.start)
    (straight : g.isLeftRecursive = false) : g.greibachRound = .ok g.substituteLeading :=
  greibachRound_eq_ok_iff.2 ⟨g, removeEpsilon_of_inside inside, g,
    removeLeftRecursion_of_straight straight, rfl⟩

section Rounds

variable {motive : Grammar → Prop} (next : ∀ g, motive g → motive g.substituteLeading)

include next

/--
Rounds never fail once leading variables are all that is left to be replaced, and there are enough of
them if there is one for each link of a chain.
-/
theorem exists_greibachRounds_of_bound (h : motive g)
    (inside : g.productions.ErasesNothingInside g.start)
    (bound : ∀ v, ¬ LeadsFar g.productions (n + 1) v) :
    ∃ r, g.greibachRounds n = .ok r ∧ motive r := by
  induction n generalizing g with
  | zero =>
    refine ⟨g, checkGreibach_eq_ok_iff.2 ⟨rfl, isGreibach_iff.2 ⟨inside, ?_⟩⟩, h⟩
    intro v w link
    exact bound v (.next link (.here (leadsTo_iff.1 link).1))
  | succ n ih =>
    unfold Grammar.greibachRounds
    split
    · exact ⟨g, rfl, h⟩
    · rw [greibachRound_of_straight inside (isLeftRecursive_eq_false_of_bound bound)]
      apply ih (next g h) (inside_substituteLeading inside)
      intro v chain
      have longer := leadsFar_substituteLeading inside chain
      exact bound v (longer.mono (by omega))

theorem exists_greibachRounds_of_round (round : g.greibachRound = .ok first) (h : motive first) :
    ∃ r, first.greibachRounds first.vars.size = .ok r ∧ motive r := by
  obtain ⟨erased, he, straight, hs, rfl⟩ := greibachRound_eq_ok_iff.1 round
  have inside := inside_removeLeftRecursion (erased_of_removeEpsilon he).inside hs
  -- chains after the first round are at most half as long as those before its last stage
  apply exists_greibachRounds_of_bound next h (inside_substituteLeading inside)
  intro v chain
  have longer := leadsFar_substituteLeading inside chain
  have bound := longer.lt_size (isLeftRecursive_removeLeftRecursion hs)
  have size : straight.vars.size ≤ straight.substituteLeading.vars.size :=
    OrderedSet.size_le_of_subset fun v => mem_vars_substituteLeading_iff.2
  change _ < straight.vars.size at bound
  omega

end Rounds

/--
All rounds succeed if the first one does.
-/
theorem exists_greibachRounds_of_first (round : g.greibachRound = .ok first) :
    ∃ r, first.greibachRounds first.vars.size = .ok r := by
  obtain ⟨r, rounds, _⟩ := exists_greibachRounds_of_round
    (motive := fun _ => True) (fun _ _ => trivial) round trivial
  exact ⟨r, rounds⟩

theorem toGreibach_succeeds_iff : (∃ r, g.toGreibach = .ok r) ↔
    g.isGreibach = true ∨ ∃ first, g.greibachRound = .ok first := by
  unfold Grammar.toGreibach
  split
  · rename_i form
    exact iff_of_true ⟨g, rfl⟩ (.inl form)
  · rename_i unfinished
    rw [or_iff_right unfinished]
    constructor
    · rintro ⟨r, h⟩
      obtain ⟨first, round, _⟩ := bind_eq_ok_iff.1 h
      exact ⟨first, round⟩
    · rintro ⟨first, round⟩
      obtain ⟨r, rounds⟩ := exists_greibachRounds_of_first round
      exact ⟨r, bind_eq_ok_iff.2 ⟨first, round, rounds⟩⟩

theorem Productive.greibachRound (h : g.Productive) :
    ∃ first, g.greibachRound = .ok first ∧ first.Productive := by
  obtain ⟨erased, he, productive⟩ := h.removeEpsilon
  obtain ⟨straight, hs, productive⟩ := productive.removeLeftRecursion
  exact ⟨_, greibachRound_eq_ok_iff.2 ⟨erased, he, straight, hs, rfl⟩,
    productive.substituteLeading⟩

theorem Productive.toGreibach (h : g.Productive) : ∃ r, g.toGreibach = .ok r ∧ r.Productive := by
  unfold Grammar.toGreibach
  split
  · exact ⟨g, rfl, h⟩
  · obtain ⟨first, round, productive⟩ := h.greibachRound
    rw [round]
    exact exists_greibachRounds_of_round (fun _ h => h.substituteLeading) round productive

theorem Productive.normalize (h : g.Productive) (options : NormalizationOptions) :
    ∃ r, g.normalize options = .ok r ∧ r.Productive := by
  unfold Grammar.normalize
  rw [applyOptions]
  split
  · exact h.reverse.toGreibach
  · exact h.toGreibach

end Grammar

end ContextFree
