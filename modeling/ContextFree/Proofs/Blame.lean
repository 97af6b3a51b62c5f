import ContextFree.Proofs.Runs

/-!
This module contains that an error of a transformation names a variable that is to blame: one of the
given grammar, which its start variable needs and which derives no word but the empty one. What is
found in the course of a transformation is traced back to the grammar that it began with.
-/

namespace ContextFree

namespace Grammar

open Productions

/--
The start variable needs the variable, although that derives no word but the empty one.
-/
structure Barren (g : Grammar) (v : Symbol) : Prop where
  isVar : v ∈ g.vars
  needed : g.productions.Needs g.start v
  words : ∀ w, w ≠ [] → ¬ g.Yields v w

variable {g r : Grammar} {v : Symbol} {e : GrammarError}

theorem Barren.of_prune (barren : r.Barren v) (h : g.prune = .ok r) : g.Barren v := by
  have words : ∀ w, w ≠ [] → ¬ g.Yields v w := by
    intro w notEmpty yields
    refine barren.words w notEmpty ((yields_prune_iff h ?_).2 yields)
    obtain ⟨rfl, _⟩ := prune_eq_ok_iff.1 h
    exact needs_useful_iff.1 barren.needed
  obtain ⟨rfl, _⟩ := prune_eq_ok_iff.1 h
  exact ⟨vars_useful_subset barren.isVar, needs_useful_iff.1 barren.needed, words⟩

theorem needs_of_needs_isolateErasableStart
    (needed : g.isolateErasableStart.productions.Needs g.isolateErasableStart.start v)
    (ne : v ≠ g.isolateErasableStart.start) : g.productions.Needs g.start v := by
  unfold isolateErasableStart at needed ne
  split at needed
  · rename_i inside
    rw [if_pos inside] at ne
    refine (extendedBy_withErasableStart.needs_new ?_ needed).resolve_left ne
    intro p mem lhs s occurs
    rcases mem_withErasableStart.1 mem with old | rfl | rfl
    · exact absurd lhs (lhs_ne_freshStart old)
    · exact List.mem_singleton.1 occurs
    · cases occurs
  · exact needed

theorem mem_vars_of_mem_isolateErasableStart (isVar : v ∈ g.isolateErasableStart.vars)
    (ne : v ≠ g.isolateErasableStart.start) : v ∈ g.vars := by
  unfold isolateErasableStart at isVar ne
  split at isVar
  · rename_i inside
    rw [if_pos inside] at ne
    exact (extendedBy_withErasableStart.mem_vars_iff ne).1 isVar
  · exact isVar

theorem Barren.of_isolateErasableStart (barren : g.isolateErasableStart.Barren v)
    (ne : v ≠ g.isolateErasableStart.start) : g.Barren v := by
  refine ⟨mem_vars_of_mem_isolateErasableStart barren.isVar ne,
    needs_of_needs_isolateErasableStart barren.needed ne, ?_⟩
  intro w notEmpty yields
  exact barren.words w notEmpty ((yields_isolateErasableStart_iff ne).2 yields)

theorem needs_of_needs_eraseNullable (keeps : g.productions.KeepsStart g.start)
    (h : g.eraseNullable = .ok r) (needed : r.productions.Needs r.start v) :
    g.productions.Needs g.start v := by
  by_cases only : g.productions.ErasesOnly g.start
  · rw [eraseNullable_of_erasesOnly only] at h
    cases h
    exact needed
  · obtain ⟨rfl, _⟩ := (eraseNullable_eq_ok_iff keeps only).1 h
    exact (needs_useful_iff (g := g.dropped).1 needed).of_eraseNullable.1

theorem Barren.of_removeEpsilon (barren : r.Barren v) (h : g.removeEpsilon = .ok r)
    (ne : v ≠ r.start) : g.Barren v := by
  have erased := erased_of_removeEpsilon h
  have isVar := erased.vars v barren.isVar
  have needed := needs_of_needs_eraseNullable keepsStart_isolateErasableStart h barren.needed
  rw [erased.start] at ne
  refine ⟨mem_vars_of_mem_isolateErasableStart isVar ne,
    needs_of_needs_isolateErasableStart needed ne, ?_⟩
  intro w notEmpty yields
  refine barren.words w notEmpty ((yields_removeEpsilon_iff h barren.isVar ?_).2 ⟨notEmpty, yields⟩)
  rw [erased.start]
  exact ne

theorem Barren.of_reverse (barren : g.reverse.Barren v) : g.Barren v := by
  refine ⟨mem_vars_reverse_iff.1 barren.isVar, needs_of_needs_reverse barren.needed, ?_⟩
  intro w notEmpty yields
  exact barren.words w.reverse (mt List.reverse_eq_nil_iff.1 notEmpty)
    (yields_reverse_of_yields yields)

theorem barren_of_prune_eq_error (h : g.prune = .error e) :
    ∃ v, e = .underivable v ∧ g.Barren v ∧ v ≠ g.start := by
  obtain ⟨v, rfl, isVar, lost⟩ := exists_of_checkedAgainst_eq_error h
  obtain ⟨needed, ne, none⟩ := lost_of_mem_terminals_useful isVar lost
  exact ⟨v, rfl, ⟨isVar, needed, fun w _ yields => none w (yields_iff.1 yields).2⟩, ne⟩

theorem exists_of_eraseNullable_eq_error (keeps : g.productions.KeepsStart g.start)
    (h : g.eraseNullable = .error e) :
    ∃ v, e = .underivable v ∧ v ∈ g.vars ∧ v ∈ g.dropped.useful.terminals := by
  by_cases only : g.productions.ErasesOnly g.start
  · rw [eraseNullable_of_erasesOnly only] at h
    cases h
  · rw [eraseNullable_eq keeps only] at h
    rcases bind_eq_error_iff.1 h with h | ⟨pruned, hp, h⟩
    · obtain ⟨v, rfl, isVar, lost⟩ := exists_of_checkedAgainst_eq_error h
      exact ⟨v, rfl, mem_vars_of_mem_dropped isVar, lost⟩
    · obtain ⟨rfl, _⟩ := prune_eq_ok_iff.1 hp
      obtain ⟨v, rfl, isVar, lost⟩ := exists_of_checkedAgainst_eq_error h
      exact ⟨v, rfl, isVar, lost⟩

theorem barren_of_eraseNullable_eq_error (keeps : g.productions.KeepsStart g.start)
    (h : g.eraseNullable = .error e) :
    ∃ v, e = .underivable v ∧ g.Barren v ∧ v ≠ g.start := by
  obtain ⟨v, rfl, isVar, lost⟩ := exists_of_eraseNullable_eq_error keeps h
  obtain ⟨needed, ne, none⟩ := lost_of_mem_terminals_useful isVar lost
  refine ⟨v, rfl, ⟨isVar, needed.of_eraseNullable.1, ?_⟩, ne⟩
  intro w notEmpty yields
  exact none w ((yields_iff.1 yields).2.eraseNullable (fun v hv => hv) (.inl notEmpty))

theorem barren_of_removeEpsilon_eq_error (h : g.removeEpsilon = .error e) :
    ∃ v, e = .underivable v ∧ g.Barren v := by
  obtain ⟨v, rfl, barren, ne⟩ := barren_of_eraseNullable_eq_error keepsStart_isolateErasableStart h
  exact ⟨v, rfl, barren.of_isolateErasableStart ne⟩

/--
Treating the variables of a grammar takes all productions from those that have no words only, and the
pruning afterwards finds nothing more.
-/
theorem barren_of_untangled_eq_error (trim : g.Trim)
    (inside : g.productions.ErasesNothingInside g.start)
    (h : (prune ⟨g.start, g.untangled⟩ >>= fun result => result.checkedAgainst g) = .error e) :
    ∃ v, e = .underivable v ∧ g.Barren v ∧ v ≠ g.start := by
  obtain ⟨auxs, untangled⟩ := exists_untangled inside
  rw [prune_of_straight (g := ⟨g.start, g.untangled⟩) untangled.straight] at h
  obtain ⟨v, rfl, isVar, lost⟩ := exists_of_checkedAgainst_eq_error h
  have known : v ∈ g.vars.insertMany auxs := OrderedSet.mem_insertMany.2 (.inl isVar)
  obtain ⟨_, ne, none⟩ := lost_of_mem_terminals_useful known lost
  refine ⟨v, rfl, ⟨isVar, trim v (mem_symbols_of_mem_vars isVar), ?_⟩, ne⟩
  intro w _ yields
  exact none w ((untangled.words v (untangled.not_mem_auxs isVar) w).2 (yields_iff.1 yields).2)

/--
A start variable that is not erased inside words is never named: all stages leave it in place.
-/
theorem barren_of_removeLeftRecursion_eq_error (h : g.removeLeftRecursion = .error e) :
    ∃ v, e = .underivable v ∧ g.Barren v ∧
      (g.productions.ErasesNothingInside g.start → v ≠ g.start) := by
  unfold removeLeftRecursion at h
  split at h
  · rcases bind_eq_error_iff.1 h with h | ⟨pruned, hp, h⟩
    · obtain ⟨v, rfl, barren, ne⟩ := barren_of_prune_eq_error h
      exact ⟨v, rfl, barren, fun _ => ne⟩
    have stays : g.productions.ErasesNothingInside g.start → pruned.removeEpsilon = .ok pruned := by
      intro inside
      obtain ⟨rfl, _⟩ := prune_eq_ok_iff.1 hp
      exact removeEpsilon_of_inside (inside.mono fun p mem => (mem_useful.1 mem).1)
    rcases bind_eq_error_iff.1 h with h | ⟨erased, he, h⟩
    · obtain ⟨v, rfl, barren⟩ := barren_of_removeEpsilon_eq_error h
      refine ⟨v, rfl, barren.of_prune hp, fun inside => ?_⟩
      rw [stays inside] at h
      cases h
    · split at h
      · have trim := trim_removeEpsilon (trim_of_prune hp) he
        obtain ⟨v, rfl, barren, ne⟩ :=
          barren_of_untangled_eq_error trim (erased_of_removeEpsilon he).inside h
        refine ⟨v, rfl, (barren.of_removeEpsilon he ne).of_prune hp, fun inside => ?_⟩
        rw [stays inside] at he
        cases he
        obtain ⟨rfl, _⟩ := prune_eq_ok_iff.1 hp
        exact ne
      · cases h
  · cases h

theorem barren_of_greibachRound_eq_error (h : g.greibachRound = .error e) :
    ∃ v, e = .underivable v ∧ g.Barren v := by
  unfold greibachRound at h
  rcases bind_eq_error_iff.1 h with h | ⟨erased, he, h⟩
  · exact barren_of_removeEpsilon_eq_error h
  rcases bind_eq_error_iff.1 h with h | ⟨straight, hs, h⟩
  · obtain ⟨v, rfl, barren, ne⟩ := barren_of_removeLeftRecursion_eq_error h
    exact ⟨v, rfl, barren.of_removeEpsilon he (ne (erased_of_removeEpsilon he).inside)⟩
  · rw [checkedAgainst_substituteLeading] at h
    cases h

theorem barren_of_toGreibach_eq_error (h : g.toGreibach = .error e) :
    ∃ v, e = .underivable v ∧ g.Barren v := by
  unfold toGreibach at h
  split at h
  · cases h
  · rcases bind_eq_error_iff.1 h with h | ⟨first, round, h⟩
    · exact barren_of_greibachRound_eq_error h
    · obtain ⟨r, rounds⟩ := exists_greibachRounds_of_first round
      rw [h] at rounds
      cases rounds

end Grammar

namespace Transformation

variable {g : Grammar} {t : Transformation} {e : GrammarError}

/--
If a transformation fails then the error names a variable of the grammar that its start variable
needs and that derives no word but the empty one.
-/
theorem barren_of_apply_eq_error (conversion : t.isConversion = true) (h : t.apply g = .error e) :
    ∃ v, e = .underivable v ∧ g.Barren v := by
  cases t with
  | prune =>
    obtain ⟨v, rfl, barren, _⟩ := Grammar.barren_of_prune_eq_error h
    exact ⟨v, rfl, barren⟩
  | reverse => cases h
  | isolateStart =>
    unfold apply at h
    rw [Grammar.isolateStart_eq] at h
    cases h
  | removeEpsilon => exact Grammar.barren_of_removeEpsilon_eq_error h
  | removeLeftRecursion =>
    obtain ⟨v, rfl, barren, _⟩ := Grammar.barren_of_removeLeftRecursion_eq_error h
    exact ⟨v, rfl, barren⟩
  | toGreibach => exact Grammar.barren_of_toGreibach_eq_error h
  | normalize options =>
    obtain ⟨v, rfl, barren⟩ := Grammar.barren_of_toGreibach_eq_error h
    refine ⟨v, rfl, ?_⟩
    unfold Grammar.applyOptions at barren
    split at barren
    · exact barren.of_reverse
    · exact barren
  | applyOptions | reparse | regroup | restart | addProduction => cases conversion

/--
`A` is erased at once, and that `B` has no words comes to light only when it loses its left recursion.
-/
def endless : Grammar :=
  .ofProductions ⟨"S"⟩
    [.ofNames "S" ["S", "t"], .ofNames "S" ["A", "s"], .ofNames "A" ["B"], .ofNames "A" [],
      .ofNames "B" ["B", "b"]]

set_option maxRecDepth 4000 in
theorem barren_of_apply_eq_error_endless :
    toGreibach.isConversion = true ∧
      toGreibach.apply endless = .error (.underivable ⟨"B"⟩) ∧ endless.Barren ⟨"B"⟩ := by
  have conversion : toGreibach.isConversion = true := by rfl
  have failed : toGreibach.apply endless = .error (.underivable ⟨"B"⟩) := by rfl
  obtain ⟨v, named, barren⟩ := barren_of_apply_eq_error conversion failed
  cases named
  exact ⟨conversion, failed, barren⟩

end Transformation

end ContextFree
