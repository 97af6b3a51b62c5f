import ContextFree.Proofs.LeftRecursionRemoval
import ContextFree.Proofs.Reversal

/-!
This module contains that transformations succeed on productive grammars, in which every variable
that is needed for the start variable derives a word of terminals, and that the result is productive
again.
-/

namespace ContextFree

namespace Productions

variable {ps more : Productions} {vars : OrderedSet Symbol} {start new s t : Symbol}
  {u w : List Symbol}

theorem ExtendedBy.needs_new (h : ps.ExtendedBy more new)
    (replaced : ∀ p ∈ more, p.lhs = new → ∀ s ∈ p.rhs, s = start) (needed : more.Needs new s) :
    s = new ∨ ps.Needs start s := by
  induction needed with
  | refl => exact .inl rfl
  | @step p s _ mem proper occurs ih =>
    right
    by_cases lhs : p.lhs = new
    · rw [replaced p mem lhs s occurs]
      exact .refl
    · exact .step (ih.resolve_left lhs) (h.mem_of_ne mem lhs) proper occurs

theorem Needs.of_eraseNullable (h : (ps.eraseNullable start).Needs start s) :
    ps.Needs start s ∧ (s = start ∨ ¬ s ∈ ps.purelyNullable) := by
  induction h with
  | refl => exact ⟨.refl, .inl rfl⟩
  | @step q s _ mem proper occurs ih =>
    obtain ⟨p, old, lhs, remains, _⟩ := mem_eraseNullable.1 mem
    obtain ⟨occurs', notPure⟩ := mem_of_mem_dropNullable remains s occurs
    rw [lhs] at ih
    exact ⟨ih.1.occurs old occurs', .inr notPure⟩

theorem mem_purelyNullable_of_productive
    (productive : ∀ s, ps.Needs start s → ∃ w, Spells ps vars [s] w) (needed : ps.Needs start s)
    (empty : ∀ w, Spells ps vars [s] w → w = []) : s ∈ ps.purelyNullable := by
  -- having no word but the empty one is closed under right-hand sides: any word of a symbol in one
  -- is part of a word of the whole, since all the others are productive
  have nullable : ∀ s, (ps.Needs start s ∧ ∀ w, Spells ps vars [s] w → w = []) →
      s ∈ ps.nullable := by
    rintro s ⟨needed, empty⟩
    obtain ⟨w, spelled⟩ := productive s needed
    rw [empty w spelled] at spelled
    exact mem_nullable_iff_spells.2 spelled
  have closed : ∀ s, (ps.Needs start s ∧ ∀ w, Spells ps vars [s] w → w = []) → ∀ p ∈ ps,
      p.lhs = s → ∀ t ∈ p.rhs, ps.Needs start t ∧ ∀ w, Spells ps vars [t] w → w = [] := by
    rintro _ ⟨needed, empty⟩ p mem rfl t occurs
    have inner : ∀ t ∈ p.rhs, ps.Needs start t := fun t => needed.occurs mem
    refine ⟨inner t occurs, fun w spelled => ?_⟩
    have ⟨x, reads, whole⟩ : ∃ x, Reads (fun s w => Spells ps vars [s] w) p.rhs x ∧
        (x = [] → w = []) :=
      exists_reads_of_mem (fun t ht => productive t (inner t ht)) occurs spelled
    exact whole (empty x (.of_mem mem (spells_iff_reads.2 reads)))
  exact mem_purelyNullable_of_closed nullable closed ⟨needed, empty⟩

end Productions

namespace Grammar

open Productions

variable {g more : Grammar}

theorem Productive.extended (h : g.Productive)
    (extended : g.productions.ExtendedBy more.productions more.start)
    (replaced : ∀ p ∈ more.productions, p.lhs = more.start → ∀ s ∈ p.rhs, s = g.start)
    (mem : ⟨more.start, [g.start]⟩ ∈ more.productions) (ne : g.start ≠ more.start) :
    more.Productive := by
  intro v needed isVar
  by_cases isStart : v = more.start
  · subst isStart
    obtain ⟨w, spelled⟩ := h.exists_spells .refl
    exact ⟨w, yields_iff.2 ⟨isVar, .of_mem mem ((extended.spells_var_iff ne).2 spelled)⟩⟩
  · have needed := (extended.needs_new replaced needed).resolve_left isStart
    obtain ⟨w, yields⟩ := h v needed ((extended.mem_vars_iff isStart).1 isVar)
    exact ⟨w, (yields_extended_iff extended isStart).2 yields⟩

theorem Productive.withFreshStart (h : g.Productive) (occurs : g.occursInRhs g.start = true) :
    g.withFreshStart.Productive := by
  refine h.extended extendedBy_withFreshStart ?_ ?_ (freshStart_ne occurs)
  · intro p mem lhs s hs
    rcases mem_withFreshStart.1 mem with mem | rfl
    · exact absurd lhs (lhs_ne_freshStart mem)
    · exact List.mem_singleton.1 hs
  · exact mem_withFreshStart.2 (.inr rfl)

theorem Productive.withErasableStart (h : g.Productive) (occurs : g.occursInRhs g.start = true) :
    g.withErasableStart.Productive := by
  refine h.extended extendedBy_withErasableStart ?_ ?_ (freshStart_ne occurs)
  · intro p mem lhs s hs
    rcases mem_withErasableStart.1 mem with mem | rfl | rfl
    · exact absurd lhs (lhs_ne_freshStart mem)
    · exact List.mem_singleton.1 hs
    · cases hs
  · exact mem_withErasableStart.2 (.inr (.inl rfl))

theorem Productive.isolateStart (h : g.Productive) :
    ∃ r, g.isolateStart = .ok r ∧ r.Productive := by
  refine ⟨_, isolateStart_eq, ?_⟩
  split
  · exact h.withFreshStart (by assumption)
  · exact h

theorem Productive.isolateErasableStart (h : g.Productive) :
    g.isolateErasableStart.Productive := by
  unfold Grammar.isolateErasableStart
  split
  · rename_i inside
    exact h.withErasableStart (startErasedInside_iff.1 inside).2
  · exact h

theorem Productive.dropped (h : g.Productive) (keeps : g.productions.KeepsStart g.start) :
    g.dropped.productions.Productive g.vars g.start := by
  intro v needed isVar
  obtain ⟨needed, kept⟩ := needed.of_eraseNullable
  have words {w : List Symbol} : Spells g.dropped.productions g.vars [v] w ↔
      Spells g.productions g.vars [v] w ∧ (w ≠ [] ∨ v = g.start) :=
    spells_eraseNullable_iff (fun v hv => hv) keeps
  by_cases isStart : v = g.start
  · obtain ⟨w, spelled⟩ := h.exists_spells needed
    exact ⟨w, words.2 ⟨spelled, .inr isStart⟩⟩
  · apply Classical.byContradiction
    intro none
    apply kept.resolve_left isStart
    refine mem_purelyNullable_of_productive (fun s => h.exists_spells) needed fun w spelled => ?_
    apply Classical.byContradiction
    intro notEmpty
    exact none ⟨w, words.2 ⟨spelled, .inl notEmpty⟩⟩

theorem Productive.eraseNullable (h : g.Productive) (keeps : g.productions.KeepsStart g.start) :
    ∃ r, g.eraseNullable = .ok r ∧ r.Productive := by
  by_cases only : g.productions.ErasesOnly g.start
  · exact ⟨g, eraseNullable_of_erasesOnly only, h⟩
  · have productive := h.dropped keeps
    have complete := complete_useful_of_productive (fun v => mem_vars_of_mem_dropped) productive
    refine ⟨_, (eraseNullable_eq_ok_iff keeps only).2 ⟨rfl, complete.occurring⟩, ?_⟩
    exact productive_of_complete (g := ⟨g.start, g.dropped.useful⟩) complete
      (productive_useful productive)

theorem Productive.removeEpsilon (h : g.Productive) :
    ∃ r, g.removeEpsilon = .ok r ∧ r.Productive :=
  h.isolateErasableStart.eraseNullable keepsStart_isolateErasableStart

theorem Untangled.productive_start {auxs : List Symbol} (untangled : Untangled g auxs)
    (trim : g.Trim) (isVar : g.start ∈ g.vars) (h : g.Productive) :
    g.untangled.Productive (g.vars.insertMany auxs) g.start := by
  have productive : ∀ s ∈ g.symbols, ∃ w, Spells g.productions g.vars [s] w := fun s hs =>
    h.exists_spells (trim s hs)
  intro v needed _
  cases needed with
  | refl =>
    obtain ⟨w, spelled⟩ := h.exists_spells .refl
    exact ⟨w, (untangled.words g.start (untangled.not_mem_auxs isVar) w).2 spelled⟩
  | step _ mem _ occurs => exact untangled.productive productive v (rhs_mem_symbols mem occurs)

theorem Productive.pruneUntangled {auxs : List Symbol} (untangled : Untangled g auxs)
    (trim : g.Trim) (isVar : g.start ∈ g.vars) (h : g.Productive) :
    ∃ result, Grammar.prune ⟨g.start, g.untangled⟩ = .ok result ∧
      ∃ r, result.checkedAgainst g = .ok r ∧ r.Productive := by
  have productive := untangled.productive_start trim isVar h
  have complete := complete_useful_of_productive (g := ⟨g.start, g.untangled⟩)
    untangled.lhs productive
  refine ⟨_, prune_of_productive untangled.lhs productive, _,
    checkedAgainst_eq_ok_iff.2 ⟨rfl, ?_⟩, ?_⟩
  · intro v hv
    exact complete.occurring v (OrderedSet.mem_insertMany.2 (.inl hv))
  · exact productive_of_complete (g := ⟨g.start, useful ⟨g.start, g.untangled⟩⟩) complete
      (productive_useful productive)

theorem Productive.removeLeftRecursion (h : g.Productive) :
    ∃ r, g.removeLeftRecursion = .ok r ∧ r.Productive := by
  cases recursive : g.isLeftRecursive with
  | false => exact ⟨g, removeLeftRecursion_of_straight recursive, h⟩
  | true =>
    obtain ⟨pruned, hp, productive⟩ := h.prune
    obtain ⟨erased, he, productive⟩ := productive.removeEpsilon
    simp only [removeLeftRecursion_eq_ok_iff recursive]
    cases again : erased.isLeftRecursive with
    | false =>
      refine ⟨erased, ⟨pruned, hp, erased, he, ?_⟩, productive⟩
      rw [again, if_neg Bool.false_ne_true]
    | true =>
      have trim := trim_removeEpsilon (trim_of_prune hp) he
      obtain ⟨v, hv⟩ := exists_mem_vars_of_isLeftRecursive again
      obtain ⟨auxs, untangled⟩ := exists_untangled (erased_of_removeEpsilon he).inside
      obtain ⟨result, hr, r, checked, productive⟩ :=
        productive.pruneUntangled untangled trim (trim.start_mem_vars hv)
      refine ⟨r, ⟨pruned, hp, erased, he, ?_⟩, productive⟩
      rw [if_pos again]
      exact ⟨result, hr, checked⟩

end Grammar

end ContextFree
