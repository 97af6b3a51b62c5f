import ContextFree.Proofs.GreibachRounds
import ContextFree.Transformation

/-!
This module contains which names keep their meaning when auxiliary variables are introduced: those
that are in use where a name is chosen. Names that pruning or the removal of erasing productions has
dropped before that may be taken over.
-/

namespace ContextFree

namespace Productions

variable {ps : Productions} {start v s : Symbol} {p : Production}

theorem filter_mem_dropNullable (nullable purelyNullable : OrderedSet Symbol) (u : List Symbol) :
    u.filter (¬ · ∈ purelyNullable) ∈ dropNullable nullable purelyNullable u := by
  induction u with
  | nil => exact mem_dropNullable_nil.2 rfl
  | cons s u ih =>
    rw [mem_dropNullable_cons]
    by_cases pure : s ∈ purelyNullable
    · refine .inl ⟨.inl pure, ?_⟩
      rwa [List.filter_cons_of_neg]
      simpa using pure
    · refine .inr ⟨pure, _, ih, ?_⟩
      rw [List.filter_cons_of_pos]
      simpa using pure

theorem exists_mem_eraseNullable (mem : p ∈ ps) (occurs : s ∈ p.rhs)
    (notPure : ¬ s ∈ ps.purelyNullable) : ∃ q ∈ ps.eraseNullable start, q.lhs = p.lhs ∧ s ∈ q.rhs := by
  have kept : s ∈ p.rhs.filter (¬ · ∈ ps.purelyNullable) :=
    List.mem_filter.2 ⟨occurs, decide_eq_true notPure⟩
  refine ⟨⟨p.lhs, p.rhs.filter (¬ · ∈ ps.purelyNullable)⟩, ?_, rfl, kept⟩
  refine mem_eraseNullable.2 ⟨p, mem, rfl, filter_mem_dropNullable _ _ _, .inl ?_⟩
  exact List.ne_nil_of_mem kept

theorem Needs.eraseNullable (h : ps.Needs v s) (notPure : ¬ s ∈ ps.purelyNullable) :
    (ps.eraseNullable start).Needs v s := by
  induction h with
  | refl => exact .refl
  | step _ mem _ occurs ih =>
    obtain ⟨q, hq, lhs, occurs'⟩ := exists_mem_eraseNullable mem occurs notPure
    refine Needs.occurs ?_ hq occurs'
    rw [lhs]
    -- whatever a purely nullable variable needs is purely nullable as well
    exact ih fun pure => notPure (mem_purelyNullable_of_mem_rhs mem pure occurs)

end Productions

namespace Grammar

open Productions

/--
The symbol is needed for the start variable, and not just to be erased.
-/
def InUse (g : Grammar) (s : Symbol) : Prop :=
  g.productions.Needs g.start s ∧ ¬ s ∈ g.productions.purelyNullable

/--
If `v` is a variable in `r` then it is one in `g`, with the same words but for the empty one.
-/
def KeepsName (g r : Grammar) (v : Symbol) : Prop :=
  v ∈ r.vars → v ∈ g.vars ∧ ∀ w, w ≠ [] → (r.Yields v w ↔ g.Yields v w)

variable {g h r : Grammar} {a v s : Symbol} {n : Nat}

theorem KeepsName.refl (g : Grammar) (v : Symbol) : KeepsName g g v :=
  fun isVar => ⟨isVar, fun _ _ => Iff.rfl⟩

theorem KeepsName.trans (first : KeepsName g h v) (second : KeepsName h r v) :
    KeepsName g r v := by
  intro isVar
  obtain ⟨isVar, later⟩ := second isVar
  obtain ⟨isVar, sooner⟩ := first isVar
  exact ⟨isVar, fun w notEmpty => (later w notEmpty).trans (sooner w notEmpty)⟩

theorem inUse_of_not_mem_vars (needed : g.productions.Needs g.start s) (notVar : ¬ s ∈ g.vars) :
    g.InUse s :=
  ⟨needed, fun pure => notVar (mem_vars_of_mem_nullable (mem_nullable_of_mem_purelyNullable pure))⟩

theorem mem_symbols_or_eq_start (needed : g.productions.Needs g.start v) :
    v ∈ g.symbols ∨ v = g.start :=
  needed.eq_or_mem_symbols.symm

theorem ne_freshStart (inside : g.startErasedInside = true) (known : v ∈ g.symbols ∨ v = g.start) :
    v ≠ g.freshStart := by
  rcases known with known | rfl
  · intro same
    exact g.freshStart_not_mem (same ▸ known)
  · exact freshStart_ne (startErasedInside_iff.1 inside).2

theorem InUse.prune (inUse : g.InUse s) (h : g.prune = .ok r) : r.InUse s := by
  obtain ⟨rfl, _⟩ := prune_eq_ok_iff.1 h
  obtain ⟨needed, notPure⟩ := inUse
  refine ⟨needs_useful_iff.2 needed, fun pure => notPure ?_⟩
  apply mem_purelyNullable_of_part _ _ needed pure
  · intro t _ isNullable
    exact mem_nullable_mono (fun p mem => (mem_useful.1 mem).1) isNullable
  · intro p mem needed pure s occurs
    refine ⟨needed.occurs mem occurs, ?_⟩
    cases loop : p.isSelfLoop with
    | true =>
      rw [Production.isSelfLoop_iff.1 loop, List.mem_singleton] at occurs
      exact occurs ▸ pure
    | false => exact mem_purelyNullable_of_mem_rhs (mem_useful.2 ⟨mem, needed, loop⟩) pure occurs

theorem InUse.isolateErasableStart (inUse : g.InUse s) : g.isolateErasableStart.InUse s := by
  obtain ⟨needed, notPure⟩ := inUse
  unfold Grammar.isolateErasableStart
  split
  · rename_i inside
    refine ⟨needs_withErasableStart needed, fun pure => notPure ?_⟩
    have nullable : ∀ t, t ≠ g.freshStart → t ∈ g.withErasableStart.productions.nullable →
        t ∈ g.productions.nullable := by
      intro t old isNullable
      have spelled : Spells g.withErasableStart.productions g.withErasableStart.vars [t] [] :=
        spells_nil_of_mem_nullable isNullable
      exact mem_nullable_iff_spells.2
        ((extendedBy_withErasableStart.spells_var_iff old).1 spelled)
    have old := ne_freshStart inside (mem_symbols_or_eq_start needed)
    refine mem_purelyNullable_of_part nullable ?_ old pure
    intro p mem _ pure s occurs
    refine ⟨ne_freshStart inside (.inl (rhs_mem_symbols mem occurs)), ?_⟩
    exact mem_purelyNullable_of_mem_rhs (extendedBy_withErasableStart.sub p mem) pure occurs
  · exact ⟨needed, notPure⟩

theorem exists_mem_useful_dropped (isNullable : g.start ∈ g.productions.nullable)
    (notPure : ¬ g.start ∈ g.productions.purelyNullable) :
    ∃ q ∈ g.dropped.useful, q.lhs = g.start ∧ ∃ t ∈ q.rhs, t ≠ g.start := by
  obtain ⟨p, mem, lhs, t, occurs, ne, notPure⟩ := exists_not_mem_purelyNullable isNullable notPure
  obtain ⟨q, hq, lhs', occurs⟩ := exists_mem_eraseNullable mem occurs notPure
  have ofStart : q.lhs = g.start := lhs'.trans lhs
  refine ⟨q, mem_useful.2 ⟨hq, ofStart ▸ .refl, ?_⟩, ofStart, t, occurs, ne⟩
  rw [Bool.eq_false_iff, Ne, Production.isSelfLoop_iff]
  intro loop
  rw [loop, List.mem_singleton, ofStart] at occurs
  exact ne occurs

theorem InUse.eraseNullable (inUse : g.InUse s) (keeps : g.productions.KeepsStart g.start)
    (h : g.eraseNullable = .ok r) : r.InUse s := by
  by_cases only : g.productions.ErasesOnly g.start
  · rw [eraseNullable_of_erasesOnly only] at h
    cases h
    exact inUse
  · obtain ⟨rfl, _⟩ := (eraseNullable_eq_ok_iff keeps only).1 h
    obtain ⟨needed, notPure⟩ := inUse
    have needed : g.dropped.productions.Needs g.start s := needed.eraseNullable notPure
    refine ⟨needs_useful_iff (g := g.dropped).2 needed, fun pure => ?_⟩
    have nullable {t : Symbol} (pure : t ∈ g.dropped.useful.purelyNullable) :
        t ∈ g.productions.nullable ∧ t = g.start := by
      apply mem_nullable_of_mem_eraseNullable keeps
      exact mem_nullable_mono (fun p mem => (mem_useful.1 mem).1)
        (mem_nullable_of_mem_purelyNullable pure)
    -- only the start variable can still be erased, but it leads to another symbol that cannot
    obtain ⟨isNullable, rfl⟩ := nullable pure
    obtain ⟨q, mem, lhs, t, occurs, ne⟩ := exists_mem_useful_dropped isNullable notPure
    exact ne (nullable (mem_purelyNullable_of_mem_rhs mem (lhs ▸ pure) occurs)).2

theorem InUse.removeEpsilon (inUse : g.InUse s) (h : g.removeEpsilon = .ok r) : r.InUse s :=
  inUse.isolateErasableStart.eraseNullable keepsStart_isolateErasableStart h

theorem keepsName_of_extendedBy (extended : g.productions.ExtendedBy r.productions a)
    (ne : v ≠ a) : KeepsName g r v :=
  fun isVar => ⟨(extended.mem_vars_iff ne).1 isVar, fun _ _ => yields_extended_iff extended ne⟩

theorem keepsName_prune (h : g.prune = .ok r) (needed : g.productions.Needs g.start v) :
    KeepsName g r v := by
  intro isVar
  refine ⟨?_, fun w _ => yields_prune_iff h needed⟩
  obtain ⟨rfl, _⟩ := prune_eq_ok_iff.1 h
  exact vars_useful_subset isVar

theorem keepsName_isolateStart (h : g.isolateStart = .ok r) (known : v ∈ g.symbols) :
    KeepsName g r v := by
  rw [isolateStart_eq] at h
  cases h
  split
  · apply keepsName_of_extendedBy extendedBy_withFreshStart
    intro same
    exact g.freshStart_not_mem (same ▸ known)
  · exact .refl g v

theorem keepsName_isolateErasableStart (known : v ∈ g.symbols ∨ v = g.start) :
    KeepsName g g.isolateErasableStart v := by
  unfold isolateErasableStart
  split
  · exact keepsName_of_extendedBy extendedBy_withErasableStart (ne_freshStart (by assumption) known)
  · exact .refl g v

theorem keepsName_eraseNullable (keeps : g.productions.KeepsStart g.start)
    (h : g.eraseNullable = .ok r) : KeepsName g r v := by
  have erased := erased_of_eraseNullable keeps h
  intro isVar
  refine ⟨erased.vars v isVar, fun w notEmpty => ?_⟩
  rw [erased.words v (.inl isVar) w, and_iff_left (.inl notEmpty)]

theorem keepsName_removeEpsilon (h : g.removeEpsilon = .ok r)
    (known : v ∈ g.symbols ∨ v = g.start) : KeepsName g r v :=
  (keepsName_isolateErasableStart known).trans
    (keepsName_eraseNullable keepsStart_isolateErasableStart h)

theorem keepsName_untangled (inside : g.productions.ErasesNothingInside g.start)
    (pruned : Grammar.prune ⟨g.start, g.untangled⟩ = .ok h) (checked : h.checkedAgainst g = .ok r)
    (known : v ∈ g.symbols) : KeepsName g r v := by
  obtain ⟨auxs, untangled⟩ := exists_untangled inside
  obtain ⟨rfl, complete⟩ := untangled.complete pruned checked
  have old : ¬ v ∈ auxs := fun isAux => untangled.new v isAux known
  intro isVar
  have known := complete.lhs v isVar
  have isVar' : v ∈ g.vars := (OrderedSet.mem_insertMany.1 known).resolve_right old
  refine ⟨isVar', fun w _ => ?_⟩
  have needed := needs_of_mem_vars_useful isVar
  rw [yields_useful_iff complete needed known, untangled.words v old, yields_iff,
    and_iff_right isVar']

theorem keepsName_removeLeftRecursion (h : g.removeLeftRecursion = .ok r) (inUse : g.InUse v) :
    KeepsName g r v := by
  cases recursive : g.isLeftRecursive with
  | false =>
    rw [removeLeftRecursion_of_straight recursive] at h
    cases h
    exact .refl g v
  | true =>
    obtain ⟨pruned, hp, erased, he, h⟩ := (removeLeftRecursion_eq_ok_iff recursive).1 h
    have prunedUse := inUse.prune hp
    have kept := (keepsName_prune hp inUse.1).trans
      (keepsName_removeEpsilon he (mem_symbols_or_eq_start prunedUse.1))
    split at h
    · rename_i stillRecursive
      obtain ⟨result, hr, checked⟩ := h
      refine kept.trans (keepsName_untangled (erased_of_removeEpsilon he).inside hr checked ?_)
      rcases mem_symbols_or_eq_start (prunedUse.removeEpsilon he).1 with known | rfl
      · exact known
      · obtain ⟨s, isVar⟩ := exists_mem_vars_of_isLeftRecursive stillRecursive
        have trim := trim_removeEpsilon (trim_of_prune hp) he
        exact mem_symbols_of_mem_vars (trim.start_mem_vars isVar)
    · exact h ▸ kept

theorem keepsName_substituteLeading : KeepsName g g.substituteLeading v :=
  fun isVar =>
    ⟨mem_vars_substituteLeading_iff.1 isVar, fun _ _ => yields_substituteLeading_iff⟩

theorem isLeftRecursive_substituteLeading (inside : g.productions.ErasesNothingInside g.start)
    (straight : g.isLeftRecursive = false) : g.substituteLeading.isLeftRecursive = false := by
  apply isLeftRecursive_eq_false_of_bound (n := g.vars.size)
  intro v chain
  have bound := (leadsFar_substituteLeading inside chain).lt_size straight
  change _ < g.vars.size at bound
  omega

/--
Once nothing is erased inside words and there is no left recursion, no name is introduced any more.
-/
theorem keepsName_greibachRounds (inside : g.productions.ErasesNothingInside g.start)
    (straight : g.isLeftRecursive = false) (h : g.greibachRounds n = .ok r) :
    KeepsName g r v := by
  induction n generalizing g with
  | zero =>
    obtain ⟨rfl, _⟩ := checkGreibach_eq_ok_iff.1 h
    exact .refl _ v
  | succ n ih =>
    unfold greibachRounds at h
    split at h
    · cases h
      exact .refl _ v
    · rw [greibachRound_of_straight inside straight] at h
      exact keepsName_substituteLeading.trans (ih (inside_substituteLeading inside)
        (isLeftRecursive_substituteLeading inside straight) h)

theorem keepsName_toGreibach (h : g.toGreibach = .ok r) (inUse : g.InUse v) :
    KeepsName g r v := by
  unfold toGreibach at h
  split at h
  · cases h
    exact .refl g v
  · obtain ⟨first, round, rounds⟩ := bind_eq_ok_iff.1 h
    obtain ⟨erased, he, straight, hs, rfl⟩ := greibachRound_eq_ok_iff.1 round
    have inside := inside_removeLeftRecursion (erased_of_removeEpsilon he).inside hs
    have notRecursive := isLeftRecursive_removeLeftRecursion hs
    have erasing := keepsName_removeEpsilon he (mem_symbols_or_eq_start inUse.1)
    have straightening := keepsName_removeLeftRecursion hs (inUse.removeEpsilon he)
    have turning := keepsName_greibachRounds (v := v) (inside_substituteLeading inside)
      (isLeftRecursive_substituteLeading inside notRecursive) rounds
    exact ((erasing.trans straightening).trans keepsName_substituteLeading).trans turning

end Grammar

namespace Transformation

open Grammar Productions

variable {g r : Grammar} {t : Transformation}

/--
Where a conversion chooses names before anything is dropped, a new variable is none of the symbols
of the grammar, and the variables that it had keep their words but for the empty one. Where pruning
and the removal of erasing productions come first, that is so for the symbols in use.
-/
theorem apply_keeps_names (h : t.apply g = .ok r) :
    (t = isolateStart ∨ t = removeEpsilon → ∀ v ∈ r.vars,
      (¬ v ∈ g.vars → ¬ v ∈ g.symbols) ∧
        (v ∈ g.vars → ∀ w, w ≠ [] → (r.Yields v w ↔ g.Yields v w))) ∧
    (t = removeLeftRecursion ∨ t = toGreibach → ∀ v ∈ r.vars,
      (¬ v ∈ g.vars → ¬ g.productions.Needs g.start v) ∧
        (v ∈ g.vars → g.InUse v → ∀ w, w ≠ [] → (r.Yields v w ↔ g.Yields v w))) := by
  constructor
  · intro early v isVar
    have kept : v ∈ g.symbols → KeepsName g r v := by
      intro known
      rcases early with rfl | rfl
      · exact keepsName_isolateStart h known
      · exact keepsName_removeEpsilon h (.inl known)
    constructor
    · intro new known
      exact new (kept known isVar).1
    · intro old
      exact (kept (mem_symbols_of_mem_vars old) isVar).2
  · intro late v isVar
    have kept : g.InUse v → KeepsName g r v := by
      intro inUse
      rcases late with rfl | rfl
      · exact keepsName_removeLeftRecursion h inUse
      · exact keepsName_toGreibach h inUse
    constructor
    · intro new needed
      exact new (kept (inUse_of_not_mem_vars needed new) isVar).1
    · intro _ inUse
      exact (kept inUse isVar).2

/--
The start variable needs neither `S2` nor `B2`, and `A2` is only there to be erased.
-/
def crowded : Grammar :=
  ofProductions ⟨"S"⟩
    [.ofNames "S" ["S", "a"], .ofNames "S" ["A"], .ofNames "A" ["A", "A2", "c"], .ofNames "A" ["B"],
      .ofNames "B" ["B", "e"], .ofNames "B" ["d"], .ofNames "A2" [], .ofNames "B2" ["x"],
      .ofNames "X" ["S2"]]

def straightCrowded : Grammar :=
  ofProductions ⟨"S"⟩
    [.ofNames "S" ["A"], .ofNames "S" ["A", "S2"], .ofNames "S2" ["a"], .ofNames "S2" ["a", "S2"],
      .ofNames "A" ["B"], .ofNames "A" ["B", "A2"], .ofNames "A2" ["c"], .ofNames "A2" ["c", "A2"],
      .ofNames "B" ["d"], .ofNames "B" ["d", "B2"], .ofNames "B2" ["e"], .ofNames "B2" ["e", "B2"]]

set_option maxRecDepth 4000 in
theorem apply_keeps_names_crowded :
    removeEpsilon.apply brackets = .ok outerBrackets ∧
      (∀ v ∈ outerBrackets.vars,
        (¬ v ∈ brackets.vars → ¬ v ∈ brackets.symbols) ∧
          (v ∈ brackets.vars → ∀ w, w ≠ [] → (outerBrackets.Yields v w ↔ brackets.Yields v w))) ∧
      removeLeftRecursion.apply crowded = .ok straightCrowded ∧
      crowded.InUse ⟨"A"⟩ ∧
      ∀ w, w ≠ [] → (straightCrowded.Yields ⟨"A"⟩ w ↔ crowded.Yields ⟨"A"⟩ w) := by
  have erased : removeEpsilon.apply brackets = .ok outerBrackets := by rfl
  have straightened : removeLeftRecursion.apply crowded = .ok straightCrowded := by rfl
  have inUse : crowded.InUse ⟨"A"⟩ := by
    refine ⟨?_, by decide⟩
    exact Needs.refl.occurs (p := .ofNames "S" ["A"]) (by decide) (by decide)
  refine ⟨erased, (apply_keeps_names erased).1 (.inr rfl), straightened, inUse, ?_⟩
  exact ((apply_keeps_names straightened).2 (.inl rfl) ⟨"A"⟩ (by decide)).2 (by decide) inUse

set_option maxRecDepth 4000 in
/--
All three names are taken over: that of a terminal, and those of two variables, which get words that
they did not have.
-/
theorem removeLeftRecursion_takes_names :
    removeLeftRecursion.apply crowded = .ok straightCrowded ∧
      (⟨"S2"⟩ ∈ straightCrowded.vars ∧ ¬ ⟨"S2"⟩ ∈ crowded.vars ∧ ⟨"S2"⟩ ∈ crowded.symbols) ∧
      (⟨"A2"⟩ ∈ crowded.vars ∧
        straightCrowded.Yields ⟨"A2"⟩ [⟨"c"⟩] ∧ ¬ crowded.Yields ⟨"A2"⟩ [⟨"c"⟩]) ∧
      ⟨"B2"⟩ ∈ crowded.vars ∧
        straightCrowded.Yields ⟨"B2"⟩ [⟨"e"⟩] ∧ ¬ crowded.Yields ⟨"B2"⟩ [⟨"e"⟩] := by
  refine ⟨by rfl, by decide, ⟨by decide, ?_, ?_⟩, by decide, ?_, ?_⟩
  · refine Productions.yields_iff.2 ⟨.ofNames "A2" ["c"], by decide, rfl, spells_refl ?_⟩
    decide
  · intro yields
    have only : ∀ p ∈ crowded.productions.toList, p.lhs = ⟨"A2"⟩ → p.rhs = [] := by decide
    have impossible := eq_of_yields_of_rhs only (by decide) yields
    cases impossible
  · refine Productions.yields_iff.2 ⟨.ofNames "B2" ["e"], by decide, rfl, spells_refl ?_⟩
    decide
  · intro yields
    have only : ∀ p ∈ crowded.productions.toList, p.lhs = ⟨"B2"⟩ → p.rhs = [⟨"x"⟩] := by decide
    have impossible := eq_of_yields_of_rhs only (by decide) yields
    exact absurd impossible (by decide)

end Transformation

end ContextFree
