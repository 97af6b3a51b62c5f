import ContextFree.Proofs.Erasure
import ContextFree.Proofs.FreshStart

/-!
This module contains the correctness of the removal of erasing productions, which isolates a start
variable that would be erased inside words, drops nullable symbols and prunes what is left.
-/

namespace ContextFree

namespace Grammar

variable {g r : Grammar} {v : Symbol} {w : List Symbol}

theorem keepsStart_iff :
    g.productions.KeepsStart g.start ↔ g.startErasedInside = false := by
  rw [Bool.eq_false_iff, ne_eq, startErasedInside_iff, not_and]
  constructor
  · intro keeps isNullable occurs
    obtain ⟨p, mem, inRhs⟩ := Productions.occursInRhs_iff.1 occurs
    exact keeps p mem inRhs isNullable
  · intro outside p mem inRhs isNullable
    exact outside isNullable (Productions.occursInRhs_iff.2 ⟨p, mem, inRhs⟩)

theorem keepsStart_withErasableStart (inside : g.startErasedInside = true) :
    g.withErasableStart.productions.KeepsStart g.withErasableStart.start := by
  obtain ⟨_, occurs⟩ := startErasedInside_iff.1 inside
  intro p mem inRhs
  rcases mem_withErasableStart.1 mem with mem | rfl | rfl
  · exact absurd inRhs (extendedBy_withErasableStart.not_mem_rhs mem)
  · exact absurd (List.mem_singleton.1 inRhs).symm (freshStart_ne occurs)
  · cases inRhs

theorem keepsStart_isolateErasableStart :
    g.isolateErasableStart.productions.KeepsStart g.isolateErasableStart.start := by
  unfold isolateErasableStart
  split
  · exact keepsStart_withErasableStart (by assumption)
  · exact keepsStart_iff.2 (Bool.eq_false_iff.2 (by assumption))

/--
The grammar with its nullable symbols dropped, before it is pruned.
-/
def dropped (g : Grammar) : Grammar :=
  ⟨g.start, g.productions.eraseNullable g.start⟩

theorem mem_vars_of_mem_dropped (h : v ∈ g.dropped.vars) : v ∈ g.vars :=
  Productions.mem_vars_of_mem_eraseNullable h

theorem eraseNullable_of_erasesOnly (h : g.productions.ErasesOnly g.start) :
    g.eraseNullable = .ok g := by
  unfold eraseNullable
  rw [if_pos h]

theorem eraseNullable_eq (keeps : g.productions.KeepsStart g.start)
    (more : ¬ g.productions.ErasesOnly g.start) :
    g.eraseNullable = g.dropped.prune >>= fun pruned => pruned.checkedAgainst g := by
  unfold eraseNullable
  rw [if_neg more, nullable, Productions.eraseRounds_eq keeps more, dropped]

theorem eraseNullable_eq_ok_iff (keeps : g.productions.KeepsStart g.start)
    (more : ¬ g.productions.ErasesOnly g.start) :
    g.eraseNullable = .ok r ↔
      r = ⟨g.start, g.dropped.useful⟩ ∧ ∀ v ∈ g.vars, ¬ v ∈ r.terminals := by
  rw [eraseNullable_eq keeps more]
  simp only [bind_eq_ok_iff, prune_eq_ok_iff, checkedAgainst_eq_ok_iff]
  constructor
  · rintro ⟨pruned, ⟨rfl, _⟩, rfl, checked⟩
    exact ⟨rfl, checked⟩
  · rintro ⟨rfl, checked⟩
    exact ⟨_, ⟨rfl, fun v hv => checked v (mem_vars_of_mem_dropped hv)⟩, rfl, checked⟩

/--
What the removal of erasing productions makes of a grammar whose start variable is not erased inside
words.
-/
structure Erased (g r : Grammar) : Prop where
  start : r.start = g.start
  vars : ∀ v ∈ r.vars, v ∈ g.vars
  words : ∀ v, v ∈ r.vars ∨ v = r.start → ∀ w, r.Yields v w ↔ g.Yields v w ∧ (w ≠ [] ∨ v = r.start)
  inside : r.productions.ErasesNothingInside r.start

theorem erased_of_erasesOnly (keeps : g.productions.KeepsStart g.start)
    (only : g.productions.ErasesOnly g.start) : Erased g g := by
  refine ⟨rfl, fun v hv => hv, ?_, only, ?_⟩
  · intro v _ w
    rw [iff_self_and, yields_iff]
    rintro ⟨_, spelled⟩
    refine Classical.or_iff_not_imp_left.2 fun empty => ?_
    rw [Classical.not_not.1 empty] at spelled
    exact only v (Productions.mem_nullable_iff_spells.2 spelled)
  · intro p mem s occurs isNullable
    obtain rfl := only s isNullable
    exact keeps p mem occurs isNullable

theorem erased_of_pruned (keeps : g.productions.KeepsStart g.start)
    (checked : ∀ v ∈ g.vars, ¬ v ∈ g.dropped.useful.terminals) :
    Erased g ⟨g.start, g.dropped.useful⟩ := by
  have complete : g.dropped.useful.Complete g.vars := by
    refine ⟨fun v hv => ?_, checked⟩
    exact mem_vars_of_mem_dropped (vars_useful_subset hv)
  have inside := Productions.erasesNothingInside_eraseNullable keeps
  refine ⟨rfl, complete.lhs, ?_, inside.mono fun p mem => (mem_useful.1 mem).1⟩
  · intro v known w
    have needed : g.dropped.productions.Needs g.start v := by
      rcases known with isVar | rfl
      · exact needs_of_mem_vars_useful isVar
      · exact .refl
    by_cases isVar : v ∈ g.vars
    · apply (yields_useful_iff (g := g.dropped) complete needed isVar).trans
      rw [yields_iff, and_iff_right isVar]
      exact Productions.spells_eraseNullable_iff (fun v hv => hv) keeps
    · constructor
      · intro yields
        exact absurd (complete.lhs v (yields_iff.1 yields).1) isVar
      · intro yields
        exact absurd (yields_iff.1 yields.1).1 isVar

theorem erased_of_eraseNullable (keeps : g.productions.KeepsStart g.start)
    (h : g.eraseNullable = .ok r) : Erased g r := by
  by_cases only : g.productions.ErasesOnly g.start
  · rw [eraseNullable_of_erasesOnly only] at h
    cases h
    exact erased_of_erasesOnly keeps only
  · obtain ⟨rfl, checked⟩ := (eraseNullable_eq_ok_iff keeps only).1 h
    exact erased_of_pruned keeps checked

theorem generates_isolateErasableStart_iff :
    g.isolateErasableStart.Generates w ↔ g.Generates w := by
  unfold isolateErasableStart
  split
  · exact generates_withErasableStart_iff (by assumption)
  · rfl

theorem yields_isolateErasableStart_iff (ne : v ≠ g.isolateErasableStart.start) :
    g.isolateErasableStart.Yields v w ↔ g.Yields v w := by
  unfold isolateErasableStart at ne ⊢
  split
  · rw [if_pos (by assumption)] at ne
    exact yields_extended_iff extendedBy_withErasableStart ne
  · rfl

theorem erased_of_removeEpsilon (h : g.removeEpsilon = .ok r) :
    Erased g.isolateErasableStart r :=
  erased_of_eraseNullable keepsStart_isolateErasableStart h

theorem generates_removeEpsilon_iff (h : g.removeEpsilon = .ok r) :
    r.Generates w ↔ g.Generates w := by
  have erased := erased_of_removeEpsilon h
  rw [Generates, erased.words r.start (.inr rfl) w, and_iff_left (.inr rfl), erased.start]
  exact generates_isolateErasableStart_iff

theorem yields_removeEpsilon_iff (h : g.removeEpsilon = .ok r) (isVar : v ∈ r.vars)
    (ne : v ≠ r.start) : r.Yields v w ↔ w ≠ [] ∧ g.Yields v w := by
  have erased := erased_of_removeEpsilon h
  rw [erased.words v (.inl isVar) w, or_iff_left ne, and_comm]
  rw [yields_isolateErasableStart_iff (erased.start ▸ ne)]

theorem needs_withErasableStart {s : Symbol} (needed : g.productions.Needs g.start s) :
    g.withErasableStart.productions.Needs g.freshStart s := by
  have old : g.withErasableStart.productions.Needs g.freshStart g.start :=
    Productions.Needs.refl.occurs (mem_withErasableStart.2 (.inr (.inl rfl))) List.mem_cons_self
  exact old.trans (needed.mono extendedBy_withErasableStart.sub)

theorem trim_withErasableStart (h : g.Trim) : g.withErasableStart.Trim := by
  intro s hs
  obtain ⟨p, mem, hs⟩ := Productions.mem_symbols.1 hs
  rcases mem_withErasableStart.1 mem with mem | rfl | rfl
  · exact needs_withErasableStart (h s (Productions.mem_symbols.2 ⟨p, mem, hs⟩))
  · rcases hs with rfl | hs
    · exact .refl
    · rw [List.mem_singleton.1 hs]
      exact needs_withErasableStart .refl
  · rcases hs with rfl | hs
    · exact .refl
    · cases hs

theorem trim_removeEpsilon (trim : g.Trim) (h : g.removeEpsilon = .ok r) : r.Trim := by
  have isolated : g.isolateErasableStart.Trim := by
    unfold isolateErasableStart
    split
    · exact trim_withErasableStart trim
    · exact trim
  unfold removeEpsilon at h
  by_cases only : g.isolateErasableStart.productions.ErasesOnly g.isolateErasableStart.start
  · rw [eraseNullable_of_erasesOnly only] at h
    cases h
    exact isolated
  · obtain ⟨rfl, _⟩ := (eraseNullable_eq_ok_iff keepsStart_isolateErasableStart only).1 h
    exact trim_useful (g := g.isolateErasableStart.dropped)

theorem eq_start_of_derives_nil (inside : g.productions.ErasesNothingInside g.start)
    (derived : g.productions.Derives [v] []) : v = g.start ∧ g.occursInRhs v = false := by
  have isNullable := Productions.mem_nullable_iff_derives.2 derived
  refine ⟨inside.eq_start v isNullable, ?_⟩
  rw [Bool.eq_false_iff]
  intro occurs
  obtain ⟨p, mem, inRhs⟩ := Productions.occursInRhs_iff.1 occurs
  exact inside.not_mem_rhs p mem v inRhs isNullable

/--
Removing erasing productions leaves at most the start variable with the empty word, and then it
occurs on no right-hand side. The language stays the same, and every other variable loses the empty
word and nothing else.
-/
theorem removeEpsilon_keeps_words (h : g.removeEpsilon = .ok r) :
    (∀ v, r.productions.Derives [v] [] → v = r.start ∧ r.occursInRhs v = false) ∧
      (∀ w, r.Generates w ↔ g.Generates w) ∧
      ∀ v ∈ r.vars, v ≠ r.start → ∀ w, r.Yields v w ↔ w ≠ [] ∧ g.Yields v w := by
  refine ⟨?_, fun w => generates_removeEpsilon_iff h, ?_⟩
  · intro v
    exact eq_start_of_derives_nil (erased_of_removeEpsilon h).inside
  · intro v isVar ne w
    exact yields_removeEpsilon_iff h isVar ne

/--
The words of matching brackets, whose start variable is erased inside them.
-/
def brackets : Grammar :=
  ofProductions ⟨"S"⟩ [.ofNames "S" ["S", "S"], .ofNames "S" ["(", "S", ")"], .ofNames "S" []]

def outerBrackets : Grammar :=
  ofProductions ⟨"S2"⟩
    [.ofNames "S" ["S", "S"], .ofNames "S" ["(", "S", ")"], .ofNames "S" ["(", ")"],
      .ofNames "S2" ["S"], .ofNames "S2" []]

theorem removeEpsilon_keeps_brackets :
    brackets.removeEpsilon = .ok outerBrackets ∧
      (∀ v, outerBrackets.productions.Derives [v] [] →
        v = outerBrackets.start ∧ outerBrackets.occursInRhs v = false) ∧
      (∀ w, outerBrackets.Generates w ↔ brackets.Generates w) ∧
      ∀ v ∈ outerBrackets.vars, v ≠ outerBrackets.start →
        ∀ w, outerBrackets.Yields v w ↔ w ≠ [] ∧ brackets.Yields v w := by
  have converted : brackets.removeEpsilon = .ok outerBrackets := by rfl
  exact ⟨converted, removeEpsilon_keeps_words converted⟩

end Grammar

end ContextFree
