import ContextFree.Proofs.FreshStart

/-!
This module contains what becomes of a grammar and its words when its start variable is isolated.
The words are kept but for a start variable that occurs and has no productions: the grammar has no
words, and that of the fresh start variable has the former start variable, now a terminal.
-/

namespace ContextFree

namespace Grammar

variable {g r : Grammar} {w : List Symbol}

theorem start_mem_vars_of_generates (h : g.Generates w) : g.start ∈ g.vars :=
  (yields_iff.1 h).1

theorem start_mem_terminals_iff :
    g.start ∈ g.terminals ↔ g.occursInRhs g.start = true ∧ ¬ g.start ∈ g.vars := by
  rw [terminals, Productions.mem_terminals]
  refine and_congr_left fun notVar => ?_
  constructor
  · intro occurs
    obtain ⟨p, mem, same | inside⟩ := Productions.mem_symbols.1 occurs
    · exact absurd (Productions.mem_vars.2 ⟨p, mem, same.symm⟩) notVar
    · exact Productions.occursInRhs_iff.2 ⟨p, mem, inside⟩
  · exact start_mem_symbols

theorem toList_withFreshStart :
    g.withFreshStart.productions.toList =
      g.productions.toList ++ [⟨g.withFreshStart.start, [g.start]⟩] := by
  apply OrderedSet.toList_insert_of_not_mem
  intro mem
  exact lhs_ne_freshStart (g := g) mem rfl

theorem occursInRhs_withFreshStart (h : g.occursInRhs g.start = true) :
    g.withFreshStart.occursInRhs g.withFreshStart.start = false := by
  refine Bool.eq_false_iff.2 fun occurs => ?_
  obtain ⟨p, mem, inside⟩ := Productions.occursInRhs_iff.1 occurs
  rcases mem_withFreshStart.1 mem with mem | rfl
  · exact g.freshStart_not_mem (Productions.rhs_mem_symbols mem inside)
  · exact freshStart_ne h (List.mem_singleton.1 inside).symm

/--
A fresh start variable has the words of the former one, and that itself if it is a terminal.
-/
theorem generates_withFreshStart_iff (h : g.occursInRhs g.start = true) :
    g.withFreshStart.Generates w ↔ g.Generates w ∨ g.start ∈ g.terminals ∧ w = [g.start] := by
  have spelled : g.withFreshStart.Generates w ↔ g.productions.Spells g.vars [g.start] w :=
    spells_withFreshStart_iff h
  rw [spelled, start_mem_terminals_iff, and_iff_right h]
  by_cases isVar : g.start ∈ g.vars
  · rw [Generates, yields_iff]
    simp only [isVar, true_and, not_true_eq_false, false_and, or_false]
  · rw [Productions.spells_singleton_iff]
    constructor
    · rintro (⟨_, rfl⟩ | ⟨p, mem, lhs, _⟩)
      · exact .inr ⟨isVar, rfl⟩
      · exact absurd (Productions.mem_vars.2 ⟨p, mem, lhs⟩) isVar
    · rintro (generated | terminal)
      · exact absurd (start_mem_vars_of_generates generated) isVar
      · exact .inl terminal

theorem generates_isolateStart_iff (h : g.isolateStart = .ok r) :
    r.Generates w ↔ g.Generates w ∨ g.start ∈ g.terminals ∧ w = [g.start] := by
  rw [isolateStart_eq] at h
  cases h
  by_cases occurs : g.occursInRhs g.start = true
  · rw [if_pos occurs]
    exact generates_withFreshStart_iff occurs
  · rw [if_neg occurs, start_mem_terminals_iff]
    exact (or_iff_left fun isWord => occurs isWord.1.1).symm

/--
Isolating the start variable always succeeds, and adds one production at most. It keeps the words
just if the start variable is no terminal, and otherwise makes it the only word.
-/
theorem isolateStart_exact (g : Grammar) :
    ∃ r, g.isolateStart = .ok r ∧
      r.occursInRhs r.start = false ∧
      (g.occursInRhs g.start = false → r = g) ∧
      (g.occursInRhs g.start = true → ¬ r.start ∈ g.symbols ∧
        r.productions.toList = g.productions.toList ++ [⟨r.start, [g.start]⟩]) ∧
      (¬ g.start ∈ g.terminals → ∀ w, r.Generates w ↔ g.Generates w) ∧
      (g.start ∈ g.terminals → ∀ w, ¬ g.Generates w ∧ (r.Generates w ↔ w = [g.start])) := by
  refine ⟨_, isolateStart_eq, ?_, ?_, ?_, fun notTerminal w => ?_, fun terminal w => ?_⟩
  · split
    · rename_i occurs
      exact occursInRhs_withFreshStart occurs
    · rename_i occurs
      exact Bool.eq_false_iff.2 occurs
  · intro unused
    rw [unused, if_neg Bool.false_ne_true]
  · intro occurs
    rw [if_pos occurs]
    exact ⟨g.freshStart_not_mem, toList_withFreshStart⟩
  · simp only [generates_isolateStart_iff isolateStart_eq, notTerminal, false_and, or_false]
  · have empty : ¬ g.Generates w := by
      intro generated
      exact (start_mem_terminals_iff.1 terminal).2 (start_mem_vars_of_generates generated)
    refine ⟨empty, ?_⟩
    simp only [generates_isolateStart_iff isolateStart_eq, terminal, empty, true_and, false_or]

/--
The start variable occurs and has no productions.
-/
def withoutStart : Grammar :=
  ofProductions ⟨"S"⟩ [.ofNames "A" ["S"]]

/--
A grammar without words is made one that has its former start variable as a word.
-/
theorem isolateStart_gives_words :
    withoutStart.isolateStart =
        .ok (ofProductions ⟨"S2"⟩ [.ofNames "A" ["S"], .ofNames "S2" ["S"]]) ∧
      (ofProductions ⟨"S2"⟩ [.ofNames "A" ["S"], .ofNames "S2" ["S"]]).Generates [⟨"S"⟩] ∧
      ∀ w, ¬ withoutStart.Generates w := by
  have terminal : withoutStart.start ∈ withoutStart.terminals := by decide
  have isolated : withoutStart.isolateStart =
      .ok (ofProductions ⟨"S2"⟩ [.ofNames "A" ["S"], .ofNames "S2" ["S"]]) := by rfl
  refine ⟨isolated, (generates_isolateStart_iff isolated).2 (.inr ⟨terminal, rfl⟩), ?_⟩
  intro w generated
  exact (start_mem_terminals_iff.1 terminal).2 (start_mem_vars_of_generates generated)

end Grammar

end ContextFree
