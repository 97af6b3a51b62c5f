import ContextFree.Proofs.EpsilonRemoval
import ContextFree.Proofs.GreibachForm
import ContextFree.Proofs.Reversal
import ContextFree.Proofs.Straightening

/-!
This module contains that the stages of the conversions turn no variable into a terminal: the
terminals of what comes out are terminals of the grammar before. Variables that have lost all their
productions are found out by the checks, and those that are not checked occur nowhere any more.
-/

namespace ContextFree

namespace Grammar

open Productions

/--
No symbol has turned into a terminal on the way from `g` to `r`.
-/
def NoNewTerminals (g r : Grammar) : Prop :=
  ∀ s ∈ r.terminals, s ∈ g.terminals

variable {g h r : Grammar} {a s : Symbol}

theorem mem_terminals_iff : s ∈ g.terminals ↔ s ∈ g.symbols ∧ ¬ s ∈ g.vars :=
  Productions.mem_terminals

theorem NoNewTerminals.refl (g : Grammar) : NoNewTerminals g g :=
  fun _ hs => hs

theorem NoNewTerminals.trans (first : NoNewTerminals g h) (second : NoNewTerminals h r) :
    NoNewTerminals g r :=
  fun s hs => first s (second s hs)

/--
It is enough to check the variables if no symbol is new but variables.
-/
theorem noNewTerminals_of_checked (checked : ∀ v ∈ g.vars, ¬ v ∈ r.terminals)
    (known : ∀ s ∈ r.symbols, s ∈ g.symbols ∨ s ∈ r.vars) : NoNewTerminals g r := by
  intro s hs
  obtain ⟨occurs, notVar⟩ := mem_terminals_iff.1 hs
  exact mem_terminals_iff.2 ⟨(known s occurs).resolve_right notVar, fun hv => checked s hv hs⟩

theorem mem_symbols_of_mem_useful (hs : s ∈ g.useful.symbols) : s ∈ g.symbols :=
  mem_symbols_mono (fun _ mem => (mem_useful.1 mem).1) hs

theorem noNewTerminals_prune (h : g.prune = .ok r) : NoNewTerminals g r := by
  obtain ⟨rfl, checked⟩ := prune_eq_ok_iff.1 h
  exact noNewTerminals_of_checked checked fun s hs => .inl (mem_symbols_of_mem_useful hs)

theorem mem_symbols_of_mem_reverse (hs : s ∈ g.reverse.symbols) : s ∈ g.symbols := by
  obtain ⟨p, mem, occurs⟩ := mem_symbols.1 hs
  refine mem_symbols.2 ⟨p.reverse, mem_reverse_iff.1 mem, occurs.imp_right ?_⟩
  exact List.mem_reverse.2

theorem noNewTerminals_reverse (g : Grammar) : NoNewTerminals g g.reverse := by
  intro s hs
  obtain ⟨occurs, notVar⟩ := mem_terminals_iff.1 hs
  refine mem_terminals_iff.2 ⟨mem_symbols_of_mem_reverse occurs, ?_⟩
  rwa [mem_vars_reverse_iff] at notVar

theorem noNewTerminals_of_extendedBy (extended : g.productions.ExtendedBy r.productions a)
    (isVar : a ∈ r.vars)
    (old : ∀ p ∈ r.productions, p.lhs = a → ∀ s ∈ p.rhs, s ∈ g.symbols) : NoNewTerminals g r := by
  apply noNewTerminals_of_checked
  · intro v hv terminal
    exact (mem_terminals_iff.1 terminal).2 (mem_vars_mono extended.sub hv)
  · intro s hs
    obtain ⟨p, mem, occurs⟩ := mem_symbols.1 hs
    rcases extended.added p mem with known | lhs
    · exact .inl (mem_symbols.2 ⟨p, known, occurs⟩)
    · rcases occurs with rfl | occurs
      · exact .inr (lhs ▸ isVar)
      · exact .inl (old p mem lhs s occurs)

theorem noNewTerminals_withFreshStart (occurs : g.occursInRhs g.start = true) :
    NoNewTerminals g g.withFreshStart := by
  apply noNewTerminals_of_extendedBy extendedBy_withFreshStart
  · exact mem_vars.2 ⟨_, mem_withFreshStart.2 (.inr rfl), rfl⟩
  · intro p mem lhs s hs
    rcases mem_withFreshStart.1 mem with mem | rfl
    · exact absurd lhs (lhs_ne_freshStart mem)
    · exact List.mem_singleton.1 hs ▸ start_mem_symbols occurs

theorem noNewTerminals_withErasableStart (occurs : g.occursInRhs g.start = true) :
    NoNewTerminals g g.withErasableStart := by
  apply noNewTerminals_of_extendedBy extendedBy_withErasableStart
  · exact mem_vars.2 ⟨_, mem_withErasableStart.2 (.inr (.inl rfl)), rfl⟩
  · intro p mem lhs s hs
    rcases mem_withErasableStart.1 mem with mem | rfl | rfl
    · exact absurd lhs (lhs_ne_freshStart mem)
    · exact List.mem_singleton.1 hs ▸ start_mem_symbols occurs
    · cases hs

theorem mem_symbols_of_mem_dropped (hs : s ∈ g.dropped.symbols) : s ∈ g.symbols := by
  obtain ⟨q, mem, occurs⟩ := mem_symbols.1 hs
  obtain ⟨p, old, lhs, remains, _⟩ := mem_eraseNullable.1 mem
  rcases occurs with rfl | occurs
  · exact mem_symbols.2 ⟨p, old, .inl lhs⟩
  · exact rhs_mem_symbols old (mem_of_mem_dropNullable remains s occurs).1

theorem noNewTerminals_eraseNullable (keeps : g.productions.KeepsStart g.start)
    (h : g.eraseNullable = .ok r) : NoNewTerminals g r := by
  by_cases only : g.productions.ErasesOnly g.start
  · rw [eraseNullable_of_erasesOnly only] at h
    cases h
    exact .refl g
  · obtain ⟨rfl, checked⟩ := (eraseNullable_eq_ok_iff keeps only).1 h
    refine noNewTerminals_of_checked checked fun s hs => .inl ?_
    exact mem_symbols_of_mem_dropped (mem_symbols_of_mem_useful (g := g.dropped) hs)

theorem noNewTerminals_untangled (inside : g.productions.ErasesNothingInside g.start)
    (pruned : prune ⟨g.start, g.untangled⟩ = .ok h) (checked : h.checkedAgainst g = .ok r) :
    NoNewTerminals g r := by
  obtain ⟨_, auxs, inv⟩ := exists_untangling inside
  obtain ⟨rfl, kept⟩ := checkedAgainst_eq_ok_iff.1 checked
  obtain ⟨rfl, derivable⟩ := prune_eq_ok_iff.1 pruned
  intro s hs
  have occurs := mem_symbols_of_mem_useful (mem_terminals_iff.1 hs).1
  by_cases isAux : s ∈ auxs
  · -- an auxiliary variable has productions, so that the check after pruning covers it
    have isVar := mem_vars_mono (fun p mem => mem_untangled.2 (.inl mem)) (inv.isVar s isAux)
    exact absurd hs (derivable s isVar)
  · refine mem_terminals_iff.2 ⟨mem_symbols_of_mem_untangled inv occurs isAux, fun isVar => ?_⟩
    exact kept s isVar hs

theorem noNewTerminals_substituteLeading (g : Grammar) :
    NoNewTerminals g g.substituteLeading := by
  apply noNewTerminals_of_checked
  · intro v hv terminal
    exact (mem_terminals_iff.1 terminal).2 (mem_vars_substituteLeading_iff.2 hv)
  · intro s hs
    left
    obtain ⟨q, mem, occurs⟩ := mem_symbols.1 hs
    rcases mem_substituteLeading_origin mem with ⟨old, _⟩ | ⟨p, hp, a, ha, rest, rhs, rfl⟩
    · exact mem_symbols.2 ⟨q, old, occurs⟩
    · rcases occurs with rfl | occurs
      · exact mem_symbols.2 ⟨p, hp, .inl rfl⟩
      · rcases List.mem_append.1 occurs with occurs | occurs
        · exact rhs_mem_symbols ha occurs
        · exact rhs_mem_symbols hp (rhs ▸ List.mem_cons_of_mem a.lhs occurs)

end Grammar

end ContextFree
