import ContextFree.Proofs.Pruning

/-!
This module contains that pruning comes to an end, when it fails, and what is left of a grammar if it
does not. It fails just for the variables that are needed, apart from the start variable, and have no
production but one that replaces them by themselves: the start variable may lose all its productions,
as no other production is left then.
-/

namespace ContextFree

namespace Grammar

variable {g r : Grammar} {v s : Symbol} {w : List Symbol}

/--
A variable that is needed for the start variable, other than the start variable itself, and whose
only production replaces it by itself.
-/
structure Idle (g : Grammar) (v : Symbol) : Prop where
  other : v ≠ g.start
  needed : g.productions.Needs g.start v
  only : g.productionsOf v = [⟨v, [v]⟩]

theorem productionsOf_eq_loop_iff :
    g.productionsOf v = [⟨v, [v]⟩] ↔
      v ∈ g.vars ∧ ∀ p ∈ g.productions, p.lhs = v → p.isSelfLoop = true := by
  simp only [productionsOf, Productions.of, OrderedSet.toList_filter_eq_singleton_iff,
    decide_eq_true_eq, mem_vars, Production.isSelfLoop_iff]
  constructor
  · intro only
    obtain ⟨mem, _⟩ := (only ⟨v, [v]⟩).2 rfl
    refine ⟨⟨_, mem, rfl⟩, fun p mem lhs => ?_⟩
    rw [(only p).1 ⟨mem, lhs⟩]
  · rintro ⟨isVar, loops⟩ q
    have same : ∀ p ∈ g.productions, p.lhs = v → p = ⟨v, [v]⟩ := by
      rintro p mem rfl
      exact congrArg (Production.mk p.lhs) (loops p mem rfl)
    constructor
    · rintro ⟨mem, lhs⟩
      exact same q mem lhs
    · rintro rfl
      obtain ⟨p, mem, lhs⟩ := isVar
      exact ⟨same p mem lhs ▸ mem, rfl⟩

/--
What is left of the grammar takes a variable for a terminal just if that was idle.
-/
theorem mem_terminals_useful_iff (isVar : v ∈ g.vars) : v ∈ g.useful.terminals ↔ g.Idle v := by
  constructor
  · intro terminal
    obtain ⟨needed, other, _⟩ := lost_of_mem_terminals_useful isVar terminal
    refine ⟨other, needed, productionsOf_eq_loop_iff.2 ⟨isVar, ?_⟩⟩
    rintro p mem rfl
    cases loop : p.isSelfLoop with
    | true => rfl
    | false =>
      have kept : p ∈ g.useful := mem_useful.2 ⟨mem, needed, loop⟩
      exact absurd (Productions.lhs_mem_vars kept) (Productions.mem_terminals.1 terminal).2
  · rintro ⟨other, needed, only⟩
    obtain ⟨_, loops⟩ := productionsOf_eq_loop_iff.1 only
    refine Productions.mem_terminals.2 ⟨?_, ?_⟩
    · exact (needs_useful_iff.2 needed).eq_or_mem_symbols.resolve_left other
    · intro isVar
      obtain ⟨p, mem, rfl⟩ := Productions.mem_vars.1 isVar
      obtain ⟨mem, _, proper⟩ := mem_useful.1 mem
      rw [loops p mem rfl] at proper
      cases proper

theorem Idle.mem_vars (h : g.Idle v) : v ∈ g.vars :=
  (productionsOf_eq_loop_iff.1 h.only).1

theorem prune_eq_ok_iff_not_idle :
    g.prune = .ok r ↔ r = ⟨g.start, g.useful⟩ ∧ ∀ v, ¬ g.Idle v := by
  rw [prune_eq_ok_iff]
  refine and_congr_right ?_
  rintro rfl
  constructor
  · intro checked v idle
    exact checked v idle.mem_vars ((mem_terminals_useful_iff idle.mem_vars).2 idle)
  · intro idle v isVar terminal
    exact idle v ((mem_terminals_useful_iff isVar).1 terminal)

theorem exists_prune_eq_error_iff : (∃ e, g.prune = .error e) ↔ ∃ v, g.Idle v := by
  constructor
  · rintro ⟨e, failed⟩
    obtain ⟨v, _, isVar, terminal⟩ := exists_of_checkedAgainst_eq_error failed
    exact ⟨v, (mem_terminals_useful_iff isVar).1 terminal⟩
  · rintro ⟨v, idle⟩
    cases pruned : g.prune with
    | ok r => exact absurd idle ((prune_eq_ok_iff_not_idle.1 pruned).2 v)
    | error e => exact ⟨e, rfl⟩

theorem needs_of_mem_vars_prune (h : g.prune = .ok r) (isVar : v ∈ r.vars) :
    g.productions.Needs g.start v := by
  obtain ⟨rfl, _⟩ := prune_eq_ok_iff.1 h
  exact needs_of_mem_vars_useful isVar

/--
The search for reachable symbols comes to an end by itself, after no more rounds than there are symbols
apart from the start variable and one for that, and finds just the symbols that are needed for the start
variable. Pruning fails just if one of them is idle, and otherwise leaves the productions of needed
variables, without those that replace a variable by itself, in their order. All that is left is needed,
and the start variable and the variables that are left keep their words.
-/
theorem prune_exact (g : Grammar) :
    (∃ n ≤ g.symbols.size + 1, g.productions.ReachesIn n (.ofList [g.start]) (.ofList [g.start])
        (g.productions.reachable g.start)) ∧
      (∀ n found, g.productions.ReachesIn n (.ofList [g.start]) (.ofList [g.start]) found →
        found = g.productions.reachable g.start) ∧
      (∀ s, s ∈ g.productions.reachable g.start ↔ g.productions.Needs g.start s) ∧
      ((∃ e, g.prune = .error e) ↔ ∃ v, g.Idle v) ∧
      ((∀ v, ¬ g.Idle v) → ∃ r, g.prune = .ok r ∧
        r.start = g.start ∧
        r.productions.toList.Sublist g.productions.toList ∧
        (∀ p, p ∈ r.productions ↔
          p ∈ g.productions ∧ g.productions.Needs g.start p.lhs ∧ p.rhs ≠ [p.lhs]) ∧
        (∀ s ∈ r.symbols, r.productions.Needs r.start s) ∧
        ∀ v w, v ∈ r.vars ∨ v = g.start → (r.Yields v w ↔ g.Yields v w)) := by
  obtain ⟨n, few, search⟩ := Productions.exists_reachesIn_reachable g.productions g.start
  refine ⟨⟨n, few, search⟩, fun m found other => (other.unique search).2,
    fun s => Productions.mem_reachable_iff, exists_prune_eq_error_iff, fun idle => ?_⟩
  have pruned : g.prune = .ok ⟨g.start, g.useful⟩ := prune_eq_ok_iff_not_idle.2 ⟨rfl, idle⟩
  refine ⟨_, pruned, rfl, List.filter_sublist, fun p => ?_, trim_of_prune pruned, ?_⟩
  · rw [mem_useful, ← Bool.not_eq_true, Production.isSelfLoop_iff]
  · rintro v w (isVar | rfl)
    · exact yields_prune_iff pruned (needs_of_mem_vars_prune pruned isVar)
    · exact yields_prune_iff pruned .refl

/--
Two variables have a production that replaces them by themselves. The start variable has others, and
the other variable is not needed.
-/
def looping : Grammar :=
  ofProductions ⟨"S"⟩ [.ofNames "S" ["S", "A"], .ofNames "S" ["S"], .ofNames "A" [],
    .ofNames "B" ["B"]]

theorem prune_exact_looping : (∀ v, ¬ looping.Idle v) ∧ ∃ r, looping.prune = .ok r ∧
    r.productions.toList = [.ofNames "S" ["S", "A"], .ofNames "A" []] ∧
    ∀ w, r.Yields ⟨"S"⟩ w ↔ looping.Yields ⟨"S"⟩ w := by
  obtain ⟨_, _, _, failing, outcome⟩ := prune_exact looping
  have pruned : looping.prune = .ok ⟨looping.start, looping.useful⟩ := by rfl
  have busy : ∀ v, ¬ looping.Idle v := by
    intro v idle
    obtain ⟨e, failed⟩ := failing.2 ⟨v, idle⟩
    rw [pruned] at failed
    cases failed
  obtain ⟨r, ok, _, _, _, _, same⟩ := outcome busy
  rw [pruned] at ok
  cases ok
  exact ⟨busy, _, pruned, by rfl, fun w => same _ w (.inr rfl)⟩

end Grammar

end ContextFree
