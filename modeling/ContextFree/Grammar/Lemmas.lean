import ContextFree.Grammar.Basic
import ContextFree.OrderedSet.Lemmas

/-!
This module contains what it takes to be a symbol, a variable or a terminal of a grammar, and what
the check of transformed grammars accepts.
-/

namespace ContextFree

namespace Productions

variable {ps : Productions}

@[simp]
theorem mem_of {p : Production} {v : Symbol} : p ∈ ps.of v ↔ p ∈ ps ∧ p.lhs = v := by
  simp [of, OrderedSet.mem_toList]

@[simp]
theorem mem_symbols {s : Symbol} : s ∈ ps.symbols ↔ ∃ p ∈ ps, s = p.lhs ∨ s ∈ p.rhs := by
  simp [symbols, OrderedSet.mem_toList]

@[simp]
theorem mem_vars {v : Symbol} : v ∈ ps.vars ↔ ∃ p ∈ ps, p.lhs = v := by
  simp [vars, OrderedSet.mem_toList]

@[simp]
theorem mem_terminals {s : Symbol} :
    s ∈ ps.terminals ↔ s ∈ ps.symbols ∧ ¬ s ∈ ps.vars := by
  simp [terminals]

@[simp]
theorem occursInRhs_iff {s : Symbol} : ps.occursInRhs s = true ↔ ∃ p ∈ ps, s ∈ p.rhs := by
  simp [occursInRhs, OrderedSet.mem_toList]

theorem lhs_mem_vars {p : Production} (h : p ∈ ps) : p.lhs ∈ ps.vars :=
  mem_vars.2 ⟨p, h, rfl⟩

theorem lhs_mem_symbols {p : Production} (h : p ∈ ps) : p.lhs ∈ ps.symbols :=
  mem_symbols.2 ⟨p, h, .inl rfl⟩

theorem mem_symbols_of_mem_vars {v : Symbol} (h : v ∈ ps.vars) : v ∈ ps.symbols := by
  obtain ⟨p, mem, rfl⟩ := mem_vars.1 h
  exact lhs_mem_symbols mem

theorem rhs_mem_symbols {p : Production} (h : p ∈ ps) {s : Symbol} (hs : s ∈ p.rhs) :
    s ∈ ps.symbols :=
  mem_symbols.2 ⟨p, h, .inr hs⟩

theorem mem_vars_mono {ps' : Productions} (sub : ∀ p ∈ ps, p ∈ ps') {v : Symbol}
    (h : v ∈ ps.vars) : v ∈ ps'.vars := by
  obtain ⟨p, mem, rfl⟩ := mem_vars.1 h
  exact lhs_mem_vars (sub p mem)

theorem mem_symbols_mono {ps' : Productions} (sub : ∀ p ∈ ps, p ∈ ps') {s : Symbol}
    (h : s ∈ ps.symbols) : s ∈ ps'.symbols := by
  obtain ⟨p, mem, occurs⟩ := mem_symbols.1 h
  exact mem_symbols.2 ⟨p, sub p mem, occurs⟩

theorem mem_vars_or_mem_terminals {s : Symbol} (h : s ∈ ps.symbols) :
    s ∈ ps.vars ∨ s ∈ ps.terminals := by
  by_cases hs : s ∈ ps.vars
  · exact .inl hs
  · exact .inr (mem_terminals.2 ⟨h, hs⟩)

end Productions

namespace Grammar

theorem ext_toList {g h : Grammar} (start : g.start = h.start)
    (productions : g.productions.toList = h.productions.toList) : g = h := by
  obtain ⟨_, ps⟩ := g
  obtain ⟨_, qs⟩ := h
  obtain rfl : ps = qs := OrderedSet.ext_toList productions
  exact congrArg (Grammar.mk · ps) start

theorem bind_eq_ok_iff {x : Except GrammarError Grammar} {f : Grammar → Except GrammarError Grammar}
    {r : Grammar} : x >>= f = .ok r ↔ ∃ a, x = .ok a ∧ f a = .ok r := by
  cases x with
  | error e => simp [bind, Except.bind]
  | ok a => simp [bind, Except.bind]

theorem bind_eq_error_iff {x : Except GrammarError Grammar}
    {f : Grammar → Except GrammarError Grammar} {e : GrammarError} :
    x >>= f = .error e ↔ x = .error e ∨ ∃ a, x = .ok a ∧ f a = .error e := by
  cases x with
  | error e => simp [bind, Except.bind]
  | ok a => simp [bind, Except.bind]

theorem checkedAgainst_eq_ok_iff {g source r : Grammar} :
    g.checkedAgainst source = .ok r ↔
      r = g ∧ ∀ v, v ∈ source.vars → ¬ v ∈ g.terminals := by
  simp only [checkedAgainst]
  split
  · rename_i v found
    have mem := List.mem_of_find?_eq_some found
    have isVariable := List.find?_some found
    simp only [decide_eq_true_eq] at isVariable
    simp only [reduceCtorEq, false_iff]
    exact fun h => h.2 v isVariable mem
  · rename_i none
    simp only [List.find?_eq_none, decide_eq_true_eq] at none
    simp only [Except.ok.injEq, eq_comm]
    exact ⟨fun h => ⟨h, fun v hv ht => none v ht hv⟩, fun h => h.1⟩

theorem exists_of_checkedAgainst_eq_error {g source : Grammar} {e : GrammarError}
    (h : g.checkedAgainst source = .error e) :
    ∃ v, e = .underivable v ∧ v ∈ source.vars ∧ v ∈ g.terminals := by
  simp only [checkedAgainst] at h
  split at h
  · rename_i v found
    have isVariable := List.find?_some found
    simp only [decide_eq_true_eq] at isVariable
    cases h
    exact ⟨v, rfl, isVariable, List.mem_of_find?_eq_some found⟩
  · cases h

end Grammar

end ContextFree
