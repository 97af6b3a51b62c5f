import ContextFree.Proofs.TreatmentOrder

/-!
This module contains in which order variables lead to one another in the course of the treatment of
left recursion. After each step the variables that have been treated lead to later ones only, and the
auxiliary variables that have been introduced for them lead to no auxiliary variables but those that
have been introduced earlier.
-/

namespace ContextFree

namespace Grammar

open Productions Untangling

/--
What is true of productions when as many variables have been treated. Those of a variable that has been
treated begin with terminals and later variables, and those of an auxiliary variable begin with
terminals, variables, and auxiliary ones of variables that come earlier.
-/
structure LeadsOn (g : Grammar) (count : Nat) (state : Untangling) : Prop where
  used : state.used.toList = g.symbols.toList ++ g.auxiliaries count
  lhs : ∀ p ∈ state.productions, p.lhs ∈ g.vars ∨ ∃ i < count, g.auxiliary? i = some p.lhs
  ofTreated : ∀ i < count, ∀ p ∈ state.productions, g.vars.get? i = some p.lhs →
    ∃ s, p.first? = some s ∧ (∀ k, g.auxiliary? k ≠ some s) ∧
      (s ∈ g.terminals ∨ ∃ k > i, g.vars.get? k = some s)
  ofAuxiliary : ∀ i < count, ∀ p ∈ state.productions, g.auxiliary? i = some p.lhs →
    ∃ s, p.first? = some s ∧
      (s ∈ g.terminals ∨ s ∈ g.vars ∨ ∃ k < i, g.auxiliary? k = some s)
  nonempty : ∀ p ∈ state.productions, p.rhs ≠ []

variable {g source : Grammar} {a b : Symbol} {i k n : Nat} {p : Production}

theorem lt_size_of_auxiliary? (h : g.auxiliary? n = some a) : n < g.vars.size := by
  apply Nat.lt_of_not_le
  intro le
  rw [auxiliary?, treatedUpTo_of_size_le le, treatedUpTo_of_size_le (Nat.le_succ_of_le le)] at h
  exact Nat.lt_irrefl _ (OrderedSet.lt_size_of_get? h)

@[simp]
theorem mem_auxiliaries : a ∈ g.auxiliaries n ↔ ∃ i < n, g.auxiliary? i = some a := by
  simp [auxiliaries]

theorem auxiliaries_prefix (le : i ≤ n) : g.auxiliaries i <+: g.auxiliaries n := by
  induction le with
  | refl => exact List.prefix_refl _
  | step _ ih =>
    rw [auxiliaries_succ]
    exact ih.trans (List.prefix_append _ _)

section Inside

variable (inside : g.productions.ErasesNothingInside g.start)

include inside

theorem not_mem_symbols_of_auxiliary? (h : g.auxiliary? i = some a) : ¬ a ∈ g.symbols := by
  have inv := (invariant_treatedUpTo inside (Nat.le_refl g.vars.size)).2
  exact inv.not_mem_names (mem_auxiliaries.2 ⟨i, lt_size_of_auxiliary? h, h⟩)

theorem auxiliary?_ne_of_lt (lt : i < k) (h : g.auxiliary? i = some a) : g.auxiliary? k ≠ some a := by
  intro h'
  have nodup := (g.treatedUpTo (k + 1)).used.nodup
  rw [(invariant_treatedUpTo inside (lt_size_of_auxiliary? h')).2.used, auxiliaries_succ,
    h', Option.toList_some, ← List.append_assoc] at nodup
  have known : a ∈ g.symbols.toList ++ g.auxiliaries k :=
    List.mem_append_right _ (mem_auxiliaries.2 ⟨i, lt, h⟩)
  exact (List.nodup_append.1 nodup).2.2 a known a List.mem_cons_self rfl

theorem auxiliary?_injective (h : g.auxiliary? i = some a) (h' : g.auxiliary? k = some a) :
    i = k := by
  rcases Nat.lt_trichotomy i k with lt | same | lt
  · exact absurd h' (auxiliary?_ne_of_lt inside lt h)
  · exact same
  · exact absurd h (auxiliary?_ne_of_lt inside lt h')

theorem idxOf_auxiliaries_lt (le : k ≤ n) (lt : i < k) (ha : g.auxiliary? i = some a)
    (hb : g.auxiliary? k = some b) : (g.auxiliaries n).idxOf a < (g.auxiliaries n).idxOf b := by
  obtain ⟨_, split⟩ := auxiliaries_prefix (g := g) le
  rw [← split]
  apply idxOf_lt_of_append (mem_auxiliaries.2 ⟨i, lt, ha⟩)
  intro earlier
  obtain ⟨m, before, hb'⟩ := mem_auxiliaries.1 earlier
  exact Nat.ne_of_lt before (auxiliary?_injective inside hb' hb)

theorem exists_first? (le : n ≤ g.vars.size) (mem : p ∈ (g.treatedUpTo n).productions) :
    ∃ s, p.first? = some s ∧ (s ∈ g.auxiliaries n ∨ s ∈ g.vars ∨ s ∈ g.terminals) := by
  have madeOf := (invariant_treatedUpTo inside le).2.madeOf
  have starts := List.head?_eq_some_head (madeOf.nonempty p mem)
  refine ⟨_, starts, (madeOf.rhs p mem _ (List.mem_of_head? starts)).imp_right ?_⟩
  rintro ⟨q, old, occurs⟩
  exact mem_vars_or_mem_terminals (rhs_mem_symbols (mem_of_mem_nonErasing old) occurs)

theorem exists_first?_of_treated (le : n ≤ g.vars.size) (lt : i < n)
    (mem : p ∈ (g.treatedUpTo n).productions) (place : g.vars.get? i = some p.lhs) :
    ∃ s, p.first? = some s ∧ (∀ k, g.auxiliary? k ≠ some s) ∧
      (s ∈ g.terminals ∨ ∃ k > i, g.vars.get? k = some s) := by
  obtain ⟨treated, inv⟩ := invariant_treatedUpTo inside le
  obtain ⟨s, starts, origin⟩ := exists_first? inside le mem
  have isTreated : p.lhs ∈ (g.treatedUpTo n).treated := by
    rw [treated]
    exact List.mem_of_getElem? ((List.getElem?_take_of_lt lt).trans place)
  obtain ⟨notAux, later⟩ := inv.ordered.treated p mem isTreated s starts
  have known := origin.resolve_left notAux
  refine ⟨s, starts, fun k isAux => ?_, ?_⟩
  · apply not_mem_symbols_of_auxiliary? inside isAux
    rcases known with isVar | terminal
    · exact mem_symbols_of_mem_vars isVar
    · exact (mem_terminals.1 terminal).1
  · rcases known with isVar | terminal
    · refine .inr ⟨g.vars.toList.idxOf s, ?_, List.getElem?_idxOf isVar⟩
      rw [OrderedSet.get?_injective place (List.getElem?_idxOf (List.mem_of_getElem? place))]
      exact later isVar
    · exact .inl terminal

theorem exists_first?_of_auxiliary? (le : n ≤ g.vars.size) (lt : i < n)
    (mem : p ∈ (g.treatedUpTo n).productions) (isAux : g.auxiliary? i = some p.lhs) :
    ∃ s, p.first? = some s ∧
      (s ∈ g.terminals ∨ s ∈ g.vars ∨ ∃ k < i, g.auxiliary? k = some s) := by
  have inv := (invariant_treatedUpTo inside le).2
  obtain ⟨s, starts, aux | known⟩ := exists_first? inside le mem
  · refine ⟨s, starts, .inr (.inr ?_)⟩
    have lhs : p.lhs ∈ g.auxiliaries n := mem_auxiliaries.2 ⟨i, lt, isAux⟩
    have before := inv.ordered.auxiliary p mem lhs s aux starts
    obtain ⟨k, lt', chosen⟩ := mem_auxiliaries.1 aux
    refine ⟨k, Nat.lt_of_not_le fun le' => ?_, chosen⟩
    rcases Nat.lt_or_eq_of_le le' with later | rfl
    · exact Nat.lt_asymm before (idxOf_auxiliaries_lt inside (Nat.le_of_lt lt') later isAux chosen)
    · rw [Option.some.inj (chosen.symm.trans isAux)] at before
      exact Nat.lt_irrefl _ before
  · exact ⟨s, starts, known.symm.imp_right .inl⟩

theorem leadsOn_treatedUpTo (le : n ≤ g.vars.size) : g.LeadsOn n (g.treatedUpTo n) := by
  have inv := (invariant_treatedUpTo inside le).2
  refine ⟨inv.used, ?_, ?_, ?_, inv.madeOf.nonempty⟩
  · intro p mem
    exact (inv.madeOf.lhs p mem).imp_right mem_auxiliaries.1
  · intro i lt p mem place
    exact exists_first?_of_treated inside le lt mem place
  · intro i lt p mem isAux
    exact exists_first?_of_auxiliary? inside le lt mem isAux

end Inside

/--
What the treatment of left recursion keeps to, in a grammar that has been prepared for it. The
auxiliary variables are no symbols of the grammar, and each of them is introduced for one variable only.
Variables that have been treated never begin with one, but with terminals and later variables, and an
auxiliary variable begins with no others but earlier ones. No production is erasing.
-/
theorem treatment_leads_on (prepared : source.prepared = .ok g) :
    (∀ i a, g.auxiliary? i = some a → ¬ a ∈ g.symbols) ∧
      (∀ i k a, g.auxiliary? i = some a → g.auxiliary? k = some a → i = k) ∧
      ∀ n ≤ g.vars.size, g.LeadsOn n (g.untangling (g.vars.toList.take n)) := by
  have inside := inside_of_prepared prepared
  refine ⟨fun i a => not_mem_symbols_of_auxiliary? inside,
    fun i k a => auxiliary?_injective inside, fun n => leadsOn_treatedUpTo inside⟩

/--
Two variables that are replaced by one another, so that the second auxiliary variable begins with the
first one.
-/
def backAndForth : Grammar :=
  ofProductions ⟨"A"⟩
    [.ofNames "A" ["B"], .ofNames "A" ["x"], .ofNames "A" ["A", "a"], .ofNames "B" ["A"]]

theorem treatment_leads_on_backAndForth :
    backAndForth.isLeftRecursive = true ∧ backAndForth.prepared = .ok backAndForth ∧
      backAndForth.auxiliary? 0 = some ⟨"A2"⟩ ∧ backAndForth.auxiliary? 1 = some ⟨"B2"⟩ ∧
      .ofNames "B2" ["A2", "B2"] ∈ (backAndForth.untangling backAndForth.vars.toList).productions ∧
      (∀ i a, backAndForth.auxiliary? i = some a → ¬ a ∈ backAndForth.symbols) ∧
      (∀ i k a, backAndForth.auxiliary? i = some a → backAndForth.auxiliary? k = some a → i = k) ∧
      ∀ n ≤ backAndForth.vars.size,
        backAndForth.LeadsOn n (backAndForth.untangling (backAndForth.vars.toList.take n)) := by
  have prepared : backAndForth.prepared = .ok backAndForth := by rfl
  exact ⟨by decide, prepared, by decide, by decide, by decide, treatment_leads_on prepared⟩

end Grammar

end ContextFree
