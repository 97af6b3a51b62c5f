import ContextFree.Proofs.FreshNames
import ContextFree.Proofs.Turning

/-!
This module contains the invariant of the treatment of left recursion. Once a variable has been
treated, its productions start with terminals or with variables that come later in the order of
treatment, and those of an auxiliary variable start with no auxiliary variable but earlier ones. No
word is lost or gained on the way.
-/

namespace ContextFree

namespace Untangling

open Productions

/--
What is true in the course of the treatment of the variables in `order`: `auxs` have been introduced
beside the names that were there before, and all old symbols have the words that they have in `base`.
-/
structure Invariant (base : Productions) (vars names : OrderedSet Symbol) (order : List Symbol)
    (auxs : List Symbol) (state : Untangling) : Prop where
  used : state.used.toList = names.toList ++ auxs
  madeOf : MadeOf base vars auxs state.productions
  ordered : Ordered base order state.treated auxs state.productions
  words : ∀ u w, (∀ s ∈ u, ¬ s ∈ auxs) →
    (Spells state.productions (vars.insertMany auxs) u w ↔ Spells base vars u w)
  isVar : ∀ a ∈ auxs, a ∈ state.productions.vars
  productive : (∀ p ∈ base, ∀ s ∈ p.rhs, ∃ w, Spells base vars [s] w) →
    ∀ a ∈ auxs, ∃ w, Spells state.productions (vars.insertMany auxs) [a] w

variable {base : Productions} {vars names : OrderedSet Symbol} {order rest auxs : List Symbol}
  {state : Untangling} {v s : Symbol}

/--
The productions when only the direct left recursion of `v` is still to be turned to the right.
-/
def unfolded (state : Untangling) (v : Symbol) : Productions :=
  (state.treated.foldl (unfoldLeading v) state.productions).withoutSelfLoops v

theorem treat_of_recursiveOf_eq_nil (h : (state.unfolded v).recursiveOf v = []) :
    state.treat v = ⟨state.unfolded v, state.used, state.treated ++ [v]⟩ := by
  unfold unfolded at h ⊢
  rw [treat, removeDirectRecursion, if_pos h]

theorem treat_of_recursiveOf_ne_nil (h : (state.unfolded v).recursiveOf v ≠ []) :
    state.treat v = ⟨(state.unfolded v).turnRight v (.fresh state.used v),
      state.used.insert (.fresh state.used v), state.treated ++ [v]⟩ := by
  unfold unfolded at h ⊢
  rw [treat, removeDirectRecursion, if_neg h]

theorem invariant_ofProductions (isVars : ∀ v ∈ base.vars, v ∈ vars)
    (nonempty : ∀ p ∈ base, p.rhs ≠ []) :
    Invariant base vars names order [] (ofProductions base names) := by
  refine ⟨(List.append_nil _).symm, ?_, ?_, ?_, ?_, ?_⟩
  · exact ⟨fun p mem => .inl (isVars _ (lhs_mem_vars mem)),
      fun p mem s hs => .inr ⟨p, mem, hs⟩, nonempty⟩
  · refine ⟨fun p _ _ => Iff.rfl, ?_, ?_⟩
    · intro p mem isTreated
      cases isTreated
    · intro p mem isAux
      cases isAux
  · intro u w _
    rw [OrderedSet.insertMany_nil]
    rfl
  · intro a ha
    cases ha
  · intro _ a ha
    cases ha

theorem Invariant.mem_used_iff (h : Invariant base vars names order auxs state) :
    s ∈ state.used ↔ s ∈ names ∨ s ∈ auxs := by
  rw [← OrderedSet.mem_toList, h.used, List.mem_append, OrderedSet.mem_toList]

theorem Invariant.not_mem_names (h : Invariant base vars names order auxs state) (hs : s ∈ auxs) :
    ¬ s ∈ names := by
  intro known
  have nodup := state.used.nodup
  rw [h.used] at nodup
  exact (List.nodup_append.1 nodup).2.2 s (OrderedSet.mem_toList.2 known) s hs rfl

theorem Invariant.exists_spells (h : Invariant base vars names order auxs state)
    (productive : ∀ p ∈ base, ∀ s ∈ p.rhs, ∃ w, Spells base vars [s] w)
    (origin : s ∈ auxs ∨ ∃ q ∈ base, s ∈ q.rhs) :
    ∃ w, Spells state.productions (vars.insertMany auxs) [s] w := by
  by_cases isAux : s ∈ auxs
  · exact h.productive productive s isAux
  · obtain ⟨q, mem, occurs⟩ := origin.resolve_left isAux
    obtain ⟨w, spelled⟩ := productive q mem s occurs
    refine ⟨w, (h.words [s] w ?_).2 spelled⟩
    intro t ht
    rw [List.mem_singleton.1 ht]
    exact isAux

section Treat

variable (knownVars : ∀ v ∈ vars, v ∈ names) (knownSymbols : ∀ s ∈ base.symbols, s ∈ names)

include knownVars knownSymbols

theorem Invariant.mem_used_of_mem_symbols (h : Invariant base vars names order auxs state)
    {ps : Productions} (madeOf : MadeOf base vars auxs ps) (mem : s ∈ ps.symbols) :
    s ∈ state.used := by
  rw [h.mem_used_iff]
  rcases madeOf.mem_symbols mem with isVar | isAux | old
  · exact .inl (knownVars s isVar)
  · exact .inr isAux
  · exact .inl (knownSymbols s old)

theorem Invariant.unfolding
    (h : Invariant base vars names (state.treated ++ v :: rest) auxs state)
    (nodup : (state.treated ++ v :: rest).Nodup)
    (isVars : ∀ s ∈ state.treated ++ v :: rest, s ∈ vars) :
    Unfolding base vars auxs state.productions v state.treated (state.unfolded v) := by
  have isVar := isVars v (List.mem_append_right _ List.mem_cons_self)
  have notTreated : ¬ v ∈ state.treated := fun hv =>
    (List.nodup_append.1 nodup).2.2 v hv v List.mem_cons_self rfl
  have notAux : ¬ v ∈ auxs := fun hv => h.not_mem_names hv (knownVars v isVar)
  have start := h.ordered.unfolding h.madeOf notTreated notAux fun a ha old =>
    h.not_mem_names ha (knownSymbols a old)
  have unfolded : Unfolding base vars auxs state.productions v ([] ++ state.treated)
      (state.treated.foldl (unfoldLeading v) state.productions) :=
    start.run h.ordered nodup fun w hw => isVars w (List.mem_append_left _ hw)
  exact unfolded.withoutSelfLoops

theorem Invariant.treat_of_recursiveOf_eq_nil
    (h : Invariant base vars names (state.treated ++ v :: rest) auxs state)
    (nodup : (state.treated ++ v :: rest).Nodup)
    (isVars : ∀ s ∈ state.treated ++ v :: rest, s ∈ vars)
    (direct : (state.unfolded v).recursiveOf v = []) :
    Invariant base vars names (state.treated ++ v :: rest) auxs (state.treat v) := by
  have unfolding := h.unfolding knownVars knownSymbols nodup isVars
  have isVar := isVars v (List.mem_append_right _ List.mem_cons_self)
  have notAux : ¬ v ∈ auxs := fun hv => h.not_mem_names hv (knownVars v isVar)
  have words := unfolding.words (vars.insertMany auxs) fun s hs =>
    OrderedSet.mem_insertMany.2 (.inl hs)
  rw [Untangling.treat_of_recursiveOf_eq_nil direct]
  refine ⟨h.used, unfolding.madeOf, unfolding.ordered h.ordered notAux direct, ?_, ?_, ?_⟩
  · intro u w form
    rw [words, h.words u w form]
  · intro a ha
    obtain ⟨p, mem, rfl⟩ := Productions.mem_vars.1 (h.isVar a ha)
    refine lhs_mem_vars ((unfolding.others p ?_).2 mem)
    rintro rfl
    exact notAux ha
  · intro productive a ha
    obtain ⟨w, spelled⟩ := h.productive productive a ha
    exact ⟨w, (words [a] w).2 spelled⟩

theorem Invariant.treat_of_recursiveOf_ne_nil
    (h : Invariant base vars names (state.treated ++ v :: rest) auxs state)
    (nodup : (state.treated ++ v :: rest).Nodup)
    (isVars : ∀ s ∈ state.treated ++ v :: rest, s ∈ vars)
    (direct : (state.unfolded v).recursiveOf v ≠ []) :
    Invariant base vars names (state.treated ++ v :: rest) (auxs ++ [.fresh state.used v])
      (state.treat v) := by
  have unfolding := h.unfolding knownVars knownSymbols nodup isVars
  have isVar := isVars v (List.mem_append_right _ List.mem_cons_self)
  have notAux : ¬ v ∈ auxs := fun hv => h.not_mem_names hv (knownVars v isVar)
  have proper : ∀ p ∈ state.unfolded v, ¬ (p.lhs = v ∧ p.rhs = [v]) := fun p mem =>
    (mem_withoutSelfLoops.1 mem).2
  rw [Untangling.treat_of_recursiveOf_ne_nil direct]
  have free := Symbol.fresh_not_mem state.used v
  generalize Symbol.fresh state.used v = aux at free ⊢
  have fresh : ¬ aux ∈ (state.unfolded v).symbols := fun mem =>
    free (h.mem_used_of_mem_symbols knownVars knownSymbols unfolding.madeOf mem)
  have new : ¬ aux ∈ auxs := fun mem => free (h.mem_used_iff.2 (.inr mem))
  have notVar : ¬ aux ∈ vars := fun mem => free (h.mem_used_iff.2 (.inl (knownVars aux mem)))
  constructor
  · rw [OrderedSet.toList_insert_of_not_mem free, h.used, List.append_assoc]
  · exact unfolding.madeOf.turnRight isVar proper
  · exact unfolding.ordered_turnRight h.ordered proper isVar notAux fresh new notVar fun s hs =>
      isVars s (List.mem_append_left _ hs)
  · intro u w form
    have unused : ¬ aux ∈ u := fun hs =>
      form aux hs (List.mem_append_right auxs List.mem_cons_self)
    rw [unfolding.spells_turnRight_iff isVar fresh new notVar unused]
    exact h.words u w fun s hs isAux => form s hs (List.mem_append_left _ isAux)
  · intro a
    exact unfolding.mem_vars_turnRight notAux h.isVar direct
  · intro productive a
    exact unfolding.productive_turnRight isVar fresh new notVar
      (fun s => h.exists_spells productive) direct

theorem Invariant.treat
    (h : Invariant base vars names (state.treated ++ v :: rest) auxs state)
    (nodup : (state.treated ++ v :: rest).Nodup)
    (isVars : ∀ s ∈ state.treated ++ v :: rest, s ∈ vars) :
    ∃ aux? : Option Symbol, Invariant base vars names (state.treated ++ v :: rest)
      (auxs ++ aux?.toList) (state.treat v) := by
  by_cases direct : (state.unfolded v).recursiveOf v = []
  · refine ⟨none, ?_⟩
    rw [Option.toList_none, List.append_nil]
    exact h.treat_of_recursiveOf_eq_nil knownVars knownSymbols nodup isVars direct
  · exact ⟨some _, h.treat_of_recursiveOf_ne_nil knownVars knownSymbols nodup isVars direct⟩

end Treat

end Untangling

end ContextFree
