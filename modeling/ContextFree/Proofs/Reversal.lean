import ContextFree.Grammar.Reversal
import ContextFree.Proofs.Pruning

/-!
This module contains what reading productions backwards does to words: they are read backwards, too,
and the same symbols are needed for the start variable. Reading them backwards twice changes
nothing.
-/

namespace ContextFree

namespace Grammar

open Productions

variable {g : Grammar} {vars : OrderedSet Symbol} {u w : List Symbol} {v s : Symbol}
  {p : Production}

@[simp]
theorem mem_reverse_iff : p ∈ g.reverse.productions ↔ p.reverse ∈ g.productions := by
  unfold reverse
  rw [OrderedSet.mem_map]
  constructor
  · rintro ⟨q, mem, rfl⟩
    rw [Production.reverse_reverse]
    exact mem
  · intro mem
    exact ⟨p.reverse, mem, p.reverse_reverse⟩

theorem mem_vars_reverse_iff : v ∈ g.reverse.vars ↔ v ∈ g.vars := by
  simp only [mem_vars, mem_reverse_iff]
  constructor
  · rintro ⟨p, mem, rfl⟩
    exact ⟨p.reverse, mem, rfl⟩
  · rintro ⟨p, mem, rfl⟩
    refine ⟨p.reverse, ?_, rfl⟩
    rw [Production.reverse_reverse]
    exact mem

theorem spells_reverse_of_spells (h : g.productions.Spells vars u w) :
    g.reverse.productions.Spells vars u.reverse w.reverse := by
  induction h with
  | nil => exact .nil
  | fixed terminal _ ih =>
    rw [List.reverse_cons, List.reverse_cons]
    exact ih.append (.singleton terminal)
  | @replace p u v w mem _ _ inner rest =>
    rw [List.reverse_cons, List.reverse_append]
    have mem : p.reverse ∈ g.reverse.productions := by
      rw [mem_reverse_iff, Production.reverse_reverse]
      exact mem
    exact rest.append (.of_mem mem inner)

@[simp]
theorem isSelfLoop_reverse : p.reverse.isSelfLoop = p.isSelfLoop := by
  rw [Bool.eq_iff_iff, Production.isSelfLoop_iff, Production.isSelfLoop_iff]
  exact List.reverse_eq_iff

theorem needs_of_needs_reverse (h : g.reverse.productions.Needs v s) : g.productions.Needs v s := by
  induction h with
  | refl => exact .refl
  | @step p s _ mem proper occurs ih =>
    have old := mem_reverse_iff.1 mem
    refine .step (p := p.reverse) ih old ?_ (List.mem_reverse.2 occurs)
    rw [isSelfLoop_reverse]
    exact proper

theorem yields_reverse_of_yields (h : g.Yields v w) : g.reverse.Yields v w.reverse := by
  obtain ⟨isVar, spelled⟩ := yields_iff.1 h
  refine yields_iff.2 ⟨mem_vars_reverse_iff.2 isVar, ?_⟩
  rw [spells_congr_vars fun s => mem_vars_reverse_iff]
  exact spells_reverse_of_spells spelled

@[simp]
theorem reverse_reverse (g : Grammar) : g.reverse.reverse = g := by
  have same : g.reverse.reverse.productions = g.productions := by
    apply OrderedSet.ext_toList
    rw [toList_reverse, toList_reverse, List.map_map]
    have twice : Production.reverse ∘ Production.reverse = id := funext Production.reverse_reverse
    rw [twice, List.map_id]
  obtain ⟨start, productions⟩ := g
  exact congrArg (Grammar.mk start) same

theorem yields_reverse_iff : g.reverse.Yields v w ↔ g.Yields v w.reverse := by
  constructor
  · intro h
    have twice := yields_reverse_of_yields h
    rw [reverse_reverse] at twice
    exact twice
  · intro h
    rw [← List.reverse_reverse w]
    exact yields_reverse_of_yields h

theorem generates_reverse_iff :
    g.reverse.Generates w ↔ ∃ u, g.Generates u ∧ u.reverse = w := by
  rw [Generates, start_reverse, yields_reverse_iff]
  constructor
  · intro h
    exact ⟨w.reverse, h, w.reverse_reverse⟩
  · rintro ⟨u, h, rfl⟩
    rw [List.reverse_reverse]
    exact h

theorem Productive.reverse (h : g.Productive) : g.reverse.Productive := by
  intro v needed isVar
  obtain ⟨w, yields⟩ := h v (needs_of_needs_reverse needed) (mem_vars_reverse_iff.1 isVar)
  exact ⟨w.reverse, yields_reverse_of_yields yields⟩

end Grammar

end ContextFree
