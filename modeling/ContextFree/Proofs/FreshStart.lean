import ContextFree.Grammar.Epsilon
import ContextFree.Proofs.FreshNames
import ContextFree.Proofs.Nullability
import ContextFree.Proofs.Pruning

/-!
This module contains what productions of a new variable do to a grammar: all other variables keep
their words. It is applied to the start variables that are introduced because the present one occurs
on a right-hand side.
-/

namespace ContextFree

namespace Productions

/--
The productions in `more` that are not in `ps` are those of `new`, which `ps` does not mention.
-/
structure ExtendedBy (ps more : Productions) (new : Symbol) : Prop where
  sub : ∀ p ∈ ps, p ∈ more
  added : ∀ p ∈ more, p ∈ ps ∨ p.lhs = new
  unused : ¬ new ∈ ps.symbols

variable {ps more : Productions} {new : Symbol} {vars vars' : OrderedSet Symbol}
  {u w : List Symbol} {v s : Symbol}

theorem ExtendedBy.not_mem_rhs (h : ps.ExtendedBy more new) {p : Production} (mem : p ∈ ps) :
    ¬ new ∈ p.rhs := by
  intro occurs
  exact h.unused (rhs_mem_symbols mem occurs)

theorem ExtendedBy.mem_of_ne (h : ps.ExtendedBy more new) {p : Production} (mem : p ∈ more)
    (ne : p.lhs ≠ new) : p ∈ ps :=
  (h.added p mem).resolve_right ne

theorem ExtendedBy.mem_vars_iff (h : ps.ExtendedBy more new) (ne : v ≠ new) :
    v ∈ more.vars ↔ v ∈ ps.vars := by
  simp only [mem_vars]
  constructor
  · rintro ⟨p, mem, rfl⟩
    exact ⟨p, h.mem_of_ne mem ne, rfl⟩
  · rintro ⟨p, mem, rfl⟩
    exact ⟨p, h.sub p mem, rfl⟩

theorem ExtendedBy.spells_iff (h : ps.ExtendedBy more new)
    (agree : ∀ s, s ≠ new → (s ∈ vars' ↔ s ∈ vars)) (form : ¬ new ∈ u) :
    Spells more vars' u w ↔ Spells ps vars u w := by
  constructor
  · intro spelled
    induction spelled with
    | nil => exact .nil
    | fixed terminal _ ih =>
      rw [List.mem_cons, not_or] at form
      refine .fixed ?_ (ih form.2)
      rw [← agree _ (Ne.symm form.1)]
      exact terminal
    | replace mem _ _ inner ih =>
      rw [List.mem_cons, not_or] at form
      have old := h.mem_of_ne mem (Ne.symm form.1)
      exact .replace old (inner (h.not_mem_rhs old)) (ih form.2)
  · intro spelled
    have renamed : Spells ps vars' u w := by
      apply spelled.change_vars
      · intro s hs
        rw [agree s fun same => form (same ▸ hs)]
        exact id
      · intro p mem s hs
        rw [agree s fun same => h.not_mem_rhs mem (same ▸ hs)]
        exact id
    exact renamed.mono h.sub

theorem ExtendedBy.spells_var_iff (h : ps.ExtendedBy more new) (ne : v ≠ new) :
    Spells more more.vars [v] w ↔ Spells ps ps.vars [v] w := by
  apply h.spells_iff (fun s => h.mem_vars_iff)
  rw [List.mem_singleton]
  exact Ne.symm ne

end Productions

namespace Grammar

variable {g more : Grammar} {v : Symbol} {w : List Symbol}

theorem yields_extended_iff (h : g.productions.ExtendedBy more.productions v)
    {s : Symbol} (ne : s ≠ v) : more.Yields s w ↔ g.Yields s w := by
  rw [yields_iff, yields_iff]
  refine and_congr (h.mem_vars_iff ne) (h.spells_var_iff ne)

theorem freshStart_not_mem (g : Grammar) : ¬ g.freshStart ∈ g.symbols :=
  Symbol.fresh_not_mem g.symbols g.start

theorem lhs_ne_freshStart {p : Production} (mem : p ∈ g.productions) : p.lhs ≠ g.freshStart := by
  intro same
  exact g.freshStart_not_mem (same ▸ Productions.lhs_mem_symbols mem)

theorem start_mem_symbols (h : g.occursInRhs g.start = true) : g.start ∈ g.symbols := by
  obtain ⟨p, mem, occurs⟩ := Productions.occursInRhs_iff.1 h
  exact Productions.rhs_mem_symbols mem occurs

theorem freshStart_ne (h : g.occursInRhs g.start = true) : g.start ≠ g.freshStart := by
  intro same
  apply g.freshStart_not_mem
  rw [← same]
  exact start_mem_symbols h

/--
The grammar with a fresh start variable that is replaced by the present one.
-/
def withFreshStart (g : Grammar) : Grammar :=
  addProduction ⟨g.freshStart, g.productions⟩ ⟨g.freshStart, [g.start]⟩

@[simp]
theorem mem_withFreshStart {p : Production} :
    p ∈ g.withFreshStart.productions ↔ p ∈ g.productions ∨ p = ⟨g.freshStart, [g.start]⟩ := by
  simp [withFreshStart, addProduction]

@[simp]
theorem mem_withErasableStart {p : Production} :
    p ∈ g.withErasableStart.productions ↔
      p ∈ g.productions ∨ p = ⟨g.freshStart, [g.start]⟩ ∨ p = .epsilon g.freshStart := by
  simp [withErasableStart, addProduction, or_assoc]

theorem extendedBy_withFreshStart :
    g.productions.ExtendedBy g.withFreshStart.productions g.freshStart := by
  refine ⟨fun p mem => mem_withFreshStart.2 (.inl mem), ?_, g.freshStart_not_mem⟩
  intro p mem
  rcases mem_withFreshStart.1 mem with mem | rfl
  · exact .inl mem
  · exact .inr rfl

theorem extendedBy_withErasableStart :
    g.productions.ExtendedBy g.withErasableStart.productions g.freshStart := by
  refine ⟨fun p mem => mem_withErasableStart.2 (.inl mem), ?_, g.freshStart_not_mem⟩
  intro p mem
  rcases mem_withErasableStart.1 mem with mem | rfl | rfl
  · exact .inl mem
  · exact .inr rfl
  · exact .inr rfl

theorem isolateStart_eq :
    g.isolateStart = .ok (if g.occursInRhs g.start then g.withFreshStart else g) := by
  unfold isolateStart
  split
  · refine checkedAgainst_eq_ok_iff.2 ⟨rfl, ?_⟩
    intro v isVar terminal
    have kept := Productions.mem_vars_mono extendedBy_withFreshStart.sub isVar
    exact (Productions.mem_terminals.1 terminal).2 kept
  · rfl

theorem spells_withFreshStart_iff (h : g.occursInRhs g.start = true) :
    g.withFreshStart.Yields g.freshStart w ↔ g.productions.Spells g.vars [g.start] w := by
  have same : g.withFreshStart.productions.Spells g.withFreshStart.vars [g.start] w ↔
      g.productions.Spells g.vars [g.start] w :=
    extendedBy_withFreshStart.spells_var_iff (freshStart_ne h)
  rw [Yields, Productions.yields_iff, ← same]
  constructor
  · rintro ⟨p, mem, lhs, spelled⟩
    rcases mem_withFreshStart.1 mem with mem | rfl
    · exact absurd lhs (lhs_ne_freshStart mem)
    · exact spelled
  · intro spelled
    exact ⟨_, mem_withFreshStart.2 (.inr rfl), rfl, spelled⟩

theorem startErasedInside_iff :
    g.startErasedInside = true ↔ g.start ∈ g.nullable ∧ g.occursInRhs g.start = true := by
  simp [startErasedInside]

theorem generates_withErasableStart_iff (h : g.startErasedInside = true) :
    g.withErasableStart.Generates w ↔ g.Generates w := by
  obtain ⟨nullable, occurs⟩ := startErasedInside_iff.1 h
  have isVar : g.start ∈ g.vars := Productions.mem_vars_of_mem_nullable nullable
  have same : g.withErasableStart.productions.Spells g.withErasableStart.vars [g.start] w ↔
      g.productions.Spells g.vars [g.start] w :=
    extendedBy_withErasableStart.spells_var_iff (freshStart_ne occurs)
  rw [Generates, Generates, Yields, Productions.yields_iff, yields_iff, and_iff_right isVar, ← same]
  constructor
  · rintro ⟨p, mem, lhs, spelled⟩
    rcases mem_withErasableStart.1 mem with mem | rfl | rfl
    · exact absurd lhs (lhs_ne_freshStart mem)
    · exact spelled
    · rw [same, Productions.spells_nil_iff.1 spelled]
      exact Productions.spells_nil_of_mem_nullable nullable
  · intro spelled
    exact ⟨_, mem_withErasableStart.2 (.inr (.inl rfl)), rfl, spelled⟩

end Grammar

end ContextFree
