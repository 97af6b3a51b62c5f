import ContextFree.Proofs.Equivalence
import Mathlib.Data.List.Nodup

/-!
This module contains that nothing is lost when a grammar in Greibach normal form is seen grouped by
variable. The view gives the grammar back with the productions of each variable next to one another,
and the view of that grammar is the same again.
-/

namespace ContextFree

namespace Production

variable {p : Production} {ps : List Production} {u v : Symbol}

/--
The productions whose right-hand side is not empty.
-/
def worded (ps : List Production) : List Production :=
  ps.filter (·.rhs ≠ [])

/--
The productions with those of each variable next to one another, where variables come in the order of
their first right-hand side that is not empty, and productions that erase a variable come last.
-/
def gathered (ps : List Production) : List Production :=
  ((worded ps).map lhs).eraseDups.flatMap (fun v => (worded ps).filter (·.lhs = v)) ++
    ps.filter (·.rhs = [])

theorem mem_worded : p ∈ worded ps ↔ p ∈ ps ∧ p.rhs ≠ [] := by
  simp [worded]

theorem filterMap_ofProduction?_worded (ps : List Production) :
    (worded ps).filterMap GreibachWord.ofProduction? = ps.filterMap GreibachWord.ofProduction? := by
  rw [worded, List.filterMap_filter]
  refine List.filterMap_congr fun p _ => ?_
  obtain ⟨lhs, rhs⟩ := p
  cases rhs <;> simp [GreibachWord.ofProduction?]

theorem filter_worded (ps : List Production) (v : Symbol) :
    (worded ps).filter (·.lhs = v) = worded (ps.filter (·.lhs = v)) :=
  List.filter_comm _ _ ps

/--
The words of the productions of one variable are these productions written otherwise, apart from one
that erases the variable.
-/
theorem map_filterMap_ofProduction? (ofVar : ∀ p ∈ ps, p.lhs = v) :
    (ps.filterMap GreibachWord.ofProduction?).map (fun w => ⟨v, w.toList⟩) = worded ps := by
  induction ps with
  | nil => rfl
  | cons p ps ih =>
    obtain ⟨rfl, ofVar⟩ := List.forall_mem_cons.1 ofVar
    obtain ⟨lhs, rhs⟩ := p
    have rest := ih ofVar
    cases rhs with
    | nil => exact rest
    | cons s rhs => exact congrArg _ rest

theorem nodup_filterMap_ofProduction? (ofVar : ∀ p ∈ ps, p.lhs = v) (nodup : ps.Nodup) :
    (ps.filterMap GreibachWord.ofProduction?).Nodup := by
  have written : ((ps.filterMap GreibachWord.ofProduction?).map fun w =>
      (⟨v, w.toList⟩ : Production)).Nodup := by
    rw [map_filterMap_ofProduction? ofVar]
    exact nodup.filter _
  exact written.of_map

theorem flatMap_ite_eq {l : List Symbol} (nodup : l.Nodup) (ps : List Production) :
    (l.flatMap fun u => if u = v then ps else []) = if v ∈ l then ps else [] := by
  induction l with
  | nil => rfl
  | cons u l ih =>
    obtain ⟨new, nodup⟩ := List.nodup_cons.1 nodup
    rw [List.flatMap_cons, ih nodup]
    by_cases same : u = v
    · subst same
      simp [new]
    · simp [same, Ne.symm same]

end Production

theorem GreibachView.ext_groups {x y : GreibachView} (start : x.start = y.start)
    (erasable : x.erasable = y.erasable) (groups : x.groups = y.groups) : x = y := by
  obtain ⟨start', erasable', ⟨entries, nodup⟩⟩ := x
  obtain ⟨start'', erasable'', ⟨entries', nodup'⟩⟩ := y
  cases start
  cases erasable
  have same : entries = entries' := by
    refine List.map_injective_iff.2 ?_ groups
    rintro ⟨lhs, words⟩ ⟨lhs', words'⟩ same
    cases same
    rfl
  cases same
  rfl

namespace Grammar

open Production

variable {g r : Grammar} {v : Symbol} {view : GreibachView}

def gathered (g : Grammar) : List Production :=
  Production.gathered g.productions.toList

theorem groupedVars_eq (g : Grammar) :
    g.groupedVars = .ofList ((worded g.productions.toList).map lhs) := by
  simp [groupedVars, worded]

theorem gathered_eq (g : Grammar) : g.gathered =
    (g.groupedVars.toList.flatMap fun v => (worded g.productions.toList).filter (·.lhs = v)) ++
      g.productions.toList.filter (·.rhs = []) := by
  rw [gathered, Production.gathered, groupedVars_eq, OrderedSet.toList_ofList_eq_eraseDups]

theorem lhs_of_mem_productionsOf {p : Production} (h : p ∈ g.productionsOf v) : p.lhs = v :=
  (Productions.mem_of.1 h).2

theorem productions_groupOf (g : Grammar) (v : Symbol) :
    (g.groupOf v).productions = (worded g.productions.toList).filter (·.lhs = v) := by
  have ofVar : ∀ p ∈ g.productionsOf v, p.lhs = v := fun _ => lhs_of_mem_productionsOf
  have nodup : (g.productionsOf v).Nodup := g.productions.nodup.filter _
  rw [GreibachGroup.productions, groupOf,
    OrderedSet.toList_ofList (nodup_filterMap_ofProduction? ofVar nodup),
    map_filterMap_ofProduction? ofVar, filter_worded]
  rfl

theorem productions_grouped (g : Grammar) : g.grouped.productions =
    g.groupedVars.toList.flatMap fun v => (worded g.productions.toList).filter (·.lhs = v) := by
  rw [GreibachView.productions, groups_grouped, List.flatMap_map]
  exact List.flatMap_congr fun v _ => productions_groupOf g v

/--
In Greibach normal form there is at most one erasing production: that of the start variable.
-/
theorem filter_erasing_eq (form : g.isGreibach = true) :
    g.productions.toList.filter (·.rhs = []) =
      if g.grouped.erasable then [.epsilon g.start] else [] := by
  obtain ⟨inside, _⟩ := isGreibach_iff.1 form
  split
  · rename_i erasable
    obtain ⟨p, mem, empty⟩ := erasable_grouped.1 erasable
    obtain ⟨rfl, _⟩ := inside.of_epsilon mem empty
    refine OrderedSet.toList_filter_eq_singleton_iff.2 fun q => ⟨?_, ?_⟩
    · rintro ⟨hq, empty⟩
      exact (inside.of_epsilon hq (of_decide_eq_true empty)).1
    · rintro rfl
      exact ⟨mem, decide_eq_true rfl⟩
  · rename_i kept
    refine List.filter_eq_nil_iff.2 fun p mem empty => kept ?_
    exact erasable_grouped.2 ⟨p, mem, of_decide_eq_true empty⟩

theorem nodup_gathered (g : Grammar) : g.gathered.Nodup := by
  have nodup := g.productions.nodup
  rw [gathered_eq, List.nodup_append, List.nodup_flatMap]
  refine ⟨⟨fun v _ => (nodup.filter _).filter _, g.groupedVars.nodup.imp ?_⟩, nodup.filter _, ?_⟩
  · intro u v different p ofU ofV
    simp only [List.mem_filter, decide_eq_true_eq] at ofU ofV
    exact different (ofU.2.symm.trans ofV.2)
  · rintro p hp q hq rfl
    obtain ⟨v, _, hp⟩ := List.mem_flatMap.1 hp
    have notEmpty := (mem_worded.1 (List.mem_filter.1 hp).1).2
    exact notEmpty (of_decide_eq_true (List.mem_filter.1 hq).2)

/--
What a view of a grammar gives back are the productions of the grammar, gathered by variable.
-/
theorem toList_toGrammar_grouped (form : g.isGreibach = true) :
    g.grouped.toGrammar.productions.toList = g.gathered := by
  have parts : g.grouped.productions ++
      (if g.grouped.erasable then [.epsilon g.grouped.start] else []) = g.gathered := by
    rw [productions_grouped, start_grouped, ← filter_erasing_eq form, gathered_eq]
  have nodup := g.nodup_gathered
  rw [← parts] at nodup ⊢
  exact OrderedSet.toList_ofList nodup

theorem worded_gathered (g : Grammar) : worded g.gathered =
    g.groupedVars.toList.flatMap fun v => (worded g.productions.toList).filter (·.lhs = v) := by
  rw [gathered_eq, worded, List.filter_append, List.filter_eq_self.2, List.filter_eq_nil_iff.2,
    List.append_nil]
  · intro p hp
    simp [of_decide_eq_true (List.mem_filter.1 hp).2]
  · intro p hp
    obtain ⟨v, _, hp⟩ := List.mem_flatMap.1 hp
    exact decide_eq_true (mem_worded.1 (List.mem_filter.1 hp).1).2

section Gathered

variable (same : r.productions.toList = g.gathered)
include same

theorem groupedVars_of_gathered : r.groupedVars = g.groupedVars := by
  rw [groupedVars_eq r, same, worded_gathered, List.map_flatMap, OrderedSet.ofList_flatMap,
    OrderedSet.ofList_toList]
  intro v hv
  obtain ⟨p, mem, rfl, notEmpty⟩ := mem_groupedVars.1 hv
  constructor
  · refine List.ne_nil_of_mem (List.mem_map_of_mem (List.mem_filter.2 ⟨?_, decide_eq_true rfl⟩))
    exact mem_worded.2 ⟨mem, notEmpty⟩
  · intro u hu
    obtain ⟨q, hq, rfl⟩ := List.mem_map.1 hu
    exact of_decide_eq_true (List.mem_filter.1 hq).2

theorem groupOf_of_gathered (hv : v ∈ g.groupedVars) : r.groupOf v = g.groupOf v := by
  have ofVar (h : Grammar) : (h.productionsOf v).filterMap GreibachWord.ofProduction? =
      ((worded h.productions.toList).filter (·.lhs = v)).filterMap GreibachWord.ofProduction? := by
    rw [filter_worded, filterMap_ofProduction?_worded]
    rfl
  have block (u : Symbol) : ((worded g.productions.toList).filter (·.lhs = u)).filter (·.lhs = v) =
      if u = v then (worded g.productions.toList).filter (·.lhs = v) else [] := by
    split
    · rename_i same
      rw [same, List.filter_filter]
      simp
    · rename_i different
      refine List.filter_eq_nil_iff.2 fun p hp ofV => different ?_
      exact (of_decide_eq_true (List.mem_filter.1 hp).2).symm.trans (of_decide_eq_true ofV)
  rw [groupOf, groupOf, ofVar r, ofVar g, same, worded_gathered, List.filter_flatMap,
    List.flatMap_congr fun u _ => block u, flatMap_ite_eq g.groupedVars.nodup,
    if_pos (OrderedSet.mem_toList.2 hv)]

theorem grouped_of_gathered (equiv : r ≈ g) : r.grouped = g.grouped := by
  obtain ⟨start, erasable, _⟩ := grouped_congr equiv
  have groups : r.grouped.groups = g.grouped.groups := by
    rw [groups_grouped, groups_grouped, groupedVars_of_gathered same]
    exact List.map_congr_left fun v hv => groupOf_of_gathered same hv
  exact GreibachView.ext_groups start erasable groups

end Gathered

theorem grouped_toGrammar_grouped (form : g.isGreibach = true) :
    g.grouped.toGrammar.grouped = g.grouped :=
  grouped_of_gathered (toList_toGrammar_grouped form) (toGrammar_grouped_equiv form)

/--
A word of a grammar in Greibach normal form begins with the terminal of a production, unless it is
empty and the start variable is erased.
-/
theorem generates_nil_iff (form : g.isGreibach = true) :
    g.Generates [] ↔ ∃ p ∈ g.productions, p.rhs = [] := by
  obtain ⟨inside, unlinked⟩ := isGreibach_iff.1 form
  constructor
  · intro generates
    obtain ⟨p, mem, _, spelled⟩ := Productions.yields_iff.1 generates
    refine ⟨p, mem, ?_⟩
    cases rhs : p.rhs with
    | nil => rfl
    | cons s rest =>
      rw [rhs] at spelled
      obtain ⟨x, y, empty, first, _⟩ := Productions.spells_cons_iff.1 spelled
      obtain ⟨rfl, rfl⟩ := List.append_eq_nil_iff.1 empty.symm
      rcases Productions.spells_singleton_iff.1 first with ⟨_, none⟩ | ⟨q, hq, rfl, _⟩
      · cases none
      · have starts : p.first? = some q.lhs := by rw [Production.first?, rhs]; rfl
        have link := Productions.leadsTo_iff.2 ⟨Productions.lhs_mem_vars hq, p, mem, rfl, starts⟩
        exact absurd link (unlinked _ _)
  · rintro ⟨p, mem, empty⟩
    obtain ⟨rfl, _⟩ := inside.of_epsilon mem empty
    exact Productions.yields_iff.2 ⟨_, mem, rfl, .nil⟩

/--
The grammars that can be viewed by variable are those in Greibach normal form. The view gives back the
same productions, gathered by variable, the view of them is the same one, and it tells whether the
empty word is generated.
-/
theorem greibachView_lossless (g : Grammar) :
    ((∃ view, g.greibachView = .ok view) ↔ g.isGreibach = true) ∧
      ∀ view, g.greibachView = .ok view →
        view.toGrammar ≈ g ∧
        view.toGrammar.productions.toList = g.gathered ∧
        view.toGrammar.greibachView = .ok view ∧
        (view.erasable = true ↔ g.Generates []) := by
  constructor
  · constructor
    · rintro ⟨view, shown⟩
      exact (greibachView_eq_ok_iff.1 shown).2
    · intro form
      exact ⟨g.grouped, greibachView_eq_ok_iff.2 ⟨rfl, form⟩⟩
  · intro view shown
    obtain ⟨rfl, form⟩ := greibachView_eq_ok_iff.1 shown
    have same := toGrammar_grouped_equiv form
    refine ⟨same, toList_toGrammar_grouped form, greibachView_eq_ok_iff.2 ⟨?_, ?_⟩, ?_⟩
    · exact (grouped_toGrammar_grouped form).symm
    · exact isGreibach_of_equiv (Setoid.symm same) form
    · rw [erasable_grouped, generates_nil_iff form]

/--
Productions of two variables in turns, with an erasing one between them.
-/
def interleaved : Grammar :=
  ofProductions ⟨"S"⟩ [.ofNames "S" ["a", "A"], .ofNames "S" [], .ofNames "A" ["b"],
    .ofNames "S" ["c"], .ofNames "A" ["b", "A"]]

theorem greibachView_lossless_interleaved : ∃ view, interleaved.greibachView = .ok view ∧
    view.toGrammar.productions.toList = [.ofNames "S" ["a", "A"], .ofNames "S" ["c"],
      .ofNames "A" ["b"], .ofNames "A" ["b", "A"], .ofNames "S" []] ∧
    view.toGrammar.greibachView = .ok view ∧ interleaved.Generates [] := by
  obtain ⟨accepts, lossless⟩ := greibachView_lossless interleaved
  have shown : interleaved.greibachView = .ok interleaved.grouped := by rfl
  obtain ⟨_, listed, again, erased⟩ := lossless _ shown
  exact ⟨_, shown, listed, again, erased.1 (by rfl)⟩

end Grammar

end ContextFree
