import ContextFree.Grammar.GreibachView
import ContextFree.OrderedMap.Lemmas
import ContextFree.Proofs.GreibachForm

/-!
This module contains which productions a view of a grammar in Greibach normal form is made of. Reading
them one after another leads to one group for each variable, with all its right-hand sides that are
not empty, while the production that erases the start variable is left to a mark of its own.
-/

namespace ContextFree

namespace GreibachWord

variable {p : Production} {w : GreibachWord}

theorem ofProduction?_eq_some_iff : ofProduction? p = some w ↔ p.rhs = w.toList := by
  obtain ⟨lhs, rhs⟩ := p
  obtain ⟨terminal, tail⟩ := w
  cases rhs with
  | nil => simp [ofProduction?, toList]
  | cons s rest => simp [ofProduction?, toList]

end GreibachWord

namespace Production

/--
A right-hand side that is not empty, with its variable.
-/
def entry? (p : Production) : Option (Symbol × GreibachWord) :=
  (GreibachWord.ofProduction? p).map (p.lhs, ·)

theorem map_fst_filterMap_entry? (ps : List Production) :
    (ps.filterMap entry?).map Prod.fst = (ps.filter fun p => ¬ p.isEpsilon).map lhs := by
  induction ps with
  | nil => rfl
  | cons p ps ih =>
    obtain ⟨lhs, rhs⟩ := p
    cases rhs with
    | nil => exact ih
    | cons s rest => exact congrArg (lhs :: ·) ih

theorem map_snd_filter_filterMap_entry? (ps : List Production) (v : Symbol) :
    ((ps.filterMap entry?).filter (·.1 = v)).map Prod.snd =
      (ps.filter (·.lhs = v)).filterMap GreibachWord.ofProduction? := by
  induction ps with
  | nil => rfl
  | cons p ps ih =>
    obtain ⟨lhs, rhs⟩ := p
    cases rhs with
    | nil =>
      rw [List.filter_cons]
      split
      · exact ih
      · exact ih
    | cons s rest =>
      have taken : (⟨lhs, s :: rest⟩ :: ps).filterMap entry? =
          (lhs, ⟨s, rest⟩) :: ps.filterMap entry? := rfl
      rw [taken, List.filter_cons, List.filter_cons]
      split
      · exact congrArg (⟨s, rest⟩ :: ·) ih
      · exact ih

end Production

/--
What becomes of a view in the course of reading.
-/
theorem GreibachView.foldl_add (view : GreibachView) (ps : List Production) :
    ps.foldl add view = {
      start := view.start
      erasable := view.erasable || ps.any Production.isEpsilon
      words := (ps.filterMap Production.entry?).foldl
        (fun words e => words.alter e.1 ∅ (·.insert e.2)) view.words } := by
  induction ps generalizing view with
  | nil => simp
  | cons p ps ih =>
    rw [List.foldl_cons, ih]
    obtain ⟨lhs, rhs⟩ := p
    cases rhs with
    | nil =>
      have skipped : Production.entry? ⟨lhs, []⟩ = none := rfl
      simp [add, GreibachWord.ofProduction?, Production.isEpsilon, skipped]
    | cons s rest =>
      have taken : Production.entry? ⟨lhs, s :: rest⟩ = some (lhs, ⟨s, rest⟩) := rfl
      simp [add, GreibachWord.ofProduction?, Production.isEpsilon, taken]

namespace Grammar

/--
The variables with a right-hand side that is not empty, in the order of the first such one.
-/
def groupedVars (g : Grammar) : OrderedSet Symbol :=
  .ofList ((g.productions.toList.filter fun p => ¬ p.isEpsilon).map Production.lhs)

def groupOf (g : Grammar) (v : Symbol) : GreibachGroup :=
  ⟨v, .ofList ((g.productionsOf v).filterMap GreibachWord.ofProduction?)⟩

variable {g r : Grammar} {p : Production} {v : Symbol} {w : GreibachWord} {view : GreibachView}

theorem mem_groupedVars : v ∈ g.groupedVars ↔ ∃ p ∈ g.productions, p.lhs = v ∧ p.rhs ≠ [] := by
  simp [groupedVars, OrderedSet.mem_toList, Production.isEpsilon, and_assoc, and_comm]

theorem mem_words_groupOf : w ∈ (g.groupOf v).words ↔ ⟨v, w.toList⟩ ∈ g.productions := by
  simp only [groupOf, OrderedSet.mem_ofList, List.mem_filterMap, productionsOf,
    Productions.mem_of, GreibachWord.ofProduction?_eq_some_iff]
  constructor
  · rintro ⟨⟨lhs, rhs⟩, ⟨mem, rfl⟩, rfl⟩
    exact mem
  · intro mem
    exact ⟨_, ⟨mem, rfl⟩, rfl⟩

theorem start_grouped (g : Grammar) : g.grouped.start = g.start := by
  rw [grouped, GreibachView.foldl_add]
  rfl

theorem words_grouped (g : Grammar) : g.grouped.words =
    .collect Prod.fst ∅ (fun words e => words.insert e.2)
      (g.productions.toList.filterMap Production.entry?) := by
  rw [grouped, GreibachView.foldl_add]
  rfl

theorem groups_grouped (g : Grammar) :
    g.grouped.groups = g.groupedVars.toList.map g.groupOf := by
  rw [GreibachView.groups, words_grouped, OrderedMap.entries_collect, OrderedMap.gather,
    List.map_map, groupedVars, OrderedSet.toList_ofList_eq_eraseDups,
    Production.map_fst_filterMap_entry?]
  refine List.map_congr_left fun v _ => ?_
  rw [Function.comp_apply, groupOf, OrderedSet.ofList_eq_foldl, productionsOf, Productions.of,
    ← Production.map_snd_filter_filterMap_entry?, List.foldl_map]

theorem vars_grouped (g : Grammar) : g.grouped.vars = g.groupedVars.toList := by
  have vars : GreibachGroup.lhs ∘ g.groupOf = id := rfl
  rw [GreibachView.vars, groups_grouped, List.map_map, vars, List.map_id]

theorem mem_vars_grouped : v ∈ g.grouped.vars ↔ ∃ p ∈ g.productions, p.lhs = v ∧ p.rhs ≠ [] := by
  rw [vars_grouped, OrderedSet.mem_toList, mem_groupedVars]

theorem mem_wordsOf_grouped : w ∈ g.grouped.wordsOf v ↔ ⟨v, w.toList⟩ ∈ g.productions := by
  simp only [GreibachView.wordsOf, groups_grouped, List.mem_flatMap, List.mem_filter, List.mem_map,
    OrderedSet.mem_toList, decide_eq_true_eq]
  constructor
  · rintro ⟨_, ⟨⟨u, _, rfl⟩, rfl⟩, hw⟩
    exact mem_words_groupOf.1 hw
  · intro mem
    have isVar : v ∈ g.groupedVars := mem_groupedVars.2 ⟨_, mem, rfl, List.cons_ne_nil _ _⟩
    exact ⟨g.groupOf v, ⟨⟨v, isVar, rfl⟩, rfl⟩, mem_words_groupOf.2 mem⟩

theorem mem_productions_grouped :
    p ∈ g.grouped.productions ↔ p ∈ g.productions ∧ p.rhs ≠ [] := by
  simp only [GreibachView.productions, groups_grouped, GreibachGroup.productions, List.mem_flatMap,
    List.mem_map, OrderedSet.mem_toList]
  constructor
  · rintro ⟨_, ⟨u, _, rfl⟩, w, hw, rfl⟩
    exact ⟨mem_words_groupOf.1 hw, List.cons_ne_nil _ _⟩
  · rintro ⟨mem, notEmpty⟩
    obtain ⟨lhs, rhs⟩ := p
    obtain ⟨s, rest, rfl⟩ := List.exists_cons_of_ne_nil notEmpty
    refine ⟨_, ⟨lhs, mem_groupedVars.2 ⟨_, mem, rfl, notEmpty⟩, rfl⟩, ⟨s, rest⟩, ?_, rfl⟩
    exact mem_words_groupOf.2 mem

theorem erasable_grouped : g.grouped.erasable = true ↔ ∃ p ∈ g.productions, p.rhs = [] := by
  rw [grouped, GreibachView.foldl_add]
  simp [GreibachView.empty, Production.isEpsilon, OrderedSet.mem_toList]

theorem greibachView_eq_ok_iff :
    g.greibachView = .ok view ↔ view = g.grouped ∧ g.isGreibach = true := by
  unfold greibachView
  cases checked : g.checkGreibach with
  | error e =>
    have notGreibach : ¬ g.isGreibach = true := by
      intro form
      rw [checkGreibach_eq_ok_iff.2 ⟨rfl, form⟩] at checked
      cases checked
    simp [notGreibach, Functor.map, Except.map]
  | ok r =>
    obtain ⟨rfl, form⟩ := checkGreibach_eq_ok_iff.1 checked
    simp [form, Functor.map, Except.map, eq_comm]

theorem toGrammar_grouped_equiv (form : g.isGreibach = true) : g.grouped.toGrammar ≈ g := by
  obtain ⟨inside, _⟩ := isGreibach_iff.1 form
  rw [GreibachView.toGrammar, start_grouped]
  refine equiv_iff.2 ⟨rfl, fun p => ?_⟩
  have erasing : p ∈ (if g.grouped.erasable then [Production.epsilon g.start] else []) ↔
      p ∈ g.productions ∧ p.rhs = [] := by
    split
    · rename_i erasable
      obtain ⟨q, mem, empty⟩ := erasable_grouped.1 erasable
      rw [List.mem_singleton]
      constructor
      · rintro rfl
        exact ⟨(inside.of_epsilon mem empty).1 ▸ mem, rfl⟩
      · rintro ⟨mem, empty⟩
        exact (inside.of_epsilon mem empty).1
    · rename_i kept
      refine iff_of_false List.not_mem_nil fun h => kept ?_
      exact erasable_grouped.2 ⟨p, h⟩
  refine OrderedSet.mem_ofList.trans (List.mem_append.trans ?_)
  rw [mem_productions_grouped]
  refine (or_congr_right erasing).trans ?_
  rw [← and_or_left, or_comm, and_iff_left (Classical.em _)]

end Grammar

end ContextFree
