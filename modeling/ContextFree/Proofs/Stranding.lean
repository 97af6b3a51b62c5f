import ContextFree.Proofs.Exposure
import ContextFree.Proofs.LeftRecursionRemoval
import Mathlib.Logic.Relation

/-!
This module contains when the treatment of left recursion leaves a grammar that can be pruned: just if
no variable is stranded.
-/

namespace ContextFree

namespace Productions

/--
The same variables open with both productions, and a variable is stranded with both or with none.
-/
structure KeepsOpening (vars : OrderedSet Symbol) (place : Symbol → Nat) (start : Symbol)
    (ps ps' : Productions) : Prop where
  opens : ∀ s ∈ vars, (Opens ps' vars s ↔ Opens ps vars s)
  stranded : Stranded ps' vars place start ↔ Stranded ps vars place start

variable {base ps ps' ps'' : Productions} {vars : OrderedSet Symbol} {place : Symbol → Nat}
  {start v : Symbol} {auxs done : List Symbol}

theorem KeepsOpening.refl (ps : Productions) : KeepsOpening vars place start ps ps :=
  ⟨fun _ _ => Iff.rfl, Iff.rfl⟩

theorem KeepsOpening.trans (first : KeepsOpening vars place start ps ps')
    (second : KeepsOpening vars place start ps' ps'') : KeepsOpening vars place start ps ps'' :=
  ⟨fun s known => (second.opens s known).trans (first.opens s known),
    second.stranded.trans first.stranded⟩

theorem keepsOpening_foldl_unfoldLeading (madeOf : MadeOf base vars auxs ps) (isVar : v ∈ vars)
    (earlier : ∀ w ∈ done, w ≠ v ∧ w ∈ vars ∧ place w < place v) :
    KeepsOpening vars place start ps (done.foldl (unfoldLeading v) ps) := by
  induction done generalizing ps with
  | nil => exact .refl ps
  | cons w done ih =>
    obtain ⟨ne, isVar', before⟩ := earlier w List.mem_cons_self
    have step : KeepsOpening vars place start ps (ps.unfoldLeading v w) :=
      ⟨fun s _ => opens_unfoldLeading_iff madeOf.nonempty ne isVar',
        stranded_unfoldLeading_iff madeOf.nonempty ne isVar isVar' before⟩
    exact step.trans (ih madeOf.unfoldLeading fun t ht => earlier t (List.mem_cons_of_mem w ht))

end Productions

namespace Untangling

open Productions

variable {base : Productions} {vars names : OrderedSet Symbol} {place : Symbol → Nat}
  {start v : Symbol} {auxs rest : List Symbol} {state : Untangling}

theorem Invariant.keepsOpening_treat (knownVars : ∀ v ∈ vars, v ∈ names)
    (knownSymbols : ∀ s ∈ base.symbols, s ∈ names)
    (h : Invariant base vars names (state.treated ++ v :: rest) auxs state)
    (nodup : (state.treated ++ v :: rest).Nodup)
    (isVars : ∀ s ∈ state.treated ++ v :: rest, s ∈ vars) (isStart : start ∈ vars)
    (before : ∀ w ∈ state.treated, place w < place v) :
    KeepsOpening vars place start state.productions (state.treat v).productions := by
  have isVar := isVars v (List.mem_append_right _ List.mem_cons_self)
  have unfolded : KeepsOpening vars place start state.productions (state.unfolded v) := by
    have earlier : ∀ w ∈ state.treated, w ≠ v ∧ w ∈ vars ∧ place w < place v := by
      intro w hw
      refine ⟨?_, isVars w (List.mem_append_left _ hw), before w hw⟩
      rintro rfl
      exact Nat.lt_irrefl _ (before w hw)
    refine (keepsOpening_foldl_unfoldLeading h.madeOf isVar earlier).trans ?_
    exact ⟨fun s _ => opens_withoutSelfLoops_iff isVar, stranded_withoutSelfLoops_iff isVar⟩
  by_cases direct : (state.unfolded v).recursiveOf v = []
  · rw [Untangling.treat_of_recursiveOf_eq_nil direct]
    exact unfolded
  · have madeOf := (h.unfolding knownVars knownSymbols nodup isVars).madeOf
    rw [Untangling.treat_of_recursiveOf_ne_nil direct]
    have free := Symbol.fresh_not_mem state.used v
    generalize Symbol.fresh state.used v = aux at free ⊢
    have fresh : ¬ aux ∈ (state.unfolded v).symbols := fun mem =>
      free (h.mem_used_of_mem_symbols knownVars knownSymbols madeOf mem)
    have notVar : ¬ aux ∈ vars := fun mem => free (h.mem_used_iff.2 (.inl (knownVars aux mem)))
    refine unfolded.trans ⟨fun s known => ?_, ?_⟩
    · apply opens_turnRight_iff madeOf.nonempty isVar notVar
      rintro rfl
      exact notVar known
    · exact stranded_turnRight_iff madeOf.nonempty isVar notVar fresh isStart

end Untangling

namespace Grammar

open Productions

/--
The place of a variable in the order in which variables are treated, counted from 1.
-/
def place (g : Grammar) (v : Symbol) : Nat :=
  g.vars.toList.idxOf v + 1

/--
Replacing leading variables, beginning with this one, can lead to a word that starts with a terminal.
-/
def Opens (g : Grammar) (v : Symbol) : Prop :=
  g.nonErasing.Opens g.vars v

/--
A variable that does not open would still be needed after the treatment of left recursion.
-/
def Stranded (g : Grammar) : Prop :=
  g.nonErasing.Stranded g.vars g.place g.start

variable {g : Grammar} {auxs : List Symbol} {s u v : Symbol} {m : Nat}

theorem exists_untangling_of_opening (inside : g.productions.ErasesNothingInside g.start)
    (isStart : g.start ∈ g.vars) :
    (g.untangling g.vars.toList).treated = g.vars.toList ∧
      ∃ auxs, Untangling.Invariant g.nonErasing g.vars g.symbols g.vars.toList auxs
        (g.untangling g.vars.toList) ∧
        KeepsOpening g.vars g.place g.start g.nonErasing
          (g.untangling g.vars.toList).productions := by
  refine exists_untangling_of_step
    (motive := fun state => KeepsOpening g.vars g.place g.start g.nonErasing state.productions)
    inside ?_ (.refl _)
  intro auxs state v rest split inv kept
  have nodup := g.vars.nodup
  have before : ∀ w ∈ state.treated, g.place w < g.place v := by
    intro w hw
    unfold place
    rw [← split] at nodup ⊢
    have notTreated : ¬ v ∈ state.treated := fun hv =>
      (List.nodup_append.1 nodup).2.2 v hv v List.mem_cons_self rfl
    have := idxOf_lt_of_append (m := v :: rest) hw notTreated
    omega
  rw [← split] at nodup inv
  refine kept.trans (inv.keepsOpening_treat ?_ ?_ nodup ?_ isStart before)
  · intro v
    exact mem_symbols_of_mem_vars
  · intro s
    exact mem_symbols_mono fun p => mem_of_mem_nonErasing
  · rw [split]
    intro s hs
    exact hs

/--
The productions after all variables have been treated, where one that erases the start variable has
not come back.
-/
def treatedProductions (g : Grammar) : Productions :=
  (g.untangling g.vars.toList).productions

theorem needs_of_exposed (h : g.treatedProductions.Exposed g.vars g.place g.start m s) :
    g.untangled.Needs g.start s := by
  induction h with
  | start => exact .refl
  | first _ _ mem starts _ _ ih =>
    exact ih.occurs (mem_untangled.2 (.inl mem)) (List.mem_of_mem_head? starts)
  | behind _ _ mem _ occurs _ ih =>
    exact ih.occurs (mem_untangled.2 (.inl mem)) (List.mem_of_mem_tail occurs)
  | loose _ _ mem occurs _ ih => exact ih.occurs (mem_untangled.2 (.inl mem)) occurs

section Free

variable (free : ¬ g.treatedProductions.Stranded g.vars g.place g.start)

include free

theorem opens_of_exposed (h : g.treatedProductions.Exposed g.vars g.place g.start m s)
    (known : s ∈ g.vars) (later : m < g.place s) : g.treatedProductions.Opens g.vars s := by
  apply Classical.byContradiction
  intro closed
  exact free ⟨m, s, h, known, closed, later⟩

/--
Where a chain can begin it is bounded by the place of the symbol that it begins with.
-/
theorem exposed_of_rooted
    (rooted : ∀ n, (g.treatedProductions.Opens g.vars s → g.place s ≤ n) →
      g.treatedProductions.Exposed g.vars g.place g.start n s) :
    (∃ m, m ≤ g.place s ∧ g.treatedProductions.Exposed g.vars g.place g.start m s) ∧
      (s ∈ g.vars → s ≠ g.start → g.treatedProductions.Opens g.vars s) := by
  refine ⟨⟨_, Nat.le_refl _, rooted _ fun _ => Nat.le_refl _⟩, fun known _ => ?_⟩
  apply Classical.byContradiction
  intro closed
  have exposed := rooted 0 fun opens => absurd opens closed
  exact closed (opens_of_exposed free exposed known (Nat.succ_pos _))

variable (inv : Untangling.Invariant g.nonErasing g.vars g.symbols g.vars.toList auxs
    (g.untangling g.vars.toList))
  (treated : (g.untangling g.vars.toList).treated = g.vars.toList)

include inv treated

/--
If no variable is stranded then what is needed is exposed, by a chain that comes no later, and opens.
-/
theorem exposed_of_needs (needed : g.untangled.Needs g.start s)
    (known : s ∈ g.vars ∨ s ∈ auxs) :
    (∃ m, m ≤ g.place s ∧ g.treatedProductions.Exposed g.vars g.place g.start m s) ∧
      (s ∈ g.vars → s ≠ g.start → g.treatedProductions.Opens g.vars s) := by
  induction needed with
  | refl => exact ⟨⟨_, Nat.le_refl _, .start (Nat.le_refl _)⟩, fun _ ne => absurd rfl ne⟩
  | @step p s _ mem _ occurs ih =>
    have known' := lhs_of_mem_untangled inv mem
    obtain ⟨⟨m, le, exposed⟩, _⟩ := ih known'
    obtain ⟨v, u⟩ := p
    have mem : ⟨v, u⟩ ∈ g.treatedProductions := by
      rcases mem_untangled.1 mem with mem | ⟨same, _⟩
      · exact mem
      · cases same
        cases occurs
    by_cases isVar : v ∈ g.vars
    · have ordered := inv.ordered.treated ⟨v, u⟩ mem (by rw [treated]; exact isVar)
      have later {t : Symbol} (starts : u.head? = some t) (known : t ∈ g.vars) :
          g.place v < g.place t :=
        Nat.succ_lt_succ ((ordered t starts).2 known)
      have opening : g.treatedProductions.Opening g.vars u := by
        intro t starts known
        apply Classical.byContradiction
        intro closed
        have exposed := exposed.first isVar mem starts known fun opens => absurd opens closed
        exact closed (opens_of_exposed free exposed known (Nat.lt_of_le_of_lt le (later starts known)))
      obtain ⟨t, rest, rfl⟩ := List.exists_cons_of_ne_nil (inv.madeOf.nonempty _ mem)
      rcases List.mem_cons.1 occurs with rfl | occurs
      · have isVar' := known.resolve_right (ordered s rfl).1
        have raised := exposed.raise (Nat.le_trans le (Nat.le_of_lt (later rfl isVar')))
        exact ⟨⟨_, Nat.le_refl _, raised.first isVar mem rfl isVar' fun _ => Nat.le_refl _⟩,
          fun _ _ => opening s rfl isVar'⟩
      · exact exposed_of_rooted free fun n => exposed.behind isVar mem opening occurs
    · exact exposed_of_rooted free fun n => exposed.loose isVar mem occurs

end Free

section Kept

variable (inv : Untangling.Invariant g.nonErasing g.vars g.symbols g.vars.toList auxs
    (g.untangling g.vars.toList))
  (treated : (g.untangling g.vars.toList).treated = g.vars.toList)
  (inside : g.productions.ErasesNothingInside g.start)

include inv treated inside

/--
If no variable is lost then those that are needed open: otherwise they would lead to one another
without end.
-/
theorem opens_of_needs (kept : ∀ v ∈ g.vars, ¬ v ∈ (useful ⟨g.start, g.untangled⟩).terminals)
    (isStart : g.start ∈ g.untangled.vars) (known : s ∈ g.vars)
    (needed : g.untangled.Needs g.start s)
    (whole : s = g.start → ¬ .epsilon g.start ∈ g.productions) :
    g.treatedProductions.Opens g.vars s := by
  have hasProduction {t : Symbol} (known : t ∈ g.vars) (needed : g.untangled.Needs g.start t) :
      t ∈ g.untangled.vars := by
    by_cases same : t = g.start
    · rw [same]
      exact isStart
    · have needed := (needs_useful_iff (g := ⟨g.start, g.untangled⟩)).2 needed
      have occurs := needed.eq_or_mem_symbols.resolve_left same
      exact vars_useful_subset (g := ⟨g.start, g.untangled⟩)
        ((mem_vars_or_mem_terminals occurs).resolve_right (kept t known))
  generalize height : g.rank auxs s = n
  induction n using Nat.strongRecOn generalizing s with
  | ind n ih =>
    obtain ⟨⟨_, u⟩, mem, rfl⟩ := Productions.mem_vars.1 (hasProduction known needed)
    rcases mem_untangled.1 mem with old | ⟨same, erasing⟩
    · refine .intro old fun t starts known' => ?_
      have occurs := List.mem_of_mem_head? starts
      have needed' := needed.occurs mem occurs
      have link := leadsTo_iff.2 ⟨hasProduction known' needed', _, mem, rfl, starts⟩
      refine ih _ (height ▸ rank_lt_of_leadsTo inv treated link) known' needed' ?_ rfl
      rintro rfl erasing
      exact start_not_mem_rhs inv inside erasing old occurs
    · cases same
      exact absurd erasing (whole rfl)

end Kept

/--
The pruning after the treatment of left recursion succeeds just if no variable is stranded.
-/
theorem untangled_succeeds_iff (inside : g.productions.ErasesNothingInside g.start)
    (isStart : g.start ∈ g.vars) :
    (∃ r, (prune ⟨g.start, g.untangled⟩ >>= fun result => result.checkedAgainst g) = .ok r) ↔
      ¬ g.Stranded := by
  obtain ⟨treated, auxs, inv, keeps⟩ := exists_untangling_of_opening inside isStart
  obtain ⟨_, untangled⟩ := exists_untangled inside
  rw [prune_of_straight (g := ⟨g.start, g.untangled⟩) untangled.straight, Stranded,
    ← keeps.stranded]
  constructor
  · rintro ⟨r, checked⟩ ⟨m, u, exposed, known, closed, later⟩
    obtain ⟨_, kept⟩ := checkedAgainst_eq_ok_iff.1 checked
    have ne : u ≠ g.start := by
      rintro rfl
      have := (exposed.of_start_closed isStart closed).2.2
      omega
    have needed := needs_of_exposed exposed
    have hasStart := needed.eq_or_mem_vars.resolve_left ne
    exact closed (opens_of_needs inv treated inside kept hasStart known needed
      fun same => absurd same ne)
  · intro free
    refine ⟨_, checkedAgainst_eq_ok_iff.2 ⟨rfl, fun v isVar lost => ?_⟩⟩
    obtain ⟨needed, ne, _⟩ :=
      lost_of_mem_terminals_useful (g := ⟨g.start, g.untangled⟩) isVar lost
    have opens := (exposed_of_needs free inv treated needed (.inl isVar)).2 isVar ne
    obtain ⟨u, old, _⟩ := opens_iff.1 opens
    have mem : ⟨v, u⟩ ∈ g.untangled := mem_untangled.2 (.inl old)
    have proper := isSelfLoop_of_straight untangled.straight mem
    have useful := (mem_useful (g := ⟨g.start, g.untangled⟩)).2 ⟨mem, needed, proper⟩
    exact (Productions.mem_terminals.1 lost).2 (lhs_mem_vars useful)

end Grammar

end ContextFree
