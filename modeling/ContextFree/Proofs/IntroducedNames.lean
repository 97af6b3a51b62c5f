import ContextFree.Proofs.Runs
import ContextFree.Proofs.Terminals

/-!
This module contains the names that conversions introduce, recorded beside what they compute, and
that no sequence of conversions turns a variable into a terminal: neither one of the grammar at the
beginning nor one that was introduced on the way.
-/

namespace ContextFree

/--
What is introduced after a step, if that succeeds.
-/
def namesAfter (step : Except GrammarError Grammar) (names : Grammar → List Symbol) :
    List Symbol :=
  match step with
  | .ok g => names g
  | .error _ => []

@[simp]
theorem namesAfter_ok (g : Grammar) (names : Grammar → List Symbol) :
    namesAfter (.ok g) names = names g :=
  rfl

namespace Grammar

def isolationNames (g : Grammar) : List Symbol :=
  if g.occursInRhs g.start then [g.freshStart] else []

def erasureNames (g : Grammar) : List Symbol :=
  if g.startErasedInside then [g.freshStart] else []

def untanglingNames (g : Grammar) : List Symbol :=
  (g.untangling g.vars.toList).used.toList.filter fun a => ¬ a ∈ g.symbols

def straighteningNames (g : Grammar) : List Symbol :=
  if g.isLeftRecursive then
    namesAfter g.prune fun pruned =>
      pruned.erasureNames ++ namesAfter pruned.removeEpsilon fun erased =>
        if erased.isLeftRecursive then erased.untanglingNames else []
  else
    []

def greibachRoundNames (g : Grammar) : List Symbol :=
  g.erasureNames ++ namesAfter g.removeEpsilon straighteningNames

def greibachRoundsNames : (rounds : Nat) → Grammar → List Symbol
  | 0, _ => []
  | rounds + 1, g =>
    if g.isGreibach then
      []
    else
      g.greibachRoundNames ++ namesAfter g.greibachRound (greibachRoundsNames rounds)

def greibachNames (g : Grammar) : List Symbol :=
  if g.isGreibach then
    []
  else
    g.greibachRoundNames ++
      namesAfter g.greibachRound fun first => first.greibachRoundsNames first.vars.size

/--
On the way from `g` to `r` no variables but `names` have been introduced, and no variable has turned
into a terminal.
-/
structure Introduces (g : Grammar) (names : List Symbol) (r : Grammar) : Prop where
  vars : ∀ v ∈ r.vars, v ∈ g.vars ∨ v ∈ names
  terminals : NoNewTerminals g r
  kept : ∀ a ∈ names, ¬ a ∈ r.terminals

variable {g h r : Grammar} {a v : Symbol} {names more : List Symbol} {n : Nat}

theorem Introduces.trans (first : Introduces g names h) (second : Introduces h more r) :
    Introduces g (names ++ more) r := by
  refine ⟨?_, first.terminals.trans second.terminals, ?_⟩
  · intro v hv
    rw [List.mem_append, ← or_assoc]
    exact (second.vars v hv).imp_left (first.vars v)
  · intro a ha terminal
    rcases List.mem_append.1 ha with ha | ha
    · exact first.kept a ha (second.terminals a terminal)
    · exact second.kept a ha terminal

theorem introduces_nothing (vars : ∀ v ∈ r.vars, v ∈ g.vars) (terminals : NoNewTerminals g r) :
    Introduces g [] r := by
  refine ⟨fun v hv => .inl (vars v hv), terminals, ?_⟩
  intro a ha
  cases ha

theorem introduces_of_new (vars : ∀ v ∈ r.vars, v ∈ g.vars ∨ v ∈ names)
    (terminals : NoNewTerminals g r) (new : ∀ a ∈ names, ¬ a ∈ g.symbols) :
    Introduces g names r := by
  refine ⟨vars, terminals, ?_⟩
  intro a ha terminal
  exact new a ha (mem_terminals_iff.1 (terminals a terminal)).1

theorem Introduces.refl (g : Grammar) : Introduces g [] g :=
  introduces_nothing (fun _ hv => hv) (.refl g)

theorem introduces_freshStart (extended : g.productions.ExtendedBy r.productions g.freshStart)
    (terminals : NoNewTerminals g r) : Introduces g [g.freshStart] r := by
  apply introduces_of_new _ terminals
  · intro a ha
    exact List.mem_singleton.1 ha ▸ g.freshStart_not_mem
  · intro v hv
    by_cases same : v = g.freshStart
    · exact .inr (List.mem_singleton.2 same)
    · exact .inl ((extended.mem_vars_iff same).1 hv)

theorem introduces_prune (h : g.prune = .ok r) : Introduces g [] r := by
  refine introduces_nothing ?_ (noNewTerminals_prune h)
  obtain ⟨rfl, _⟩ := prune_eq_ok_iff.1 h
  exact fun v => vars_useful_subset

theorem introduces_reverse (g : Grammar) : Introduces g [] g.reverse :=
  introduces_nothing (fun _ => mem_vars_reverse_iff.1) (noNewTerminals_reverse g)

theorem introduces_isolateStart (h : g.isolateStart = .ok r) :
    Introduces g g.isolationNames r := by
  rw [isolateStart_eq] at h
  cases h
  unfold isolationNames
  split
  · rename_i occurs
    exact introduces_freshStart extendedBy_withFreshStart (noNewTerminals_withFreshStart occurs)
  · exact .refl g

theorem introduces_isolateErasableStart (g : Grammar) :
    Introduces g g.erasureNames g.isolateErasableStart := by
  unfold erasureNames isolateErasableStart
  split
  · rename_i inside
    exact introduces_freshStart extendedBy_withErasableStart
      (noNewTerminals_withErasableStart (startErasedInside_iff.1 inside).2)
  · exact .refl g

theorem introduces_removeEpsilon (h : g.removeEpsilon = .ok r) :
    Introduces g g.erasureNames r := by
  have erased : Introduces g.isolateErasableStart [] r :=
    introduces_nothing (erased_of_removeEpsilon h).vars
      (noNewTerminals_eraseNullable keepsStart_isolateErasableStart h)
  have both := (introduces_isolateErasableStart g).trans erased
  rwa [List.append_nil] at both

theorem introduces_untangled (inside : g.productions.ErasesNothingInside g.start)
    (pruned : prune ⟨g.start, g.untangled⟩ = .ok h) (checked : h.checkedAgainst g = .ok r) :
    Introduces g g.untanglingNames r := by
  apply introduces_of_new _ (noNewTerminals_untangled inside pruned checked)
  · intro a ha
    exact of_decide_eq_true (List.mem_filter.1 ha).2
  · obtain ⟨_, auxs, inv⟩ := exists_untangling inside
    obtain ⟨rfl, _⟩ := checkedAgainst_eq_ok_iff.1 checked
    obtain ⟨rfl, _⟩ := prune_eq_ok_iff.1 pruned
    intro v hv
    have known := mem_vars_of_mem_untangled inv (vars_useful_subset hv)
    refine (OrderedSet.mem_insertMany.1 known).imp_right fun isAux => ?_
    refine List.mem_filter.2 ⟨?_, decide_eq_true (inv.not_mem_names isAux)⟩
    exact OrderedSet.mem_toList.2 (inv.mem_used_iff.2 (.inr isAux))

theorem introduces_removeLeftRecursion (h : g.removeLeftRecursion = .ok r) :
    Introduces g g.straighteningNames r := by
  unfold straighteningNames
  cases recursive : g.isLeftRecursive with
  | false =>
    rw [removeLeftRecursion_of_straight recursive] at h
    cases h
    exact .refl g
  | true =>
    obtain ⟨pruned, hp, erased, he, h⟩ := (removeLeftRecursion_eq_ok_iff recursive).1 h
    have kept := (introduces_prune hp).trans (introduces_removeEpsilon he)
    rw [if_pos rfl, hp, namesAfter_ok, he, namesAfter_ok]
    refine kept.trans ?_
    split at h
    · rename_i stillRecursive
      obtain ⟨result, hr, checked⟩ := h
      rw [if_pos stillRecursive]
      exact introduces_untangled (erased_of_removeEpsilon he).inside hr checked
    · rename_i straight
      rw [if_neg straight, h]
      exact .refl erased

theorem introduces_substituteLeading (g : Grammar) : Introduces g [] g.substituteLeading :=
  introduces_nothing (fun _ => mem_vars_substituteLeading_iff.1)
    (noNewTerminals_substituteLeading g)

theorem introduces_greibachRound (h : g.greibachRound = .ok r) :
    Introduces g g.greibachRoundNames r := by
  obtain ⟨erased, he, straight, hs, rfl⟩ := greibachRound_eq_ok_iff.1 h
  have both := ((introduces_removeEpsilon he).trans (introduces_removeLeftRecursion hs)).trans
    (introduces_substituteLeading straight)
  unfold greibachRoundNames
  rwa [he, namesAfter_ok, ← List.append_nil (_ ++ _)]

theorem introduces_greibachRounds (h : g.greibachRounds n = .ok r) :
    Introduces g (g.greibachRoundsNames n) r := by
  induction n generalizing g with
  | zero =>
    obtain ⟨rfl, _⟩ := checkGreibach_eq_ok_iff.1 h
    exact .refl _
  | succ n ih =>
    unfold greibachRounds at h
    unfold greibachRoundsNames
    split at h
    · rename_i form
      cases h
      rw [if_pos form]
      exact .refl _
    · rename_i unfinished
      obtain ⟨next, round, rounds⟩ := bind_eq_ok_iff.1 h
      rw [if_neg unfinished, round, namesAfter_ok]
      exact (introduces_greibachRound round).trans (ih rounds)

theorem introduces_toGreibach (h : g.toGreibach = .ok r) : Introduces g g.greibachNames r := by
  unfold toGreibach at h
  unfold greibachNames
  split at h
  · rename_i form
    cases h
    rw [if_pos form]
    exact .refl _
  · rename_i unfinished
    obtain ⟨first, round, rounds⟩ := bind_eq_ok_iff.1 h
    rw [if_neg unfinished, round, namesAfter_ok]
    exact (introduces_greibachRound round).trans (introduces_greibachRounds rounds)

theorem introduces_applyOptions (options : NormalizationOptions) :
    Introduces g [] (g.applyOptions options) := by
  unfold applyOptions
  split
  · exact introduces_reverse g
  · exact .refl g

end Grammar

namespace Transformation

open Grammar

/--
The names that a conversion introduces.
-/
def names (t : Transformation) (g : Grammar) : List Symbol :=
  match t with
  | isolateStart => g.isolationNames
  | removeEpsilon => g.erasureNames
  | removeLeftRecursion => g.straighteningNames
  | toGreibach => g.greibachNames
  | normalize options => (g.applyOptions options).greibachNames
  | prune | reverse | applyOptions _ | reparse | regroup | restart _ | addProduction _ => []

/--
The names that are introduced in the course of a sequence of conversions.
-/
def namesAll : List Transformation → Grammar → List Symbol
  | [], _ => []
  | t :: more, g => t.names g ++ namesAfter (t.apply g) (namesAll more)

variable {g r : Grammar} {t : Transformation} {ts : List Transformation}

theorem introduces_apply (conversion : t.isConversion = true) (h : t.apply g = .ok r) :
    Introduces g (t.names g) r := by
  cases t with
  | prune => exact introduces_prune h
  | reverse =>
    cases h
    exact introduces_reverse g
  | isolateStart => exact introduces_isolateStart h
  | removeEpsilon => exact introduces_removeEpsilon h
  | removeLeftRecursion => exact introduces_removeLeftRecursion h
  | toGreibach => exact introduces_toGreibach h
  | normalize options =>
    exact (introduces_applyOptions options).trans (introduces_toGreibach h)
  | applyOptions | reparse | regroup | restart | addProduction => cases conversion

theorem introduces_applyAll (conversions : ∀ t ∈ ts, t.isConversion = true)
    (h : applyAll ts g = .ok r) : Introduces g (namesAll ts g) r := by
  induction ts generalizing g with
  | nil =>
    cases h
    exact .refl _
  | cons t more ih =>
    obtain ⟨next, applied, later⟩ := bind_eq_ok_iff.1 h
    unfold namesAll
    rw [applied, namesAfter_ok]
    have first := introduces_apply (conversions t List.mem_cons_self) applied
    exact first.trans (ih (fun t ht => conversions t (List.mem_cons_of_mem _ ht)) later)

/--
Every terminal of what a sequence of conversions leads to is a terminal of the grammar at the
beginning, so that no variable of that grammar is one. A name that is introduced on the way is none
either, and there are no variables but those.
-/
theorem applyAll_keeps_terminals (conversions : ∀ t ∈ ts, t.isConversion = true)
    (h : applyAll ts g = .ok r) :
    (∀ s ∈ r.terminals, s ∈ g.terminals) ∧ (∀ v ∈ g.vars, ¬ v ∈ r.terminals) ∧
      (∀ a ∈ namesAll ts g, ¬ a ∈ r.terminals) ∧
      ∀ v ∈ r.vars, v ∈ g.vars ∨ v ∈ namesAll ts g := by
  have all := introduces_applyAll conversions h
  refine ⟨all.terminals, ?_, all.kept, all.vars⟩
  intro v isVar terminal
  exact (mem_terminals_iff.1 (all.terminals v terminal)).2 isVar

/--
Three conversions, the first two of which introduce a variable each.
-/
def straightenBackwards : List Transformation :=
  [removeEpsilon, removeLeftRecursion, reverse]

def backwardBrackets : Grammar :=
  ofProductions ⟨"S2"⟩
    [.ofNames "S2" [")", "S", "("], .ofNames "S2" ["S3", ")", "S", "("], .ofNames "S2" [")", "("],
      .ofNames "S2" ["S3", ")", "("], .ofNames "S" [")", "S", "("],
      .ofNames "S" ["S3", ")", "S", "("], .ofNames "S" [")", "("], .ofNames "S" ["S3", ")", "("],
      .ofNames "S3" ["S"], .ofNames "S3" ["S3", "S"], .ofNames "S2" []]

set_option maxRecDepth 4000 in
theorem applyAll_keeps_terminals_brackets :
    (∀ t ∈ straightenBackwards, t.isConversion = true) ∧
      applyAll straightenBackwards brackets = .ok backwardBrackets ∧
      namesAll straightenBackwards brackets = [⟨"S2"⟩, ⟨"S3"⟩] ∧
      (∀ s ∈ backwardBrackets.terminals, s ∈ brackets.terminals) ∧
      (∀ v ∈ brackets.vars, ¬ v ∈ backwardBrackets.terminals) ∧
      (∀ a ∈ namesAll straightenBackwards brackets, ¬ a ∈ backwardBrackets.terminals) ∧
      ∀ v ∈ backwardBrackets.vars,
        v ∈ brackets.vars ∨ v ∈ namesAll straightenBackwards brackets := by
  have conversions : ∀ t ∈ straightenBackwards, t.isConversion = true := by decide
  have applied : applyAll straightenBackwards brackets = .ok backwardBrackets := by rfl
  have names : namesAll straightenBackwards brackets = [⟨"S2"⟩, ⟨"S3"⟩] := by rfl
  exact ⟨conversions, applied, names, applyAll_keeps_terminals conversions applied⟩

end Transformation

end ContextFree
