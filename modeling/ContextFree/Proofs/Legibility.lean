import ContextFree.Proofs.Grouping
import ContextFree.Proofs.GreibachConversion
import ContextFree.Proofs.Notation
import ContextFree.Proofs.Reversal
import ContextFree.Transformation

/-!
This module contains that transformations lead from grammars that can be told from their text to
such grammars again. A symbol never moves from a right-hand side to a left-hand side, where less can
stand, and a name that is made up is that of a variable with a number behind it.
-/

namespace ContextFree

open Text

namespace Symbol

/--
The name can be that of a variable: it is read as one piece, and nothing in it is taken for the
delimiter.
-/
structure NamesVariable (s : Symbol) : Prop where
  isWord : IsWord s.name.toList
  undivided : ¬ delimiter <:+: s.name.toList

variable {base s : Symbol} {used : OrderedSet Symbol} {first count : Nat}

theorem not_isBlank_of_isDigit {c : Char} (h : c.isDigit = true) : isBlank c = false := by
  have bounds : 48 ≤ c.toNat ∧ c.toNat ≤ 57 := by
    simpa [Char.isDigit, UInt32.le_iff_toNat_le] using h
  simp only [isBlank, inRanges, blankRanges, List.any_cons, List.any_nil, Bool.or_false,
    Bool.or_eq_false_iff, decide_eq_false_iff_not]
  omega

theorem not_delimiter_infix_append_digits {text digits : List Char}
    (h : ¬ delimiter <:+: text) (areDigits : ∀ c ∈ digits, c.isDigit = true) :
    ¬ delimiter <:+: text ++ digits := by
  induction digits generalizing text with
  | nil =>
    rw [List.append_nil]
    exact h
  | cons c digits ih =>
    rw [List.append_cons]
    refine ih (not_delimiter_infix_concat h ?_) fun d hd => areDigits d (List.mem_cons_of_mem c hd)
    rintro rfl
    exact absurd (areDigits '=' List.mem_cons_self) (by decide)

theorem namesVariable_of_mem_numbered {stem : String}
    (solid : ∀ c ∈ stem.toList, isBlank c = false) (undivided : ¬ delimiter <:+: stem.toList)
    (h : s ∈ numbered stem first count) : s.NamesVariable := by
  obtain ⟨i, _, rfl⟩ := List.mem_map.1 h
  have name : (stem ++ toString (first + i)).toList =
      stem.toList ++ Nat.toDigits 10 (first + i) := by
    rw [String.toList_append, Nat.toString_eq_repr, Nat.toList_repr]
  have areDigits : ∀ c ∈ Nat.toDigits 10 (first + i), c.isDigit = true := fun c hc =>
    Nat.isDigit_of_mem_toDigits (by decide) (by decide) hc
  refine ⟨⟨?_, ?_⟩, ?_⟩
  · rw [name]
    exact List.append_ne_nil_of_right_ne_nil _ Nat.toDigits_ne_nil
  · rw [name]
    intro c hc
    rcases List.mem_append.1 hc with hc | hc
    · exact solid c hc
    · exact not_isBlank_of_isDigit (areDigits c hc)
  · rw [name]
    exact not_delimiter_infix_append_digits undivided areDigits

theorem isPrefix_stem (name : List Char) : stem name <+: name := by
  have shorter := List.dropWhile_suffix Char.isDigit (l := name.reverse)
  rwa [← List.reverse_prefix, List.reverse_reverse] at shorter

theorem NamesVariable.of_mem_candidates (h : base.NamesVariable)
    (mem : s ∈ base.candidates count) : s.NamesVariable := by
  simp only [candidates] at mem
  rcases List.mem_append.1 mem with mem | mem
  · split at mem
    · have front := (isPrefix_stem base.name.toList).isInfix
      refine namesVariable_of_mem_numbered ?_ ?_ mem
      · rw [String.toList_ofList]
        intro c hc
        exact h.isWord.2 c (front.subset hc)
      · rw [String.toList_ofList]
        exact fun within => h.undivided (within.trans front)
    · cases mem
  · exact namesVariable_of_mem_numbered h.isWord.2 h.undivided mem

theorem NamesVariable.fresh (h : base.NamesVariable) (used : OrderedSet Symbol) :
    (Symbol.fresh used base).NamesVariable := by
  unfold Symbol.fresh
  split
  · cases found : (base.candidates (used.size + 1)).find? (· ∉ used) with
    | none => exact h
    | some s => exact h.of_mem_candidates (List.mem_of_find?_eq_some found)
  · exact h

end Symbol

namespace Untangling

variable {state : Untangling} {names : OrderedSet Symbol} {v s : Symbol} {order : List Symbol}

/--
All names that have come up in the course of the treatment can be those of variables.
-/
def NamesVariables (names : OrderedSet Symbol) (state : Untangling) : Prop :=
  ∀ s ∈ state.used, s ∈ names ∨ s.NamesVariable

theorem NamesVariables.treat (h : NamesVariables names state) (isVar : v.NamesVariable) :
    NamesVariables names (state.treat v) := by
  by_cases direct : (state.unfolded v).recursiveOf v = []
  · rw [treat_of_recursiveOf_eq_nil direct]
    exact h
  · rw [treat_of_recursiveOf_ne_nil direct]
    intro s hs
    rcases OrderedSet.mem_insert.1 hs with hs | rfl
    · exact h s hs
    · exact .inr (isVar.fresh state.used)

theorem NamesVariables.run (h : NamesVariables names state)
    (areVars : ∀ v ∈ order, v.NamesVariable) :
    NamesVariables names (order.foldl Untangling.treat state) := by
  induction order generalizing state with
  | nil => exact h
  | cons v order ih =>
    have next := h.treat (areVars v List.mem_cons_self)
    exact ih next fun w hw => areVars w (List.mem_cons_of_mem v hw)

end Untangling

namespace Grammar

open Productions

/--
The productions can be told from their text, and so could be one of the start variable, which may
have none.
-/
structure Legible (g : Grammar) : Prop where
  start : g.start.NamesVariable
  productions : ∀ p ∈ g.productions, p.Readable

variable {g h r : Grammar} {text : String} {v : Symbol} {n : Nat}

theorem Readable.legible (h : g.Readable) : g.Legible := by
  obtain ⟨p, mem, lhs⟩ := mem_vars.1 h.start
  have readable := h.productions p mem
  exact ⟨lhs ▸ ⟨readable.lhs, readable.undivided⟩, h.productions⟩

theorem Legible.parse_toText (h : g.Legible) (isVar : g.start ∈ g.vars) :
    ∃ r, parse g.toText = .ok r ∧ r ≈ g :=
  ⟨g.rearranged, Readable.parse_toText ⟨isVar, h.productions⟩, g.rearranged_equiv⟩

theorem Legible.namesVariable (h : g.Legible) (isVar : v ∈ g.vars) : v.NamesVariable := by
  obtain ⟨p, mem, rfl⟩ := mem_vars.1 isVar
  exact ⟨(h.productions p mem).lhs, (h.productions p mem).undivided⟩

/--
It is enough that left-hand sides are old variables and right-hand sides are made of old symbols,
apart from names that can stand on either side.
-/
theorem Legible.of_origin (h : g.Legible) (start : r.start.NamesVariable)
    (lhs : ∀ p ∈ r.productions, p.lhs ∈ g.vars ∨ p.lhs.NamesVariable)
    (rhs : ∀ p ∈ r.productions, ∀ s ∈ p.rhs,
      (∃ q ∈ g.productions, s ∈ q.rhs) ∨ s.NamesVariable) : r.Legible := by
  refine ⟨start, fun p mem => ?_⟩
  have ofVariable : p.lhs.NamesVariable := (lhs p mem).elim h.namesVariable id
  refine ⟨ofVariable.isWord, ofVariable.undivided, fun s hs => ?_⟩
  rcases rhs p mem s hs with ⟨q, old, occurs⟩ | isVar
  · exact (h.productions q old).rhs s occurs
  · exact isVar.isWord

theorem Legible.subset (h : g.Legible) (start : r.start = g.start)
    (sub : ∀ p ∈ r.productions, p ∈ g.productions) : r.Legible :=
  ⟨start ▸ h.start, fun p mem => h.productions p (sub p mem)⟩

theorem Legible.prune (h : g.Legible) (pruned : g.prune = .ok r) : r.Legible := by
  obtain ⟨rfl, _⟩ := prune_eq_ok_iff.1 pruned
  exact h.subset rfl fun p mem => (mem_useful.1 mem).1

theorem Legible.reverse (h : g.Legible) : g.reverse.Legible := by
  refine h.of_origin h.start ?_ ?_
  · intro p mem
    exact .inl (mem_vars_reverse_iff.1 (lhs_mem_vars mem))
  · intro p mem s hs
    exact .inl ⟨p.reverse, mem_reverse_iff.1 mem, List.mem_reverse.2 hs⟩

theorem Legible.extended (h : g.Legible)
    (added : ∀ p ∈ r.productions, p ∈ g.productions ∨ p.lhs = g.freshStart ∧ ∀ s ∈ p.rhs, s = g.start)
    (start : r.start = g.freshStart) : r.Legible := by
  have new : g.freshStart.NamesVariable := h.start.fresh g.symbols
  refine h.of_origin (start ▸ new) ?_ ?_
  · intro p mem
    rcases added p mem with old | ⟨lhs, _⟩
    · exact .inl (lhs_mem_vars old)
    · exact .inr (lhs ▸ new)
  · intro p mem s hs
    rcases added p mem with old | ⟨_, rhs⟩
    · exact .inl ⟨p, old, hs⟩
    · exact .inr (rhs s hs ▸ h.start)

theorem Legible.isolateStart (h : g.Legible) (isolated : g.isolateStart = .ok r) : r.Legible := by
  rw [isolateStart_eq] at isolated
  cases isolated
  split
  · refine h.extended ?_ rfl
    intro p mem
    rcases mem_withFreshStart.1 mem with old | rfl
    · exact .inl old
    · exact .inr ⟨rfl, fun s => List.mem_singleton.1⟩
  · exact h

theorem Legible.isolateErasableStart (h : g.Legible) : g.isolateErasableStart.Legible := by
  unfold Grammar.isolateErasableStart
  split
  · refine h.extended ?_ rfl
    intro p mem
    rcases mem_withErasableStart.1 mem with old | rfl | rfl
    · exact .inl old
    · exact .inr ⟨rfl, fun s => List.mem_singleton.1⟩
    · exact .inr ⟨rfl, nofun⟩
  · exact h

theorem Legible.eraseNullable (h : g.Legible) (keeps : g.productions.KeepsStart g.start)
    (erased : g.eraseNullable = .ok r) : r.Legible := by
  by_cases only : g.productions.ErasesOnly g.start
  · rw [eraseNullable_of_erasesOnly only] at erased
    cases erased
    exact h
  · obtain ⟨rfl, _⟩ := (eraseNullable_eq_ok_iff keeps only).1 erased
    refine h.of_origin h.start ?_ ?_
    · intro p mem
      exact .inl (mem_vars_of_mem_dropped (lhs_mem_vars (mem_useful.1 mem).1))
    · intro p mem s hs
      obtain ⟨q, old, _, remains, _⟩ := mem_eraseNullable.1 (mem_useful.1 mem).1
      exact .inl ⟨q, old, (mem_of_mem_dropNullable remains s hs).1⟩

theorem Legible.removeEpsilon (h : g.Legible) (erased : g.removeEpsilon = .ok r) : r.Legible :=
  h.isolateErasableStart.eraseNullable keepsStart_isolateErasableStart erased

theorem Legible.untangled (h : g.Legible) (inside : g.productions.ErasesNothingInside g.start) :
    (Grammar.mk g.start g.untangled).Legible := by
  obtain ⟨_, auxs, inv⟩ := exists_untangling inside
  have start : Untangling.NamesVariables g.symbols (.ofProductions g.nonErasing g.symbols) :=
    fun s hs => .inl hs
  have used : Untangling.NamesVariables g.symbols (g.untangling g.vars.toList) :=
    start.run fun v => h.namesVariable
  have new {a : Symbol} (ha : a ∈ auxs) : a.NamesVariable :=
    (used a (inv.mem_used_iff.2 (.inr ha))).resolve_left (inv.not_mem_names ha)
  refine h.of_origin h.start ?_ ?_
  · intro p mem
    exact (lhs_of_mem_untangled inv mem).imp_right new
  · intro p mem s hs
    rcases mem_untangled.1 mem with mem | ⟨rfl, _⟩
    · exact (mem_symbols_of_mem_rhs inv mem hs).symm.imp_right new
    · cases hs

theorem Legible.removeLeftRecursion (h : g.Legible) (straightened : g.removeLeftRecursion = .ok r) :
    r.Legible := by
  cases recursive : g.isLeftRecursive with
  | false =>
    rw [removeLeftRecursion_of_straight recursive] at straightened
    cases straightened
    exact h
  | true =>
    obtain ⟨pruned, hp, erased, he, last⟩ := (removeLeftRecursion_eq_ok_iff recursive).1 straightened
    have legible := (h.prune hp).removeEpsilon he
    split at last
    · obtain ⟨result, hr, checked⟩ := last
      obtain ⟨rfl, _⟩ := checkedAgainst_eq_ok_iff.1 checked
      exact (legible.untangled (erased_of_removeEpsilon he).inside).prune hr
    · exact last ▸ legible

theorem Legible.substituteLeading (h : g.Legible) : g.substituteLeading.Legible := by
  refine h.of_origin h.start ?_ ?_
  · intro q mem
    exact .inl (mem_vars_substituteLeading_iff.1 (lhs_mem_vars mem))
  · intro q mem s hs
    rcases mem_substituteLeading_origin mem with ⟨old, _⟩ | ⟨p, hp, a, ha, rest, rhs, rfl⟩
    · exact .inl ⟨q, old, hs⟩
    · rcases List.mem_append.1 hs with hs | hs
      · exact .inl ⟨a, ha, hs⟩
      · exact .inl ⟨p, hp, rhs ▸ List.mem_cons_of_mem a.lhs hs⟩

theorem Legible.greibachRound (h : g.Legible) (round : g.greibachRound = .ok r) : r.Legible := by
  obtain ⟨erased, he, straight, hs, rfl⟩ := greibachRound_eq_ok_iff.1 round
  exact ((h.removeEpsilon he).removeLeftRecursion hs).substituteLeading

theorem Legible.greibachRounds (h : g.Legible) (rounds : g.greibachRounds n = .ok r) :
    r.Legible := by
  induction n generalizing g with
  | zero =>
    obtain ⟨rfl, _⟩ := checkGreibach_eq_ok_iff.1 rounds
    exact h
  | succ n ih =>
    unfold Grammar.greibachRounds at rounds
    split at rounds
    · cases rounds
      exact h
    · obtain ⟨next, round, rounds⟩ := bind_eq_ok_iff.1 rounds
      exact ih (h.greibachRound round) rounds

theorem Legible.toGreibach (h : g.Legible) (converted : g.toGreibach = .ok r) : r.Legible := by
  obtain ⟨n, rounds⟩ := exists_greibachRounds converted
  exact h.greibachRounds rounds

theorem Legible.applyOptions (h : g.Legible) (options : NormalizationOptions) :
    (g.applyOptions options).Legible := by
  unfold Grammar.applyOptions
  split
  · exact h.reverse
  · exact h

theorem Legible.regroup (h : g.Legible)
    (regrouped : GreibachView.toGrammar <$> g.greibachView = .ok r) : r.Legible := by
  cases viewed : g.greibachView with
  | error e =>
    rw [viewed] at regrouped
    cases regrouped
  | ok view =>
    rw [viewed] at regrouped
    cases regrouped
    obtain ⟨rfl, form⟩ := greibachView_eq_ok_iff.1 viewed
    obtain ⟨start, same⟩ := equiv_iff.1 (toGrammar_grouped_equiv form)
    exact h.subset start fun p => (same p).1

end Grammar

namespace Transformation

open Grammar

/--
The transformation takes nothing but the grammar itself: no symbols are given to it.
-/
def isSelfContained : Transformation → Bool
  | restart _ | addProduction _ => false
  | prune | reverse | isolateStart | removeEpsilon | removeLeftRecursion | toGreibach
  | applyOptions _ | normalize _ | reparse | regroup => true

variable {g r : Grammar} {t : Transformation} {ts : List Transformation} {text : String}

theorem legible_apply (selfContained : t.isSelfContained = true) (legible : g.Legible)
    (h : t.apply g = .ok r) : r.Legible := by
  cases t with
  | prune => exact legible.prune h
  | reverse =>
    cases h
    exact legible.reverse
  | isolateStart => exact legible.isolateStart h
  | removeEpsilon => exact legible.removeEpsilon h
  | removeLeftRecursion => exact legible.removeLeftRecursion h
  | toGreibach => exact legible.toGreibach h
  | applyOptions options =>
    cases h
    exact legible.applyOptions options
  | normalize options => exact (legible.applyOptions options).toGreibach h
  | reparse => exact (readable_of_parse h).legible
  | regroup => exact legible.regroup h
  | restart | addProduction => cases selfContained

theorem legible_applyAll (selfContained : ∀ t ∈ ts, t.isSelfContained = true)
    (legible : g.Legible) (h : applyAll ts g = .ok r) : r.Legible := by
  induction ts generalizing g with
  | nil =>
    cases h
    exact legible
  | cons t more ih =>
    obtain ⟨next, applied, later⟩ := bind_eq_ok_iff.1 h
    have first := legible_apply (selfContained t List.mem_cons_self) legible applied
    exact ih (fun t ht => selfContained t (List.mem_cons_of_mem _ ht)) first later

/--
What has been read from a text can still be told from its text after any sequence of transformations
to which no symbols are given, as long as there is a production to begin with.
-/
theorem parse_toText_applyAll (read : parse text = .ok g)
    (selfContained : ∀ t ∈ ts, t.isSelfContained = true) (h : applyAll ts g = .ok r)
    (isVar : r.start ∈ r.vars) : ∃ r', parse r.toText = .ok r' ∧ r' ≈ r :=
  (legible_applyAll selfContained (readable_of_parse read).legible h).parse_toText isVar

/--
Terms with a delimiter among the symbols, for a start variable whose name ends in a number.
-/
def definitionsText : String :=
  "E7 ::= E7 ::= T\nT ::= x\nE7 ::= T"

def definitions : Grammar :=
  ofProductions ⟨"E7"⟩
    [.ofNames "E7" ["E7", "::=", "T"], .ofNames "T" ["x"], .ofNames "E7" ["T"]]

def convertedDefinitions : Grammar :=
  ofProductions ⟨"E8"⟩
    [.ofNames "E8" ["x"], .ofNames "E8" ["x", "::=", "x"],
      .ofNames "E8" ["x", "::=", "E10", "x"], .ofNames "E10" ["x", "::="],
      .ofNames "E10" ["x", "::=", "E10"]]

def selfContainedSteps : List Transformation :=
  [isolateStart, removeEpsilon, removeLeftRecursion, reverse, toGreibach, regroup, prune]

set_option maxRecDepth 4000 in
theorem parse_toText_applyAll_definitions :
    parse definitionsText = .ok definitions ∧
      (∀ t ∈ selfContainedSteps, t.isSelfContained = true) ∧
      applyAll selfContainedSteps definitions = .ok convertedDefinitions ∧
      convertedDefinitions.start ∈ convertedDefinitions.vars ∧
      ∃ r, parse convertedDefinitions.toText = .ok r ∧ r ≈ convertedDefinitions := by
  have read : parse definitionsText = .ok definitions := by decide +kernel
  have selfContained : ∀ t ∈ selfContainedSteps, t.isSelfContained = true := by decide
  have converted : applyAll selfContainedSteps definitions = .ok convertedDefinitions := by rfl
  have isVar : convertedDefinitions.start ∈ convertedDefinitions.vars := by decide
  exact ⟨read, selfContained, converted, isVar,
    parse_toText_applyAll read selfContained converted isVar⟩

end Transformation

end ContextFree
