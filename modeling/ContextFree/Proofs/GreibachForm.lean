import ContextFree.Grammar.Greibach
import ContextFree.Proofs.Erasure
import ContextFree.Proofs.LeadingChains
import ContextFree.Proofs.LeadingSubstitution

/-!
This module contains what Greibach normal form is, in terms of the two things that the conversion
does away with: nothing is erased inside words, and no variable leads to another one. Replacing
leading variables keeps the former and halves the chains of the latter.
-/

namespace ContextFree

namespace Grammar

open Productions

variable {g : Grammar} {p : Production} {s v w : Symbol} {n : Nat}

theorem violationOf_eq_none_iff {vars : OrderedSet Symbol} :
    violationOf s vars p = none ↔
      (p.rhs = [] → p.lhs = s) ∧ ∀ t, p.first? = some t → ¬ t ∈ vars := by
  obtain ⟨lhs, rhs⟩ := p
  cases rhs with
  | nil => simp [violationOf, Production.first?]
  | cons t rest => simp [violationOf, Production.first?]

theorem startErased_iff : g.startErased = true ↔ .epsilon g.start ∈ g.productions := by
  unfold startErased
  rw [decide_eq_true_iff]

theorem isGreibach_iff_violations : g.isGreibach = true ↔
    (∀ p ∈ g.productions, violationOf g.start g.vars p = none) ∧
      ¬ (g.startErased = true ∧ g.occursInRhs g.start = true) := by
  rw [isGreibach, greibachViolation?, Option.isNone_iff_eq_none, Option.or_eq_none_iff,
    List.findSome?_eq_none_iff]
  simp only [OrderedSet.mem_toList]
  refine and_congr_right fun _ => ?_
  split
  · rename_i both
    exact iff_of_false nofun (not_not_intro both)
  · rename_i notBoth
    exact iff_of_true rfl notBoth

/--
In Greibach normal form nothing is erased inside words, and no variable leads to another one.
-/
theorem isGreibach_iff : g.isGreibach = true ↔
    g.productions.ErasesNothingInside g.start ∧ ∀ v w, ¬ g.productions.LeadsTo v w := by
  rw [isGreibach_iff_violations]
  constructor
  · rintro ⟨fine, isolated⟩
    have fine := fun p mem => violationOf_eq_none_iff.1 (fine p mem)
    constructor
    · apply erasesNothingInside_of_forall
      intro p mem empty
      obtain ⟨lhs, rhs⟩ := p
      obtain rfl : rhs = [] := empty
      obtain rfl : lhs = g.start := (fine _ mem).1 rfl
      refine ⟨rfl, fun q hq occurs => isolated ⟨startErased_iff.2 mem, ?_⟩⟩
      exact occursInRhs_iff.2 ⟨q, hq, occurs⟩
    · intro v w link
      obtain ⟨isVar, p, mem, _, starts⟩ := leadsTo_iff.1 link
      exact (fine p mem).2 w starts isVar
  · rintro ⟨inside, noLink⟩
    constructor
    · intro p mem
      refine violationOf_eq_none_iff.2 ⟨fun empty => ?_, fun s starts isVar => ?_⟩
      · rw [(inside.of_epsilon mem empty).1, Production.epsilon]
      · exact noLink p.lhs s (leadsTo_iff.2 ⟨isVar, p, mem, rfl, starts⟩)
    · rintro ⟨erased, occurs⟩
      obtain ⟨q, hq, occurs⟩ := occursInRhs_iff.1 occurs
      exact (inside.of_epsilon (startErased_iff.1 erased) rfl).2 q hq occurs

theorem isLeftRecursive_of_isGreibach (h : g.isGreibach = true) : g.isLeftRecursive = false :=
  isLeftRecursive_eq_false_of_rank (fun _ => 0) fun v w link =>
    absurd link ((isGreibach_iff.1 h).2 v w)

theorem checkGreibach_eq_ok_iff {r : Grammar} :
    g.checkGreibach = .ok r ↔ r = g ∧ g.isGreibach = true := by
  unfold checkGreibach
  rw [isGreibach]
  cases g.greibachViolation? with
  | none => simp [eq_comm]
  | some violation => simp

theorem mem_vars_substituteLeading_iff : v ∈ g.substituteLeading.vars ↔ v ∈ g.vars := by
  constructor
  · intro hv
    obtain ⟨q, mem, rfl⟩ := mem_vars.1 hv
    rcases mem_substituteLeading_cases mem with ⟨old, _⟩ | ⟨p, old, a, _, rest, _, _, rfl⟩
    · exact lhs_mem_vars old
    · exact mem_vars.2 ⟨p, old, rfl⟩
  · intro hv
    obtain ⟨p, mem, rfl⟩ := mem_vars.1 hv
    cases selected : startsWith g.vars p with
    | false =>
      refine mem_vars.2 ⟨p, mem_substituteLeading_of_kept mem ?_, rfl⟩
      simp [selected]
    | true =>
      obtain ⟨s, isVar, starts⟩ := startsWith_iff.1 selected
      obtain ⟨a, alternative, lhs⟩ := mem_vars.1 isVar
      have rhs := Production.first?_eq_some_iff.1 starts
      exact mem_vars.2
        ⟨_, mem_substituteLeading_of_selected mem selected rhs alternative lhs, rfl⟩

theorem checkedAgainst_substituteLeading :
    g.substituteLeading.checkedAgainst g = .ok g.substituteLeading := by
  refine checkedAgainst_eq_ok_iff.2 ⟨rfl, ?_⟩
  intro v isVar terminal
  exact (mem_terminals.1 terminal).2 (mem_vars_substituteLeading_iff.2 isVar)

theorem yields_substituteLeading_iff {x : List Symbol} :
    g.substituteLeading.Yields v x ↔ g.Yields v x := by
  rw [yields_iff, yields_iff, mem_vars_substituteLeading_iff,
    spells_congr_vars fun s => mem_vars_substituteLeading_iff]
  exact and_congr_right fun _ => spells_substituteLeading_iff fun _ _ => startsWith_iff.1

theorem mem_substituteLeading_origin {q : Production}
    (h : q ∈ g.substituteLeading.productions) :
    q ∈ g.productions ∧ (∀ s, q.first? = some s → ¬ s ∈ g.vars) ∨
      ∃ p ∈ g.productions, ∃ a ∈ g.productions, ∃ rest, p.rhs = a.lhs :: rest ∧
        q = ⟨p.lhs, a.rhs ++ rest⟩ := by
  rcases mem_substituteLeading_cases h with ⟨mem, unselected⟩ | ⟨p, hp, a, ha, rest, _, rhs, rfl⟩
  · refine .inl ⟨mem, fun s starts isVar => ?_⟩
    have empty := unselected (startsWith_iff.2 ⟨s, isVar, starts⟩)
    rw [Production.first?, empty] at starts
    cases starts
  · exact .inr ⟨p, hp, a, ha, rest, rhs, rfl⟩

theorem inside_substituteLeading (inside : g.productions.ErasesNothingInside g.start) :
    g.substituteLeading.productions.ErasesNothingInside g.start := by
  apply erasesNothingInside_of_forall
  intro q mem empty
  rcases mem_substituteLeading_origin mem with ⟨old, _⟩ | ⟨p, hp, a, ha, rest, rhs, rfl⟩
  · obtain ⟨rfl, unused⟩ := inside.of_epsilon old empty
    refine ⟨rfl, fun q mem occurs => ?_⟩
    rcases mem_substituteLeading_origin mem with ⟨old, _⟩ | ⟨p, hp, a, ha, rest, rhs, rfl⟩
    · exact unused q old occurs
    · rcases List.mem_append.1 occurs with occurs | occurs
      · exact unused a ha occurs
      · exact unused p hp (rhs ▸ List.mem_cons_of_mem a.lhs occurs)
  · -- what replaces a leading variable is not empty
    obtain ⟨rfl, unused⟩ := inside.of_epsilon ha (List.append_eq_nil_iff.1 empty).1
    refine absurd ?_ (unused p hp)
    rw [rhs]
    exact List.mem_cons_self

theorem leadsTo_substituteLeading (inside : g.productions.ErasesNothingInside g.start)
    (link : g.substituteLeading.productions.LeadsTo v w) :
    ∃ s, g.productions.LeadsTo v s ∧ g.productions.LeadsTo s w := by
  obtain ⟨isVar, q, mem, rfl, starts⟩ := leadsTo_iff.1 link
  have isVar : w ∈ g.vars := mem_vars_substituteLeading_iff.1 isVar
  rcases mem_substituteLeading_origin mem with ⟨_, unselected⟩ | ⟨p, hp, a, ha, rest, rhs, rfl⟩
  · exact absurd isVar (unselected w starts)
  · have first : p.first? = some a.lhs := by
      rw [Production.first?, rhs]
      rfl
    have notEmpty : a.rhs ≠ [] := by
      intro empty
      obtain ⟨rfl, unused⟩ := inside.of_epsilon ha empty
      exact unused p hp (List.mem_of_mem_head? first)
    refine ⟨a.lhs, leadsTo_iff.2 ⟨lhs_mem_vars ha, p, hp, rfl, first⟩, ?_⟩
    refine leadsTo_iff.2 ⟨isVar, a, ha, rfl, ?_⟩
    obtain ⟨t, tail, same⟩ := List.exists_cons_of_ne_nil notEmpty
    rw [Production.first?, same] at starts ⊢
    exact starts

theorem leadsFar_substituteLeading (inside : g.productions.ErasesNothingInside g.start)
    (h : LeadsFar g.substituteLeading.productions n v) : LeadsFar g.productions (2 * n) v := by
  induction h with
  | here isVar => exact .here (mem_vars_substituteLeading_iff.1 isVar)
  | next link _ ih =>
    obtain ⟨s, first, second⟩ := leadsTo_substituteLeading inside link
    exact .next first (.next second ih)

theorem leadsTo_substituteLeading_of_leadsTo (first : g.productions.LeadsTo v s)
    (second : g.productions.LeadsTo s w) : g.substituteLeading.productions.LeadsTo v w := by
  obtain ⟨isVar, p, hp, rfl, starts⟩ := leadsTo_iff.1 first
  obtain ⟨isVar', a, ha, rfl, starts'⟩ := leadsTo_iff.1 second
  have selected : startsWith g.vars p = true := startsWith_iff.2 ⟨a.lhs, isVar, starts⟩
  have rhs := Production.first?_eq_some_iff.1 starts
  have mem := mem_substituteLeading_of_selected hp selected rhs ha rfl
  refine leadsTo_iff.2 ⟨mem_vars_substituteLeading_iff.2 isVar', _, mem, rfl, ?_⟩
  rw [Production.first?, Production.first?_eq_some_iff.1 starts']
  rfl

theorem leadsFar_substituteLeading_of_leadsFar (h : LeadsFar g.productions (2 * n) v) :
    LeadsFar g.substituteLeading.productions n v := by
  induction n generalizing v with
  | zero =>
    cases h with
    | here isVar => exact .here (mem_vars_substituteLeading_iff.2 isVar)
  | succ n ih =>
    cases h with
    | next first rest =>
      cases rest with
      | next second rest => exact .next (leadsTo_substituteLeading_of_leadsTo first second) (ih rest)

end Grammar

end ContextFree
