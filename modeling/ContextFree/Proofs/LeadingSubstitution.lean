import ContextFree.Grammar.Leading
import ContextFree.Proofs.Spelling

/-!
This module contains what the replacement of leading symbols does to words: nothing, whichever
productions are selected, as long as only variables are replaced. All right-hand sides come from the
productions as they are, also those of productions that are selected themselves.
-/

namespace ContextFree

namespace Productions

variable {ps : Productions} {vars : OrderedSet Symbol} {selected : Production → Bool}
  {u w : List Symbol} {s : Symbol} {p q : Production}

theorem mem_substituteLeading_of_kept (mem : p ∈ ps) (h : selected p = true → p.rhs = []) :
    p ∈ ps.substituteLeading selected := by
  refine mem_substituteLeading.2 ⟨p, mem, ?_⟩
  split
  · rw [expansions, h (by assumption), List.mem_singleton]
  · rfl

theorem mem_substituteLeading_of_selected {rest : List Symbol} (mem : p ∈ ps)
    (h : selected p = true) (rhs : p.rhs = s :: rest) (alternative : q ∈ ps) (lhs : q.lhs = s) :
    ⟨p.lhs, q.rhs ++ rest⟩ ∈ ps.substituteLeading selected := by
  refine mem_substituteLeading.2 ⟨p, mem, ?_⟩
  rw [if_pos h, mem_expansions rhs]
  exact ⟨q, alternative, lhs, rfl⟩

theorem mem_substituteLeading_cases (h : q ∈ ps.substituteLeading selected) :
    q ∈ ps ∧ (selected q = true → q.rhs = []) ∨
      ∃ p ∈ ps, ∃ a ∈ ps, ∃ rest, selected p = true ∧ p.rhs = a.lhs :: rest ∧
        q = ⟨p.lhs, a.rhs ++ rest⟩ := by
  obtain ⟨p, mem, h⟩ := mem_substituteLeading.1 h
  cases isSelected : selected p with
  | false =>
    rw [if_neg (by simp [isSelected])] at h
    subst h
    exact .inl ⟨mem, by simp [isSelected]⟩
  | true =>
    rw [if_pos isSelected] at h
    cases rhs : p.rhs with
    | nil =>
      rw [expansions, rhs, List.mem_singleton] at h
      subst h
      exact .inl ⟨mem, fun _ => rhs⟩
    | cons t rest =>
      obtain ⟨a, alternative, rfl, rfl⟩ := (mem_expansions rhs).1 h
      exact .inr ⟨p, mem, a, alternative, rest, isSelected, rhs, rfl⟩

theorem Spells.of_substituteLeading (h : Spells (ps.substituteLeading selected) vars u w) :
    Spells ps vars u w := by
  apply h.of_closed (fun _ => .singleton)
  intro q mem w inner
  rcases mem_substituteLeading_cases mem with ⟨old, _⟩ | ⟨p, hp, a, alternative, rest, _, rhs, rfl⟩
  · exact .of_mem old inner
  · obtain ⟨x, y, rfl, left, right⟩ := spells_append_iff.1 inner
    refine .of_mem hp ?_
    rw [rhs]
    exact .replace alternative left right

section Variables

variable (lead : ∀ p ∈ ps, selected p = true → ∃ s ∈ vars, p.first? = some s)
include lead

theorem Spells.substituteLeading (h : Spells ps vars u w) :
    Spells (ps.substituteLeading selected) vars u w := by
  -- beside the words of a symbol we keep its topmost production, which takes the place of the
  -- symbol where it leads a selected one
  have reads : Reads (fun s w => Spells (ps.substituteLeading selected) vars [s] w ∧
      (s ∈ vars → ∃ a ∈ ps, a.lhs = s ∧ Spells (ps.substituteLeading selected) vars a.rhs w))
      u w := by
    apply h.reads
    · intro s terminal
      exact ⟨.singleton terminal, fun isVar => absurd isVar terminal⟩
    · intro p mem w inner
      have spelled : Spells (ps.substituteLeading selected) vars p.rhs w :=
        .of_reads inner fun s _ v h => h.1
      refine ⟨?_, fun _ => ⟨p, mem, rfl, spelled⟩⟩
      cases isSelected : selected p with
      | false =>
        refine .of_mem (mem_substituteLeading_of_kept mem ?_) spelled
        simp [isSelected]
      | true =>
        obtain ⟨t, isVar, starts⟩ := lead p mem isSelected
        have rhs := Production.first?_eq_some_iff.1 starts
        rw [rhs] at inner
        obtain ⟨x, y, rfl, ⟨_, topmost⟩, right⟩ := reads_cons_iff.1 inner
        obtain ⟨a, alternative, lhs, left⟩ := topmost isVar
        have right : Spells (ps.substituteLeading selected) vars p.tail y :=
          .of_reads right fun s _ v h => h.1
        have replaced := mem_substituteLeading_of_selected mem isSelected rhs alternative lhs
        exact .of_mem replaced (left.append right)
  exact .of_reads reads fun s _ v h => h.1

theorem spells_substituteLeading_iff :
    Spells (ps.substituteLeading selected) vars u w ↔ Spells ps vars u w := by
  constructor
  · exact Spells.of_substituteLeading
  · exact Spells.substituteLeading lead

theorem mem_substituteLeading_iff : q ∈ ps.substituteLeading selected ↔
    q ∈ ps ∧ selected q = false ∨
      ∃ p ∈ ps, ∃ a ∈ ps, ∃ rest, selected p = true ∧ p.rhs = a.lhs :: rest ∧
        q = ⟨p.lhs, a.rhs ++ rest⟩ := by
  constructor
  · intro h
    refine (mem_substituteLeading_cases h).imp_left ?_
    rintro ⟨mem, unselected⟩
    refine ⟨mem, Bool.eq_false_iff.2 fun isSelected => ?_⟩
    obtain ⟨s, _, starts⟩ := lead q mem isSelected
    rw [Production.first?, unselected isSelected] at starts
    cases starts
  · rintro (⟨mem, unselected⟩ | ⟨p, mem, a, alternative, rest, isSelected, rhs, rfl⟩)
    · exact mem_substituteLeading_of_kept mem fun isSelected =>
        absurd isSelected (Bool.eq_false_iff.1 unselected)
    · exact mem_substituteLeading_of_selected mem isSelected rhs alternative rfl

end Variables

/--
Whichever productions are selected, as long as they begin with variables, each of them gives way to
those with a right-hand side of its leading variable in place of that, as the productions stand, and
the words of all variables stay the same. A selected production may begin with its own variable, a
right-hand side may be empty, and where there is none the selected production is lost.
-/
theorem substituteLeading_keeps_words (isVar : ∀ p ∈ ps, p.lhs ∈ vars)
    (lead : ∀ p ∈ ps, selected p = true → ∃ s ∈ vars, p.first? = some s) :
    (∀ q, q ∈ ps.substituteLeading selected ↔
      q ∈ ps ∧ selected q = false ∨
        ∃ p ∈ ps, ∃ a ∈ ps, ∃ rest, selected p = true ∧ p.rhs = a.lhs :: rest ∧
          q = ⟨p.lhs, a.rhs ++ rest⟩) ∧
      (∀ q ∈ ps.substituteLeading selected, q.lhs ∈ vars) ∧
      ∀ v ∈ vars, ∀ w, Yields (ps.substituteLeading selected) vars v w ↔ Yields ps vars v w := by
  refine ⟨fun q => mem_substituteLeading_iff lead, fun q mem => ?_, fun v hv w => ?_⟩
  · rcases mem_substituteLeading_cases mem with ⟨old, _⟩ | ⟨p, old, _, _, _, _, _, rfl⟩
    · exact isVar q old
    · exact isVar p old
  · rw [yields_iff_spells hv, yields_iff_spells hv]
    exact spells_substituteLeading_iff lead

/--
Productions that begin with their own variable, with one that is erased, and with one that has no
production.
-/
def tangle : Productions :=
  .ofList [.ofNames "A" ["A", "a"], .ofNames "A" ["B", "A"], .ofNames "A" ["D"], .ofNames "A" ["b"],
    .ofNames "B" [], .ofNames "B" ["A", "c"]]

def tangleVars : OrderedSet Symbol :=
  .ofList [⟨"A"⟩, ⟨"B"⟩, ⟨"D"⟩]

theorem substituteLeading_keeps_words_tangle :
    (tangle.substituteLeading (startsWith tangleVars)).toList =
        [.ofNames "A" ["A", "a", "a"], .ofNames "A" ["B", "A", "a"], .ofNames "A" ["D", "a"],
          .ofNames "A" ["b", "a"], .ofNames "A" ["A"], .ofNames "A" ["A", "c", "A"],
          .ofNames "A" ["b"], .ofNames "B" [], .ofNames "B" ["A", "a", "c"],
          .ofNames "B" ["B", "A", "c"], .ofNames "B" ["D", "c"], .ofNames "B" ["b", "c"]] ∧
      (∀ p ∈ tangle.toList, p.lhs ∈ tangleVars) ∧
      (∀ p ∈ tangle.toList, startsWith tangleVars p = true → ∃ s ∈ tangleVars, p.first? = some s) ∧
      ∀ v ∈ tangleVars, ∀ w,
        Yields (tangle.substituteLeading (startsWith tangleVars)) tangleVars v w ↔
          Yields tangle tangleVars v w := by
  have areVars : ∀ p ∈ tangle.toList, p.lhs ∈ tangleVars := by decide
  have lead : ∀ p ∈ tangle.toList, startsWith tangleVars p = true →
      ∃ s ∈ tangleVars, p.first? = some s := fun p _ => startsWith_iff.1
  obtain ⟨_, _, words⟩ := substituteLeading_keeps_words areVars lead
  exact ⟨by decide, areVars, lead, words⟩

end Productions

end ContextFree
