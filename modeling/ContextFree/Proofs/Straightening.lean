import ContextFree.Proofs.Erasure
import ContextFree.Proofs.LeadingChains
import ContextFree.Proofs.Untangling

/-!
This module contains what the treatment of variables one after another makes of a grammar in which
nothing is erased inside words: productions without left recursion, in which all variables have the
words that they had before.
-/

namespace ContextFree

namespace Grammar

open Productions

def nonErasing (g : Grammar) : Productions :=
  g.productions.erase (.epsilon g.start)

/--
What is left of a grammar when its variables have been treated and `auxs` have been introduced.
-/
structure Untangled (g : Grammar) (auxs : List Symbol) : Prop where
  lhs : ∀ v ∈ g.untangled.vars, v ∈ g.vars.insertMany auxs
  isVar : ∀ a ∈ auxs, a ∈ g.untangled.vars
  new : ∀ a ∈ auxs, ¬ a ∈ g.symbols
  words : ∀ s, ¬ s ∈ auxs → ∀ w,
    Spells g.untangled (g.vars.insertMany auxs) [s] w ↔ Spells g.productions g.vars [s] w
  straight : g.untangled.isLeftRecursive = false
  inside : g.untangled.ErasesNothingInside g.start
  productive : (∀ s ∈ g.symbols, ∃ w, Spells g.productions g.vars [s] w) →
    ∀ s ∈ g.untangled.symbols, ∃ w, Spells g.untangled (g.vars.insertMany auxs) [s] w

variable {g : Grammar} {auxs : List Symbol} {s v w : Symbol} {p : Production} {n : Nat}

@[simp]
theorem mem_nonErasing : p ∈ g.nonErasing ↔ p ∈ g.productions ∧ p ≠ .epsilon g.start :=
  OrderedSet.mem_erase

theorem mem_of_mem_nonErasing (mem : p ∈ g.nonErasing) : p ∈ g.productions :=
  (mem_nonErasing.1 mem).1

theorem mem_untangled :
    p ∈ g.untangled ↔ p ∈ (g.untangling g.vars.toList).productions ∨
      p = .epsilon g.start ∧ .epsilon g.start ∈ g.productions := by
  simp only [untangled]
  split
  · rename_i erasing
    rw [OrderedSet.mem_insert, and_iff_left erasing]
  · rename_i kept
    rw [or_iff_left fun h => kept h.2]

theorem mem_productions_iff : p ∈ g.productions ↔
    p ∈ g.nonErasing ∨ p = .epsilon g.start ∧ .epsilon g.start ∈ g.productions := by
  rw [mem_nonErasing]
  constructor
  · intro mem
    by_cases same : p = .epsilon g.start
    · exact .inr ⟨same, same ▸ mem⟩
    · exact .inl ⟨mem, same⟩
  · rintro (⟨mem, _⟩ | ⟨rfl, erasing⟩)
    · exact mem
    · exact erasing

theorem spells_nonErasing_iff {vars : OrderedSet Symbol}
    (inside : g.productions.ErasesNothingInside g.start) {x : List Symbol} :
    Spells g.productions vars [s] x ↔ Spells g.nonErasing vars [s] x ∨
      .epsilon g.start ∈ g.productions ∧ s = g.start ∧ x = [] := by
  apply spells_epsilon_iff (fun p => mem_productions_iff)
  intro erasing p mem
  exact (inside.of_epsilon erasing rfl).2 p (mem_of_mem_nonErasing mem)

theorem rhs_ne_nil_of_mem_nonErasing (inside : g.productions.ErasesNothingInside g.start)
    (mem : p ∈ g.nonErasing) : p.rhs ≠ [] := by
  intro empty
  obtain ⟨old, ne⟩ := mem_nonErasing.1 mem
  exact ne (inside.of_epsilon old empty).1

theorem exists_spells_nonErasing (inside : g.productions.ErasesNothingInside g.start)
    (productive : ∀ s ∈ g.symbols, ∃ x, Spells g.productions g.vars [s] x)
    (mem : p ∈ g.nonErasing) (occurs : s ∈ p.rhs) : ∃ x, Spells g.nonErasing g.vars [s] x := by
  have old := mem_of_mem_nonErasing mem
  obtain ⟨x, spelled⟩ := productive s (rhs_mem_symbols old occurs)
  rcases (spells_nonErasing_iff inside).1 spelled with spelled | ⟨erasing, rfl, _⟩
  · exact ⟨x, spelled⟩
  · exact absurd occurs ((inside.of_epsilon erasing rfl).2 p old)

/--
The productions and names when as many variables have been treated.
-/
def treatedUpTo (g : Grammar) (count : Nat) : Untangling :=
  g.untangling (g.vars.toList.take count)

/--
The name that is added to the used ones when the variable at this place is treated, counted from 0: the
auxiliary variable that is introduced for it.
-/
def auxiliary? (g : Grammar) (place : Nat) : Option Symbol :=
  (g.treatedUpTo (place + 1)).used.get? (g.treatedUpTo place).used.size

def auxiliaries (g : Grammar) (count : Nat) : List Symbol :=
  (List.range count).filterMap g.auxiliary?

theorem treatedUpTo_succ (h : g.vars.get? n = some v) :
    g.treatedUpTo (n + 1) = (g.treatedUpTo n).treat v := by
  have next : g.vars.toList[n]? = some v := h
  rw [treatedUpTo, List.take_add_one, next, Option.toList_some, untangling, List.foldl_append]
  rfl

theorem treatedUpTo_of_size_le (h : g.vars.size ≤ n) :
    g.treatedUpTo n = g.untangling g.vars.toList := by
  rw [treatedUpTo, List.take_of_length_le h]

theorem auxiliary?_eq {aux? : Option Symbol}
    (h : (g.treatedUpTo (n + 1)).used.toList = (g.treatedUpTo n).used.toList ++ aux?.toList) :
    g.auxiliary? n = aux? := by
  rw [auxiliary?, OrderedSet.get?, h, OrderedSet.size, List.getElem?_append_right (Nat.le_refl _),
    Nat.sub_self]
  cases aux? <;> rfl

theorem auxiliaries_succ (g : Grammar) (n : Nat) :
    g.auxiliaries (n + 1) = g.auxiliaries n ++ (g.auxiliary? n).toList := by
  rw [auxiliaries, List.range_succ, List.filterMap_append]
  cases chosen : g.auxiliary? n with
  | none => rw [List.filterMap_cons_none chosen, List.filterMap_nil, auxiliaries, Option.toList_none]
  | some a => rw [List.filterMap_cons_some chosen, List.filterMap_nil, auxiliaries, Option.toList_some]

theorem exists_invariant_treat {rest : List Symbol} {state : Untangling}
    (inv : Untangling.Invariant g.nonErasing g.vars g.symbols g.vars.toList auxs state)
    (split : state.treated ++ v :: rest = g.vars.toList) :
    ∃ aux? : Option Symbol, Untangling.Invariant g.nonErasing g.vars g.symbols g.vars.toList
      (auxs ++ aux?.toList) (state.treat v) := by
  have knownVars : ∀ v ∈ g.vars, v ∈ g.symbols := fun v => mem_symbols_of_mem_vars
  have knownSymbols : ∀ s ∈ g.nonErasing.symbols, s ∈ g.symbols := fun s =>
    mem_symbols_mono fun p => mem_of_mem_nonErasing
  have nodup := g.vars.nodup
  rw [← split] at inv nodup ⊢
  refine inv.treat knownVars knownSymbols nodup ?_
  rw [split]
  exact fun s hs => hs

section Run

variable {motive : Untangling → Prop} (inside : g.productions.ErasesNothingInside g.start)
  (next : ∀ auxs state v rest, state.treated ++ v :: rest = g.vars.toList →
    Untangling.Invariant g.nonErasing g.vars g.symbols g.vars.toList auxs state →
    motive state → motive (state.treat v))
  (start : motive (.ofProductions g.nonErasing g.symbols))

include inside next start

/--
The invariant holds however many variables have been treated, and so does whatever else every step
keeps.
-/
theorem invariant_treatedUpTo_of_step (le : n ≤ g.vars.size) :
    (g.treatedUpTo n).treated = g.vars.toList.take n ∧
      Untangling.Invariant g.nonErasing g.vars g.symbols g.vars.toList (g.auxiliaries n)
        (g.treatedUpTo n) ∧ motive (g.treatedUpTo n) := by
  induction n with
  | zero =>
    have isVars : ∀ v ∈ g.nonErasing.vars, v ∈ g.vars := fun v =>
      mem_vars_mono fun p => mem_of_mem_nonErasing
    exact ⟨rfl, Untangling.invariant_ofProductions isVars fun p =>
      rhs_ne_nil_of_mem_nonErasing inside, start⟩
  | succ n ih =>
    obtain ⟨treated, inv, kept⟩ := ih (Nat.le_of_succ_le le)
    obtain ⟨v, found⟩ := OrderedSet.exists_get? le
    have split : (g.treatedUpTo n).treated ++ v :: g.vars.toList.drop (n + 1) = g.vars.toList := by
      obtain ⟨_, place⟩ := List.getElem?_eq_some_iff.1 found
      rw [treated, ← place, ← List.drop_eq_getElem_cons, List.take_append_drop]
    obtain ⟨aux?, inv'⟩ := exists_invariant_treat inv split
    have kept' := next _ _ v _ split inv kept
    rw [← treatedUpTo_succ found] at inv' kept'
    have chosen : g.auxiliary? n = aux? := by
      apply auxiliary?_eq
      rw [inv'.used, inv.used, List.append_assoc]
    rw [auxiliaries_succ, chosen]
    refine ⟨?_, inv', kept'⟩
    rw [treatedUpTo_succ found, Untangling.treat, treated, List.take_add_one]
    exact congrArg _ (congrArg Option.toList found.symm)

theorem exists_untangling_of_step :
    (g.untangling g.vars.toList).treated = g.vars.toList ∧
      ∃ auxs, Untangling.Invariant g.nonErasing g.vars g.symbols g.vars.toList auxs
        (g.untangling g.vars.toList) ∧ motive (g.untangling g.vars.toList) := by
  have last := invariant_treatedUpTo_of_step inside next start (Nat.le_refl g.vars.size)
  rw [treatedUpTo_of_size_le (Nat.le_refl _)] at last
  exact ⟨last.1.trans (List.take_length ..), _, last.2⟩

end Run

theorem invariant_treatedUpTo (inside : g.productions.ErasesNothingInside g.start)
    (le : n ≤ g.vars.size) :
    (g.treatedUpTo n).treated = g.vars.toList.take n ∧
      Untangling.Invariant g.nonErasing g.vars g.symbols g.vars.toList (g.auxiliaries n)
        (g.treatedUpTo n) := by
  obtain ⟨treated, inv, _⟩ := invariant_treatedUpTo_of_step (motive := fun _ => True) inside
    (fun _ _ _ _ _ _ _ => trivial) trivial le
  exact ⟨treated, inv⟩

theorem exists_untangling (inside : g.productions.ErasesNothingInside g.start) :
    (g.untangling g.vars.toList).treated = g.vars.toList ∧
      ∃ auxs, Untangling.Invariant g.nonErasing g.vars g.symbols g.vars.toList auxs
        (g.untangling g.vars.toList) := by
  obtain ⟨treated, auxs, inv, _⟩ :=
    exists_untangling_of_step (motive := fun _ => True) inside (fun _ _ _ _ _ _ _ => trivial) trivial
  exact ⟨treated, auxs, inv⟩

section Invariant

variable (inv : Untangling.Invariant g.nonErasing g.vars g.symbols g.vars.toList auxs
    (g.untangling g.vars.toList))

/--
Auxiliary variables rank above all others and in the order of their introduction, the others in the
opposite order of their treatment.
-/
def rank (g : Grammar) (auxs : List Symbol) (v : Symbol) : Nat :=
  if v ∈ auxs then
    g.vars.size + 1 + auxs.idxOf v
  else
    g.vars.size - g.vars.toList.idxOf v

theorem rank_of_mem (h : v ∈ auxs) : g.rank auxs v = g.vars.size + 1 + auxs.idxOf v :=
  if_pos h

theorem rank_of_not_mem (h : ¬ v ∈ auxs) :
    g.rank auxs v = g.vars.size - g.vars.toList.idxOf v :=
  if_neg h

include inv

theorem lhs_of_mem_untangled (mem : p ∈ g.untangled) : p.lhs ∈ g.vars ∨ p.lhs ∈ auxs := by
  rcases mem_untangled.1 mem with mem | ⟨rfl, erasing⟩
  · exact inv.madeOf.lhs p mem
  · exact .inl (lhs_mem_vars erasing)

theorem mem_vars_of_mem_untangled (hv : v ∈ g.untangled.vars) : v ∈ g.vars.insertMany auxs := by
  obtain ⟨p, mem, rfl⟩ := Productions.mem_vars.1 hv
  exact OrderedSet.mem_insertMany.2 (lhs_of_mem_untangled inv mem)

theorem rank_lt_of_leadsTo (treated : (g.untangling g.vars.toList).treated = g.vars.toList)
    (link : g.untangled.LeadsTo v w) : g.rank auxs w < g.rank auxs v := by
  obtain ⟨isVar, p, mem, rfl, starts⟩ := leadsTo_iff.1 link
  have isVar := OrderedSet.mem_insertMany.1 (mem_vars_of_mem_untangled inv isVar)
  rcases mem_untangled.1 mem with mem | ⟨rfl, _⟩
  · by_cases isAux : p.lhs ∈ auxs
    · rw [rank_of_mem isAux]
      by_cases aux : w ∈ auxs
      · rw [rank_of_mem aux]
        have := inv.ordered.auxiliary p mem isAux w aux starts
        omega
      · rw [rank_of_not_mem aux]
        omega
    · have isTreated : p.lhs ∈ (g.untangling g.vars.toList).treated := by
        rw [treated]
        exact (inv.madeOf.lhs p mem).resolve_right isAux
      obtain ⟨notAux, later⟩ := inv.ordered.treated p mem isTreated w starts
      have known := isVar.resolve_right notAux
      have := later known
      have : g.vars.toList.idxOf w < g.vars.size := List.idxOf_lt_length_of_mem known
      rw [rank_of_not_mem isAux, rank_of_not_mem notAux]
      omega
  · cases starts

theorem mem_symbols_of_mem_rhs (mem : p ∈ (g.untangling g.vars.toList).productions)
    (occurs : s ∈ p.rhs) : s ∈ auxs ∨ ∃ q ∈ g.productions, s ∈ q.rhs := by
  apply (inv.madeOf.rhs p mem s occurs).imp_right
  rintro ⟨q, old, occurs⟩
  exact ⟨q, mem_of_mem_nonErasing old, occurs⟩

theorem start_not_mem_rhs (inside : g.productions.ErasesNothingInside g.start)
    (erasing : .epsilon g.start ∈ g.productions)
    (mem : p ∈ (g.untangling g.vars.toList).productions) : ¬ g.start ∈ p.rhs := by
  intro occurs
  rcases mem_symbols_of_mem_rhs inv mem occurs with isAux | ⟨q, old, occurs⟩
  · exact inv.not_mem_names isAux (lhs_mem_symbols erasing)
  · exact (inside.of_epsilon erasing rfl).2 q old occurs

theorem inside_untangled (inside : g.productions.ErasesNothingInside g.start) :
    g.untangled.ErasesNothingInside g.start := by
  apply erasesNothingInside_of_forall
  intro p mem empty
  rcases mem_untangled.1 mem with mem | ⟨rfl, erasing⟩
  · exact absurd empty (inv.madeOf.nonempty p mem)
  · refine ⟨rfl, ?_⟩
    intro q hq occurs
    rcases mem_untangled.1 hq with hq | ⟨rfl, _⟩
    · exact start_not_mem_rhs inv inside erasing hq occurs
    · cases occurs

theorem spells_untangled_iff (inside : g.productions.ErasesNothingInside g.start)
    (old : ¬ s ∈ auxs) {x : List Symbol} :
    Spells g.untangled (g.vars.insertMany auxs) [s] x ↔ Spells g.productions g.vars [s] x := by
  have words : Spells (g.untangling g.vars.toList).productions (g.vars.insertMany auxs) [s] x ↔
      Spells g.nonErasing g.vars [s] x := by
    apply inv.words [s] x
    intro t ht
    rw [List.mem_singleton.1 ht]
    exact old
  rw [spells_epsilon_iff (fun p => mem_untangled) fun erasing p =>
    start_not_mem_rhs inv inside erasing, words, spells_nonErasing_iff inside]

theorem mem_symbols_of_mem_untangled (mem : s ∈ g.untangled.symbols) (old : ¬ s ∈ auxs) :
    s ∈ g.symbols := by
  obtain ⟨p, hp, rfl | occurs⟩ := Productions.mem_symbols.1 mem
  · exact mem_symbols_of_mem_vars ((lhs_of_mem_untangled inv hp).resolve_right old)
  · rcases mem_untangled.1 hp with hp | ⟨rfl, _⟩
    · obtain ⟨q, hq, occurs⟩ := (mem_symbols_of_mem_rhs inv hp occurs).resolve_left old
      exact rhs_mem_symbols hq occurs
    · cases occurs

theorem productive_untangled (inside : g.productions.ErasesNothingInside g.start)
    (productive : ∀ s ∈ g.symbols, ∃ x, Spells g.productions g.vars [s] x)
    (mem : s ∈ g.untangled.symbols) :
    ∃ x, Spells g.untangled (g.vars.insertMany auxs) [s] x := by
  by_cases isAux : s ∈ auxs
  · obtain ⟨x, spelled⟩ := inv.productive
      (fun p mem s occurs => exists_spells_nonErasing inside productive mem occurs) s isAux
    exact ⟨x, spelled.mono fun p mem => mem_untangled.2 (.inl mem)⟩
  · have known := mem_symbols_of_mem_untangled inv mem isAux
    obtain ⟨x, spelled⟩ := productive s known
    exact ⟨x, (spells_untangled_iff inv inside isAux).2 spelled⟩

end Invariant

theorem exists_untangled (inside : g.productions.ErasesNothingInside g.start) :
    ∃ auxs, Untangled g auxs := by
  obtain ⟨treated, auxs, inv⟩ := exists_untangling inside
  refine ⟨auxs, fun v => mem_vars_of_mem_untangled inv, ?_, fun a => inv.not_mem_names,
    fun s old w => spells_untangled_iff inv inside old, ?_, inside_untangled inv inside,
    fun productive s => productive_untangled inv inside productive⟩
  · intro a ha
    exact mem_vars_mono (fun p mem => mem_untangled.2 (.inl mem)) (inv.isVar a ha)
  · exact isLeftRecursive_eq_false_of_rank (g.rank auxs) fun _ _ => rank_lt_of_leadsTo inv treated

end Grammar

end ContextFree
