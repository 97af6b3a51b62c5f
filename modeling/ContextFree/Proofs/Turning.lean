import ContextFree.Proofs.DirectRecursion
import ContextFree.Proofs.Unfolding
import Mathlib.Data.List.Basic

/-!
This module contains what happens to the order of leading symbols when the leading variables of `v`
have been unfolded and its direct left recursion is turned to the right. Its productions then start
with terminals or with later variables, and those of the auxiliary variable start with no auxiliary
variable but earlier ones.
-/

namespace ContextFree

namespace Productions

variable {base ps ps' : Productions} {vars names : OrderedSet Symbol}
  {treated rest auxs : List Symbol} {v s aux : Symbol} {q : Production}

theorem MadeOf.mem_symbols (h : MadeOf base vars auxs ps) (mem : s ∈ ps.symbols) :
    s ∈ vars ∨ s ∈ auxs ∨ s ∈ base.symbols := by
  obtain ⟨p, hp, occurs⟩ := Productions.mem_symbols.1 mem
  rcases occurs with rfl | occurs
  · exact (h.lhs p hp).imp_right .inl
  · refine .inr ((h.rhs p hp s occurs).imp_right ?_)
    rintro ⟨q, hq, occurs⟩
    exact rhs_mem_symbols hq occurs

theorem Ordered.unfolding (ordered : Ordered base (treated ++ rest) treated auxs ps)
    (madeOf : MadeOf base vars auxs ps) (notTreated : ¬ v ∈ treated) (notAux : ¬ v ∈ auxs)
    (apart : ∀ a ∈ auxs, ¬ a ∈ base.symbols) : Unfolding base vars auxs ps v [] ps := by
  refine ⟨fun q _ => Iff.rfl, ?_, madeOf, fun _ _ u w => Iff.rfl⟩
  rintro q mem rfl s starts
  refine ⟨fun hs => apart s hs ?_, List.not_mem_nil⟩
  have original := (ordered.untreated q notTreated notAux).1 mem
  exact rhs_mem_symbols original (List.mem_of_head? starts)

theorem Unfolding.leads_on (h : Unfolding base vars auxs ps v treated ps') (mem : q ∈ ps')
    (lhs : q.lhs = v) (starts : q.first? = some s) (ne : s ≠ v) :
    ¬ s ∈ auxs ∧ (s ∈ treated ++ v :: rest →
      (treated ++ v :: rest).idxOf v < (treated ++ v :: rest).idxOf s) := by
  obtain ⟨notAux, notTreated⟩ := h.first q mem lhs s starts
  refine ⟨notAux, fun _ => ?_⟩
  rw [List.append_cons]
  apply idxOf_lt_of_append (List.mem_append_right treated List.mem_cons_self)
  rw [List.mem_append, List.mem_singleton, not_or]
  exact ⟨notTreated, ne⟩

theorem Unfolding.ordered (h : Unfolding base vars auxs ps v treated ps')
    (old : Ordered base (treated ++ v :: rest) treated auxs ps) (notAux : ¬ v ∈ auxs)
    (direct : ps'.recursiveOf v = []) :
    Ordered base (treated ++ v :: rest) (treated ++ [v]) auxs ps' := by
  constructor
  · intro p notTreated notAux
    rw [List.mem_append, List.mem_singleton, not_or] at notTreated
    rw [h.others p notTreated.2]
    exact old.untreated p notTreated.1 notAux
  · intro p mem isTreated s starts
    by_cases lhs : p.lhs = v
    · rw [lhs]
      apply h.leads_on mem lhs starts
      rintro rfl
      have recursive : p ∈ ps'.recursiveOf s := mem_recursiveOf.2 ⟨mem, lhs, starts⟩
      rw [direct] at recursive
      cases recursive
    · rw [List.mem_append, List.mem_singleton, or_iff_left lhs] at isTreated
      exact old.treated p ((h.others p lhs).1 mem) isTreated s starts
  · intro p mem isAux s hs starts
    have lhs : p.lhs ≠ v := by
      rintro rfl
      exact notAux isAux
    exact old.auxiliary p ((h.others p lhs).1 mem) isAux s hs starts

theorem MadeOf.turnRight (h : MadeOf base vars auxs ps) (isVar : v ∈ vars)
    (proper : ∀ p ∈ ps, ¬ (p.lhs = v ∧ p.rhs = [v])) :
    MadeOf base vars (auxs ++ [aux]) (ps.turnRight v aux) := by
  have isAux : aux ∈ auxs ++ [aux] := List.mem_append_right auxs List.mem_cons_self
  have old {lhs s : Symbol} {u : List Symbol} (mem : ⟨lhs, u⟩ ∈ ps) (occurs : s ∈ u) :
      s ∈ auxs ++ [aux] ∨ ∃ q ∈ base, s ∈ q.rhs :=
    (h.rhs _ mem s occurs).imp_left (List.mem_append_left [aux])
  have further {u : List Symbol} (hu : ∀ s ∈ u, s ∈ auxs ++ [aux] ∨ ∃ q ∈ base, s ∈ q.rhs) :
      ∀ s ∈ u ++ [aux], s ∈ auxs ++ [aux] ∨ ∃ q ∈ base, s ∈ q.rhs := by
    intro s hs
    rcases List.mem_append.1 hs with hs | hs
    · exact hu s hs
    · rw [List.mem_singleton.1 hs]
      exact .inl isAux
  constructor
  · intro q turned
    cases mem_turnRight_iff.1 turned with
    | old mem => exact (h.lhs q mem).imp_right (List.mem_append_left [aux])
    | last | first => exact .inl isVar
    | auxLast | auxNext => exact .inr isAux
  · intro q turned
    cases mem_turnRight_iff.1 turned with
    | old mem => exact fun s => old mem
    | last mem => exact fun s => old mem
    | first mem => exact further fun s => old mem
    | auxLast mem => exact fun s hs => old mem (List.mem_cons_of_mem v hs)
    | auxNext mem => exact further fun s hs => old mem (List.mem_cons_of_mem v hs)
  · intro q turned
    exact (mem_turnRight_iff.1 turned).rhs_ne_nil h.nonempty proper

theorem Turned.leads (turned : Turned ps v aux q) (nonempty : ∀ p ∈ ps, p.rhs ≠ [])
    (proper : ∀ p ∈ ps, ¬ (p.lhs = v ∧ p.rhs = [v])) (starts : q.first? = some s) :
    q ∈ ps ∧ q.lhs ≠ v ∨ (q.lhs = v ∧ s ≠ v ∧ ∃ p ∈ ps, p.lhs = v ∧ p.first? = some s) ∨
      (q.lhs = aux ∧ ∃ u, ⟨v, v :: u⟩ ∈ ps ∧ u.head? = some s) := by
  have ne {u : List Symbol} (ends : u.head? ≠ some v) (starts : u.head? = some s) : s ≠ v := by
    rintro rfl
    exact ends starts
  cases turned with
  | old mem other => exact .inl ⟨mem, other⟩
  | last mem ends => exact .inr (.inl ⟨rfl, ne ends starts, _, mem, rfl, starts⟩)
  | @first u mem ends =>
    have starts : u.head? = some s := by
      rw [← List.head?_append_of_ne_nil u (nonempty _ mem)]
      exact starts
    exact .inr (.inl ⟨rfl, ne ends starts, _, mem, rfl, starts⟩)
  | auxLast mem => exact .inr (.inr ⟨rfl, _, mem, starts⟩)
  | @auxNext u mem =>
    have tail : u ≠ [] := by
      rintro rfl
      exact proper _ mem ⟨rfl, rfl⟩
    refine .inr (.inr ⟨rfl, u, mem, ?_⟩)
    rw [← List.head?_append_of_ne_nil u tail]
    exact starts

theorem exists_recursive (h : ps.recursiveOf v ≠ []) : ∃ u, ⟨v, v :: u⟩ ∈ ps := by
  obtain ⟨p, recursive⟩ := List.exists_mem_of_ne_nil _ h
  obtain ⟨mem, rfl, starts⟩ := mem_recursiveOf.1 recursive
  refine ⟨p.tail, ?_⟩
  rw [← Production.first?_eq_some_iff.1 starts]
  exact mem

section Turn

variable (h : Unfolding base vars auxs ps v treated ps')
  (old : Ordered base (treated ++ v :: rest) treated auxs ps)
  (proper : ∀ p ∈ ps', ¬ (p.lhs = v ∧ p.rhs = [v])) (isVar : v ∈ vars) (notAux : ¬ v ∈ auxs)
  (fresh : ¬ aux ∈ ps'.symbols) (new : ¬ aux ∈ auxs) (notVar : ¬ aux ∈ vars)

theorem ne_of_not_mem_symbols {p : Production} (fresh : ¬ aux ∈ ps'.symbols) (mem : p ∈ ps')
    (occurs : s ∈ p.rhs) : s ≠ aux := by
  rintro rfl
  exact fresh (rhs_mem_symbols mem occurs)

include h

include old in
theorem Unfolding.untreated_turnRight (notTreated : ¬ q.lhs ∈ treated ++ [v])
    (notAux : ¬ q.lhs ∈ auxs ++ [aux]) : q ∈ ps'.turnRight v aux ↔ q ∈ base := by
  rw [List.mem_append, List.mem_singleton, not_or] at notTreated notAux
  rw [mem_turnRight_iff, ← old.untreated q notTreated.1 notAux.1, ← h.others q notTreated.2]
  constructor
  · intro turned
    cases turned with
    | old mem => exact mem
    | last | first => exact absurd rfl notTreated.2
    | auxLast | auxNext => exact absurd rfl notAux.2
  · intro mem
    exact .old mem notTreated.2

include old proper fresh in
theorem Unfolding.treated_turnRight (notTreated : ¬ aux ∈ treated ++ [v])
    (mem : q ∈ ps'.turnRight v aux) (isTreated : q.lhs ∈ treated ++ [v])
    (starts : q.first? = some s) :
    ¬ s ∈ auxs ++ [aux] ∧ (s ∈ treated ++ v :: rest →
      (treated ++ v :: rest).idxOf q.lhs < (treated ++ v :: rest).idxOf s) := by
  rw [List.mem_append, List.mem_singleton, not_or, and_right_comm]
  rcases (mem_turnRight_iff.1 mem).leads h.madeOf.nonempty proper starts with
    ⟨hq, other⟩ | ⟨lhs, other, p, hp, lhs', starts'⟩ | ⟨lhs, u, hu, starts'⟩
  · refine ⟨?_, ne_of_not_mem_symbols fresh hq (List.mem_of_head? starts)⟩
    rw [List.mem_append, List.mem_singleton, or_iff_left other] at isTreated
    exact old.treated q ((h.others q other).1 hq) isTreated s starts
  · rw [lhs]
    exact ⟨h.leads_on hp lhs' starts' other,
      ne_of_not_mem_symbols fresh hp (List.mem_of_head? starts')⟩
  · rw [lhs] at isTreated
    exact absurd isTreated notTreated

include old proper isVar notAux fresh new notVar in
theorem Unfolding.auxiliary_turnRight (mem : q ∈ ps'.turnRight v aux)
    (isAux : q.lhs ∈ auxs ++ [aux]) (hs : s ∈ auxs ++ [aux]) (starts : q.first? = some s) :
    (auxs ++ [aux]).idxOf s < (auxs ++ [aux]).idxOf q.lhs := by
  rcases (mem_turnRight_iff.1 mem).leads h.madeOf.nonempty proper starts with
    ⟨hq, other⟩ | ⟨lhs, _⟩ | ⟨lhs, u, hu, starts'⟩
  · have notNew : q.lhs ≠ aux := fun same => fresh (same ▸ lhs_mem_symbols hq)
    rw [List.mem_append, List.mem_singleton, or_iff_left notNew] at isAux
    rw [List.mem_append, List.mem_singleton,
      or_iff_left (ne_of_not_mem_symbols fresh hq (List.mem_of_head? starts))] at hs
    rw [List.idxOf_append_of_mem hs, List.idxOf_append_of_mem isAux]
    exact old.auxiliary q ((h.others q other).1 hq) isAux s hs starts
  · have ne : v ≠ aux := fun same => notVar (same ▸ isVar)
    rw [lhs, List.mem_append, List.mem_singleton, or_iff_left ne] at isAux
    exact absurd isAux notAux
  · have occurs : s ∈ v :: u := List.mem_cons_of_mem v (List.mem_of_head? starts')
    rw [List.mem_append, List.mem_singleton,
      or_iff_left (ne_of_not_mem_symbols fresh hu occurs)] at hs
    rw [lhs]
    exact idxOf_lt_of_append hs new

include old proper isVar notAux fresh new notVar in
theorem Unfolding.ordered_turnRight (isVars : ∀ s ∈ treated, s ∈ vars) :
    Ordered base (treated ++ v :: rest) (treated ++ [v]) (auxs ++ [aux])
      (ps'.turnRight v aux) := by
  have notTreated : ¬ aux ∈ treated ++ [v] := by
    rw [List.mem_append, List.mem_singleton, not_or]
    exact ⟨fun mem => notVar (isVars aux mem), fun same => notVar (same ▸ isVar)⟩
  constructor
  · intro p
    exact h.untreated_turnRight old
  · intro p mem isTreated s
    exact h.treated_turnRight old proper fresh notTreated mem isTreated
  · intro p mem isAux s
    exact h.auxiliary_turnRight old proper isVar notAux fresh new notVar mem isAux

include isVar fresh new notVar in
theorem Unfolding.spells_turnRight_iff {u x : List Symbol} (form : ¬ aux ∈ u) :
    Spells (ps'.turnRight v aux) (vars.insertMany (auxs ++ [aux])) u x ↔
      Spells ps (vars.insertMany auxs) u x := by
  have sub : ∀ s ∈ vars, s ∈ vars.insertMany auxs := fun s hs =>
    OrderedSet.mem_insertMany.2 (.inl hs)
  have notMem : ¬ aux ∈ vars.insertMany auxs := by
    rw [OrderedSet.mem_insertMany, not_or]
    exact ⟨notVar, new⟩
  rw [OrderedSet.insertMany_append, OrderedSet.insertMany_cons, OrderedSet.insertMany_nil]
  rw [Productions.spells_turnRight_iff fresh (sub v isVar) notMem form]
  exact h.words (vars.insertMany auxs) sub u x

include notAux in
theorem Unfolding.mem_vars_turnRight {a : Symbol} (isVar : ∀ a ∈ auxs, a ∈ ps.vars)
    (recursive : ps'.recursiveOf v ≠ []) (ha : a ∈ auxs ++ [aux]) :
    a ∈ (ps'.turnRight v aux).vars := by
  rcases List.mem_append.1 ha with ha | ha
  · obtain ⟨p, mem, rfl⟩ := Productions.mem_vars.1 (isVar a ha)
    have other : p.lhs ≠ v := fun same => notAux (same ▸ ha)
    have old := (h.others p other).2 mem
    exact lhs_mem_vars (mem_turnRight_iff.2 (.old old other))
  · obtain ⟨u, mem⟩ := exists_recursive recursive
    rw [List.mem_singleton.1 ha]
    exact lhs_mem_vars (mem_turnRight_iff.2 (.auxLast mem))

include isVar fresh new notVar in
theorem Unfolding.productive_turnRight {a : Symbol}
    (productive : ∀ s, (s ∈ auxs ∨ ∃ q ∈ base, s ∈ q.rhs) →
      ∃ w, Spells ps (vars.insertMany auxs) [s] w)
    (recursive : ps'.recursiveOf v ≠ []) (ha : a ∈ auxs ++ [aux]) :
    ∃ w, Spells (ps'.turnRight v aux) (vars.insertMany (auxs ++ [aux])) [a] w := by
  rcases List.mem_append.1 ha with ha | ha
  · obtain ⟨w, spelled⟩ := productive a (.inl ha)
    refine ⟨w, (h.spells_turnRight_iff isVar fresh new notVar ?_).2 spelled⟩
    rw [List.mem_singleton]
    rintro rfl
    exact new ha
  · obtain ⟨u, mem⟩ := exists_recursive recursive
    have tail {s : Symbol} (hs : s ∈ u) : s ∈ v :: u := List.mem_cons_of_mem v hs
    have unused : ¬ aux ∈ u := fun hs => ne_of_not_mem_symbols fresh mem (tail hs) rfl
    -- the tail was productive before the turn, and the turn does not touch it
    have ⟨w, reads⟩ : ∃ w, Reads (fun s w => Spells ps (vars.insertMany auxs) [s] w) u w :=
      exists_reads fun s hs => productive s (h.madeOf.rhs _ mem s (tail hs))
    have spelled := (h.spells_turnRight_iff isVar fresh new notVar unused).2
      (spells_iff_reads.2 reads)
    rw [List.mem_singleton.1 ha]
    exact ⟨w, .of_mem (mem_turnRight_iff.2 (.auxLast mem)) spelled⟩

end Turn

end Productions

end ContextFree
