import ContextFree.Grammar.LeftRecursion
import ContextFree.Proofs.Spelling

/-!
This module contains what turning direct left recursion to the right does to words. A word of `v` is
one of its other right-hand sides followed by any number of words of the tails of the recursive ones.
The auxiliary variable stands for one or more of these, so that every variable but the auxiliary one
keeps its words.
-/

namespace ContextFree

namespace Productions

variable {ps : Productions} {vars : OrderedSet Symbol} {u w x y : List Symbol} {s v aux : Symbol}
  {p q : Production}

@[simp]
theorem mem_withoutSelfLoops : p ∈ ps.withoutSelfLoops v ↔ p ∈ ps ∧ ¬ (p.lhs = v ∧ p.rhs = [v]) := by
  simp only [withoutSelfLoops, OrderedSet.mem_filter, decide_eq_true_eq, Production.isSelfLoop_iff]
  refine and_congr_right fun _ => not_congr (and_congr_right fun lhs => ?_)
  rw [lhs]

@[simp]
theorem mem_recursiveOf : p ∈ ps.recursiveOf v ↔ p ∈ ps ∧ p.lhs = v ∧ p.first? = some v := by
  simp [recursiveOf, and_assoc]

@[simp]
theorem mem_otherOf : p ∈ ps.otherOf v ↔ p ∈ ps ∧ p.lhs = v ∧ p.first? ≠ some v := by
  simp [otherOf, and_assoc]

theorem spells_withoutSelfLoops_iff :
    Spells (ps.withoutSelfLoops v) vars u w ↔ Spells ps vars u w := by
  constructor
  · intro h
    exact h.mono fun p mem => (mem_withoutSelfLoops.1 mem).1
  · intro h
    apply h.of_closed (fun _ => .singleton)
    intro p mem w inner
    by_cases loop : p.lhs = v ∧ p.rhs = [v]
    · rw [loop.2] at inner
      rw [loop.1]
      exact inner
    · exact .of_mem (mem_withoutSelfLoops.2 ⟨mem, loop⟩) inner

/--
The productions after the turn: those of other variables, those of `v` that do not start with `v`,
and those of the auxiliary variable.
-/
inductive Turned (ps : Productions) (v aux : Symbol) : Production → Prop where
  | old {p : Production} (mem : p ∈ ps) (other : p.lhs ≠ v) : Turned ps v aux p
  | last {u : List Symbol} (mem : ⟨v, u⟩ ∈ ps) (ends : u.head? ≠ some v) :
    Turned ps v aux ⟨v, u⟩
  | first {u : List Symbol} (mem : ⟨v, u⟩ ∈ ps) (ends : u.head? ≠ some v) :
    Turned ps v aux ⟨v, u ++ [aux]⟩
  | auxLast {u : List Symbol} (mem : ⟨v, v :: u⟩ ∈ ps) : Turned ps v aux ⟨aux, u⟩
  | auxNext {u : List Symbol} (mem : ⟨v, v :: u⟩ ∈ ps) : Turned ps v aux ⟨aux, u ++ [aux]⟩

@[simp]
theorem mem_bothWays {word : List Symbol} :
    p ∈ bothWays v aux word ↔ p = ⟨v, word⟩ ∨ p = ⟨v, word ++ [aux]⟩ := by
  simp [bothWays]

theorem mem_turnRight_iff : q ∈ ps.turnRight v aux ↔ Turned ps v aux q := by
  simp only [turnRight, OrderedSet.mem_insertMany, OrderedSet.mem_filter, decide_eq_true_eq,
    List.mem_append, List.mem_flatMap, mem_otherOf, mem_recursiveOf, mem_bothWays]
  constructor
  · rintro (⟨mem, other⟩ | ⟨⟨lhs, rhs⟩, ⟨mem, rfl, ends⟩, rfl | rfl⟩ |
      ⟨⟨lhs, rhs⟩, ⟨mem, rfl, starts⟩, h⟩)
    · exact .old mem other
    · exact .last mem ends
    · exact .first mem ends
    · cases rhs with
      | nil => cases starts
      | cons t rest =>
        obtain rfl := Option.some.inj starts
        rcases h with rfl | rfl
        · exact .auxLast mem
        · exact .auxNext mem
  · intro h
    cases h with
    | old mem other => exact .inl ⟨mem, other⟩
    | last mem ends => exact .inr (.inl ⟨_, ⟨mem, rfl, ends⟩, .inl rfl⟩)
    | first mem ends => exact .inr (.inl ⟨_, ⟨mem, rfl, ends⟩, .inr rfl⟩)
    | auxLast mem => exact .inr (.inr ⟨_, ⟨mem, rfl, rfl⟩, .inl rfl⟩)
    | auxNext mem => exact .inr (.inr ⟨_, ⟨mem, rfl, rfl⟩, .inr rfl⟩)

theorem Turned.rhs_ne_nil (turned : Turned ps v aux q) (nonempty : ∀ p ∈ ps, p.rhs ≠ [])
    (proper : ∀ p ∈ ps, ¬ (p.lhs = v ∧ p.rhs = [v])) : q.rhs ≠ [] := by
  cases turned with
  | old mem => exact nonempty q mem
  | last mem => exact nonempty _ mem
  | first | auxNext => exact List.append_ne_nil_of_right_ne_nil _ (List.cons_ne_nil aux [])
  | auxLast mem =>
    -- an empty tail would be that of a production that replaces the variable by itself
    rintro rfl
    exact proper _ mem ⟨rfl, rfl⟩

/--
The words of a symbol as they were before the turn. The auxiliary variable, which was none of the
symbols then, has the words that may follow one of `v`.
-/
structure WordsBefore (ps : Productions) (vars : OrderedSet Symbol) (v aux s : Symbol)
    (w : List Symbol) : Prop where
  old : s ≠ aux → Spells ps vars [s] w
  following : s = aux → ∀ x, Spells ps vars [v] x → Spells ps vars [v] (x ++ w)

theorem Reads.spells_before (h : Reads (WordsBefore ps vars v aux) u w) (unused : ¬ aux ∈ u) :
    Spells ps vars u w := by
  refine .of_reads h ?_
  intro s hs w before
  apply before.old
  rintro rfl
  exact unused hs

section Turn

variable (fresh : ¬ aux ∈ ps.symbols) (isVar : v ∈ vars) (notVar : ¬ aux ∈ vars)

include fresh in
theorem not_mem_of_fresh (mem : p ∈ ps) : p.lhs ≠ aux ∧ ¬ aux ∈ p.rhs := by
  constructor
  · rintro rfl
    exact fresh (lhs_mem_symbols mem)
  · intro occurs
    exact fresh (rhs_mem_symbols mem occurs)

include fresh isVar notVar

theorem Turned.wordsBefore (turned : Turned ps v aux q)
    (inner : Reads (WordsBefore ps vars v aux) q.rhs w) : WordsBefore ps vars v aux q.lhs w := by
  have ne : v ≠ aux := by
    rintro rfl
    exact notVar isVar
  cases turned with
  | old mem other =>
    have unused := not_mem_of_fresh fresh mem
    refine ⟨fun _ => .of_mem mem (inner.spells_before unused.2), ?_⟩
    intro same
    exact absurd same unused.1
  | last mem ends =>
    have unused := not_mem_of_fresh fresh mem
    refine ⟨fun _ => .of_mem mem (inner.spells_before unused.2), ?_⟩
    intro same
    exact absurd same ne
  | first mem ends =>
    have unused := not_mem_of_fresh fresh mem
    obtain ⟨x, y, rfl, left, right⟩ := reads_append_iff.1 inner
    refine ⟨fun _ => ?_, fun same => absurd same ne⟩
    have start : Spells ps vars [v] x := .of_mem mem (left.spells_before unused.2)
    exact (reads_singleton_iff.1 right).following rfl x start
  | @auxLast u mem =>
    have unused : ¬ aux ∈ u := fun h =>
      (not_mem_of_fresh fresh mem).2 (List.mem_cons_of_mem v h)
    refine ⟨fun ne => absurd rfl ne, fun _ x start => ?_⟩
    exact .of_mem mem (start.append (inner.spells_before unused))
  | @auxNext u mem =>
    have unused : ¬ aux ∈ u := fun h =>
      (not_mem_of_fresh fresh mem).2 (List.mem_cons_of_mem v h)
    obtain ⟨y, z, rfl, left, right⟩ := reads_append_iff.1 inner
    refine ⟨fun ne => absurd rfl ne, fun _ x start => ?_⟩
    have next : Spells ps vars [v] (x ++ y) :=
      .of_mem mem (start.append (left.spells_before unused))
    rw [← List.append_assoc]
    exact (reads_singleton_iff.1 right).following rfl (x ++ y) next

theorem Spells.of_turnRight (h : Spells (ps.turnRight v aux) (vars.insert aux) u w)
    (form : ¬ aux ∈ u) : Spells ps vars u w := by
  have reads : Reads (WordsBefore ps vars v aux) u w := by
    apply h.reads
    · intro s terminal
      rw [OrderedSet.mem_insert, not_or] at terminal
      exact ⟨fun _ => .singleton terminal.1, fun same => absurd same terminal.2⟩
    · intro q mem w inner
      exact (mem_turnRight_iff.1 mem).wordsBefore fresh isVar notVar inner
  exact reads.spells_before form

omit isVar notVar in
theorem Spells.aux_append (ne : v ≠ aux) (isAux : aux ∈ vars)
    (h : Spells (ps.turnRight v aux) vars [aux] w) (mem : ⟨v, v :: u⟩ ∈ ps)
    (tail : Spells (ps.turnRight v aux) vars u y) :
    Spells (ps.turnRight v aux) vars [aux] (w ++ y) := by
  have last : Spells (ps.turnRight v aux) vars [aux] y :=
    .of_mem (mem_turnRight_iff.2 (.auxLast mem)) tail
  -- the tail is appended at the innermost auxiliary variable, where the derivation ends
  have reads : Reads (fun s w => Spells (ps.turnRight v aux) vars [s] w ∧
      (s = aux → Spells (ps.turnRight v aux) vars [aux] (w ++ y))) [aux] w := by
    apply h.reads
    · intro s terminal
      refine ⟨.singleton terminal, ?_⟩
      rintro rfl
      exact absurd isAux terminal
    · intro q turned w inner
      have spelled : Spells (ps.turnRight v aux) vars q.rhs w := .of_reads inner fun s _ v h => h.1
      refine ⟨.of_mem turned spelled, fun lhs => ?_⟩
      cases mem_turnRight_iff.1 turned with
      | old old other => exact absurd lhs (not_mem_of_fresh fresh old).1
      | last => exact absurd lhs ne
      | first => exact absurd lhs ne
      | auxLast old => exact .of_mem (mem_turnRight_iff.2 (.auxNext old)) (spelled.append last)
      | auxNext old =>
        obtain ⟨x, z, rfl, left, right⟩ := reads_append_iff.1 inner
        have left : Spells (ps.turnRight v aux) vars _ x := .of_reads left fun s _ v h => h.1
        rw [List.append_assoc]
        exact .of_mem turned (left.append ((reads_singleton_iff.1 right).2 rfl))
  exact (reads_singleton_iff.1 reads).2 rfl

omit isVar notVar in
theorem Spells.turned_append (ne : v ≠ aux) (isVar : v ∈ vars) (isAux : aux ∈ vars)
    (h : Spells (ps.turnRight v aux) vars [v] w) (mem : ⟨v, v :: u⟩ ∈ ps)
    (tail : Spells (ps.turnRight v aux) vars u y) :
    Spells (ps.turnRight v aux) vars [v] (w ++ y) := by
  have last : Spells (ps.turnRight v aux) vars [aux] y :=
    .of_mem (mem_turnRight_iff.2 (.auxLast mem)) tail
  obtain ⟨q, turned, lhs, spelled⟩ := (spells_var_iff isVar).1 h
  cases mem_turnRight_iff.1 turned with
  | old mem other => exact absurd lhs other
  | last mem ends => exact .of_mem (mem_turnRight_iff.2 (.first mem ends)) (spelled.append last)
  | first _ ends =>
    obtain ⟨x, z, rfl, left, right⟩ := spells_append_iff.1 spelled
    rw [List.append_assoc]
    exact .of_mem turned (left.append (right.aux_append fresh ne isAux mem tail))
  | auxLast => exact absurd lhs.symm ne
  | auxNext => exact absurd lhs.symm ne

theorem Spells.turnRight (h : Spells ps vars u w) (form : ¬ aux ∈ u) :
    Spells (ps.turnRight v aux) (vars.insert aux) u w := by
  have ne : v ≠ aux := by
    rintro rfl
    exact notVar isVar
  have isVar' : v ∈ vars.insert aux := OrderedSet.mem_insert.2 (.inl isVar)
  have isAux : aux ∈ vars.insert aux := OrderedSet.mem_insert.2 (.inr rfl)
  have unchanged {u : List Symbol} (unused : ¬ aux ∈ u) :
      ∀ s ∈ u, s ∈ vars.insert aux → s ∈ vars := by
    intro s hs isVar
    apply (OrderedSet.mem_insert.1 isVar).resolve_right
    rintro rfl
    exact unused hs
  have renamed : Spells ps (vars.insert aux) u w :=
    h.change_vars (unchanged form) fun p mem => unchanged (not_mem_of_fresh fresh mem).2
  apply renamed.of_closed (fun _ => .singleton)
  rintro ⟨lhs, rhs⟩ mem w inner
  by_cases other : lhs = v
  · subst other
    by_cases ends : rhs.head? = some lhs
    · obtain ⟨rest, rfl⟩ := List.head?_eq_some_iff.1 ends
      obtain ⟨x, y, rfl, left, right⟩ := spells_cons_iff.1 inner
      exact left.turned_append fresh ne isVar' isAux mem right
    · exact .of_mem (mem_turnRight_iff.2 (.last mem ends)) inner
  · exact .of_mem (mem_turnRight_iff.2 (.old mem other)) inner

/--
Turning direct left recursion to the right keeps the words of all symbols but the auxiliary one.
-/
theorem spells_turnRight_iff (form : ¬ aux ∈ u) :
    Spells (ps.turnRight v aux) (vars.insert aux) u w ↔ Spells ps vars u w := by
  constructor
  · intro h
    exact h.of_turnRight fresh isVar notVar form
  · intro h
    exact h.turnRight fresh isVar notVar form

end Turn

end Productions

end ContextFree
