import ContextFree.Proofs.Equivalence
import ContextFree.Proofs.StartIsolation

/-!
This module contains that it makes no difference whether a grammar is read backwards before or after
it is transformed. Pruning and isolating the start variable do not look at the order of symbols, so
that the results are the same down to the order of productions. Removing erasing productions lists
what is left of a right-hand side in an order that follows its symbols, so that there the productions
are the same in another order.
-/

namespace ContextFree

namespace Productions

variable {nullable pure : OrderedSet Symbol} {words words' : Symbol → List Symbol → Prop}
  {u v w : List Symbol}

theorem Reads.reverse (h : Reads words u w)
    (mirror : ∀ s v, words s v → words' s v.reverse) : Reads words' u.reverse w.reverse := by
  induction h with
  | nil => exact .nil
  | cons head _ ih =>
    rw [List.reverse_cons, List.reverse_append]
    exact ih.append (reads_singleton_iff.2 (mirror _ _ head))

/--
What is left of a symbol when nullable symbols are dropped: the symbol itself or nothing.
-/
def Left (nullable pure : OrderedSet Symbol) (s : Symbol) (w : List Symbol) : Prop :=
  (s ∈ pure ∨ s ∈ nullable) ∧ w = [] ∨ ¬ s ∈ pure ∧ w = [s]

theorem mem_dropNullable_iff_reads :
    v ∈ dropNullable nullable pure u ↔ Reads (Left nullable pure) u v := by
  induction u generalizing v with
  | nil => rw [mem_dropNullable_nil, reads_nil_iff]
  | cons s u ih =>
    rw [mem_dropNullable_cons, reads_cons_iff]
    constructor
    · rintro (⟨erasable, dropped⟩ | ⟨notPure, x, kept, rfl⟩)
      · exact ⟨[], v, rfl, .inl ⟨erasable, rfl⟩, ih.1 dropped⟩
      · exact ⟨[s], x, rfl, .inr ⟨notPure, rfl⟩, ih.1 kept⟩
    · rintro ⟨_, x, rfl, ⟨erasable, rfl⟩ | ⟨notPure, rfl⟩, rest⟩
      · exact .inl ⟨erasable, ih.2 rest⟩
      · exact .inr ⟨notPure, x, ih.2 rest, rfl⟩

theorem reverse_mem_dropNullable (h : v ∈ dropNullable nullable pure u) :
    v.reverse ∈ dropNullable nullable pure u.reverse := by
  rw [mem_dropNullable_iff_reads] at h ⊢
  apply h.reverse
  rintro s w (⟨erasable, rfl⟩ | ⟨notPure, rfl⟩)
  · exact .inl ⟨erasable, rfl⟩
  · exact .inr ⟨notPure, rfl⟩

end Productions

namespace Grammar

open Productions

variable {g r s : Grammar} {v : Symbol} {p : Production}

theorem reverse_mem_iff : p.reverse ∈ g.reverse.productions ↔ p ∈ g.productions := by
  rw [mem_reverse_iff, Production.reverse_reverse]

theorem vars_reverse (g : Grammar) : g.reverse.vars ≈ g.vars :=
  fun _ => mem_vars_reverse_iff

theorem mem_symbols_reverse (h : v ∈ g.symbols) : v ∈ g.reverse.symbols := by
  obtain ⟨p, mem, occurs⟩ := mem_symbols.1 h
  exact mem_symbols.2 ⟨p.reverse, reverse_mem_iff.2 mem, occurs.imp_right List.mem_reverse.2⟩

/--
What holds of the mirror image of every grammar of which it holds is the same for both.
-/
theorem reverse_iff {motive : Grammar → Prop} (mirror : ∀ g, motive g → motive g.reverse) :
    motive g.reverse ↔ motive g := by
  constructor
  · intro h
    have twice := mirror _ h
    rw [reverse_reverse] at twice
    exact twice
  · exact mirror g

theorem symbols_reverse (g : Grammar) : g.reverse.symbols ≈ g.symbols := fun v =>
  reverse_iff (motive := (v ∈ ·.symbols)) fun _ => mem_symbols_reverse

theorem terminals_reverse (g : Grammar) : g.reverse.terminals ≈ g.terminals := by
  intro v
  simp only [terminals, mem_terminals]
  exact and_congr (symbols_reverse g v) (not_congr (vars_reverse g v))

theorem occursInRhs_reverse (g : Grammar) (v : Symbol) :
    g.reverse.occursInRhs v = g.occursInRhs v := by
  rw [Bool.eq_iff_iff]
  apply reverse_iff (motive := (·.occursInRhs v = true))
  intro g occurs
  obtain ⟨p, mem, inside⟩ := occursInRhs_iff.1 occurs
  exact occursInRhs_iff.2 ⟨p.reverse, reverse_mem_iff.2 mem, List.mem_reverse.2 inside⟩

theorem nullable_reverse (g : Grammar) : g.reverse.nullable ≈ g.nullable := by
  intro v
  apply reverse_iff (motive := (v ∈ ·.nullable))
  intro g isNullable
  have spelled : g.productions.Spells ∅ [v] [] := spells_nil_of_mem_nullable isNullable
  exact mem_nullable_iff_spells.2 (spells_reverse_of_spells spelled)

theorem purelyNullable_reverse (g : Grammar) :
    g.reverse.productions.purelyNullable ≈ g.productions.purelyNullable := by
  intro v
  apply reverse_iff (motive := (v ∈ ·.productions.purelyNullable))
  intro g pure
  have nullable : ∀ t, t ∈ g.productions.purelyNullable → t ∈ g.reverse.nullable := by
    intro t pure
    exact (nullable_reverse g t).2 (mem_nullable_of_mem_purelyNullable pure)
  have closed : ∀ t, t ∈ g.productions.purelyNullable → ∀ p ∈ g.reverse.productions, p.lhs = t →
      ∀ s ∈ p.rhs, s ∈ g.productions.purelyNullable := by
    rintro _ pure p mem rfl s occurs
    exact mem_purelyNullable_of_mem_rhs (mem_reverse_iff.1 mem) pure (List.mem_reverse.2 occurs)
  exact mem_purelyNullable_of_closed nullable closed pure

theorem needs_reverse (g : Grammar) (v s : Symbol) :
    g.reverse.productions.Needs v s ↔ g.productions.Needs v s := by
  apply reverse_iff (motive := (·.productions.Needs v s))
  intro g needed
  apply needs_of_needs_reverse
  rw [reverse_reverse]
  exact needed

theorem toList_useful_reverse (g : Grammar) :
    g.reverse.useful.toList = g.useful.toList.map Production.reverse := by
  simp only [useful, OrderedSet.toList_filter, toList_reverse, start_reverse, List.filter_map]
  refine congrArg (List.map _) (List.filter_congr fun p _ => ?_)
  have needed : p.lhs ∈ g.reverse.productions.reachable g.start ↔
      p.lhs ∈ g.productions.reachable g.start := by
    rw [mem_reachable_iff, mem_reachable_iff, needs_reverse]
  exact decide_eq_decide.2 (and_congr needed (by rw [isSelfLoop_reverse]))

theorem reverse_useful (g : Grammar) :
    reverse ⟨g.start, g.useful⟩ = ⟨g.start, g.reverse.useful⟩ := by
  refine ext_toList rfl ?_
  rw [toList_reverse, toList_useful_reverse]

theorem prune_reverse (h : g.prune = .ok r) : g.reverse.prune = .ok r.reverse := by
  obtain ⟨rfl, checked⟩ := prune_eq_ok_iff.1 h
  refine prune_eq_ok_iff.2 ⟨reverse_useful g, fun v isVar terminal => ?_⟩
  exact checked v ((vars_reverse g v).1 isVar) ((terminals_reverse _ v).1 terminal)

theorem prune_reverse_eq_ok_iff :
    g.reverse.prune = .ok s ↔ ∃ r, g.prune = .ok r ∧ s = r.reverse := by
  constructor
  · intro h
    have twice := prune_reverse h
    rw [reverse_reverse] at twice
    exact ⟨s.reverse, twice, (reverse_reverse s).symm⟩
  · rintro ⟨r, h, rfl⟩
    exact prune_reverse h

theorem freshStart_reverse (g : Grammar) : g.reverse.freshStart = g.freshStart :=
  Symbol.fresh_congr (symbols_reverse g) g.start

theorem withFreshStart_reverse (g : Grammar) :
    g.reverse.withFreshStart = g.withFreshStart.reverse := by
  have start : g.reverse.withFreshStart.start = g.withFreshStart.start := freshStart_reverse g
  refine ext_toList start ?_
  rw [toList_withFreshStart, toList_reverse, toList_reverse, toList_withFreshStart,
    List.map_append, start]
  rfl

theorem isolateStart_reverse (h : g.isolateStart = .ok r) :
    g.reverse.isolateStart = .ok r.reverse := by
  rw [isolateStart_eq] at h ⊢
  cases h
  rw [start_reverse, occursInRhs_reverse, withFreshStart_reverse]
  split
  · rfl
  · rfl

theorem startErasedInside_reverse (g : Grammar) :
    g.reverse.startErasedInside = g.startErasedInside := by
  rw [Bool.eq_iff_iff, startErasedInside_iff, startErasedInside_iff, start_reverse,
    occursInRhs_reverse]
  exact and_congr_left fun _ => nullable_reverse g g.start

theorem withErasableStart_reverse (g : Grammar) :
    g.reverse.withErasableStart ≈ g.withErasableStart.reverse := by
  refine equiv_iff.2 ⟨freshStart_reverse g, fun p => ?_⟩
  rw [mem_reverse_iff, mem_withErasableStart, mem_withErasableStart, mem_reverse_iff,
    freshStart_reverse, start_reverse, Production.reverse_eq_iff, Production.reverse_eq_iff]
  rfl

theorem isolateErasableStart_reverse (g : Grammar) :
    g.reverse.isolateErasableStart ≈ g.isolateErasableStart.reverse := by
  unfold isolateErasableStart
  rw [startErasedInside_reverse]
  split
  · exact withErasableStart_reverse g
  · exact Setoid.refl _

theorem reverse_mem_dropped (mem : p ∈ g.dropped.productions) :
    p.reverse ∈ g.reverse.dropped.productions := by
  obtain ⟨q, hq, lhs, remains, kept⟩ := mem_eraseNullable.1 mem
  refine mem_eraseNullable.2 ⟨q.reverse, reverse_mem_iff.2 hq, lhs, ?_, ?_⟩
  · have nullable : g.reverse.productions.nullable ≈ g.productions.nullable := nullable_reverse g
    rw [dropNullable_congr nullable (purelyNullable_reverse g)]
    exact reverse_mem_dropNullable remains
  · exact kept.imp_left fun notEmpty empty => notEmpty (List.reverse_eq_nil_iff.1 empty)

theorem dropped_reverse (g : Grammar) : g.reverse.dropped ≈ g.dropped.reverse := by
  refine equiv_iff.2 ⟨rfl, fun p => ?_⟩
  rw [mem_reverse_iff]
  constructor
  · intro mem
    have twice := reverse_mem_dropped mem
    rw [reverse_reverse] at twice
    exact twice
  · intro mem
    have twice := reverse_mem_dropped mem
    rw [Production.reverse_reverse] at twice
    exact twice

theorem eraseNullable_reverse (keeps : g.productions.KeepsStart g.start)
    (h : g.eraseNullable = .ok r) : ∃ s, g.reverse.eraseNullable = .ok s ∧ s ≈ r.reverse := by
  have keeps' : g.reverse.productions.KeepsStart g.reverse.start := by
    intro p mem occurs isNullable
    have isNullable := (nullable_reverse g g.start).1 isNullable
    exact keeps p.reverse (mem_reverse_iff.1 mem) (List.mem_reverse.2 occurs) isNullable
  have same : g.reverse.productions.ErasesOnly g.reverse.start ↔ g.productions.ErasesOnly g.start :=
    forall_congr' fun v => imp_congr_left (nullable_reverse g v)
  by_cases only : g.productions.ErasesOnly g.start
  · rw [eraseNullable_of_erasesOnly only] at h
    cases h
    exact ⟨g.reverse, eraseNullable_of_erasesOnly (same.2 only), Setoid.refl _⟩
  · obtain ⟨rfl, checked⟩ := (eraseNullable_eq_ok_iff keeps only).1 h
    have useful : Grammar.mk g.start g.reverse.dropped.useful ≈
        reverse ⟨g.start, g.dropped.useful⟩ := by
      rw [show reverse ⟨g.start, g.dropped.useful⟩ = ⟨g.start, g.dropped.reverse.useful⟩ from
        reverse_useful g.dropped]
      exact equiv_iff.2 ⟨rfl, useful_congr (dropped_reverse g)⟩
    refine ⟨_, (eraseNullable_eq_ok_iff keeps' (mt same.1 only)).2 ⟨rfl, ?_⟩, useful⟩
    intro v isVar terminal
    apply checked v ((vars_reverse g v).1 isVar)
    exact (terminals_reverse _ v).1 ((terminals_congr (equiv_iff.1 useful).2 v).1 terminal)

theorem removeEpsilon_reverse (h : g.removeEpsilon = .ok r) :
    ∃ s, g.reverse.removeEpsilon = .ok s ∧ s ≈ r.reverse := by
  -- equivalent grammars are enough here, as the order of productions makes no difference to the rest
  obtain ⟨s, erased, same⟩ := eraseNullable_reverse keepsStart_isolateErasableStart h
  have agree := eraseNullable_congr (Setoid.symm (isolateErasableStart_reverse g))
  obtain ⟨t, erased', same'⟩ := agree.exists_ok erased
  exact ⟨t, erased', Setoid.trans (Setoid.symm same') same⟩

/--
Reading a grammar backwards commutes with removing erasing productions, down to the name of a new
start variable and up to the order of productions, and with pruning it and isolating its start
variable exactly. All three succeed on a grammar just if they do on its mirror image.
-/
theorem transformations_mirror (g : Grammar) :
    (∀ r, g.removeEpsilon = .ok r → ∃ s, g.reverse.removeEpsilon = .ok s ∧ s ≈ r.reverse) ∧
      (∀ s, g.reverse.removeEpsilon = .ok s → ∃ r, g.removeEpsilon = .ok r ∧ s ≈ r.reverse) ∧
      (∀ s, g.reverse.prune = .ok s ↔ ∃ r, g.prune = .ok r ∧ s = r.reverse) ∧
      ∃ r, g.isolateStart = .ok r ∧ g.reverse.isolateStart = .ok r.reverse := by
  refine ⟨fun r => removeEpsilon_reverse, fun s h => ?_, fun s => prune_reverse_eq_ok_iff,
    _, isolateStart_eq, isolateStart_reverse isolateStart_eq⟩
  obtain ⟨r, erased, same⟩ := removeEpsilon_reverse h
  rw [reverse_reverse] at erased
  refine ⟨r, erased, ?_⟩
  have twice := reverse_congr (Setoid.symm same)
  rw [reverse_reverse] at twice
  exact twice

/--
A grammar whose start variable is erased inside words, and that is not its own mirror image.
-/
def lopsided : Grammar :=
  ofProductions ⟨"S"⟩
    [.ofNames "S" ["a", "S", "A"], .ofNames "S" [], .ofNames "A" ["b", "c"], .ofNames "A" []]

def erasedLopsided : Grammar :=
  ofProductions ⟨"S2"⟩
    [.ofNames "S" ["a", "S", "A"], .ofNames "S" ["a", "S"], .ofNames "S" ["a", "A"],
      .ofNames "S" ["a"], .ofNames "A" ["b", "c"], .ofNames "S2" ["S"], .ofNames "S2" []]

set_option maxRecDepth 4000 in
theorem transformations_mirror_lopsided :
    lopsided.removeEpsilon = .ok erasedLopsided ∧
      (∃ s, lopsided.reverse.removeEpsilon = .ok s ∧ s ≈ erasedLopsided.reverse) ∧
      lopsided.prune = .ok lopsided ∧ lopsided.reverse.prune = .ok lopsided.reverse := by
  obtain ⟨erasing, _, pruning, _⟩ := transformations_mirror lopsided
  have erased : lopsided.removeEpsilon = .ok erasedLopsided := by rfl
  have pruned : lopsided.prune = .ok lopsided := by rfl
  exact ⟨erased, erasing _ erased, pruned, (pruning _).2 ⟨_, pruned, rfl⟩⟩

end Grammar

end ContextFree
