import ContextFree.Proofs.EpsilonRemoval
import ContextFree.Proofs.Grouping
import ContextFree.Proofs.Reversal

/-!
This module contains that the order of productions makes no difference: to the sets of symbols of a
grammar, to what is recognized about it, and, up to the order of productions again, to what pruning,
isolating the start variable, removing erasing productions and reading backwards make of it.
-/

namespace ContextFree

namespace Symbol

theorem fresh_congr {used used' : OrderedSet Symbol} (same : used ≈ used') (base : Symbol) :
    fresh used base = fresh used' base := by
  have mem (s : Symbol) : s ∈ used ↔ s ∈ used' := same s
  simp only [fresh, mem, OrderedSet.size_eq_of_equiv same]

end Symbol

namespace Productions

variable {ps qs : Productions} {nullable nullable' pure pure' : OrderedSet Symbol}
  {start v s : Symbol}

theorem symbols_congr (same : ps ≈ qs) : ps.symbols ≈ qs.symbols := fun _ =>
  ⟨mem_symbols_mono fun p => (same p).1, mem_symbols_mono fun p => (same p).2⟩

theorem vars_congr (same : ps ≈ qs) : ps.vars ≈ qs.vars := fun _ =>
  ⟨mem_vars_mono fun p => (same p).1, mem_vars_mono fun p => (same p).2⟩

theorem terminals_congr (same : ps ≈ qs) : ps.terminals ≈ qs.terminals := by
  intro s
  rw [mem_terminals, mem_terminals]
  exact and_congr (symbols_congr same s) (not_congr (vars_congr same s))

theorem occursInRhs_congr (same : ps ≈ qs) (s : Symbol) :
    ps.occursInRhs s = qs.occursInRhs s := by
  rw [Bool.eq_iff_iff, occursInRhs_iff, occursInRhs_iff]
  exact exists_congr fun p => and_congr_left fun _ => same p

theorem needs_congr (same : ps ≈ qs) : ps.Needs v s ↔ qs.Needs v s :=
  ⟨fun h => h.mono fun p => (same p).1, fun h => h.mono fun p => (same p).2⟩

theorem nullable_congr (same : ps ≈ qs) : ps.nullable ≈ qs.nullable := fun _ =>
  ⟨mem_nullable_mono fun p => (same p).1, mem_nullable_mono fun p => (same p).2⟩

theorem mem_purelyNullable_of_equiv (same : ps ≈ qs) (h : v ∈ ps.purelyNullable) :
    v ∈ qs.purelyNullable := by
  have isNullable : ∀ t, t ∈ ps.purelyNullable → t ∈ qs.nullable := by
    intro t pure
    exact (nullable_congr same t).1 (mem_nullable_of_mem_purelyNullable pure)
  have closed : ∀ t, t ∈ ps.purelyNullable → ∀ p ∈ qs, p.lhs = t →
      ∀ s ∈ p.rhs, s ∈ ps.purelyNullable := by
    rintro _ pure p mem rfl s occurs
    exact mem_purelyNullable_of_mem_rhs ((same p).2 mem) pure occurs
  exact mem_purelyNullable_of_closed isNullable closed h

theorem purelyNullable_congr (same : ps ≈ qs) : ps.purelyNullable ≈ qs.purelyNullable := fun _ =>
  ⟨mem_purelyNullable_of_equiv same, mem_purelyNullable_of_equiv (Setoid.symm same)⟩

theorem dropNullable_congr (nulls : nullable ≈ nullable') (pures : pure ≈ pure')
    (u : List Symbol) : dropNullable nullable pure u = dropNullable nullable' pure' u := by
  have isNullable (s : Symbol) : s ∈ nullable ↔ s ∈ nullable' := nulls s
  have isPure (s : Symbol) : s ∈ pure ↔ s ∈ pure' := pures s
  induction u with
  | nil => rfl
  | cons s u ih => simp only [dropNullable, ih, isNullable, isPure]

theorem eraseNullable_congr (same : ps ≈ qs) (start : Symbol) :
    ps.eraseNullable start ≈ qs.eraseNullable start := by
  intro q
  rw [mem_eraseNullable, mem_eraseNullable]
  refine exists_congr fun p => and_congr (same p) (and_congr_right fun _ => ?_)
  rw [dropNullable_congr (nullable_congr same) (purelyNullable_congr same)]

theorem erasesOnly_congr (same : ps ≈ qs) : ps.ErasesOnly start ↔ qs.ErasesOnly start :=
  forall_congr' fun v => imp_congr_left (nullable_congr same v)

theorem eraseRounds_congr (same : ps ≈ qs) (start : Symbol) (rounds : Nat) :
    ps.eraseRounds start rounds ≈ qs.eraseRounds start rounds := by
  induction rounds generalizing ps qs with
  | zero => exact same
  | succ rounds ih =>
    simp only [eraseRounds, erasesOnly_congr same]
    split
    · exact same
    · exact ih (eraseNullable_congr same start)

theorem isLeftRecursive_congr (same : ps ≈ qs) : ps.isLeftRecursive = qs.isLeftRecursive := by
  rw [← Bool.not_inj_iff, Bool.eq_iff_iff, Bool.not_eq_true', Bool.not_eq_true']
  exact ⟨fun straight => isLeftRecursive_eq_false_mono straight fun p => (same p).2,
    fun straight => isLeftRecursive_eq_false_mono straight fun p => (same p).1⟩

end Productions

namespace Grammar

/--
Both runs lead to equivalent results, or both fail, whatever the cause of either is.
-/
inductive Agree {α : Type} [Setoid α] :
    Except GrammarError α → Except GrammarError α → Prop where
  | ok {a b : α} (same : a ≈ b) : Agree (.ok a) (.ok b)
  | error (e e' : GrammarError) : Agree (.error e) (.error e')

section Agree

variable {α : Type} [Setoid α] {x y : Except GrammarError α}

theorem Agree.of_forall (forward : ∀ a, x = .ok a → ∃ b, y = .ok b ∧ a ≈ b)
    (backward : ∀ b, y = .ok b → ∃ a, x = .ok a) : Agree x y := by
  cases x with
  | ok a =>
    obtain ⟨b, rfl, same⟩ := forward a rfl
    exact .ok same
  | error e =>
    cases y with
    | ok b =>
      obtain ⟨a, impossible⟩ := backward b rfl
      cases impossible
    | error e' => exact .error e e'

theorem Agree.exists_ok {a : α} (h : Agree x y) (ok : x = .ok a) : ∃ b, y = .ok b ∧ a ≈ b := by
  cases h with
  | ok same =>
    cases ok
    exact ⟨_, rfl, same⟩
  | error => cases ok

theorem Agree.bind {x y : Except GrammarError Grammar} {f f' : Grammar → Except GrammarError Grammar}
    (first : Agree x y) (next : ∀ a b, a ≈ b → Agree (f a) (f' b)) :
    Agree (x >>= f) (y >>= f') := by
  cases first with
  | ok same => exact next _ _ same
  | error e e' => exact .error e e'

end Agree

variable {g h source source' : Grammar}

theorem checkedAgainst_congr (same : g ≈ h) (sources : source.vars ≈ source'.vars) :
    Agree (g.checkedAgainst source) (h.checkedAgainst source') := by
  have terminals := Productions.terminals_congr (equiv_iff.1 same).2
  refine .of_forall ?_ ?_
  · intro r checked
    obtain ⟨rfl, kept⟩ := checkedAgainst_eq_ok_iff.1 checked
    refine ⟨h, checkedAgainst_eq_ok_iff.2 ⟨rfl, fun v isVar terminal => ?_⟩, same⟩
    exact kept v ((sources v).2 isVar) ((terminals v).2 terminal)
  · intro r checked
    obtain ⟨rfl, kept⟩ := checkedAgainst_eq_ok_iff.1 checked
    refine ⟨g, checkedAgainst_eq_ok_iff.2 ⟨rfl, fun v isVar terminal => ?_⟩⟩
    exact kept v ((sources v).1 isVar) ((terminals v).1 terminal)

theorem useful_congr (same : g ≈ h) : g.useful ≈ h.useful := by
  obtain ⟨start, productions⟩ := equiv_iff.1 same
  intro p
  rw [mem_useful, mem_useful, start]
  exact and_congr (productions p) (and_congr_left fun _ => Productions.needs_congr productions)

theorem prune_congr (same : g ≈ h) : Agree g.prune h.prune := by
  obtain ⟨start, productions⟩ := equiv_iff.1 same
  exact checkedAgainst_congr ⟨start, useful_congr same⟩ (Productions.vars_congr productions)

theorem freshStart_congr (same : g ≈ h) : g.freshStart = h.freshStart := by
  obtain ⟨start, productions⟩ := equiv_iff.1 same
  unfold freshStart
  rw [start]
  exact Symbol.fresh_congr (Productions.symbols_congr productions) h.start

theorem occursInRhs_start_congr (same : g ≈ h) :
    g.occursInRhs g.start = h.occursInRhs h.start := by
  obtain ⟨start, productions⟩ := equiv_iff.1 same
  rw [start]
  exact Productions.occursInRhs_congr productions h.start

theorem withFreshStart_congr (same : g ≈ h) : g.withFreshStart ≈ h.withFreshStart := by
  refine equiv_iff.2 ⟨freshStart_congr same, fun p => ?_⟩
  obtain ⟨start, productions⟩ := equiv_iff.1 same
  rw [mem_withFreshStart, mem_withFreshStart, freshStart_congr same, start]
  exact or_congr_left (productions p)

theorem isolateStart_congr (same : g ≈ h) : Agree g.isolateStart h.isolateStart := by
  rw [isolateStart_eq, isolateStart_eq, occursInRhs_start_congr same]
  split
  · exact .ok (withFreshStart_congr same)
  · exact .ok same

theorem withErasableStart_congr (same : g ≈ h) : g.withErasableStart ≈ h.withErasableStart := by
  refine equiv_iff.2 ⟨freshStart_congr same, fun p => ?_⟩
  obtain ⟨start, productions⟩ := equiv_iff.1 same
  rw [mem_withErasableStart, mem_withErasableStart, freshStart_congr same, start]
  exact or_congr_left (productions p)

theorem startErasedInside_congr (same : g ≈ h) :
    g.startErasedInside = h.startErasedInside := by
  obtain ⟨start, productions⟩ := equiv_iff.1 same
  rw [Bool.eq_iff_iff, startErasedInside_iff, startErasedInside_iff, occursInRhs_start_congr same,
    start]
  exact and_congr_left fun _ => Productions.nullable_congr productions h.start

theorem isolateErasableStart_congr (same : g ≈ h) :
    g.isolateErasableStart ≈ h.isolateErasableStart := by
  unfold isolateErasableStart
  rw [startErasedInside_congr same]
  split
  · exact withErasableStart_congr same
  · exact same

theorem eraseNullable_congr (same : g ≈ h) : Agree g.eraseNullable h.eraseNullable := by
  obtain ⟨start, productions⟩ := equiv_iff.1 same
  have rounds : g.nullable.size = h.nullable.size :=
    OrderedSet.size_eq_of_equiv (Productions.nullable_congr productions)
  unfold eraseNullable
  simp only [start, rounds, Productions.erasesOnly_congr productions]
  split
  · exact .ok same
  · have erased := Productions.eraseRounds_congr productions h.start h.nullable.size
    have pruned : Agree (prune ⟨h.start, g.productions.eraseRounds h.start h.nullable.size⟩)
        (prune ⟨h.start, h.productions.eraseRounds h.start h.nullable.size⟩) :=
      prune_congr (equiv_iff.2 ⟨rfl, erased⟩)
    exact pruned.bind fun a b same => checkedAgainst_congr same (Productions.vars_congr productions)

theorem removeEpsilon_congr (same : g ≈ h) : Agree g.removeEpsilon h.removeEpsilon :=
  eraseNullable_congr (isolateErasableStart_congr same)

theorem reverse_congr (same : g ≈ h) : g.reverse ≈ h.reverse := by
  obtain ⟨start, productions⟩ := equiv_iff.1 same
  refine equiv_iff.2 ⟨start, fun p => ?_⟩
  rw [mem_reverse_iff, mem_reverse_iff]
  exact productions p.reverse

theorem isGreibach_of_equiv (same : g ≈ h) (form : g.isGreibach = true) :
    h.isGreibach = true := by
  obtain ⟨start, productions⟩ := equiv_iff.1 same
  obtain ⟨inside, unlinked⟩ := isGreibach_iff.1 form
  rw [start] at inside
  refine isGreibach_iff.2 ⟨inside.mono fun p => (productions p).2, fun v w link => ?_⟩
  exact unlinked v w (link.mono fun p => (productions p).2)

theorem isGreibach_congr (same : g ≈ h) : g.isGreibach = h.isGreibach :=
  Bool.eq_iff_iff.2 ⟨isGreibach_of_equiv same, isGreibach_of_equiv (Setoid.symm same)⟩

theorem grouped_congr (same : g ≈ h) : g.grouped ≈ h.grouped := by
  obtain ⟨start, productions⟩ := equiv_iff.1 same
  have starts : g.grouped.start = h.grouped.start := by
    rw [start_grouped, start_grouped, start]
  refine ⟨starts, ?_, fun v => ?_, fun v w => ?_⟩
  · rw [Bool.eq_iff_iff, erasable_grouped, erasable_grouped]
    exact exists_congr fun p => and_congr_left fun _ => productions p
  · rw [mem_vars_grouped, mem_vars_grouped]
    exact exists_congr fun p => and_congr_left fun _ => productions p
  · rw [mem_wordsOf_grouped, mem_wordsOf_grouped]
    exact productions _

theorem greibachView_congr (same : g ≈ h) : Agree g.greibachView h.greibachView := by
  refine .of_forall ?_ ?_
  · intro view shown
    obtain ⟨rfl, form⟩ := greibachView_eq_ok_iff.1 shown
    have form := isGreibach_of_equiv same form
    exact ⟨_, greibachView_eq_ok_iff.2 ⟨rfl, form⟩, grouped_congr same⟩
  · intro view shown
    obtain ⟨rfl, form⟩ := greibachView_eq_ok_iff.1 shown
    have form := isGreibach_of_equiv (Setoid.symm same) form
    exact ⟨_, greibachView_eq_ok_iff.2 ⟨rfl, form⟩⟩

/--
What is known of one of the grammars is known of the other one, up to the order of what is listed.
-/
structure Alike (g h : Grammar) : Prop where
  prune : Agree g.prune h.prune
  isolateStart : Agree g.isolateStart h.isolateStart
  removeEpsilon : Agree g.removeEpsilon h.removeEpsilon
  reverse : g.reverse ≈ h.reverse
  isLeftRecursive : g.isLeftRecursive = h.isLeftRecursive
  isGreibach : g.isGreibach = h.isGreibach
  nullable : g.nullable ≈ h.nullable
  symbols : g.symbols ≈ h.symbols
  vars : g.vars ≈ h.vars
  terminals : g.terminals ≈ h.terminals
  greibachView : Agree g.greibachView h.greibachView

/--
On grammars that differ in the order of their productions only, these operations succeed or fail
together, and their results are the same but for the order.
-/
theorem alike_of_equiv (same : g ≈ h) : Alike g h := by
  have productions := (equiv_iff.1 same).2
  exact {
    prune := prune_congr same
    isolateStart := isolateStart_congr same
    removeEpsilon := removeEpsilon_congr same
    reverse := reverse_congr same
    isLeftRecursive := Productions.isLeftRecursive_congr productions
    isGreibach := isGreibach_congr same
    nullable := Productions.nullable_congr productions
    symbols := Productions.symbols_congr productions
    vars := Productions.vars_congr productions
    terminals := Productions.terminals_congr productions
    greibachView := greibachView_congr same
  }

/--
The words of matching brackets, with the productions in another order.
-/
def shuffledBrackets : Grammar :=
  ofProductions ⟨"S"⟩ [.ofNames "S" [], .ofNames "S" ["(", "S", ")"], .ofNames "S" ["S", "S"]]

theorem alike_brackets :
    brackets ≈ shuffledBrackets ∧ brackets ≠ shuffledBrackets ∧ Alike brackets shuffledBrackets := by
  have same : brackets ≈ shuffledBrackets := by decide
  exact ⟨same, by decide, alike_of_equiv same⟩

end Grammar

end ContextFree
