import ContextFree.Grammar.Epsilon
import ContextFree.Proofs.Nullability

/-!
This module contains what dropping nullable symbols from right-hand sides does to words: it takes
the empty word away from every variable but the start variable, and changes nothing else. One round
of it is enough, since a start variable that is nullable occurs on no right-hand side.
-/

namespace ContextFree

namespace Productions

/--
Only `start` is nullable, and if it is then it occurs on no right-hand side: nothing is erased
inside a word.
-/
structure ErasesNothingInside (ps : Productions) (start : Symbol) : Prop where
  eq_start : ∀ v ∈ ps.nullable, v = start
  not_mem_rhs : ∀ p ∈ ps, ∀ s ∈ p.rhs, ¬ s ∈ ps.nullable

/--
The start variable is not erased inside a word, whatever else may be.
-/
def KeepsStart (ps : Productions) (start : Symbol) : Prop :=
  ∀ p ∈ ps, start ∈ p.rhs → ¬ start ∈ ps.nullable

/--
What is left of the words of a symbol once nullable symbols are dropped: the empty word, for which
the symbol is dropped, and the others, for which it is kept.
-/
def Remains (ps : Productions) (vars : OrderedSet Symbol) (start s : Symbol) (w : List Symbol) :
    Prop :=
  w = [] ∧ s ∈ ps.nullable ∨
    w ≠ [] ∧ ¬ s ∈ ps.purelyNullable ∧ Spells (ps.eraseNullable start) vars [s] w

variable {ps ps' : Productions} {vars nullable purelyNullable : OrderedSet Symbol}
  {u v w : List Symbol} {s start : Symbol}

@[simp]
theorem mem_dropNullable_nil : v ∈ dropNullable nullable purelyNullable [] ↔ v = [] := by
  unfold dropNullable
  rw [List.mem_singleton]

theorem mem_dropNullable_cons :
    v ∈ dropNullable nullable purelyNullable (s :: u) ↔
      (s ∈ purelyNullable ∨ s ∈ nullable) ∧ v ∈ dropNullable nullable purelyNullable u ∨
        ¬ s ∈ purelyNullable ∧ ∃ x ∈ dropNullable nullable purelyNullable u, v = s :: x := by
  simp only [dropNullable]
  by_cases pure : s ∈ purelyNullable
  · simp [pure]
  · by_cases isNullable : s ∈ nullable
    · simp [pure, isNullable, or_comm, eq_comm]
    · simp [pure, isNullable, eq_comm]

theorem mem_of_mem_dropNullable (h : v ∈ dropNullable nullable purelyNullable u) :
    ∀ s ∈ v, s ∈ u ∧ ¬ s ∈ purelyNullable := by
  induction u generalizing v with
  | nil =>
    rw [mem_dropNullable_nil.1 h]
    intro s hs
    cases hs
  | cons t u ih =>
    intro s hs
    rcases mem_dropNullable_cons.1 h with ⟨_, dropped⟩ | ⟨notPure, x, kept, rfl⟩
    · exact (ih dropped s hs).imp_left (List.mem_cons_of_mem t)
    · rcases List.mem_cons.1 hs with rfl | hs
      · exact ⟨List.mem_cons_self, notPure⟩
      · exact (ih kept s hs).imp_left (List.mem_cons_of_mem t)

theorem Spells.of_dropNullable (h : Spells ps vars v w)
    (mem : v ∈ dropNullable ps.nullable ps.purelyNullable u) : Spells ps vars u w := by
  induction u generalizing v w with
  | nil =>
    rw [mem_dropNullable_nil.1 mem] at h
    exact h
  | cons t u ih =>
    rcases mem_dropNullable_cons.1 mem with ⟨erasable, dropped⟩ | ⟨_, x, kept, rfl⟩
    · have isNullable := erasable.elim mem_nullable_of_mem_purelyNullable id
      exact (spells_nil_of_mem_nullable isNullable).append (ih h dropped)
    · obtain ⟨x, y, rfl, head, tail⟩ := spells_cons_iff.1 h
      exact head.append (ih tail kept)

theorem exists_dropNullable (h : Reads (Remains ps vars start) u w) :
    ∃ v ∈ dropNullable ps.nullable ps.purelyNullable u,
      Spells (ps.eraseNullable start) vars v w := by
  induction h with
  | nil => exact ⟨[], mem_dropNullable_nil.2 rfl, .nil⟩
  | cons head _ ih =>
    obtain ⟨v, mem, spelled⟩ := ih
    rcases head with ⟨rfl, isNullable⟩ | ⟨_, notPure, head⟩
    · exact ⟨v, mem_dropNullable_cons.2 (.inl ⟨.inr isNullable, mem⟩), spelled⟩
    · exact ⟨_, mem_dropNullable_cons.2 (.inr ⟨notPure, v, mem, rfl⟩), head.append spelled⟩

theorem withoutNullable_eq (p : Production) :
    withoutNullable start nullable purelyNullable p =
      ((dropNullable nullable purelyNullable p.rhs).filter
        fun word => word ≠ [] ∨ p.lhs = start).map (⟨p.lhs, ·⟩) := by
  obtain ⟨lhs, rhs⟩ := p
  cases rhs with
  | nil =>
    by_cases h : lhs = start
    · simp [withoutNullable, Production.isEpsilon, dropNullable, h]
    · simp [withoutNullable, Production.isEpsilon, dropNullable, h]
  | cons t rest => rfl

theorem mem_withoutNullable {p q : Production} :
    q ∈ withoutNullable start nullable purelyNullable p ↔
      q.lhs = p.lhs ∧ q.rhs ∈ dropNullable nullable purelyNullable p.rhs ∧
        (q.rhs ≠ [] ∨ q.lhs = start) := by
  simp only [withoutNullable_eq, List.mem_map, List.mem_filter, decide_eq_true_eq]
  constructor
  · rintro ⟨word, ⟨mem, kept⟩, rfl⟩
    exact ⟨rfl, mem, kept⟩
  · rintro ⟨lhs, mem, kept⟩
    refine ⟨q.rhs, ⟨mem, lhs ▸ kept⟩, ?_⟩
    rw [← lhs]

theorem mem_eraseNullable {q : Production} :
    q ∈ ps.eraseNullable start ↔
      ∃ p ∈ ps, q.lhs = p.lhs ∧ q.rhs ∈ dropNullable ps.nullable ps.purelyNullable p.rhs ∧
        (q.rhs ≠ [] ∨ q.lhs = start) := by
  simp only [eraseNullable, OrderedSet.mem_ofList, List.mem_flatMap, OrderedSet.mem_toList,
    mem_withoutNullable]

theorem mem_vars_of_mem_eraseNullable (h : s ∈ (ps.eraseNullable start).vars) : s ∈ ps.vars := by
  obtain ⟨q, mem, rfl⟩ := mem_vars.1 h
  obtain ⟨p, mem, lhs, _⟩ := mem_eraseNullable.1 mem
  rw [lhs]
  exact lhs_mem_vars mem

theorem Reads.eraseNullable {p : Production} (mem : p ∈ ps)
    (inner : Reads (Remains ps vars start) p.rhs w) (kept : w ≠ [] ∨ p.lhs = start) :
    Spells (ps.eraseNullable start) vars [p.lhs] w := by
  obtain ⟨word, remains, spelled⟩ := exists_dropNullable inner
  refine .of_mem ?_ spelled
  refine mem_eraseNullable.2 ⟨p, mem, rfl, remains, kept.imp_left ?_⟩
  rintro notEmpty rfl
  exact notEmpty (spells_nil_iff.1 spelled)

theorem Spells.remains (h : Spells ps vars [s] w) (isVars : ∀ v ∈ ps.vars, v ∈ vars) :
    Remains ps vars start s w := by
  have reads : Reads (Remains ps vars start) [s] w := by
    apply h.reads
    · intro s terminal
      refine .inr ⟨List.cons_ne_nil s [], ?_, .singleton terminal⟩
      intro pure
      exact terminal (isVars s (mem_vars_of_mem_nullable (mem_nullable_of_mem_purelyNullable pure)))
    · intro p mem w inner
      by_cases empty : w = []
      · subst empty
        refine .inl ⟨rfl, lhs_mem_nullable mem ?_⟩
        intro s hs
        exact (inner.forall_nil s hs).elim And.right fun h => absurd rfl h.1
      · refine .inr ⟨empty, ?_, inner.eraseNullable mem (.inl empty)⟩
        intro pure
        apply empty
        apply inner.eq_nil
        intro s hs v remains
        exact remains.elim And.left fun h =>
          absurd (mem_purelyNullable_of_mem_rhs mem pure hs) h.2.1
  exact reads_singleton_iff.1 reads

theorem Spells.eraseNullable (h : Spells ps vars [s] w) (isVars : ∀ v ∈ ps.vars, v ∈ vars)
    (kept : w ≠ [] ∨ s = start) : Spells (ps.eraseNullable start) vars [s] w := by
  rcases h.remains isVars with ⟨rfl, isNullable⟩ | ⟨_, _, spelled⟩
  · -- the start variable loses no way to derive the empty word
    have isVar := isVars s (mem_vars_of_mem_nullable isNullable)
    obtain ⟨p, mem, rfl, inner⟩ := (spells_var_iff isVar).1 h
    refine Reads.eraseNullable mem (reads_nil_of_forall ?_) kept
    intro s hs
    exact .inl ⟨rfl, inner.forall_mem_nullable s hs⟩
  · exact spelled

theorem Spells.of_eraseNullable (h : Spells (ps.eraseNullable start) vars [s] w)
    (keeps : ps.KeepsStart start) : Spells ps vars [s] w ∧ (w ≠ [] ∨ s = start) := by
  have reads : Reads (fun s w => Spells ps vars [s] w ∧ (w ≠ [] ∨ s = start)) [s] w := by
    apply h.reads
    · intro s terminal
      exact ⟨.singleton terminal, .inl (List.cons_ne_nil s [])⟩
    · intro q hq w inner
      obtain ⟨p, hp, lhs, remains, kept⟩ := mem_eraseNullable.1 hq
      have spelled : Spells ps vars q.rhs w :=
        .of_reads inner fun s _ v h => h.1
      constructor
      · rw [lhs]
        exact .of_mem hp (spelled.of_dropNullable remains)
      · apply kept.imp_left
        rintro notEmpty rfl
        -- the first symbol that is left is erased, so it is the start variable inside a word
        obtain ⟨t, rest, rhs⟩ := List.exists_cons_of_ne_nil notEmpty
        have occurs : t ∈ q.rhs := rhs ▸ List.mem_cons_self
        obtain ⟨erased, isStart⟩ := inner.forall_nil t occurs
        obtain rfl := isStart.resolve_left fun h => h rfl
        apply keeps p hp (mem_of_mem_dropNullable remains t occurs).1
        exact mem_nullable_iff_spells.2 erased
  exact reads_singleton_iff.1 reads

theorem spells_eraseNullable_iff (isVars : ∀ v ∈ ps.vars, v ∈ vars)
    (keeps : ps.KeepsStart start) :
    Spells (ps.eraseNullable start) vars [s] w ↔
      Spells ps vars [s] w ∧ (w ≠ [] ∨ s = start) := by
  constructor
  · intro h
    exact h.of_eraseNullable keeps
  · rintro ⟨h, kept⟩
    exact h.eraseNullable isVars kept

theorem mem_nullable_of_mem_eraseNullable (keeps : ps.KeepsStart start)
    (h : s ∈ (ps.eraseNullable start).nullable) : s ∈ ps.nullable ∧ s = start := by
  have spelled : Spells (ps.eraseNullable start) ps.vars [s] [] := spells_nil_of_mem_nullable h
  obtain ⟨old, kept⟩ := spelled.of_eraseNullable keeps
  exact ⟨mem_nullable_iff_spells.2 old, kept.resolve_left fun h => h rfl⟩

theorem erasesNothingInside_eraseNullable (keeps : ps.KeepsStart start) :
    (ps.eraseNullable start).ErasesNothingInside start := by
  constructor
  · intro v h
    exact (mem_nullable_of_mem_eraseNullable keeps h).2
  · intro q hq s hs h
    obtain ⟨p, hp, _, remains, _⟩ := mem_eraseNullable.1 hq
    obtain ⟨old, rfl⟩ := mem_nullable_of_mem_eraseNullable keeps h
    exact keeps p hp (mem_of_mem_dropNullable remains s hs).1 old

theorem erasesNothingInside_of_forall (h : ∀ p ∈ ps, p.rhs = [] →
    p.lhs = start ∧ ∀ q ∈ ps, ¬ start ∈ q.rhs) : ps.ErasesNothingInside start := by
  have nullable {v : Symbol} (isNullable : v ∈ ps.nullable) :
      v = start ∧ ∀ q ∈ ps, ¬ start ∈ q.rhs := by
    have spelled : Spells ps ∅ [v] [] := spells_nil_of_mem_nullable isNullable
    have reads : Reads (fun s w => w = [] → s = start ∧ ∀ q ∈ ps, ¬ start ∈ q.rhs) [v] [] := by
      apply spelled.reads
      · intro s _ empty
        cases empty
      · rintro p mem w inner rfl
        cases rhs : p.rhs with
        | nil => exact h p mem rhs
        | cons t rest =>
          have occurs : t ∈ p.rhs := rhs ▸ List.mem_cons_self
          obtain ⟨rfl, unused⟩ := inner.forall_nil t occurs rfl
          exact absurd occurs (unused p mem)
    exact reads_singleton_iff.1 reads rfl
  constructor
  · intro v isNullable
    exact (nullable isNullable).1
  · intro p mem s occurs isNullable
    obtain ⟨rfl, unused⟩ := nullable isNullable
    exact unused p mem occurs

theorem ErasesNothingInside.of_epsilon {p : Production} (h : ps.ErasesNothingInside start)
    (mem : p ∈ ps) (empty : p.rhs = []) : p = .epsilon start ∧ ∀ q ∈ ps, ¬ start ∈ q.rhs := by
  have isNullable : p.lhs ∈ ps.nullable := by
    apply lhs_mem_nullable mem
    rw [empty]
    intro s hs
    cases hs
  obtain ⟨lhs, rhs⟩ := p
  obtain rfl : rhs = [] := empty
  obtain rfl : lhs = start := h.eq_start lhs isNullable
  exact ⟨rfl, fun q hq occurs => h.not_mem_rhs q hq lhs occurs isNullable⟩

theorem spells_epsilon_iff {erasing : Prop}
    (same : ∀ p, p ∈ ps' ↔ p ∈ ps ∨ p = .epsilon start ∧ erasing)
    (unused : erasing → ∀ p ∈ ps, ¬ start ∈ p.rhs) :
    Spells ps' vars [s] w ↔ Spells ps vars [s] w ∨ erasing ∧ s = start ∧ w = [] := by
  constructor
  · intro h
    have reads : Reads (fun s w => Spells ps vars [s] w ∨ erasing ∧ s = start ∧ w = []) [s] w := by
      apply h.reads
      · intro s terminal
        exact .inl (.singleton terminal)
      · intro p mem w inner
        rcases (same p).1 mem with old | ⟨rfl, erases⟩
        · refine .inl (.of_mem old (.of_reads inner ?_))
          rintro t occurs v (spelled | ⟨erases, rfl, _⟩)
          · exact spelled
          · exact absurd occurs (unused erases p old)
        · exact .inr ⟨erases, rfl, reads_nil_iff.1 inner⟩
    exact reads_singleton_iff.1 reads
  · rintro (h | ⟨erases, rfl, rfl⟩)
    · exact h.mono fun p mem => (same p).2 (.inl mem)
    · exact .of_mem ((same _).2 (.inr ⟨rfl, erases⟩)) .nil

theorem ErasesNothingInside.mono (h : ps.ErasesNothingInside start)
    (sub : ∀ p ∈ ps', p ∈ ps) : ps'.ErasesNothingInside start := by
  constructor
  · intro v isNullable
    exact h.eq_start v (mem_nullable_mono sub isNullable)
  · intro p mem s occurs isNullable
    exact h.not_mem_rhs p (sub p mem) s occurs (mem_nullable_mono sub isNullable)

theorem ErasesNothingInside.erasesOnly (h : ps.ErasesNothingInside start) :
    ps.ErasesOnly start :=
  h.eq_start

theorem eraseRounds_eq (keeps : ps.KeepsStart start) (more : ¬ ps.ErasesOnly start) :
    ps.eraseRounds start ps.nullable.size = ps.eraseNullable start := by
  have done := (erasesNothingInside_eraseNullable keeps).erasesOnly
  cases size : ps.nullable.size with
  | zero =>
    have empty := List.length_eq_zero_iff.1 size
    refine absurd ?_ more
    intro v hv
    rw [empty] at hv
    cases hv
  | succ rounds =>
    unfold eraseRounds
    rw [if_neg more]
    cases rounds with
    | zero => rfl
    | succ rounds => rw [eraseRounds, if_pos done]

end Productions

end ContextFree
