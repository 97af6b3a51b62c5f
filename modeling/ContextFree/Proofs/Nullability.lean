import ContextFree.Grammar.Nullable
import ContextFree.Proofs.Spelling

/-!
This module contains what the searches for nullable and purely nullable variables find: the
variables that derive the empty word, and the greatest set of them that is closed under right-hand
sides.
-/

namespace ContextFree

namespace Productions

variable {ps ps' : Productions} {vars : OrderedSet Symbol} {v : Symbol} {u w : List Symbol}

theorem spells_nil_of_mem_foldl_addNullable {l : List Production} (sub : ∀ p ∈ l, p ∈ ps)
    {set : OrderedSet Symbol} (start : ∀ v ∈ set, Spells ps vars [v] []) :
    ∀ v ∈ l.foldl addNullable set, Spells ps vars [v] [] := by
  induction l generalizing set with
  | nil => exact start
  | cons p l ih =>
    apply ih (fun q hq => sub q (List.mem_cons_of_mem p hq))
    intro v hv
    rcases mem_addNullable.1 hv with hv | ⟨rfl, all⟩
    · exact start v hv
    · have inner := reads_nil_of_forall fun s hs => start s (all s hs)
      exact .of_mem (sub p List.mem_cons_self) (spells_iff_reads.2 inner)

theorem spells_nil_of_mem_nullable (h : v ∈ ps.nullable) : Spells ps vars [v] [] := by
  revert v
  apply stabilize_induction (motive := fun set => ∀ {v}, v ∈ set → Spells ps vars [v] [])
  · intro v hv
    exact absurd hv (OrderedSet.not_mem_empty v)
  · intro set start v hv
    exact spells_nil_of_mem_foldl_addNullable (fun p hp => hp) (fun v => start) v hv

theorem Spells.forall_mem_nullable (h : Spells ps vars u []) : ∀ s ∈ u, s ∈ ps.nullable := by
  have reads : Reads (fun s w => w = [] → s ∈ ps.nullable) u [] := by
    apply h.reads
    · intro s _ empty
      cases empty
    · rintro p mem w inner rfl
      apply lhs_mem_nullable mem
      intro s hs
      exact inner.forall_nil s hs rfl
  intro s hs
  exact reads.forall_nil s hs rfl

theorem mem_nullable_iff_spells : v ∈ ps.nullable ↔ Spells ps vars [v] [] := by
  constructor
  · exact spells_nil_of_mem_nullable
  · intro h
    exact h.forall_mem_nullable v List.mem_cons_self

theorem mem_nullable_iff_derives : v ∈ ps.nullable ↔ Derives ps [v] [] := by
  have spelled : v ∈ ps.nullable ↔ Spells ps ∅ [v] [] := mem_nullable_iff_spells
  rw [spelled, derives_iff_spells]
  intro s hs
  cases hs

theorem mem_nullable_mono (sub : ∀ p ∈ ps, p ∈ ps') (h : v ∈ ps.nullable) : v ∈ ps'.nullable := by
  have spelled : Spells ps ∅ [v] [] := spells_nil_of_mem_nullable h
  exact mem_nullable_iff_spells.2 (spelled.mono sub)

theorem mem_vars_of_mem_nullable (h : v ∈ ps.nullable) : v ∈ ps.vars := by
  have spelled : Spells ps ∅ [v] [] := spells_nil_of_mem_nullable h
  rcases spells_singleton_iff.1 spelled with ⟨_, impossible⟩ | ⟨p, mem, lhs, _⟩
  · cases impossible
  · exact mem_vars.2 ⟨p, mem, lhs⟩

theorem mem_purelyNullable_of_closed {set : Symbol → Prop}
    (nullable : ∀ v, set v → v ∈ ps.nullable)
    (closed : ∀ v, set v → ∀ p ∈ ps, p.lhs = v → ∀ s ∈ p.rhs, set s) (h : set v) :
    v ∈ ps.purelyNullable := by
  revert v
  apply stabilize_induction (motive := fun found => ∀ {v}, set v → v ∈ found)
  · intro v hv
    exact nullable v hv
  · intro found all v hv
    refine mem_closedPart.2 ⟨all hv, ?_⟩
    intro p mem lhs s hs
    exact all (closed v hv p mem lhs s hs)

/--
On a part of the symbols that both productions agree on, what is purely nullable for one of them is so
for the other one.
-/
theorem mem_purelyNullable_of_part {part : Symbol → Prop}
    (nullable : ∀ v, part v → v ∈ ps'.nullable → v ∈ ps.nullable)
    (closed : ∀ p ∈ ps, part p.lhs → p.lhs ∈ ps'.purelyNullable →
      ∀ s ∈ p.rhs, part s ∧ s ∈ ps'.purelyNullable)
    (h : part v) (pure : v ∈ ps'.purelyNullable) : v ∈ ps.purelyNullable := by
  have isNullable : ∀ t, part t ∧ t ∈ ps'.purelyNullable → t ∈ ps.nullable := by
    rintro t ⟨ht, pure⟩
    exact nullable t ht (mem_nullable_of_mem_purelyNullable pure)
  have closed : ∀ t, part t ∧ t ∈ ps'.purelyNullable → ∀ p ∈ ps, p.lhs = t →
      ∀ s ∈ p.rhs, part s ∧ s ∈ ps'.purelyNullable := by
    rintro _ ⟨ht, pure⟩ p mem rfl
    exact closed p mem ht pure
  exact mem_purelyNullable_of_closed isNullable closed ⟨h, pure⟩

theorem exists_not_mem_purelyNullable (nullable : v ∈ ps.nullable)
    (notPure : ¬ v ∈ ps.purelyNullable) :
    ∃ p ∈ ps, p.lhs = v ∧ ∃ s ∈ p.rhs, s ≠ v ∧ ¬ s ∈ ps.purelyNullable := by
  apply Classical.byContradiction
  intro none
  have isNullable : ∀ t, t = v ∨ t ∈ ps.purelyNullable → t ∈ ps.nullable := by
    rintro t (rfl | pure)
    · exact nullable
    · exact mem_nullable_of_mem_purelyNullable pure
  have closed : ∀ t, t = v ∨ t ∈ ps.purelyNullable → ∀ p ∈ ps, p.lhs = t →
      ∀ s ∈ p.rhs, s = v ∨ s ∈ ps.purelyNullable := by
    rintro t (rfl | pure) p mem lhs s occurs
    · apply Classical.byContradiction
      intro other
      exact none ⟨p, mem, lhs, s, occurs, not_or.1 other⟩
    · exact .inr (mem_purelyNullable_of_mem_rhs mem (lhs ▸ pure) occurs)
  exact notPure (mem_purelyNullable_of_closed isNullable closed (.inl rfl))

theorem Spells.eq_nil_of_mem_purelyNullable (h : Spells ps vars [v] w)
    (isVars : ∀ v ∈ ps.vars, v ∈ vars) (pure : v ∈ ps.purelyNullable) : w = [] := by
  have reads : Reads (fun s w => s ∈ ps.purelyNullable → w = []) [v] w := by
    apply h.reads
    · intro s terminal pure
      have isVar := mem_vars_of_mem_nullable (mem_nullable_of_mem_purelyNullable pure)
      exact absurd (isVars s isVar) terminal
    · intro p mem w inner pure
      apply inner.eq_nil
      intro s hs v empty
      exact empty (mem_purelyNullable_of_mem_rhs mem pure hs)
  exact reads_singleton_iff.1 reads pure

end Productions

end ContextFree
