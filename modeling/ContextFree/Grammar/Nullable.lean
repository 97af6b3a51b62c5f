import ContextFree.Grammar.Lemmas
import ContextFree.Iteration

/-!
This module contains the variables that derive the empty word, and those that derive no other word.
-/

namespace ContextFree

namespace Productions

/--
Add the left-hand side of a production whose right-hand side consists of symbols in the set.
-/
def addNullable (nullable : OrderedSet Symbol) (p : Production) : OrderedSet Symbol :=
  if ∀ s ∈ p.rhs, s ∈ nullable then nullable.insert p.lhs else nullable

/--
Go through the productions once, in order, each time with the set as it is by then.
-/
def nullableScan (ps : Productions) (nullable : OrderedSet Symbol) : OrderedSet Symbol :=
  ps.toList.foldl addNullable nullable

/--
The variables that derive the empty word, in the order in which repeated scans find them. Every scan
but the last one finds a variable, so there are no more scans than variables.
-/
def nullable (ps : Productions) : OrderedSet Symbol :=
  stabilize ps.nullableScan (ps.vars.size + 1) ∅

def closedPart (ps : Productions) (set : OrderedSet Symbol) : OrderedSet Symbol :=
  set.filter fun v => ∀ p ∈ ps.toList, p.lhs = v → ∀ s ∈ p.rhs, s ∈ set

/--
The nullable variables from which nothing but nullable variables can be reached, and which therefore
derive no word but the empty one.
-/
def purelyNullable (ps : Productions) : OrderedSet Symbol :=
  stabilize ps.closedPart (ps.nullable.size + 1) ps.nullable

variable {ps : Productions}

theorem mem_addNullable {nullable : OrderedSet Symbol} {p : Production} {s : Symbol} :
    s ∈ addNullable nullable p ↔
      s ∈ nullable ∨ s = p.lhs ∧ ∀ x ∈ p.rhs, x ∈ nullable := by
  simp only [addNullable]
  split
  · rename_i all
    rw [OrderedSet.mem_insert]
    exact ⟨fun h => h.imp_right fun h => ⟨h, all⟩, fun h => h.imp_right And.left⟩
  · rename_i notAll
    exact ⟨.inl, fun h => h.elim id fun h => absurd h.2 notAll⟩

theorem mem_foldl_addNullable {l : List Production} {nullable : OrderedSet Symbol} {s : Symbol}
    (h : s ∈ nullable) : s ∈ l.foldl addNullable nullable := by
  induction l generalizing nullable with
  | nil => exact h
  | cons p l ih => exact ih (mem_addNullable.2 (.inl h))

theorem mem_or_of_mem_foldl_addNullable {l : List Production} {nullable : OrderedSet Symbol}
    {s : Symbol} (h : s ∈ l.foldl addNullable nullable) :
    s ∈ nullable ∨ ∃ p ∈ l, p.lhs = s := by
  induction l generalizing nullable with
  | nil => exact .inl h
  | cons p l ih =>
    rcases ih h with h | ⟨q, mem, h⟩
    · rcases mem_addNullable.1 h with h | h
      · exact .inl h
      · exact .inr ⟨p, List.mem_cons_self, h.1.symm⟩
    · exact .inr ⟨q, List.mem_cons_of_mem p mem, h⟩

theorem lhs_mem_nullableScan {nullable : OrderedSet Symbol} {p : Production} (mem : p ∈ ps)
    (all : ∀ s ∈ p.rhs, s ∈ nullable) : p.lhs ∈ ps.nullableScan nullable := by
  obtain ⟨before, after, split⟩ := List.append_of_mem mem
  rw [nullableScan, split, List.foldl_append, List.foldl_cons]
  apply mem_foldl_addNullable
  exact mem_addNullable.2 (.inr ⟨rfl, fun s hs => mem_foldl_addNullable (all s hs)⟩)

theorem addNullable_eq_or_size_lt (nullable : OrderedSet Symbol) (p : Production) :
    addNullable nullable p = nullable ∨ nullable.size < (addNullable nullable p).size := by
  simp only [addNullable]
  split
  · by_cases h : p.lhs ∈ nullable
    · exact .inl (OrderedSet.insert_of_mem h)
    · rw [OrderedSet.size_insert_of_not_mem h]
      exact .inr (Nat.lt_succ_self _)
  · exact .inl rfl

theorem nullableScan_eq_or_size_lt (nullable : OrderedSet Symbol) :
    ps.nullableScan nullable = nullable ∨ nullable.size < (ps.nullableScan nullable).size :=
  foldl_eq_or (r := fun s t : OrderedSet Symbol => s.size < t.size) (fun _ _ _ => Nat.lt_trans)
    addNullable_eq_or_size_lt ps.toList nullable

theorem mem_vars_of_mem_nullableScan {set : OrderedSet Symbol} (h : ∀ v, v ∈ set → v ∈ ps.vars) :
    ∀ v, v ∈ ps.nullableScan set → v ∈ ps.vars := by
  intro v hv
  rcases mem_or_of_mem_foldl_addNullable hv with hv | ⟨p, mem, lhs⟩
  · exact h v hv
  · exact lhs ▸ lhs_mem_vars mem

/--
As long as scans find variables, fewer and fewer of them are left.
-/
theorem left_nullableScan_lt {set : OrderedSet Symbol} (h : ∀ v, v ∈ set → v ∈ ps.vars)
    (changed : ps.nullableScan set ≠ set) :
    ps.vars.size - (ps.nullableScan set).size < ps.vars.size - set.size := by
  have bounded := OrderedSet.size_le_of_subset (mem_vars_of_mem_nullableScan h)
  have larger : set.size < (ps.nullableScan set).size :=
    (nullableScan_eq_or_size_lt set).resolve_left changed
  omega

theorem nullableScan_nullable (ps : Productions) : ps.nullableScan ps.nullable = ps.nullable := by
  refine step_stabilize (fun set => ∀ v, v ∈ set → v ∈ ps.vars)
    (fun set => ps.vars.size - set.size) ?_ (fun _ => mem_vars_of_mem_nullableScan)
    (fun _ => left_nullableScan_lt) ?_
  · intro v hv
    exact absurd hv (OrderedSet.not_mem_empty v)
  · omega

theorem lhs_mem_nullable {p : Production} (mem : p ∈ ps)
    (all : ∀ s ∈ p.rhs, s ∈ ps.nullable) : p.lhs ∈ ps.nullable := by
  rw [← nullableScan_nullable]
  exact lhs_mem_nullableScan mem all

@[simp]
theorem mem_closedPart {set : OrderedSet Symbol} {v : Symbol} :
    v ∈ ps.closedPart set ↔
      v ∈ set ∧ ∀ p ∈ ps, p.lhs = v → ∀ s ∈ p.rhs, s ∈ set := by
  simp [closedPart, OrderedSet.mem_toList]

theorem closedPart_purelyNullable (ps : Productions) :
    ps.closedPart ps.purelyNullable = ps.purelyNullable :=
  step_stabilize (fun _ => True) OrderedSet.size trivial (fun _ _ => trivial)
    (fun _ _ changed => OrderedSet.size_filter_lt changed) (Nat.le_succ _)

theorem mem_purelyNullable_of_mem_rhs {p : Production} (mem : p ∈ ps)
    (lhs : p.lhs ∈ ps.purelyNullable) {s : Symbol} (hs : s ∈ p.rhs) :
    s ∈ ps.purelyNullable := by
  rw [← closedPart_purelyNullable, mem_closedPart] at lhs
  exact lhs.2 p mem rfl s hs

theorem mem_nullable_of_mem_purelyNullable {v : Symbol} (h : v ∈ ps.purelyNullable) :
    v ∈ ps.nullable := by
  revert h
  refine stabilize_induction (motive := fun set => v ∈ set → v ∈ ps.nullable) id ?_
  intro set ih h
  exact ih (mem_closedPart.1 h).1

end Productions

namespace Grammar

@[inherit_doc Productions.nullable]
def nullable (g : Grammar) : OrderedSet Symbol :=
  g.productions.nullable

end Grammar

end ContextFree
