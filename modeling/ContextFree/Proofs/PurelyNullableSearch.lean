import ContextFree.Proofs.Productivity

/-!
This module contains that the search for purely nullable variables comes to an end by itself, and finds
the nullable variables from which nothing but nullable variables can be reached. The search begins with
all nullable variables and takes those away that lead out of what is left. It goes through the
productions again and again until it has gone through all of them without taking a variable away.
-/

namespace ContextFree

namespace OrderedSet

variable {α : Type} [DecidableEq α] {s : OrderedSet α}

theorem sublist_stabilize {step : OrderedSet α → OrderedSet α} {bound : Nat}
    (part : ∀ t, (step t).toList.Sublist t.toList) :
    (stabilize step bound s).toList.Sublist s.toList :=
  stabilize_induction (motive := fun t => t.toList.Sublist s.toList) (.refl _)
    fun t left => (part t).trans left

end OrderedSet

namespace Productions

/--
Take the left-hand side of a production away unless all symbols of the right-hand side are in the set.
-/
def dropImpure (set : OrderedSet Symbol) (p : Production) : OrderedSet Symbol :=
  if ∀ s ∈ p.rhs, s ∈ set then set else set.erase p.lhs

/--
Go through the productions once, in order, each time with the set as it is by then.
-/
def impureScan (ps : Productions) (set : OrderedSet Symbol) : OrderedSet Symbol :=
  ps.toList.foldl dropImpure set

/--
Take the left-hand side of a production away if it is in the set but not all symbols of the right-hand
side are, and make a note of it.
-/
def noteImpure (state : OrderedSet Symbol × Bool) (p : Production) : OrderedSet Symbol × Bool :=
  if p.lhs ∈ state.1 ∧ ¬ ∀ s ∈ p.rhs, s ∈ state.1 then (state.1.erase p.lhs, true) else state

/--
Go through the productions once, and tell whether a variable has been taken away.
-/
def impurePass (ps : Productions) (set : OrderedSet Symbol) : OrderedSet Symbol × Bool :=
  ps.toList.foldl noteImpure (set, false)

variable {ps : Productions} {set : OrderedSet Symbol} {v s : Symbol} {p : Production}

theorem mem_dropImpure :
    v ∈ dropImpure set p ↔ v ∈ set ∧ (v = p.lhs → ∀ s ∈ p.rhs, s ∈ set) := by
  unfold dropImpure
  split
  · rename_i all
    exact (and_iff_left fun _ => all).symm
  · rename_i impure
    rw [OrderedSet.mem_erase]
    exact and_congr_right fun _ => ⟨fun ne same => absurd same ne, fun h same => impure (h same)⟩

theorem sublist_dropImpure (set : OrderedSet Symbol) (p : Production) :
    (dropImpure set p).toList.Sublist set.toList := by
  unfold dropImpure
  split
  · exact .refl _
  · exact List.filter_sublist

theorem sublist_foldl_dropImpure (l : List Production) (set : OrderedSet Symbol) :
    (l.foldl dropImpure set).toList.Sublist set.toList := by
  induction l generalizing set with
  | nil => exact .refl _
  | cons p l ih => exact (ih (dropImpure set p)).trans (sublist_dropImpure set p)

theorem dropImpure_eq_or_size_lt (set : OrderedSet Symbol) (p : Production) :
    dropImpure set p = set ∨ (dropImpure set p).size < set.size :=
  Classical.or_iff_not_imp_left.2 (OrderedSet.size_lt_of_sublist (sublist_dropImpure set p))

theorem noteImpure_eq (set : OrderedSet Symbol) (noted : Bool) (p : Production) :
    noteImpure (set, noted) p =
      (dropImpure set p, noted || decide (dropImpure set p ≠ set)) := by
  by_cases impure : p.lhs ∈ set ∧ ¬ ∀ s ∈ p.rhs, s ∈ set
  · have taken : dropImpure set p = set.erase p.lhs := if_neg impure.2
    have changed : set.erase p.lhs ≠ set := by
      intro same
      exact (OrderedSet.mem_erase.1 (same ▸ impure.1)).2 rfl
    rw [noteImpure, if_pos impure, taken, decide_eq_true changed, Bool.or_true]
  · have same : dropImpure set p = set := by
      refine OrderedSet.eq_of_sublist_of_equiv (sublist_dropImpure set p) (.refl _) fun v => ?_
      rw [mem_dropImpure, and_iff_left_iff_imp]
      rintro mem rfl
      exact Classical.byContradiction fun notAll => impure ⟨mem, notAll⟩
    rw [noteImpure, if_neg impure, same]
    simp

theorem impurePass_eq (set : OrderedSet Symbol) :
    ps.impurePass set = (ps.impureScan set, decide (ps.impureScan set ≠ set)) := by
  have pass := foldl_noted_eq (r := fun s t : OrderedSet Symbol => t.size < s.size)
    (fun _ _ _ less less' => Nat.lt_trans less' less) (fun _ => Nat.lt_irrefl _)
    dropImpure_eq_or_size_lt noteImpure_eq ps.toList set false
  rwa [Bool.false_or] at pass

/--
A scan that takes nothing away has found each right-hand side of the variables in the set inside it.
-/
theorem mem_of_impureScan_eq (stable : ps.impureScan set = set) (mem : p ∈ ps)
    (lhs : p.lhs ∈ set) (occurs : s ∈ p.rhs) : s ∈ set := by
  obtain ⟨before, after, split⟩ := List.append_of_mem mem
  rw [impureScan, split, List.foldl_append, List.foldl_cons] at stable
  rw [← stable] at lhs
  have kept := (sublist_foldl_dropImpure after _).subset lhs
  have all := (mem_dropImpure.1 kept).2 rfl
  exact (sublist_foldl_dropImpure before set).subset (all s occurs)

/--
A set that right-hand sides of its variables do not lead out of stays as long as it is in.
-/
theorem mem_foldl_dropImpure {part : Symbol → Prop} {l : List Production}
    (closed : ∀ p ∈ l, part p.lhs → ∀ s ∈ p.rhs, part s) (sub : ∀ s, part s → s ∈ set) :
    ∀ s, part s → s ∈ l.foldl dropImpure set := by
  induction l generalizing set with
  | nil => exact sub
  | cons p l ih =>
    apply ih fun q hq => closed q (List.mem_cons_of_mem p hq)
    intro v hv
    refine mem_dropImpure.2 ⟨sub v hv, ?_⟩
    rintro rfl s occurs
    exact sub s (closed p List.mem_cons_self hv s occurs)

section Search

variable (ps)

/--
What is left of the nullable variables in the end, when they are taken away one after another.
-/
def pureRest : OrderedSet Symbol :=
  stabilize ps.impureScan ps.nullable.size ps.nullable

theorem impureScan_pureRest : ps.impureScan ps.pureRest = ps.pureRest :=
  step_stabilize (fun _ => True) OrderedSet.size trivial (fun _ _ => trivial)
    (fun set _ => OrderedSet.size_lt_of_sublist (sublist_foldl_dropImpure ps.toList set))
    (Nat.le_refl _)

theorem sublist_pureRest : ps.pureRest.toList.Sublist ps.nullable.toList :=
  OrderedSet.sublist_stabilize (sublist_foldl_dropImpure ps.toList)

theorem mem_pureRest_iff : v ∈ ps.pureRest ↔ v ∈ ps.purelyNullable := by
  constructor
  · have closed : ∀ v, v ∈ ps.pureRest → ∀ p ∈ ps, p.lhs = v → ∀ s ∈ p.rhs, s ∈ ps.pureRest := by
      rintro _ left p mem rfl s occurs
      exact mem_of_impureScan_eq ps.impureScan_pureRest mem left occurs
    exact mem_purelyNullable_of_closed (fun v left => ps.sublist_pureRest.subset left) closed
  · intro pure
    have closed : ∀ p ∈ ps.toList, p.lhs ∈ ps.purelyNullable → ∀ s ∈ p.rhs, s ∈ ps.purelyNullable :=
      fun p mem lhs s => mem_purelyNullable_of_mem_rhs mem lhs
    refine stabilize_induction
      (motive := fun set => ∀ s, s ∈ ps.purelyNullable → s ∈ set) ?_ ?_ v pure
    · exact fun s => mem_nullable_of_mem_purelyNullable
    · exact fun set sub => mem_foldl_dropImpure closed sub

/--
Taking variables away one after another leaves the same ones, in the same order, as taking away all
at once that lead out of the set.
-/
theorem pureRest_eq : ps.pureRest = ps.purelyNullable := by
  have taken (set : OrderedSet Symbol) : (ps.closedPart set).toList.Sublist set.toList :=
    List.filter_sublist
  exact OrderedSet.eq_of_sublist_of_equiv ps.sublist_pureRest (OrderedSet.sublist_stabilize taken)
    fun _ => ps.mem_pureRest_iff

theorem exists_repeatsIn_purelyNullable :
    ∃ n ≤ ps.nullable.size + 1, RepeatsIn ps.impurePass n ps.nullable ps.purelyNullable := by
  rw [← pureRest_eq]
  exact exists_repeatsIn_stabilize (fun _ => True) OrderedSet.size trivial (fun _ _ => trivial)
    (fun set _ => OrderedSet.size_lt_of_sublist (sublist_foldl_dropImpure ps.toList set))
    (Nat.le_refl _) impurePass_eq

end Search

theorem mem_purelyNullable_iff :
    v ∈ ps.purelyNullable ↔ v ∈ ps.nullable ∧ ∀ s, ps.Needs v s → s ∈ ps.nullable := by
  constructor
  · intro pure
    have reached : ∀ s, ps.Needs v s → s ∈ ps.purelyNullable := by
      intro s needed
      induction needed with
      | refl => exact pure
      | step _ mem _ occurs ih => exact mem_purelyNullable_of_mem_rhs mem ih occurs
    exact ⟨mem_nullable_of_mem_purelyNullable pure,
      fun s needed => mem_nullable_of_mem_purelyNullable (reached s needed)⟩
  · rintro ⟨_, reached⟩
    have closed : ∀ t, ps.Needs v t → ∀ p ∈ ps, p.lhs = t → ∀ s ∈ p.rhs, ps.Needs v s := by
      rintro _ needed p mem rfl s occurs
      exact needed.occurs mem occurs
    exact mem_purelyNullable_of_closed reached closed .refl

theorem yields_iff_of_mem_purelyNullable {w : List Symbol} (pure : v ∈ ps.purelyNullable) :
    Yields ps ps.vars v w ↔ w = [] := by
  have isNullable := mem_nullable_of_mem_purelyNullable pure
  rw [yields_iff_spells (mem_vars_of_mem_nullable isNullable)]
  constructor
  · intro spelled
    exact spelled.eq_nil_of_mem_purelyNullable (fun _ hv => hv) pure
  · rintro rfl
    exact spells_nil_of_mem_nullable isNullable

theorem exists_yields_of_not_mem_purelyNullable (isNullable : v ∈ ps.nullable)
    (impure : ¬ v ∈ ps.purelyNullable)
    (productive : ∀ s, ps.Needs v s → ¬ s ∈ ps.vars ∨ ∃ w, Yields ps ps.vars s w) :
    ∃ w, w ≠ [] ∧ Yields ps ps.vars v w := by
  have spelled : ∀ s, ps.Needs v s → ∃ w, Spells ps ps.vars [s] w := by
    intro s needed
    by_cases isVar : s ∈ ps.vars
    · simpa only [yields_iff_spells isVar] using (productive s needed).resolve_left (· isVar)
    · exact ⟨[s], .singleton isVar⟩
  apply Classical.byContradiction
  intro none
  refine impure (mem_purelyNullable_of_productive spelled .refl fun w hw => ?_)
  apply Classical.byContradiction
  intro notEmpty
  exact none ⟨w, notEmpty, (yields_iff_spells (mem_vars_of_mem_nullable isNullable)).2 hw⟩

/--
The search is over after one pass more than there are nullable variables at the latest. What is left
then are the nullable variables from which nothing but nullable variables can be reached. Each of them
derives the empty word and no other one, whereas a nullable variable that has been taken away derives
another one as well, if only it does not reach a variable without words.
-/
theorem purelyNullable_exact (ps : Productions) :
    (∃ n ≤ ps.nullable.size + 1, RepeatsIn ps.impurePass n ps.nullable ps.purelyNullable) ∧
      (∀ n rest, RepeatsIn ps.impurePass n ps.nullable rest → rest = ps.purelyNullable) ∧
      (∀ v, v ∈ ps.purelyNullable ↔ v ∈ ps.nullable ∧ ∀ s, ps.Needs v s → s ∈ ps.nullable) ∧
      (∀ v ∈ ps.purelyNullable, ∀ w, Yields ps ps.vars v w ↔ w = []) ∧
      ∀ v ∈ ps.nullable, ¬ v ∈ ps.purelyNullable →
        (∀ s, ps.Needs v s → ¬ s ∈ ps.vars ∨ ∃ w, Yields ps ps.vars s w) →
        ∃ w, w ≠ [] ∧ Yields ps ps.vars v w := by
  obtain ⟨n, few, search⟩ := exists_repeatsIn_purelyNullable ps
  refine ⟨⟨n, few, search⟩, fun m rest other => (other.unique search).2, ?_, ?_, ?_⟩
  · intro v
    exact mem_purelyNullable_iff
  · intro v pure w
    exact yields_iff_of_mem_purelyNullable pure
  · intro v isNullable impure productive
    exact exists_yields_of_not_mem_purelyNullable isNullable impure productive

/--
`C` can be erased, but it also derives `c`.
-/
example :
    (purelyNullable (.ofList
      [.ofNames "S" ["A", "x"], .ofNames "A" ["B"], .ofNames "A" ["A"], .ofNames "B" [],
        .ofNames "C" ["B"], .ofNames "C" ["c"]])).toList = [⟨"B"⟩, ⟨"A"⟩] := by
  decide

end Productions

end ContextFree
