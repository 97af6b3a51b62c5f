import Std.Data.TreeSet.Lemmas

/-!
This module contains sets that remember the order in which their elements were first inserted.
The order is part of the value, so that it can be shown and relied on, but two sets are equivalent
(`≈`) as soon as they have the same elements.
-/

namespace ContextFree

universe u v

/--
A finite set, listed in the order in which its elements were first inserted.
-/
structure OrderedSet (α : Type u) where
  toList : List α
  nodup : toList.Nodup
  deriving DecidableEq

namespace OrderedSet

variable {α : Type u}

instance : EmptyCollection (OrderedSet α) where
  emptyCollection := ⟨[], List.nodup_nil⟩

instance : Inhabited (OrderedSet α) where
  default := ∅

instance : Membership α (OrderedSet α) where
  mem s a := a ∈ s.toList

instance [DecidableEq α] (a : α) (s : OrderedSet α) : Decidable (a ∈ s) :=
  inferInstanceAs (Decidable (a ∈ s.toList))

/--
The sets have the same elements, whatever their order.
-/
instance : Setoid (OrderedSet α) where
  r s t := ∀ a, a ∈ s ↔ a ∈ t
  iseqv := {
    refl := fun _ _ => Iff.rfl
    symm := fun h a => (h a).symm
    trans := fun h h' a => (h a).trans (h' a)
  }

theorem equiv_iff {s t : OrderedSet α} : s ≈ t ↔ ∀ a, a ∈ s ↔ a ∈ t :=
  Iff.rfl

instance [DecidableEq α] (s t : OrderedSet α) : Decidable (s ≈ t) :=
  decidable_of_iff ((∀ a ∈ s.toList, a ∈ t) ∧ (∀ a ∈ t.toList, a ∈ s))
    ⟨fun h a => ⟨h.1 a, h.2 a⟩, fun h => ⟨fun a => (h a).1, fun a => (h a).2⟩⟩

def size (s : OrderedSet α) : Nat :=
  s.toList.length

/--
The element at a position of the order, counted from 0.
-/
def get? (s : OrderedSet α) (i : Nat) : Option α :=
  s.toList[i]?

def filter (p : α → Bool) (s : OrderedSet α) : OrderedSet α :=
  ⟨s.toList.filter p, s.nodup.filter p⟩

section DecidableEq

variable [DecidableEq α]

/--
Add an element at the end, unless the set has it already.
-/
def insert (s : OrderedSet α) (a : α) : OrderedSet α :=
  if h : a ∈ s.toList then
    s
  else
    ⟨s.toList ++ [a], by
      rw [List.nodup_append]
      refine ⟨s.nodup, by simp, ?_⟩
      intro b hb c hc
      rw [List.mem_singleton] at hc
      rintro rfl
      exact h (hc ▸ hb)⟩

def erase (s : OrderedSet α) (a : α) : OrderedSet α :=
  s.filter (· ≠ a)

end DecidableEq

variable [Ord α] [Std.TransOrd α] [Std.LawfulEqOrd α]

variable (α) in
/--
An ordered set while elements are added to it: its elements, the last one first, and beside them a
search tree that tells quickly whether an element is new.
-/
structure Growing where
  reversed : List α
  tree : Std.TreeSet α
  nodup : reversed.Nodup
  mem_tree : ∀ a, a ∈ tree ↔ a ∈ reversed

namespace Growing

def empty : Growing α where
  reversed := []
  tree := ∅
  nodup := List.nodup_nil
  mem_tree a := by simp

/--
Add an element, unless it is there already.
-/
def insert (g : Growing α) (a : α) : Growing α :=
  if h : a ∈ g.tree then
    g
  else
    { reversed := a :: g.reversed
      tree := g.tree.insert a
      nodup := List.nodup_cons.2 ⟨fun ha => h ((g.mem_tree a).2 ha), g.nodup⟩
      mem_tree := fun b => by
        rw [Std.TreeSet.mem_insert, Std.LawfulEqOrd.compare_eq_iff_eq, List.mem_cons, g.mem_tree,
          eq_comm] }

/--
The elements in the order in which they were added.
-/
def toSet (g : Growing α) : OrderedSet α where
  toList := g.reversed.reverse
  nodup := List.pairwise_reverse.2 (g.nodup.imp Ne.symm)

end Growing

/--
The set of the elements of a list, each at the place of its first occurrence.
-/
def ofList (l : List α) : OrderedSet α :=
  (l.foldl Growing.insert .empty).toSet

/--
Insert the elements of a list one after another.
-/
def insertMany (s : OrderedSet α) (l : List α) : OrderedSet α :=
  ofList (s.toList ++ l)

/--
The set of the images of the elements; of those with the same image the first one counts.
-/
def map {β : Type v} (f : β → α) (s : OrderedSet β) : OrderedSet α :=
  ofList (s.toList.map f)

end OrderedSet

end ContextFree
