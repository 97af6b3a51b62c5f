/-!
This module contains maps that remember the order in which their keys were first used.
-/

namespace ContextFree

universe u v w

/--
A finite map, listed in the order in which its keys were first used.
-/
structure OrderedMap (κ : Type u) (β : Type v) where
  entries : List (κ × β)
  nodup : (entries.map Prod.fst).Nodup
  deriving DecidableEq

namespace OrderedMap

variable {κ : Type u} {β : Type v} {ι : Type w}

instance : EmptyCollection (OrderedMap κ β) where
  emptyCollection := ⟨[], List.nodup_nil⟩

def keys (m : OrderedMap κ β) : List κ :=
  m.entries.map Prod.fst

variable [DecidableEq κ]

def get? (m : OrderedMap κ β) (k : κ) : Option β :=
  (m.entries.find? (·.1 = k)).map Prod.snd

theorem map_fst_map_ite (entries : List (κ × β)) (k : κ) (f : β → β) :
    (entries.map fun entry => if entry.1 = k then (k, f entry.2) else entry).map Prod.fst =
      entries.map Prod.fst := by
  rw [List.map_map]
  refine List.map_congr_left fun entry _ => ?_
  rw [Function.comp_apply]
  split
  · rename_i same
    exact same.symm
  · rfl

/--
Change the value of a key. A key that is new is put at the end, with what `init` is changed to.
-/
def alter (m : OrderedMap κ β) (k : κ) (init : β) (f : β → β) : OrderedMap κ β :=
  if h : k ∈ m.keys then
    { entries := m.entries.map fun entry => if entry.1 = k then (k, f entry.2) else entry
      nodup := by
        rw [map_fst_map_ite]
        exact m.nodup }
  else
    { entries := m.entries ++ [(k, f init)]
      nodup := by
        rw [List.map_append, List.nodup_append]
        refine ⟨m.nodup, List.pairwise_singleton _ _, ?_⟩
        rintro a ha b hb rfl
        obtain rfl : a = k := by simpa using hb
        exact h ha }

/--
Take the elements of a list into the values of their keys, one after another, starting from `init`.
-/
def collect (key : ι → κ) (init : β) (add : β → ι → β) (l : List ι) : OrderedMap κ β :=
  l.foldl (fun m x => m.alter (key x) init (add · x)) ∅

end OrderedMap

end ContextFree
