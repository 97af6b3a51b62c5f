import ContextFree.OrderedMap.Basic
import Mathlib.Data.List.Nodup

/-!
This module contains what ordered maps are used for: when the elements of a list are taken into the
values of their keys one after another, the list comes out in groups, each in the place of its first
element.
-/

namespace ContextFree

namespace OrderedMap

universe u v w

variable {κ : Type u} {β : Type v} {ι : Type w} [DecidableEq κ]

variable {m : OrderedMap κ β} {k : κ} {b init : β}

theorem get?_eq_some_iff : m.get? k = some b ↔ (k, b) ∈ m.entries := by
  rw [get?, Option.map_eq_some_iff]
  constructor
  · rintro ⟨entry, found, rfl⟩
    obtain rfl : entry.1 = k := by simpa using List.find?_some found
    exact List.mem_of_find?_eq_some found
  · intro mem
    have some : (m.entries.find? (·.1 = k)).isSome := List.find?_isSome.2 ⟨_, mem, by simp⟩
    obtain ⟨entry, found⟩ := Option.isSome_iff_exists.1 some
    have same : entry.1 = k := by simpa using List.find?_some found
    have only := List.inj_on_of_nodup_map m.nodup (List.mem_of_find?_eq_some found) mem same
    exact ⟨entry, found, by rw [only]⟩

theorem entries_alter_of_mem (h : k ∈ m.keys) (init : β) (f : β → β) :
    (m.alter k init f).entries =
      m.entries.map fun entry => if entry.1 = k then (k, f entry.2) else entry := by
  rw [alter, dif_pos h]

theorem entries_alter_of_not_mem (h : ¬ k ∈ m.keys) (init : β) (f : β → β) :
    (m.alter k init f).entries = m.entries ++ [(k, f init)] := by
  rw [alter, dif_neg h]

section Collect

variable {key : ι → κ} {add : β → ι → β} {before : List ι}

/--
The keys of the elements, each with what its own elements make of `init`.
-/
def gather (key : ι → κ) (init : β) (add : β → ι → β) (l : List ι) : List (κ × β) :=
  (l.map key).eraseDups.map fun k => (k, (l.filter (key · = k)).foldl add init)

theorem map_fst_gather (l : List ι) :
    (gather key init add l).map Prod.fst = (l.map key).eraseDups := by
  rw [gather, List.map_map]
  exact List.map_id _

theorem eraseDups_append_singleton (l : List κ) (k : κ) :
    (l ++ [k]).eraseDups = if k ∈ l then l.eraseDups else l.eraseDups ++ [k] := by
  rw [List.eraseDups_append]
  split
  · rename_i known
    simp [List.removeAll, known]
  · rename_i new
    simp [List.removeAll, new, List.eraseDups_cons]

theorem foldl_filter_append_singleton (x : ι) :
    ((before ++ [x]).filter (key · = k)).foldl add init =
      if k = key x then add ((before.filter (key · = k)).foldl add init) x
      else (before.filter (key · = k)).foldl add init := by
  rw [List.filter_append, List.foldl_append]
  by_cases same : k = key x
  · subst same
    simp
  · simp [same, Ne.symm same]

/--
If the entries are gathered from the elements so far, then one more element changes both alike.
-/
theorem entries_alter (h : m.entries = gather key init add before) (x : ι) :
    (m.alter (key x) init (add · x)).entries = gather key init add (before ++ [x]) := by
  have keys : key x ∈ m.keys ↔ key x ∈ before.map key := by
    rw [OrderedMap.keys, h, map_fst_gather, List.mem_eraseDups]
  rw [gather, List.map_append, List.map_singleton, eraseDups_append_singleton]
  by_cases known : key x ∈ before.map key
  · rw [entries_alter_of_mem (keys.2 known), if_pos known, h, gather, List.map_map]
    refine List.map_congr_left fun k _ => ?_
    rw [Function.comp_apply, foldl_filter_append_singleton]
    split
    · rename_i same
      obtain rfl : k = key x := same
      rfl
    · rfl
  · have none : before.filter (key · = key x) = [] := by
      refine List.filter_eq_nil_iff.2 fun y mem same => known ?_
      exact List.mem_map.2 ⟨y, mem, of_decide_eq_true same⟩
    rw [entries_alter_of_not_mem (mt keys.1 known), if_neg known, h, gather, List.map_append,
      List.map_singleton, foldl_filter_append_singleton, if_pos rfl, none]
    congr 1
    refine List.map_congr_left fun k mem => ?_
    have other : k ≠ key x := by
      rintro rfl
      exact known (List.mem_eraseDups.1 mem)
    rw [foldl_filter_append_singleton, if_neg other]

theorem entries_foldl_alter (h : m.entries = gather key init add before) (l : List ι) :
    (l.foldl (fun m x => m.alter (key x) init (add · x)) m).entries =
      gather key init add (before ++ l) := by
  induction l generalizing m before with
  | nil => rw [List.append_nil]; exact h
  | cons x l ih => rw [List.foldl_cons, ih (entries_alter h x), List.append_assoc]; rfl

/--
What is collected from all elements one after another is gathered from the elements of each key.
-/
theorem entries_collect (l : List ι) :
    (collect key init add l).entries = gather key init add l := by
  have nothing : (∅ : OrderedMap κ β).entries = gather key init add [] := rfl
  exact entries_foldl_alter nothing l

theorem get?_collect (l : List ι) (k : κ) : (collect key init add l).get? k =
    if k ∈ l.map key then some ((l.filter (key · = k)).foldl add init) else none := by
  have found (b : β) : (collect key init add l).get? k = some b ↔
      k ∈ l.map key ∧ (l.filter (key · = k)).foldl add init = b := by
    rw [get?_eq_some_iff, entries_collect, gather, List.mem_map]
    simp only [Prod.mk.injEq, List.mem_eraseDups]
    constructor
    · rintro ⟨_, known, rfl, rfl⟩
      exact ⟨known, rfl⟩
    · rintro ⟨known, rfl⟩
      exact ⟨k, known, rfl, rfl⟩
  split
  · rename_i known
    exact (found _).2 ⟨known, rfl⟩
  · rename_i unknown
    exact Option.eq_none_iff_forall_ne_some.2 fun b some => unknown ((found b).1 some).1

end Collect

end OrderedMap

end ContextFree
