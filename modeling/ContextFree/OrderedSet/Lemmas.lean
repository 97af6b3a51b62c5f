import ContextFree.OrderedSet.Basic

/-!
This module contains what each operation on ordered sets does to membership and to the list of
the elements.
-/

namespace ContextFree

namespace OrderedSet

universe u v

variable {α : Type u} {β : Type v}

theorem mem_toList {s : OrderedSet α} {a : α} : a ∈ s.toList ↔ a ∈ s :=
  Iff.rfl

@[ext]
theorem ext_toList {s t : OrderedSet α} (h : s.toList = t.toList) : s = t := by
  cases s
  cases t
  cases h
  rfl

@[simp]
theorem toList_empty : (∅ : OrderedSet α).toList = [] :=
  rfl

@[simp]
theorem not_mem_empty (a : α) : ¬ a ∈ (∅ : OrderedSet α) :=
  List.not_mem_nil

@[simp]
theorem toList_filter (p : α → Bool) (s : OrderedSet α) :
    (s.filter p).toList = s.toList.filter p :=
  rfl

@[simp]
theorem mem_filter {p : α → Bool} {s : OrderedSet α} {a : α} :
    a ∈ s.filter p ↔ a ∈ s ∧ p a = true :=
  List.mem_filter

theorem equiv_iff_perm {s t : OrderedSet α} : s ≈ t ↔ s.toList.Perm t.toList :=
  (List.perm_ext_iff_of_nodup s.nodup t.nodup).symm

theorem size_eq_of_equiv {s t : OrderedSet α} (h : s ≈ t) : s.size = t.size :=
  (equiv_iff_perm.1 h).length_eq

theorem size_le_of_subset {s t : OrderedSet α} (h : ∀ a, a ∈ s → a ∈ t) : s.size ≤ t.size :=
  s.nodup.length_le_of_subset fun _ => h _

theorem size_lt_of_sublist {s t : OrderedSet α} (h : s.toList.Sublist t.toList) (ne : s ≠ t) :
    s.size < t.size :=
  Nat.lt_of_le_of_ne h.length_le fun same => ne (ext_toList (h.eq_of_length same))

theorem size_filter_lt {p : α → Bool} {s : OrderedSet α} (h : s.filter p ≠ s) :
    (s.filter p).size < s.size :=
  size_lt_of_sublist List.filter_sublist h

theorem toList_filter_eq_singleton_iff {p : α → Bool} {s : OrderedSet α} {a : α} :
    s.toList.filter p = [a] ↔ ∀ b, b ∈ s ∧ p b = true ↔ b = a := by
  have single : [a].Nodup := List.pairwise_singleton _ a
  rw [← List.perm_singleton, List.perm_ext_iff_of_nodup (s.nodup.filter p) single]
  simp only [List.mem_filter, List.mem_singleton, mem_toList]

theorem lt_size_of_get? {s : OrderedSet α} {a : α} {i : Nat} (h : s.get? i = some a) : i < s.size :=
  (List.getElem?_eq_some_iff.1 h).1

theorem get?_injective {s : OrderedSet α} {a : α} {i n : Nat} (h : s.get? i = some a)
    (h' : s.get? n = some a) : i = n :=
  (List.getElem?_inj (lt_size_of_get? h) s.nodup).1 (h.trans h'.symm)

theorem exists_get? {s : OrderedSet α} {i : Nat} (h : i < s.size) : ∃ a, s.get? i = some a :=
  ⟨_, List.getElem?_eq_getElem h⟩

section DecidableEq

variable [DecidableEq α]

theorem insert_of_mem {s : OrderedSet α} {a : α} (h : a ∈ s) : s.insert a = s :=
  dif_pos h

theorem toList_insert_of_not_mem {s : OrderedSet α} {a : α} (h : ¬ a ∈ s) :
    (s.insert a).toList = s.toList ++ [a] := by
  have h : ¬ a ∈ s.toList := h
  rw [insert, dif_neg h]

@[simp]
theorem mem_insert {s : OrderedSet α} {a b : α} : b ∈ s.insert a ↔ b ∈ s ∨ b = a := by
  by_cases h : a ∈ s
  · rw [insert_of_mem h]
    exact ⟨Or.inl, fun hb => hb.elim id (fun e => e ▸ h)⟩
  · rw [← mem_toList, toList_insert_of_not_mem h, List.mem_append, List.mem_singleton, mem_toList]

theorem size_insert_of_not_mem {s : OrderedSet α} {a : α} (h : ¬ a ∈ s) :
    (s.insert a).size = s.size + 1 := by
  simp [size, toList_insert_of_not_mem h]

theorem toList_foldl_insert {s : OrderedSet α} {l : List α}
    (h : (s.toList ++ l).Nodup) : (l.foldl OrderedSet.insert s).toList = s.toList ++ l := by
  induction l generalizing s with
  | nil => simp
  | cons a l ih =>
    have new : ¬ a ∈ s := fun ha =>
      (List.nodup_append.1 h).2.2 a ha a List.mem_cons_self rfl
    have appended := toList_insert_of_not_mem new
    rw [List.foldl_cons, ih (by rw [appended]; simpa using h), appended]
    simp

@[simp]
theorem mem_erase {s : OrderedSet α} {a b : α} : b ∈ s.erase a ↔ b ∈ s ∧ b ≠ a := by
  simp [erase]

theorem filter_mem_of_sublist {l m : List α} (h : l.Sublist m) (nodup : m.Nodup) :
    m.filter (· ∈ l) = l := by
  induction h with
  | slnil => rfl
  | @cons l m a h ih =>
    obtain ⟨new, nodup⟩ := List.nodup_cons.1 nodup
    have unused : ¬ a ∈ l := fun mem => new (h.subset mem)
    rw [List.filter_cons_of_neg (by simpa using unused), ih nodup]
  | @cons_cons l m a h ih =>
    obtain ⟨new, nodup⟩ := List.nodup_cons.1 nodup
    have same : m.filter (· ∈ a :: l) = m.filter (· ∈ l) := by
      refine List.filter_congr fun b mem => ?_
      have ne : b ≠ a := fun same => new (same ▸ mem)
      simp [ne]
    rw [List.filter_cons_of_pos (by simp), same, ih nodup]

/--
Sets that list elements of one and the same set in its order are equal as soon as they are equivalent.
-/
theorem eq_of_sublist_of_equiv {s t u : OrderedSet α} (hs : s.toList.Sublist u.toList)
    (ht : t.toList.Sublist u.toList) (same : s ≈ t) : s = t := by
  apply ext_toList
  rw [← filter_mem_of_sublist hs u.nodup, ← filter_mem_of_sublist ht u.nodup]
  refine List.filter_congr fun a _ => ?_
  rw [decide_eq_decide]
  exact same a

end DecidableEq

variable [Ord α] [Std.TransOrd α] [Std.LawfulEqOrd α]

theorem Growing.toSet_insert [DecidableEq α] (g : Growing α) (a : α) :
    (g.insert a).toSet = g.toSet.insert a := by
  have mem_toSet : a ∈ g.toSet ↔ a ∈ g.tree := by
    rw [g.mem_tree, ← mem_toList, toSet, List.mem_reverse]
  by_cases h : a ∈ g.tree
  · rw [insert_of_mem (mem_toSet.2 h), Growing.insert, dif_pos h]
  · apply ext_toList
    rw [toList_insert_of_not_mem (fun ha => h (mem_toSet.1 ha)), Growing.insert, dif_neg h]
    simp [toSet]

theorem Growing.toSet_foldl_insert [DecidableEq α] (g : Growing α) (l : List α) :
    (l.foldl Growing.insert g).toSet = l.foldl OrderedSet.insert g.toSet := by
  induction l generalizing g with
  | nil => rfl
  | cons a l ih => rw [List.foldl_cons, ih, Growing.toSet_insert, List.foldl_cons]

theorem ofList_eq_foldl [DecidableEq α] (l : List α) :
    ofList l = l.foldl OrderedSet.insert ∅ :=
  Growing.toSet_foldl_insert .empty l

theorem toList_ofList {l : List α} (h : l.Nodup) : (ofList l).toList = l := by
  classical
  rw [ofList_eq_foldl]
  exact toList_foldl_insert h

theorem toList_foldl_insert_eq [DecidableEq α] (s : OrderedSet α) (l : List α) :
    (l.foldl OrderedSet.insert s).toList = s.toList ++ (l.filter (· ∉ s)).eraseDups := by
  induction l generalizing s with
  | nil => simp
  | cons a l ih =>
    rw [List.foldl_cons, ih]
    by_cases h : a ∈ s
    · rw [insert_of_mem h, List.filter_cons_of_neg (by simpa using h)]
    · have later : l.filter (· ∉ s.insert a) = (l.filter (· ∉ s)).filter fun b => !b == a := by
        rw [List.filter_filter]
        refine List.filter_congr fun b _ => ?_
        by_cases same : b = a <;> simp [same]
      rw [toList_insert_of_not_mem h, later, List.filter_cons_of_pos (by simpa using h),
        List.eraseDups_cons, List.append_assoc, List.singleton_append]

/--
Of copies of one element the first one counts.
-/
theorem toList_ofList_eq_eraseDups [DecidableEq α] (l : List α) :
    (ofList l).toList = l.eraseDups := by
  rw [ofList_eq_foldl, toList_foldl_insert_eq, toList_empty, List.nil_append,
    List.filter_eq_self.2 (by simp)]

@[simp]
theorem ofList_toList (s : OrderedSet α) : ofList s.toList = s :=
  ext_toList (toList_ofList s.nodup)

theorem insertMany_eq_foldl [DecidableEq α] (s : OrderedSet α) (l : List α) :
    s.insertMany l = l.foldl OrderedSet.insert s := by
  rw [insertMany, ofList_eq_foldl, List.foldl_append, ← ofList_eq_foldl, ofList_toList]

@[simp]
theorem insertMany_nil (s : OrderedSet α) : s.insertMany [] = s := by
  classical
  exact insertMany_eq_foldl s []

theorem insertMany_cons [DecidableEq α] (s : OrderedSet α) (a : α) (l : List α) :
    s.insertMany (a :: l) = (s.insert a).insertMany l := by
  rw [insertMany_eq_foldl, insertMany_eq_foldl, List.foldl_cons]

theorem insertMany_append (s : OrderedSet α) (l m : List α) :
    s.insertMany (l ++ m) = (s.insertMany l).insertMany m := by
  classical
  simp only [insertMany_eq_foldl, List.foldl_append]

@[simp]
theorem mem_insertMany {s : OrderedSet α} {l : List α} {a : α} :
    a ∈ s.insertMany l ↔ a ∈ s ∨ a ∈ l := by
  classical
  induction l generalizing s with
  | nil => simp
  | cons b l ih => simp [insertMany_cons, ih, or_assoc]

@[simp]
theorem mem_ofList {l : List α} {a : α} : a ∈ ofList l ↔ a ∈ l := by
  have := mem_insertMany (s := ∅) (l := l) (a := a)
  simpa [insertMany] using this

theorem insertMany_of_forall_mem {s : OrderedSet α} {l : List α} (h : ∀ a ∈ l, a ∈ s) :
    s.insertMany l = s := by
  classical
  induction l with
  | nil => exact insertMany_nil s
  | cons a l ih =>
    obtain ⟨ha, hl⟩ := List.forall_mem_cons.1 h
    rw [insertMany_cons, insert_of_mem ha, ih hl]

/--
An element in place of which there are only copies of it is inserted just the same.
-/
theorem insertMany_flatMap {copies : α → List α} {l : List α}
    (h : ∀ a ∈ l, copies a ≠ [] ∧ ∀ b ∈ copies a, b = a) (s : OrderedSet α) :
    s.insertMany (l.flatMap copies) = s.insertMany l := by
  classical
  induction l generalizing s with
  | nil => rfl
  | cons a l ih =>
    obtain ⟨⟨notEmpty, same⟩, hl⟩ := List.forall_mem_cons.1 h
    obtain ⟨b, more, split⟩ := List.exists_cons_of_ne_nil notEmpty
    rw [split] at same
    obtain ⟨rfl, same⟩ := List.forall_mem_cons.1 same
    have present : ∀ c ∈ more, c ∈ s.insert b := fun c hc => mem_insert.2 (.inr (same c hc))
    rw [List.flatMap_cons, insertMany_append, split, insertMany_cons,
      insertMany_of_forall_mem present, ih hl, insertMany_cons]

theorem ofList_flatMap {copies : α → List α} {l : List α}
    (h : ∀ a ∈ l, copies a ≠ [] ∧ ∀ b ∈ copies a, b = a) :
    ofList (l.flatMap copies) = ofList l :=
  insertMany_flatMap h ∅

theorem toList_prefix_insertMany (s : OrderedSet α) (l : List α) :
    s.toList <+: (s.insertMany l).toList := by
  classical
  rw [insertMany_eq_foldl, toList_foldl_insert_eq]
  exact List.prefix_append s.toList _

theorem size_lt_insertMany {s : OrderedSet α} {l : List α} (h : s.insertMany l ≠ s) :
    s.size < (s.insertMany l).size := by
  classical
  induction l generalizing s with
  | nil => exact absurd (insertMany_nil s) h
  | cons a l ih =>
    rw [insertMany_cons] at h ⊢
    by_cases ha : a ∈ s
    · rw [insert_of_mem ha] at h ⊢
      exact ih h
    · calc
        s.size < (s.insert a).size := by rw [size_insert_of_not_mem ha]; omega
        _ ≤ ((s.insert a).insertMany l).size :=
          size_le_of_subset fun _ h => mem_insertMany.2 (.inl h)

@[simp]
theorem mem_map {f : β → α} {s : OrderedSet β} {a : α} :
    a ∈ s.map f ↔ ∃ b, b ∈ s ∧ f b = a := by
  simp [map, mem_toList]

theorem toList_map {f : β → α} (s : OrderedSet β) (inj : ∀ a b, f a = f b → a = b) :
    (s.map f).toList = s.toList.map f := by
  refine toList_ofList ?_
  rw [List.Nodup, List.pairwise_map]
  exact s.nodup.imp fun ne e => ne (inj _ _ e)

end OrderedSet

end ContextFree
