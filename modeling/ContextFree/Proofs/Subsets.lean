import ContextFree.OrderedSet.Lemmas
import ContextFree.OrderedSet.PowerSet
import Mathlib.Data.List.Basic
import Mathlib.Data.Nat.Bitwise

/-!
This module contains that the numbers of subsets are the binary numerals that they are meant to be:
the numbers below a power of two are one for each subset, and the words of 64 bits that stand for
them are wide enough. A list that is long enough for all subsets gives out before the words do.
-/

namespace ContextFree

namespace OrderedSet

universe u

variable {α : Type u} {s t : OrderedSet α} {a : α} {m n i : Nat}

/--
A subset with its elements in the order of the set, which has those at the positions whose bits are
set in the number.
-/
structure Numbered (s : OrderedSet α) (m : Nat) (t : OrderedSet α) : Prop where
  order : t.toList.Sublist s.toList
  bits : ∀ i a, s.get? i = some a → (a ∈ t ↔ m.testBit i = true)

/--
The elements at the positions at which a shifted bit meets one of the word.
-/
def selectedBy (s : OrderedSet α) (word : UInt64) : List α :=
  (s.toList.zipIdx.filter fun entry => word &&& 1 <<< UInt64.ofNat entry.2 ≠ 0).map Prod.fst

/--
What the words select, counted up as far as the word that has nothing but the bit behind the last
position.
-/
def wordSubsets (s : OrderedSet α) : List (List α) :=
  (List.range (1 <<< UInt64.ofNat s.size : UInt64).toNat).map fun m => s.selectedBy (.ofNat m)

section Bits

theorem toList_subset (s : OrderedSet α) (m : Nat) : (s.subset m).toList =
    (s.toList.zipIdx.filter fun entry => m.testBit entry.2).map Prod.fst :=
  rfl

theorem sublist_subset (s : OrderedSet α) (m : Nat) : (s.subset m).toList.Sublist s.toList := by
  have kept : ((s.toList.zipIdx.filter fun entry => m.testBit entry.2).map Prod.fst).Sublist
      (s.toList.zipIdx.map Prod.fst) := List.filter_sublist.map Prod.fst
  rwa [List.zipIdx_map_fst] at kept

theorem mem_subset_iff : a ∈ s.subset m ↔ ∃ i, s.get? i = some a ∧ m.testBit i = true := by
  rw [← mem_toList, subset]
  simp [List.mem_zipIdx_iff_getElem?, get?]

theorem numbered_subset (s : OrderedSet α) (m : Nat) : s.Numbered m (s.subset m) := by
  refine ⟨sublist_subset s m, fun i a at_i => ?_⟩
  rw [mem_subset_iff]
  constructor
  · rintro ⟨j, at_j, set⟩
    rwa [get?_injective at_i at_j]
  · intro set
    exact ⟨i, at_i, set⟩

/--
A number has no bits behind the last position, so that those of the elements tell which number it
is.
-/
theorem subset_injective (hm : m < 2 ^ s.size) (hn : n < 2 ^ s.size)
    (same : s.subset m ≈ s.subset n) : m = n := by
  apply Nat.eq_of_testBit_eq
  intro i
  by_cases inside : i < s.size
  · obtain ⟨a, at_i⟩ := exists_get? inside
    rw [Bool.eq_iff_iff, ← (numbered_subset s m).bits i a at_i,
      ← (numbered_subset s n).bits i a at_i]
    exact same a
  · have power : 2 ^ s.size ≤ 2 ^ i := Nat.pow_le_pow_right Nat.two_pos (Nat.le_of_not_lt inside)
    rw [Nat.testBit_lt_two_pow (Nat.lt_of_lt_of_le hm power),
      Nat.testBit_lt_two_pow (Nat.lt_of_lt_of_le hn power)]

/--
The number of a subset is made of a bit for each position.
-/
theorem exists_subset_equiv (sub : ∀ a ∈ t, a ∈ s) : ∃ m < 2 ^ s.size, t ≈ s.subset m := by
  classical
  refine ⟨Nat.ofBits fun i : Fin s.size => decide (∃ a, s.get? i = some a ∧ a ∈ t),
    Nat.ofBits_lt_two_pow _, fun a => ?_⟩
  rw [mem_subset_iff]
  constructor
  · intro ha
    obtain ⟨i, at_i⟩ := List.getElem?_of_mem (sub a ha)
    refine ⟨i, at_i, ?_⟩
    rw [Nat.testBit_ofBits_lt _ i (lt_size_of_get? at_i)]
    exact decide_eq_true ⟨a, at_i, ha⟩
  · rintro ⟨i, at_i, set⟩
    rw [Nat.testBit_ofBits_lt _ i (lt_size_of_get? at_i)] at set
    obtain ⟨b, at_i', hb⟩ := of_decide_eq_true set
    rwa [Option.some.inj (at_i.symm.trans at_i')]

theorem subset_zero (s : OrderedSet α) : s.subset 0 = ∅ := by
  apply ext_toList
  simp [subset]

theorem subset_all (s : OrderedSet α) : s.subset (2 ^ s.size - 1) = s := by
  have all : ∀ entry ∈ s.toList.zipIdx, (2 ^ s.size - 1).testBit entry.2 = true := by
    intro entry mem
    rw [Nat.testBit_two_pow_sub_one]
    exact decide_eq_true (lt_size_of_get? (List.mem_zipIdx_iff_getElem?.1 mem))
  apply ext_toList
  rw [toList_subset, List.filter_eq_self.2 all, List.zipIdx_map_fst]

end Bits

section Words

theorem toNat_shiftedBit (h : i < 64) : (1 <<< UInt64.ofNat i : UInt64).toNat = 2 ^ i := by
  have small : 2 ^ i < 2 ^ 64 := Nat.pow_lt_pow_right (by decide) h
  have word : i < 2 ^ 64 := Nat.lt_trans h (by decide)
  rw [UInt64.toNat_shiftLeft, UInt64.toNat_ofNat', Nat.mod_eq_of_lt word, Nat.mod_eq_of_lt h,
    UInt64.toNat_one, Nat.one_shiftLeft, Nat.mod_eq_of_lt small]

theorem meets_shiftedBit_iff (word : UInt64) (h : i < 64) :
    word &&& 1 <<< UInt64.ofNat i ≠ 0 ↔ word.toNat.testBit i = true := by
  have positive : 2 ^ i ≠ 0 := Nat.pos_iff_ne_zero.1 (Nat.two_pow_pos i)
  rw [ne_eq, ← UInt64.toNat_inj, UInt64.toNat_and, toNat_shiftedBit h, Nat.and_two_pow,
    UInt64.toNat_zero, Nat.mul_eq_zero, or_iff_left positive]
  cases word.toNat.testBit i <;> decide

theorem selectedBy_eq (small : s.size < 64) (word : UInt64) :
    s.selectedBy word = (s.subset word.toNat).toList := by
  rw [selectedBy, toList_subset]
  refine congrArg _ (List.filter_congr fun entry mem => ?_)
  have inside := lt_size_of_get? (List.mem_zipIdx_iff_getElem?.1 mem)
  rw [Bool.eq_iff_iff, decide_eq_true_iff]
  exact meets_shiftedBit_iff word (Nat.lt_trans inside small)

theorem wordSubsets_eq (small : s.size < 64) :
    s.wordSubsets = (List.range (2 ^ s.size)).map fun m => (s.subset m).toList := by
  rw [wordSubsets, toNat_shiftedBit small]
  apply List.map_congr_left
  intro m hm
  have fits : m < 2 ^ 64 :=
    Nat.lt_trans (List.mem_range.1 hm) (Nat.pow_lt_pow_right (by decide) small)
  rw [selectedBy_eq small, UInt64.toNat_ofNat', Nat.mod_eq_of_lt fits]

end Words

section PowerSet

theorem le_maxListBytes_iff : 1 <<< n * setBytes ≤ maxListBytes ↔ n < 57 := by
  rw [Nat.one_shiftLeft]
  constructor
  · intro room
    refine Nat.lt_of_not_le fun large => ?_
    have more : 2 ^ 57 * setBytes ≤ 2 ^ n * setBytes :=
      Nat.mul_le_mul_right _ (Nat.pow_le_pow_right Nat.two_pos large)
    exact absurd (Nat.le_trans more room) (by decide)
  · intro small
    have fewer : 2 ^ n * setBytes ≤ 2 ^ 56 * setBytes :=
      Nat.mul_le_mul_right _ (Nat.pow_le_pow_right Nat.two_pos (Nat.le_of_lt_succ small))
    exact Nat.le_trans fewer (by decide)

theorem powerSet_of_lt (small : s.size < 57) :
    s.powerSet = .ok ((List.range (2 ^ s.size)).map s.subset) := by
  have numbered : s.size < maskBits := Nat.lt_trans small (by decide)
  rw [powerSet, if_pos numbered]
  dsimp only
  rw [if_pos (le_maxListBytes_iff.2 small), Nat.one_shiftLeft]

theorem powerSet_of_le_of_lt (large : 57 ≤ s.size) (numbered : s.size < 64) :
    s.powerSet = .error .overCapacity := by
  have numbered : s.size < maskBits := numbered
  rw [powerSet, if_pos numbered]
  exact if_neg (mt le_maxListBytes_iff.1 (Nat.not_lt_of_le large))

theorem getElem?_map_subset_iff :
    ((List.range n).map s.subset)[m]? = some t ↔ m < n ∧ s.subset m = t := by
  rw [List.getElem?_map, Option.map_eq_some_iff]
  constructor
  · rintro ⟨k, at_m, rfl⟩
    obtain ⟨lt, rfl⟩ := List.getElem?_eq_some_iff.1 at_m
    rw [List.length_range] at lt
    rw [List.getElem_range]
    exact ⟨lt, rfl⟩
  · rintro ⟨lt, same⟩
    exact ⟨m, List.getElem?_range lt, same⟩

theorem head?_map_subset : ((List.range (2 ^ n)).map s.subset).head? = some ∅ := by
  rw [List.head?_eq_getElem?, getElem?_map_subset_iff]
  exact ⟨Nat.two_pow_pos n, subset_zero s⟩

theorem getLast?_map_subset :
    ((List.range (2 ^ s.size)).map s.subset).getLast? = some s := by
  have last : 2 ^ s.size - 1 < 2 ^ s.size := Nat.sub_one_lt_of_lt (Nat.two_pow_pos s.size)
  rw [List.getLast?_eq_getElem?, List.length_map, List.length_range, getElem?_map_subset_iff]
  exact ⟨last, subset_all s⟩

/--
A set of fewer than 57 elements has one subset for each number of so many bits. What a bit is set
for and what not is a matter of the position of the element, so that all subsets are there, none of
them twice. A larger set is turned away, whether there are words for the numbers of its subsets or
not.
-/
theorem powerSet_exact (s : OrderedSet α) :
    (s.size < 57 → ∃ subsets : List (OrderedSet α), s.powerSet = .ok subsets ∧
      subsets.length = 2 ^ s.size ∧
      (∀ (m : Nat) t, subsets[m]? = some t → s.Numbered m t) ∧
      (∀ (m n : Nat) (t u : OrderedSet α), subsets[m]? = some t → subsets[n]? = some u →
        t ≈ u → m = n) ∧
      (∀ t : OrderedSet α, (∀ a ∈ t, a ∈ s) → ∃! m : Nat, ∃ u, subsets[m]? = some u ∧ t ≈ u) ∧
      subsets.head? = some ∅ ∧ subsets.getLast? = some s ∧
      subsets.map toList = s.wordSubsets) ∧
    (57 ≤ s.size → s.size < 64 → s.powerSet = .error .overCapacity) ∧
    (64 ≤ s.size → s.powerSet = .error (.overWord s.size)) := by
  refine ⟨fun small => ⟨_, powerSet_of_lt small, ?_⟩, powerSet_of_le_of_lt,
    fun large => if_neg (Nat.not_lt_of_le large)⟩
  simp only [getElem?_map_subset_iff]
  refine ⟨?_, ?_, ?_, ?_, head?_map_subset, getLast?_map_subset, ?_⟩
  · rw [List.length_map, List.length_range]
  · rintro m _ ⟨_, rfl⟩
    exact numbered_subset s m
  · rintro m n _ _ ⟨hm, rfl⟩ ⟨hn, rfl⟩
    exact subset_injective hm hn
  · intro t sub
    obtain ⟨m, lt, same⟩ := exists_subset_equiv sub
    refine ⟨m, ⟨_, ⟨lt, rfl⟩, same⟩, ?_⟩
    rintro n ⟨_, ⟨lt', rfl⟩, same'⟩
    exact subset_injective lt' lt (Setoid.trans (Setoid.symm same') same)
  · rw [wordSubsets_eq (Nat.lt_trans small (by decide)), List.map_map]
    rfl

/--
A word has a bit for each of these numbers, but their subsets are too many for a list.
-/
def manyNumbers : OrderedSet Nat :=
  ⟨List.range 63, List.nodup_range⟩

theorem powerSet_manyNumbers :
    manyNumbers.size < 64 ∧ manyNumbers.powerSet = .error .overCapacity := by
  decide

/--
Three letters, of which the number 5 stands for the first and the last one.
-/
def letters : OrderedSet Char :=
  ⟨['x', 'y', 'z'], by decide⟩

def outerLetters : OrderedSet Char :=
  ⟨['z', 'x'], by decide⟩

set_option maxRecDepth 4000 in
theorem powerSet_exact_letters :
    (∃ subsets : List (OrderedSet Char), letters.powerSet = .ok subsets ∧ subsets.length = 8 ∧
      (∀ t, subsets[5]? = some t → letters.Numbered 5 t) ∧
      (∃! m : Nat, ∃ u, subsets[m]? = some u ∧ outerLetters ≈ u) ∧
      subsets.map toList = letters.wordSubsets) ∧
    letters.wordSubsets =
      [[], ['x'], ['y'], ['x', 'y'], ['z'], ['x', 'z'], ['y', 'z'], ['x', 'y', 'z']] ∧
    (⟨List.range 57, List.nodup_range⟩ : OrderedSet Nat).powerSet = .error .overCapacity ∧
    (⟨List.range 64, List.nodup_range⟩ : OrderedSet Nat).powerSet = .error (.overWord 64) := by
  obtain ⟨subsets, found, length, numbered, _, one, _, _, words⟩ :=
    (powerSet_exact letters).1 (by decide)
  have sub : ∀ a ∈ outerLetters, a ∈ letters := by simp [← mem_toList, outerLetters, letters]
  refine ⟨⟨subsets, found, length, numbered 5, one _ sub, words⟩, by decide, ?_, ?_⟩
  · exact (powerSet_exact _).2.1 (by decide) (by decide)
  · exact (powerSet_exact _).2.2 (by decide)

end PowerSet

end OrderedSet

end ContextFree
