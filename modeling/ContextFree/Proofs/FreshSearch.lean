import ContextFree.Proofs.FreshNames
import Mathlib.Logic.Function.Iterate

/-!
This module contains which name an auxiliary variable gets: the first free one of a sequence of names,
in which a number at the end of the name that is wanted is counted up as far as words of 64 bits go.
Counting with such words comes to a free name before they run out for a second time.
-/

namespace ContextFree

namespace Symbol

/--
The name ends in the number: it is the stem and behind it one or more digits, and the stem does not
end in a digit itself.
-/
def EndsIn (base : Symbol) (stem : String) (n : Nat) : Prop :=
  ∃ digits : List Char, base.name.toList = stem.toList ++ digits ∧ digits ≠ [] ∧
    (∀ c ∈ digits, c.isDigit = true) ∧ (∀ c ∈ stem.toList.getLast?, c.isDigit = false) ∧
    n = Nat.ofDigitChars 10 digits 0

/--
The name followed by 2, 3, and so on.
-/
def continued (base : Symbol) (i : Nat) : Symbol :=
  ⟨base.name ++ toString (2 + i)⟩

/--
The stem followed by `n`, `n + 1`, and so on below `suffixLimit`, and after these the whole name
followed by 2, 3, and so on.
-/
def countedUp (base : Symbol) (stem : String) (n i : Nat) : Symbol :=
  if n + i < suffixLimit then ⟨stem ++ toString (n + i)⟩ else base.continued (n + i - suffixLimit)

/--
The first name of the sequence that is free is the one at `i`.
-/
def FirstFree (used : OrderedSet Symbol) (names : Nat → Symbol) (i : Nat) : Prop :=
  ¬ names i ∈ used ∧ ∀ j < i, names j ∈ used

/--
What is tried next: a number behind a stem.
-/
structure Counter where
  stem : String
  index : UInt64

/--
The next word of 64 bits, if there is one.
-/
def successor? (index : UInt64) : Option UInt64 :=
  if index.toNat + 1 < suffixLimit then some (index + 1) else none

/--
The number that the digits are, if there are any and it is a word of 64 bits.
-/
def readIndex? (digits : List Char) : Option UInt64 :=
  let value := Nat.ofDigitChars 10 digits 0
  if digits ≠ [] ∧ value < suffixLimit then some (.ofNat value) else none

namespace Counter

def name (c : Counter) : Symbol :=
  ⟨c.stem ++ toString c.index.toNat⟩

def start (base : Symbol) : Counter :=
  match readIndex? (trailingDigits base.name.toList) with
  | some index => ⟨String.ofList (Symbol.stem base.name.toList), index⟩
  | none => ⟨base.name, 2⟩

/--
Count up, or begin with 2 behind the whole name if there are no more numbers.
-/
def next (base : Symbol) (c : Counter) : Counter :=
  match successor? c.index with
  | some index => ⟨c.stem, index⟩
  | none => ⟨base.name, 2⟩

end Counter

/--
Try one name after another until one is free. There is no answer if that takes more than `turns`
turns.
-/
def searchFree (used : OrderedSet Symbol) (base : Symbol) : (turns : Nat) → Counter → Option Symbol
  | 0, _ => none
  | turns + 1, c =>
    if c.name ∈ used then searchFree used base turns (c.next base) else some c.name

/--
The search for a free name, if so many turns of it are enough.
-/
def fresh? (used : OrderedSet Symbol) (base : Symbol) (turns : Nat) : Option Symbol :=
  if base ∈ used then searchFree used base turns (.start base) else some base

variable {used : OrderedSet Symbol} {base : Symbol} {stem : String} {names : Nat → Symbol}
  {name digits : List Char} {k n i turns count : Nat}

section Candidates

theorem stem_append_trailingDigits (name : List Char) :
    Symbol.stem name ++ trailingDigits name = name := by
  rw [Symbol.stem, trailingDigits, ← List.reverse_append, List.takeWhile_append_dropWhile,
    List.reverse_reverse]

theorem isDigit_of_mem_trailingDigits : ∀ c ∈ trailingDigits name, c.isDigit = true := by
  intro c hc
  rw [trailingDigits, List.mem_reverse] at hc
  exact List.all_eq_true.1 List.all_takeWhile c hc

theorem not_isDigit_getLast?_stem : ∀ c ∈ (Symbol.stem name).getLast?, c.isDigit = false := by
  intro c hc
  have first := List.head?_dropWhile_not Char.isDigit name.reverse
  rw [Symbol.stem, List.getLast?_reverse] at hc
  rwa [hc] at first

theorem trailingDigits_append (areDigits : ∀ c ∈ digits, c.isDigit = true)
    (all : ∀ c ∈ name.getLast?, c.isDigit = false) : trailingDigits (name ++ digits) = digits := by
  have areDigits : ∀ c ∈ digits.reverse, c.isDigit = true := by simpa using areDigits
  have noMore : name.reverse.takeWhile Char.isDigit = [] := by
    rw [← List.head?_reverse] at all
    cases split : name.reverse with
    | nil => rfl
    | cons c rest =>
      have isNoDigit := all c (split ▸ rfl)
      exact List.takeWhile_cons_of_neg (Bool.eq_false_iff.1 isNoDigit)
  rw [trailingDigits, List.reverse_append, List.takeWhile_append_of_pos areDigits, noMore,
    List.append_nil, List.reverse_reverse]

/--
There is one way at most in which a name ends in a number.
-/
theorem endsIn_iff : base.EndsIn stem n ↔
    trailingDigits base.name.toList ≠ [] ∧ stem = String.ofList (Symbol.stem base.name.toList) ∧
      n = Nat.ofDigitChars 10 (trailingDigits base.name.toList) 0 := by
  have split := stem_append_trailingDigits base.name.toList
  constructor
  · rintro ⟨digits, whole, notEmpty, areDigits, all, rfl⟩
    have same : trailingDigits base.name.toList = digits := by
      rw [whole, trailingDigits_append areDigits all]
    rw [same] at split ⊢
    have front := List.append_cancel_right (split.trans whole)
    exact ⟨notEmpty, by rw [front, String.ofList_toList], rfl⟩
  · rintro ⟨notEmpty, rfl, rfl⟩
    refine ⟨_, ?_, notEmpty, isDigit_of_mem_trailingDigits, ?_, rfl⟩
    · rw [String.toList_ofList, split]
    · rw [String.toList_ofList]
      exact not_isDigit_getLast?_stem

theorem candidates_of_endsIn (ends : base.EndsIn stem n) (fits : n < suffixLimit) :
    base.candidates count =
      numbered stem n (min count (suffixLimit - n)) ++ numbered base.name 2 count := by
  obtain ⟨notEmpty, rfl, rfl⟩ := endsIn_iff.1 ends
  simp only [candidates, if_pos (And.intro notEmpty fits)]

theorem candidates_of_not_endsIn (large : ∀ stem n, base.EndsIn stem n → suffixLimit ≤ n) :
    base.candidates count = numbered base.name 2 count := by
  have none : ¬ (trailingDigits base.name.toList ≠ [] ∧
      Nat.ofDigitChars 10 (trailingDigits base.name.toList) 0 < suffixLimit) := by
    rintro ⟨notEmpty, fits⟩
    exact Nat.not_le_of_lt fits (large _ _ (endsIn_iff.2 ⟨notEmpty, rfl, rfl⟩))
  simp only [candidates, if_neg none, List.nil_append]

/--
If the candidates are the names of a sequence to begin with, and one of these is free, then the first
free one of the sequence is chosen.
-/
theorem exists_firstFree (isUsed : base ∈ used)
    (begin : (List.range k).map names <+: base.candidates (used.size + 1))
    (free : ∃ s ∈ (List.range k).map names, ¬ s ∈ used) :
    ∃ i < k, FirstFree used names i ∧ fresh used base = names i := by
  obtain ⟨rest, whole⟩ := begin
  cases found : ((List.range k).map names).find? (· ∉ used) with
  | none =>
    obtain ⟨s, mem, free⟩ := free
    exact absurd (decide_eq_true free) (List.find?_eq_none.1 found s mem)
  | some s =>
    have chosen : fresh used base = s := by
      rw [fresh, if_pos isUsed, ← whole, List.find?_append, found, Option.some_or, Option.getD_some]
    rw [List.find?_map, Option.map_eq_some_iff] at found
    obtain ⟨i, first, rfl⟩ := found
    obtain ⟨isFree, bound, taken⟩ := List.find?_range_eq_some.1 first
    refine ⟨i, List.mem_range.1 bound, ⟨of_decide_eq_true isFree, fun j hj => ?_⟩, chosen⟩
    simpa using taken j hj

/--
The first number behind the whole name that makes it a free one is not large.
-/
theorem exists_firstFree_continued (isUsed : base ∈ used)
    (large : ∀ stem n, base.EndsIn stem n → suffixLimit ≤ n) :
    ∃ i ≤ used.size, FirstFree used base.continued i ∧ fresh used base = base.continued i := by
  have whole : base.candidates (used.size + 1) = (List.range (used.size + 1)).map base.continued :=
    candidates_of_not_endsIn large
  have free := exists_numbered_not_mem used base.name 2
  obtain ⟨i, lt, found⟩ := exists_firstFree isUsed (whole ▸ List.prefix_rfl) free
  exact ⟨i, Nat.le_of_lt_succ lt, found⟩

theorem numbered_eq_map_countedUp (base : Symbol) (h : n + count ≤ suffixLimit) :
    numbered stem n count = (List.range count).map (base.countedUp stem n) := by
  unfold numbered
  refine List.map_congr_left fun i hi => ?_
  have := List.mem_range.1 hi
  rw [countedUp, if_pos (by omega)]

/--
Once the numbers behind the stem have run out, the names are those behind the whole name.
-/
theorem candidates_eq_map_countedUp (ends : base.EndsIn stem n) (fits : n < suffixLimit)
    (many : suffixLimit - n ≤ count) : base.candidates count =
      (List.range (suffixLimit - n + count)).map (base.countedUp stem n) := by
  rw [candidates_of_endsIn ends fits, List.range_add, List.map_append, List.map_map,
    Nat.min_eq_right many, numbered_eq_map_countedUp base (by omega)]
  refine congrArg _ (List.map_congr_left fun i hi => ?_)
  have past : n + (suffixLimit - n + i) = suffixLimit + i := by omega
  rw [Function.comp_apply, countedUp, past, if_neg (by omega), Nat.add_sub_cancel_left, continued]

theorem exists_firstFree_countedUp (isUsed : base ∈ used) (ends : base.EndsIn stem n)
    (fits : n < suffixLimit) :
    ∃ i ≤ 2 * used.size, n + i ≤ suffixLimit + used.size ∧
      FirstFree used (base.countedUp stem n) i ∧ fresh used base = base.countedUp stem n i := by
  by_cases enough : used.size < suffixLimit - n
  · -- one of the numbers behind the stem is free
    have counted : numbered stem n (used.size + 1) =
        (List.range (used.size + 1)).map (base.countedUp stem n) :=
      numbered_eq_map_countedUp base (by omega)
    have begin : numbered stem n (used.size + 1) <+: base.candidates (used.size + 1) := by
      rw [candidates_of_endsIn ends fits, Nat.min_eq_left (by omega)]
      exact List.prefix_append _ _
    have free := exists_numbered_not_mem used stem n
    obtain ⟨i, lt, found⟩ := exists_firstFree isUsed (counted ▸ begin) (counted ▸ free)
    exact ⟨i, by omega, by omega, found⟩
  · have many : suffixLimit - n ≤ used.size + 1 := by omega
    have whole := candidates_eq_map_countedUp ends fits many
    have free := exists_candidate_not_mem used base
    obtain ⟨i, lt, found⟩ := exists_firstFree isUsed (whole ▸ List.prefix_rfl) (whole ▸ free)
    exact ⟨i, by omega, by omega, found⟩

end Candidates

section Search

theorem name_ofNat (h : n < suffixLimit) :
    Counter.name ⟨stem, .ofNat n⟩ = ⟨stem ++ toString n⟩ := by
  rw [Counter.name, UInt64.toNat_ofNat_of_lt' h]

theorem next_of_lt (h : n + 1 < suffixLimit) :
    Counter.next base ⟨stem, .ofNat n⟩ = ⟨stem, .ofNat (n + 1)⟩ := by
  have index : (UInt64.ofNat n).toNat = n := UInt64.toNat_ofNat_of_lt' (Nat.lt_of_succ_lt h)
  have successor : successor? (.ofNat n) = some (.ofNat (n + 1)) := by
    rw [successor?, index, if_pos h, UInt64.ofNat_add]
    rfl
  simp only [Counter.next, successor]

theorem next_last (h : n + 1 = suffixLimit) :
    Counter.next base ⟨stem, .ofNat n⟩ = ⟨base.name, 2⟩ := by
  have fits : n < suffixLimit := Nat.lt_of_succ_le (Nat.le_of_eq h)
  have index : (UInt64.ofNat n).toNat = n := UInt64.toNat_ofNat_of_lt' fits
  have successor : successor? (.ofNat n) = none := by
    rw [successor?, index, if_neg (Nat.not_lt_of_le (Nat.le_of_eq h.symm))]
  simp only [Counter.next, successor]

theorem iterate_next_of_lt (h : n + i < suffixLimit) :
    (Counter.next base)^[i] ⟨stem, .ofNat n⟩ = ⟨stem, .ofNat (n + i)⟩ := by
  induction i with
  | zero => rfl
  | succ i ih =>
    rw [← Nat.add_assoc] at h ⊢
    rw [Function.iterate_succ_apply', ih (Nat.lt_of_succ_lt h), next_of_lt h]

/--
After the last number behind the stem counting begins anew behind the whole name.
-/
theorem iterate_next_past (h : n < suffixLimit) :
    (Counter.next base)^[suffixLimit - n + i] ⟨stem, .ofNat n⟩ =
      (Counter.next base)^[i] ⟨base.name, 2⟩ := by
  obtain ⟨m, past⟩ : ∃ m, suffixLimit - n = m + 1 := ⟨suffixLimit - n - 1, by omega⟩
  have last : (Counter.next base)^[suffixLimit - n] ⟨stem, .ofNat n⟩ = ⟨base.name, 2⟩ := by
    rw [past, Function.iterate_succ_apply', iterate_next_of_lt (by omega), next_last (by omega)]
  rw [Nat.add_comm, Function.iterate_add_apply, last]

theorem name_iterate_next_continued (h : 2 + i < suffixLimit) :
    ((Counter.next base)^[i] ⟨base.name, 2⟩).name = base.continued i := by
  have counted : (Counter.next base)^[i] ⟨base.name, .ofNat 2⟩ = _ := iterate_next_of_lt h
  rw [show (2 : UInt64) = .ofNat 2 from rfl, counted, name_ofNat h, continued]

theorem name_iterate_next_countedUp (fits : n < suffixLimit)
    (h : n + i + 2 < suffixLimit + suffixLimit) :
    ((Counter.next base)^[i] ⟨stem, .ofNat n⟩).name = base.countedUp stem n i := by
  unfold countedUp
  split
  · rename_i below
    rw [iterate_next_of_lt below, name_ofNat below]
  · obtain ⟨j, rfl⟩ : ∃ j, i = suffixLimit - n + j := ⟨i - (suffixLimit - n), by omega⟩
    have same : n + (suffixLimit - n + j) - suffixLimit = j := by omega
    rw [iterate_next_past fits, name_iterate_next_continued (by omega), same]

/--
Once the counter shows the names of a sequence one after another, the search stops at the first free
one of them.
-/
theorem searchFree_eq {c : Counter} (names : Nat → Symbol) (first : FirstFree used names i)
    (same : ∀ j ≤ i, ((Counter.next base)^[j] c).name = names j) (enough : i < turns) :
    searchFree used base turns c = some (names i) := by
  obtain ⟨free, taken⟩ := first
  induction turns generalizing c names i with
  | zero => cases enough
  | succ turns ih =>
    have shown : c.name = names 0 := same 0 (Nat.zero_le i)
    rw [searchFree, shown]
    cases i with
    | zero => exact if_neg free
    | succ i =>
      rw [if_pos (taken 0 (Nat.zero_lt_succ i))]
      refine ih (fun j => names (j + 1)) (fun j hj => ?_) (Nat.lt_of_succ_lt_succ enough) free
        fun j hj => ?_
      · exact same (j + 1) (Nat.succ_le_succ hj)
      · exact taken (j + 1) (Nat.succ_lt_succ hj)

theorem start_of_endsIn (ends : base.EndsIn stem n) (fits : n < suffixLimit) :
    Counter.start base = ⟨stem, .ofNat n⟩ := by
  obtain ⟨notEmpty, rfl, rfl⟩ := endsIn_iff.1 ends
  rw [Counter.start, readIndex?, if_pos ⟨notEmpty, fits⟩]

theorem start_of_not_endsIn (large : ∀ stem n, base.EndsIn stem n → suffixLimit ≤ n) :
    Counter.start base = ⟨base.name, 2⟩ := by
  rw [Counter.start, readIndex?, if_neg]
  rintro ⟨notEmpty, fits⟩
  exact Nat.not_le_of_lt fits (large _ _ (endsIn_iff.2 ⟨notEmpty, rfl, rfl⟩))

/--
The search has the name that is chosen for its answer. Its words of 64 bits do not run out behind the
whole name, since there would have to be too many used names for that.
-/
theorem fresh?_eq (few : used.size < suffixLimit - 2) (enough : 2 * used.size < turns) :
    fresh? used base turns = some (fresh used base) := by
  by_cases isUsed : base ∈ used
  · by_cases ends : ∃ stem n, base.EndsIn stem n ∧ n < suffixLimit
    · obtain ⟨stem, n, ends, fits⟩ := ends
      obtain ⟨i, le, past, first, chosen⟩ := exists_firstFree_countedUp isUsed ends fits
      rw [fresh?, if_pos isUsed, chosen]
      refine searchFree_eq _ first (fun j hj => ?_) (by omega)
      rw [start_of_endsIn ends fits, name_iterate_next_countedUp fits (by omega)]
    · have large : ∀ stem n, base.EndsIn stem n → suffixLimit ≤ n := fun stem n h =>
        Nat.le_of_not_lt fun fits => ends ⟨stem, n, h, fits⟩
      obtain ⟨i, le, first, chosen⟩ := exists_firstFree_continued isUsed large
      rw [fresh?, if_pos isUsed, chosen]
      refine searchFree_eq _ first (fun j hj => ?_) (by omega)
      rw [start_of_not_endsIn large, name_iterate_next_continued (by omega)]
  · rw [fresh?, if_neg isUsed, fresh, if_neg isUsed]

end Search

/--
The name that is chosen is free. It is the one that is wanted or else the first free one of the names
that count up a number at its end, as far as words of 64 bits go, and then of those that continue it.
A search that counts with such words comes to it, and does not take more than twice as many turns as
there are used names, and one.
-/
theorem fresh_exact (few : used.size < suffixLimit - 2) (base : Symbol) :
    ¬ fresh used base ∈ used ∧
      (¬ base ∈ used → fresh used base = base) ∧
      (base ∈ used →
        (∀ stem n, base.EndsIn stem n → n < suffixLimit →
          ∃ i, FirstFree used (base.countedUp stem n) i ∧
            fresh used base = base.countedUp stem n i) ∧
        ((∀ stem n, base.EndsIn stem n → suffixLimit ≤ n) →
          ∃ i, FirstFree used base.continued i ∧ fresh used base = base.continued i)) ∧
      ∀ turns > 2 * used.size, fresh? used base turns = some (fresh used base) := by
  refine ⟨fresh_not_mem used base, fun isFree => ?_, fun isUsed => ⟨?_, fun large => ?_⟩,
    fun turns enough => fresh?_eq few enough⟩
  · rw [fresh, if_neg isFree]
  · intro stem n ends fits
    obtain ⟨i, _, _, chosen⟩ := exists_firstFree_countedUp isUsed ends fits
    exact ⟨i, chosen⟩
  · obtain ⟨i, _, chosen⟩ := exists_firstFree_continued isUsed large
    exact ⟨i, chosen⟩

/--
A name that can be counted up once, and then only continued.
-/
def lastButOne : Symbol :=
  ⟨"A18446744073709551614"⟩

def crowdedNames : OrderedSet Symbol :=
  .ofList [lastButOne, ⟨"A18446744073709551615"⟩, ⟨"A184467440737095516142"⟩, ⟨"S"⟩, ⟨"S2"⟩]

theorem fresh_exact_crowded :
    crowdedNames.size < suffixLimit - 2 ∧
      lastButOne.EndsIn "A" 18446744073709551614 ∧
      (∃ i, FirstFree crowdedNames (lastButOne.countedUp "A" 18446744073709551614) i ∧
        ⟨"A184467440737095516143"⟩ = lastButOne.countedUp "A" 18446744073709551614 i) ∧
      fresh? crowdedNames lastButOne 11 = some ⟨"A184467440737095516143"⟩ ∧
      (∀ stem n, EndsIn ⟨"S"⟩ stem n → suffixLimit ≤ n) ∧
      (∃ i, FirstFree crowdedNames (continued ⟨"S"⟩) i ∧ ⟨"S3"⟩ = continued ⟨"S"⟩ i) ∧
      fresh crowdedNames ⟨"T"⟩ = ⟨"T"⟩ := by
  have few : crowdedNames.size < suffixLimit - 2 := by decide
  have ends : lastButOne.EndsIn "A" 18446744073709551614 :=
    endsIn_iff.2 ⟨by decide, by decide, by decide⟩
  have noNumber : ∀ stem n, EndsIn ⟨"S"⟩ stem n → suffixLimit ≤ n := by
    intro stem n ends
    exact absurd (endsIn_iff.1 ends).1 (by decide)
  have chosen : fresh crowdedNames lastButOne = ⟨"A184467440737095516143"⟩ := by decide
  have chosenForS : fresh crowdedNames ⟨"S"⟩ = ⟨"S3"⟩ := by decide
  obtain ⟨_, _, first, search⟩ := fresh_exact few lastButOne
  obtain ⟨_, _, firstForS, _⟩ := fresh_exact few ⟨"S"⟩
  obtain ⟨_, free, _⟩ := fresh_exact few ⟨"T"⟩
  rw [chosen] at first search
  rw [chosenForS] at firstForS
  exact ⟨few, ends, (first (by decide)).1 "A" _ ends (by decide), search 11 (by decide), noNumber,
    (firstForS (by decide)).2 noNumber, free (by decide)⟩

end Symbol

end ContextFree
