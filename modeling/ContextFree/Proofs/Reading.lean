import ContextFree.Proofs.Sides

/-!
This module contains what reading finds in a text: where the lines end, and which productions they are.
What is read is made of words, and a production made of words is read from its own text.
-/

namespace ContextFree

namespace Text

variable {line before after : List Char}

theorem lines_cons {c : Char} {rest : List Char} {more : List (List Char)}
    (notFeed : c ≠ '\n') (inside : c = '\r' → rest.head? ≠ some '\n')
    (h : lines rest = line :: more) : lines (c :: rest) = (c :: line) :: more := by
  rw [lines, h]
  · exact notFeed
  · rintro rest' isReturn rfl
    exact inside isReturn rfl

/--
What stands before the first line feed belongs to the first line, except for a carriage return that is
part of its ending.
-/
theorem lines_append {more : List (List Char)} (noFeed : ¬ '\n' ∈ before)
    (bare : before.getLast? = some '\r' → after.head? ≠ some '\n')
    (h : lines after = line :: more) : lines (before ++ after) = (before ++ line) :: more := by
  induction before with
  | nil => exact h
  | cons c before ih =>
    rw [List.mem_cons, not_or] at noFeed
    refine lines_cons (Ne.symm noFeed.1) ?_ (ih noFeed.2 fun returned => bare ?_)
    · rintro rfl starts
      cases before with
      | nil => exact bare rfl starts
      | cons d before =>
        obtain rfl : d = '\n' := Option.some.inj starts
        exact noFeed.2 List.mem_cons_self
    · rw [List.getLast?_cons, returned]
      rfl

theorem lines_append_feed (noFeed : ¬ '\n' ∈ line) (bare : line.getLast? ≠ some '\r')
    (rest : List Char) : lines (line ++ '\n' :: rest) = line :: lines rest := by
  have ending : lines ('\n' :: rest) = [] :: lines rest := rfl
  have divided := lines_append noFeed (fun returned => absurd returned bare) ending
  rwa [List.append_nil] at divided

/--
Lines that are written with a line feed after each are found again.
-/
theorem lines_fed {ls : List (List Char)} (plain : ∀ l ∈ ls, ∀ c ∈ l, c ≠ '\n' ∧ c ≠ '\r') :
    lines (ls.flatMap (· ++ ['\n'])) = ls := by
  induction ls with
  | nil => rfl
  | cons l ls ih =>
    have noFeed : ¬ '\n' ∈ l := fun hc => (plain l List.mem_cons_self _ hc).1 rfl
    have bare : l.getLast? ≠ some '\r' := fun last =>
      (plain l List.mem_cons_self _ (List.mem_of_getLast? last)).2 rfl
    rw [List.flatMap_cons, List.append_assoc, List.singleton_append,
      lines_append_feed noFeed bare, ih fun m hm => plain m (List.mem_cons_of_mem l hm)]

end Text

open Text

namespace Production

/--
The production can be told from its text: its symbols are words, and nothing in its variable is
taken for the delimiter.
-/
structure Readable (p : Production) : Prop where
  lhs : IsWord p.lhs.name.toList
  undivided : ¬ delimiter <:+: p.lhs.name.toList
  rhs : ∀ s ∈ p.rhs, IsWord s.name.toList

variable {p : Production}

theorem toList_toText (p : Production) : p.toText.toList =
    (p.lhs.name.toList ++ [' ']) ++ delimiter ++
      (p.rhs.map fun s => s.name.toList).flatMap (' ' :: ·) := by
  simp [toText, delimiter, String.toList_join, List.flatMap_map]

theorem readLine_eq_ok_iff {line : List Char} : readLine line = .ok p ↔
    ∃ before after, Divided line before after ∧ IsWord (trim before) ∧
      p = ⟨⟨.ofList (trim before)⟩, (words after).map fun word => ⟨.ofList word⟩⟩ := by
  constructor
  · intro h
    by_cases occurs : delimiter <:+: line
    · obtain ⟨before, after, divided⟩ := exists_divided_iff.2 occurs
      rw [readLine_of_divided divided] at h
      split at h
      · cases h
      · rename_i notEmpty
        split at h
        · cases h
        · rename_i solid
          cases h
          exact ⟨before, after, divided, ⟨notEmpty, by simpa using solid⟩, rfl⟩
    · rw [readLine_of_missing occurs] at h
      cases h
  · rintro ⟨before, after, divided, isWord, rfl⟩
    have solid : ¬ (trim before).any isBlank = true := by simpa using isWord.2
    rw [readLine_of_divided divided, if_neg isWord.1, if_neg solid]

theorem readable_of_readLine {line : List Char} (h : readLine line = .ok p) : p.Readable := by
  obtain ⟨before, after, divided, isWord, rfl⟩ := readLine_eq_ok_iff.1 h
  refine ⟨?_, ?_, ?_⟩
  · rw [String.toList_ofList]
    exact isWord
  · rw [String.toList_ofList]
    exact fun within => divided.first (within.trans (isInfix_trim before))
  · intro s hs
    obtain ⟨word, mem, rfl⟩ := List.mem_map.1 hs
    rw [String.toList_ofList]
    exact isWord_of_mem_words mem

theorem Readable.readLine_toText (h : p.Readable) : readLine p.toText.toList = .ok p := by
  have divided : Divided p.toText.toList (p.lhs.name.toList ++ [' '])
      ((p.rhs.map fun s => s.name.toList).flatMap (' ' :: ·)) :=
    ⟨toList_toText p, not_delimiter_infix_concat h.undivided (by decide)⟩
  have areWords : ∀ w ∈ p.rhs.map (fun s => s.name.toList), IsWord w := by
    intro w hw
    obtain ⟨s, hs, rfl⟩ := List.mem_map.1 hw
    exact h.rhs s hs
  refine readLine_eq_ok_iff.2 ⟨_, _, divided, ?_, ?_⟩
  · rw [h.lhs.trim_append_space]
    exact h.lhs
  · rw [h.lhs.trim_append_space, words_spaced areWords, List.map_map]
    simp [Function.comp_def]

theorem Readable.toText_not_blank (h : p.Readable) : p.toText.toList.all isBlank = false := by
  obtain ⟨c, rest, lhs⟩ := List.exists_cons_of_ne_nil h.lhs.1
  have notBlank := h.lhs.2 c (lhs ▸ List.mem_cons_self)
  rw [toList_toText, lhs]
  simp [notBlank]

theorem Readable.plain (h : p.Readable) : ∀ c ∈ p.toText.toList, c ≠ '\n' ∧ c ≠ '\r' := by
  have written : ∀ c ∈ ' ' :: delimiter, c ≠ '\n' ∧ c ≠ '\r' := by simp [delimiter]
  intro c hc
  rw [toList_toText] at hc
  simp only [List.mem_append, List.mem_flatMap, List.mem_map, List.mem_singleton] at hc
  rcases hc with ((hc | rfl) | hc) | ⟨_, ⟨s, hs, rfl⟩, hc⟩
  · exact h.lhs.plain c hc
  · exact written ' ' List.mem_cons_self
  · exact written c (List.mem_cons_of_mem _ hc)
  · rcases List.mem_cons.1 hc with rfl | hc
    · exact written ' ' List.mem_cons_self
    · exact (h.rhs s hs).plain c hc

end Production

end ContextFree
