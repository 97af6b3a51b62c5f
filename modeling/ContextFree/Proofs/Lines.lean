import ContextFree.Proofs.Reading
import Mathlib.Data.List.TakeWhile

/-!
This module contains how a text is made up: of lines with their endings, and a part of a line of
words with blanks around them. This is said of the parts and of what joins them, without looking for
anything in the text, and the functions that take a text apart are shown to find just these parts.
-/

namespace ContextFree

namespace Text

/--
The text is made of the lines. Each ends at a line feed or at a carriage return with a line feed, and
so a line that ends at a mere line feed has no carriage return at its own end. The last line may go
without an ending, but it is not empty then.
-/
inductive InLines : List Char → List (List Char) → Prop where
  | nil : InLines [] []
  | last {line : List Char} (notEmpty : line ≠ []) (noFeed : ¬ '\n' ∈ line) :
    InLines line [line]
  | feed {line rest : List Char} {ls : List (List Char)} (noFeed : ¬ '\n' ∈ line)
    (bare : line.getLast? ≠ some '\r') (more : InLines rest ls) :
    InLines (line ++ '\n' :: rest) (line :: ls)
  | returnFeed {line rest : List Char} {ls : List (List Char)} (noFeed : ¬ '\n' ∈ line)
    (more : InLines rest ls) : InLines (line ++ '\r' :: '\n' :: rest) (line :: ls)

/--
The text is made of the words, with blanks between them and any blanks around them.
-/
inductive InWords : List Char → List (List Char) → Prop where
  | nil : InWords [] []
  | skip {c : Char} {rest : List Char} {ws : List (List Char)} (blank : isBlank c = true)
    (more : InWords rest ws) : InWords (c :: rest) ws
  | last {word : List Char} (isWord : IsWord word) : InWords word [word]
  | next {word : List Char} {c : Char} {rest : List Char} {ws : List (List Char)}
    (isWord : IsWord word) (blank : isBlank c = true) (more : InWords rest ws) :
    InWords (word ++ c :: rest) (word :: ws)

/--
`core` is the text without the blanks at its two ends.
-/
structure Trimmed (text core : List Char) : Prop where
  around : ∃ left right, text = left ++ core ++ right ∧ Blank left ∧ Blank right
  first : ∀ c, core.head? = some c → isBlank c = false
  last : ∀ c, core.getLast? = some c → isBlank c = false

variable {text rest line word left right core : List Char} {ls ws : List (List Char)} {c : Char}

section Lines

theorem lines_append_returnFeed (noFeed : ¬ '\n' ∈ line) (rest : List Char) :
    lines (line ++ '\r' :: '\n' :: rest) = line :: lines rest := by
  have ending : lines ('\r' :: '\n' :: rest) = [] :: lines rest := rfl
  have divided := lines_append noFeed (fun _ => ?_) ending
  · rwa [List.append_nil] at divided
  · rw [List.head?_cons]
    decide

theorem lines_singleton (notFeed : c ≠ '\n') : lines [c] = [[c]] := by
  rw [lines]
  · rfl
  · exact notFeed
  · rintro rest - none
    cases none

theorem lines_of_noFeed (notEmpty : line ≠ []) (noFeed : ¬ '\n' ∈ line) : lines line = [line] := by
  obtain ⟨before, c, rfl⟩ := (List.eq_nil_or_concat line).resolve_left notEmpty
  rw [List.concat_eq_append] at noFeed ⊢
  rw [List.mem_append, not_or, List.mem_singleton] at noFeed
  refine lines_append noFeed.1 (fun _ starts => ?_) (lines_singleton (Ne.symm noFeed.2))
  exact noFeed.2 (Option.some.inj starts).symm

/--
A character that begins no ending belongs to the first line.
-/
theorem InLines.cons (notFeed : c ≠ '\n') (inside : c = '\r' → rest.head? ≠ some '\n')
    (h : InLines rest (line :: ls)) : InLines (c :: rest) ((c :: line) :: ls) := by
  have extended {line : List Char} (noFeed : ¬ '\n' ∈ line) : ¬ '\n' ∈ c :: line := by
    rw [List.mem_cons, not_or]
    exact ⟨Ne.symm notFeed, noFeed⟩
  cases h with
  | last notEmpty noFeed => exact .last (List.cons_ne_nil c _) (extended noFeed)
  | @feed line _ _ noFeed bare more =>
    refine .feed (extended noFeed) ?_ more
    cases line with
    | nil =>
      intro returned
      exact inside (Option.some.inj returned) rfl
    | cons d line => exact bare
  | returnFeed noFeed more => exact .returnFeed (extended noFeed) more

theorem inLines_lines (text : List Char) : InLines text (lines text) := by
  induction text using lines.induct with
  | case1 => exact .nil
  | case2 rest ih => exact .feed List.not_mem_nil (by decide) ih
  | case3 rest ih => exact .returnFeed List.not_mem_nil ih
  | case4 c rest notFeed notReturn none ih =>
    -- no lines are left, and so no text
    rw [none] at ih
    cases ih
    rw [lines_singleton notFeed]
    exact .last (List.cons_ne_nil c []) (by simpa using Ne.symm notFeed)
  | case5 c rest notFeed notReturn line more some ih =>
    have inside : c = '\r' → rest.head? ≠ Option.some '\n' := by
      intro isReturn starts
      obtain ⟨rest, rfl⟩ := List.head?_eq_some_iff.1 starts
      exact notReturn rest isReturn rfl
    rw [some] at ih
    rw [lines_cons notFeed inside some]
    exact ih.cons notFeed inside

/--
The lines of a text are the only ones that it is made of.
-/
theorem inLines_iff : InLines text ls ↔ ls = lines text := by
  constructor
  · intro h
    induction h with
    | nil => rfl
    | last notEmpty noFeed => exact (lines_of_noFeed notEmpty noFeed).symm
    | feed noFeed bare _ ih => rw [lines_append_feed noFeed bare, ih]
    | returnFeed noFeed _ ih => rw [lines_append_returnFeed noFeed, ih]
  · rintro rfl
    exact inLines_lines text

end Lines

section Words

theorem inWords_append_words (solid : ∀ c ∈ left, isBlank c = false) (text : List Char) :
    InWords (left ++ text) (words (left ++ text)) := by
  induction text generalizing left with
  | nil =>
    rw [List.append_nil]
    by_cases empty : left = []
    · rw [empty]
      exact .nil
    · have isWord : IsWord left := ⟨empty, solid⟩
      rw [isWord.words_eq]
      exact .last isWord
  | cons c text ih =>
    by_cases blank : isBlank c = true
    · have rest : InWords text (words text) := ih fun _ none => absurd none List.not_mem_nil
      rw [words_append_blank blank]
      by_cases empty : left = []
      · rw [empty]
        exact .skip blank rest
      · have isWord : IsWord left := ⟨empty, solid⟩
        rw [isWord.words_eq]
        exact .next isWord blank rest
    · -- the character belongs to the word that has begun
      rw [List.append_cons]
      apply ih
      intro d hd
      rcases List.mem_append.1 hd with hd | hd
      · exact solid d hd
      · rw [List.mem_singleton.1 hd]
        exact Bool.eq_false_iff.2 blank

/--
The words of a text are the only ones that it is made of.
-/
theorem inWords_iff : InWords text ws ↔ ws = words text := by
  constructor
  · intro h
    induction h with
    | nil => rfl
    | skip blank _ ih =>
      rw [ih]
      exact (words_append_blank blank [] _).symm
    | last isWord => exact isWord.words_eq.symm
    | next isWord blank _ ih => rw [words_append_blank blank, isWord.words_eq, ih]; rfl
  · rintro rfl
    exact inWords_append_words (fun _ none => absurd none List.not_mem_nil) text

end Words

section Trim

theorem Blank.reverse (h : Blank text) : Blank text.reverse := by
  intro c hc
  exact h c (List.mem_reverse.1 hc)

theorem trim_append_blank (blank : Blank left) (blank' : Blank right)
    (first : ∀ c, core.head? = some c → isBlank c = false)
    (last : ∀ c, core.getLast? = some c → isBlank c = false) :
    trim (left ++ core ++ right) = core := by
  have front : (left ++ core ++ right).dropWhile isBlank =
      if core = [] then [] else core ++ right := by
    split
    · rename_i empty
      have all : Blank (left ++ core ++ right) := by
        intro c hc
        rw [empty, List.append_nil] at hc
        exact (List.mem_append.1 hc).elim (blank c) (blank' c)
      rw [List.dropWhile_eq_nil_iff]
      exact all
    · rename_i notEmpty
      obtain ⟨d, more, rfl⟩ := List.exists_cons_of_ne_nil notEmpty
      rw [List.append_assoc]
      exact dropWhile_append_of_ended blank first
  rw [trim, front]
  split
  · rename_i empty
    rw [empty]
    rfl
  · have first' : ∀ c, core.reverse.head? = some c → isBlank c = false := by
      rwa [List.head?_reverse]
    have back := dropWhile_append_of_ended blank'.reverse first'
    rw [List.reverse_append, back, List.reverse_reverse]

theorem trimmed_trim (text : List Char) : Trimmed text (trim text) := by
  generalize dropped : text.dropWhile isBlank = kept
  have front : text.takeWhile isBlank ++ kept = text := dropped ▸ List.takeWhile_append_dropWhile
  have back : trim text ++ (kept.reverse.takeWhile isBlank).reverse = kept := by
    rw [trim, dropped, ← List.reverse_append, List.takeWhile_append_dropWhile, List.reverse_reverse]
  refine ⟨⟨_, _, ?_, blank_takeWhile text, (blank_takeWhile kept.reverse).reverse⟩, ?_, ?_⟩
  · rw [List.append_assoc, back, front]
  · intro c starts
    apply not_blank_of_head?_dropWhile text
    rw [dropped, ← back, List.head?_append, starts, Option.some_or]
  · intro c ends
    rw [trim, dropped, List.getLast?_reverse] at ends
    exact not_blank_of_head?_dropWhile kept.reverse ends

/--
Trimming takes away the blanks at both ends and no more.
-/
theorem trimmed_iff : Trimmed text core ↔ core = trim text := by
  constructor
  · rintro ⟨⟨left, right, rfl, blank, blank'⟩, first, last⟩
    exact (trim_append_blank blank blank' first last).symm
  · rintro rfl
    exact trimmed_trim text

theorem blank_iff_trim : Blank text ↔ trim text = [] := by
  constructor
  · intro blank
    have nothing : text.dropWhile isBlank = [] := List.dropWhile_eq_nil_iff.2 blank
    rw [trim, nothing]
    rfl
  · intro empty
    obtain ⟨left, right, same, blank, blank'⟩ := (trimmed_trim text).around
    rw [same, empty, List.append_nil]
    intro c hc
    exact (List.mem_append.1 hc).elim (blank c) (blank' c)

end Trim

end Text

end ContextFree
