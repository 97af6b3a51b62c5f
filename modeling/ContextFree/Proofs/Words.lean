import ContextFree.Text.Blank
import ContextFree.Text.Pieces
import Mathlib.Data.List.Infix
import Mathlib.Data.List.TakeWhile

/-!
This module contains the words of a text, which are what stands between its blanks, and what is left of
a text without the blanks around it.
-/

namespace ContextFree

namespace Text

def Blank (text : List Char) : Prop :=
  ∀ c ∈ text, isBlank c = true

/--
A text that is read as one piece: it is not empty and has no blanks.
-/
def IsWord (text : List Char) : Prop :=
  text ≠ [] ∧ ∀ c ∈ text, isBlank c = false

instance (text : List Char) : Decidable (IsWord text) :=
  decidable_of_iff ((!text.isEmpty && text.all (!isBlank ·)) = true) (by simp [IsWord])

def words (text : List Char) : List (List Char) :=
  (pieces isBlank text).filter (· ≠ [])

variable {isSeparator : Char → Bool} {text rest left word : List Char} {c : Char}

theorem blank_iff_all : Blank text ↔ text.all isBlank = true :=
  List.all_eq_true.symm

instance (text : List Char) : Decidable (Blank text) :=
  decidable_of_iff _ blank_iff_all.symm

section Ended

variable {keep : Char → Bool} (inside : ∀ c ∈ left, keep c = true)
  (ended : ∀ c, rest.head? = some c → keep c = false)
include inside ended

theorem takeWhile_append_of_ended : (left ++ rest).takeWhile keep = left := by
  rw [List.takeWhile_append_of_pos inside]
  cases rest with
  | nil => exact List.append_nil left
  | cons c rest =>
    rw [List.takeWhile_cons, ended c rfl, if_neg Bool.false_ne_true, List.append_nil]

theorem dropWhile_append_of_ended : (left ++ rest).dropWhile keep = rest := by
  rw [List.dropWhile_append_of_pos inside]
  cases rest with
  | nil => rfl
  | cons c rest => rw [List.dropWhile_cons, ended c rfl, if_neg Bool.false_ne_true]

end Ended

theorem blank_takeWhile (text : List Char) : Blank (text.takeWhile isBlank) :=
  blank_iff_all.2 List.all_takeWhile

theorem not_blank_of_head?_dropWhile (text : List Char)
    (h : (text.dropWhile isBlank).head? = some c) : isBlank c = false := by
  have first := List.head?_dropWhile_not isBlank text
  rwa [h] at first

theorem not_isSeparator_of_mem_pieces (h : word ∈ pieces isSeparator text) :
    ∀ c ∈ word, isSeparator c = false := by
  induction text generalizing word with
  | nil =>
    rw [List.mem_singleton.1 h]
    intro c hc
    cases hc
  | cons d text ih =>
    have notNil : pieces isSeparator text ≠ [] := pieces_ne_nil text
    obtain ⟨piece, more, split⟩ := List.exists_cons_of_ne_nil notNil
    simp only [pieces, split] at h ih
    split at h
    · rcases List.mem_cons.1 h with rfl | h
      · intro c hc
        cases hc
      · exact ih h
    · rename_i kept
      rcases List.mem_cons.1 h with rfl | h
      · intro c hc
        rcases List.mem_cons.1 hc with rfl | hc
        · exact Bool.eq_false_iff.2 kept
        · exact ih List.mem_cons_self c hc
      · exact ih (List.mem_cons_of_mem piece h)

theorem isWord_of_mem_words (h : word ∈ words text) : IsWord word := by
  obtain ⟨mem, notEmpty⟩ := List.mem_filter.1 h
  exact ⟨of_decide_eq_true notEmpty, not_isSeparator_of_mem_pieces mem⟩

theorem IsWord.words_eq (h : IsWord word) : words word = [word] := by
  rw [words, pieces_of_forall h.2]
  simp [h.1]

theorem IsWord.plain (h : IsWord word) : ∀ c ∈ word, c ≠ '\n' ∧ c ≠ '\r' := by
  intro c hc
  have notBlank := h.2 c hc
  constructor
  · rintro rfl
    exact absurd notBlank (by decide)
  · rintro rfl
    exact absurd notBlank (by decide)

theorem words_append_blank (blank : isBlank c = true) (before after : List Char) :
    words (before ++ c :: after) = words before ++ words after := by
  rw [words, pieces_append blank, List.filter_append]
  rfl

theorem words_append_of_blank (blank : Blank left) (text : List Char) :
    words (left ++ text) = words text := by
  induction left with
  | nil => rfl
  | cons c left ih =>
    obtain ⟨first, blank⟩ := List.forall_mem_cons.1 blank
    rw [List.cons_append, ← List.nil_append (c :: (left ++ text)), words_append_blank first, ih blank]
    rfl

theorem IsWord.words_append (h : IsWord word)
    (ended : ∀ c, rest.head? = some c → isBlank c = true) :
    words (word ++ rest) = word :: words rest := by
  cases rest with
  | nil => rw [List.append_nil, h.words_eq]; rfl
  | cons c rest =>
    have blank : Blank [c] := by simpa [Blank] using ended c rfl
    rw [words_append_blank (ended c rfl), h.words_eq, ← words_append_of_blank blank rest]
    rfl

/--
A text that does not consist of blanks goes on with a word behind them.
-/
theorem blank_or_exists_word (text : List Char) : Blank text ∨ ∃ left word rest,
    text = left ++ (word ++ rest) ∧ Blank left ∧ IsWord word ∧
      ∀ c, rest.head? = some c → isBlank c = true := by
  cases behind : text.dropWhile isBlank with
  | nil => exact .inl (List.dropWhile_eq_nil_iff.1 behind)
  | cons c more =>
    have solid : isBlank c = false := not_blank_of_head?_dropWhile text (by rw [behind]; rfl)
    refine .inr ⟨text.takeWhile isBlank, (c :: more).takeWhile (!isBlank ·),
      (c :: more).dropWhile (!isBlank ·), ?_, blank_takeWhile text, ⟨?_, ?_⟩, ?_⟩
    · rw [List.takeWhile_append_dropWhile, ← behind, List.takeWhile_append_dropWhile]
    · simp [solid]
    · intro d hd
      simpa using List.mem_takeWhile_imp hd
    · intro d ended
      have first := List.head?_dropWhile_not (!isBlank ·) (c :: more)
      rw [ended] at first
      simpa using first

theorem words_append_spaced {ws : List (List Char)} (areWords : ∀ w ∈ ws, IsWord w)
    (text : List Char) : words (text ++ ws.flatMap (' ' :: ·)) = words text ++ ws := by
  induction ws generalizing text with
  | nil => simp
  | cons w ws ih =>
    have isWord := areWords w List.mem_cons_self
    rw [List.flatMap_cons, List.cons_append, words_append_blank (by decide),
      ih fun w hw => areWords w (List.mem_cons_of_mem _ hw), isWord.words_eq, List.singleton_append]

/--
Words written one after another, with a space before each, are read as they are.
-/
theorem words_spaced {ws : List (List Char)} (areWords : ∀ w ∈ ws, IsWord w) :
    words (ws.flatMap (' ' :: ·)) = ws :=
  words_append_spaced areWords []

theorem isInfix_trim (text : List Char) : trim text <:+: text := by
  have front : (text.dropWhile isBlank) <:+ text := List.dropWhile_suffix isBlank
  have back := List.dropWhile_suffix isBlank (l := (text.dropWhile isBlank).reverse)
  rw [← List.reverse_prefix, List.reverse_reverse] at back
  exact back.isInfix.trans front.isInfix

theorem IsWord.dropWhile_append (h : IsWord word) (more : List Char) :
    (word ++ more).dropWhile isBlank = word ++ more := by
  obtain ⟨c, rest, rfl⟩ := List.exists_cons_of_ne_nil h.1
  rw [List.cons_append, List.dropWhile_cons, h.2 c List.mem_cons_self, if_neg Bool.false_ne_true]

theorem IsWord.reverse (h : IsWord word) : IsWord word.reverse :=
  ⟨List.reverse_ne_nil_iff.2 h.1, fun c hc => h.2 c (List.mem_reverse.1 hc)⟩

theorem IsWord.trim_append_space (h : IsWord word) : trim (word ++ [' ']) = word := by
  have blank : isBlank ' ' = true := by decide
  have back : word.reverse.dropWhile isBlank = word.reverse := by
    have kept := h.reverse.dropWhile_append []
    rwa [List.append_nil] at kept
  rw [trim, h.dropWhile_append, List.reverse_append, List.reverse_singleton, List.singleton_append,
    List.dropWhile_cons, if_pos blank, back, List.reverse_reverse]

end Text

end ContextFree
