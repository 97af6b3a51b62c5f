import ContextFree.Proofs.Words
import ContextFree.Text.Notation

/-!
This module contains what a line is read as before anything is asked of its left-hand side. However
reading goes back and forth, it comes to this: the line is divided at its first delimiter, and the
symbols are the words behind that.
-/

namespace ContextFree

namespace Text

/--
The parts stand before and after the first delimiter of the line.
-/
structure Divided (line before after : List Char) : Prop where
  parts : line = before ++ delimiter ++ after
  first : ¬ delimiter <:+: before

variable {text line before after left word rest : List Char} {c : Char}

theorem not_delimiter_prefix_append (h : ¬ delimiter <+: c :: before) :
    ¬ delimiter <+: c :: (before ++ delimiter ++ after) := by
  -- the delimiter that follows cannot begin earlier, since it begins with no part of its own end
  match before with
  | [] => simp [delimiter]
  | [d] => simp [delimiter]
  | d :: e :: rest =>
    intro starts
    apply h
    simpa [delimiter] using starts

theorem not_delimiter_infix_concat (h : ¬ delimiter <:+: text) (ne : c ≠ '=') :
    ¬ delimiter <:+: text ++ [c] := by
  rw [List.infix_concat_iff, not_or]
  refine ⟨?_, h⟩
  rintro ⟨front, same⟩
  have last := congrArg List.getLast? same
  simp only [delimiter, List.getLast?_append, List.getLast?_cons] at last
  exact ne (Option.some.inj last).symm

theorem exists_divided_iff : (∃ before after, Divided line before after) ↔ delimiter <:+: line := by
  constructor
  · rintro ⟨before, after, parts, _⟩
    exact ⟨before, after, parts.symm⟩
  · intro occurs
    induction line with
    | nil => simp [delimiter] at occurs
    | cons c line ih =>
      by_cases here : delimiter <+: c :: line
      · obtain ⟨after, parts⟩ := here
        exact ⟨[], after, parts.symm, by simp [delimiter]⟩
      · obtain ⟨before, after, rfl, first⟩ := ih ((List.infix_cons_iff.1 occurs).resolve_left here)
        refine ⟨c :: before, after, rfl, ?_⟩
        rw [List.infix_cons_iff, not_or]
        exact ⟨fun starts => here (starts.trans ⟨delimiter ++ after, by simp⟩), first⟩

namespace Reader

theorem takeUntil_of_divided (h : Divided line before after) :
    takeUntil delimiter line = .ok (before, delimiter ++ after) := by
  obtain ⟨rfl, first⟩ := h
  induction before with
  | nil => exact if_pos ⟨after, rfl⟩
  | cons c before ih =>
    rw [List.infix_cons_iff, not_or] at first
    rw [List.cons_append, List.cons_append, takeUntil,
      if_neg (not_delimiter_prefix_append first.1), ih first.2]
    rfl

theorem takeUntil_of_missing (none : ¬ delimiter <:+: line) :
    takeUntil delimiter line = fail line := by
  induction line with
  | nil => rfl
  | cons c line ih =>
    rw [List.infix_cons_iff, not_or] at none
    rw [takeUntil, if_neg none.1, ih none.2]
    rfl

theorem literal_append (chars rest : List Char) :
    literal chars (chars ++ rest) = .ok (chars, rest) := by
  rw [literal, if_pos (List.prefix_append chars rest), List.drop_left]

/--
An attempt to read a symbol gets past blanks, but fails if there is nothing else.
-/
theorem attempt_of_blank (blank : Blank text) : (blanks *> symbol) text = fail text := by
  have behind : text.dropWhile isBlank = [] := List.dropWhile_eq_nil_iff.2 blank
  change symbol (text.dropWhile isBlank) = fail text
  rw [behind]
  rfl

theorem attempt_of_word (blank : Blank left) (isWord : IsWord word)
    (ended : ∀ c, rest.head? = some c → isBlank c = true) :
    (blanks *> symbol) (left ++ (word ++ rest)) = .ok (word, rest) := by
  have solid : ∀ c ∈ word, (!isBlank c) = true := fun c hc => by rw [isWord.2 c hc]; rfl
  have stopped : ∀ c, rest.head? = some c → (!isBlank c) = false := by
    intro c hc
    rw [ended c hc]
    rfl
  have long : ¬ word.length < 1 := Nat.not_lt_of_le (List.length_pos_of_ne_nil isWord.1)
  change symbol ((left ++ (word ++ rest)).dropWhile isBlank) = _
  rw [List.dropWhile_append_of_pos blank, isWord.dropWhile_append, symbol, takeWhile,
    takeWhile_append_of_ended solid stopped, dropWhile_append_of_ended solid stopped]
  exact if_neg long

/--
The symbols that are read one after another, with blanks before each, are the words of the text. Blanks
behind the last one are left, since they are given back when no symbol follows.
-/
theorem exists_many_symbols (text : List Char) : ∃ rest, Blank rest ∧
    many (blanks *> symbol) text = .ok (words text, rest) := by
  rcases blank_or_exists_word text with blank | ⟨left, word, rest, parts, blank, isWord, ended⟩
  · refine ⟨text, blank, ?_⟩
    rw [many, attempt_of_blank blank, ← List.append_nil text, words_append_of_blank blank]
    rfl
  · have shorter : rest.length < text.length := by
      have := List.length_pos_of_ne_nil isWord.1
      rw [parts, List.length_append, List.length_append]
      omega
    obtain ⟨unread, blanksOnly, read⟩ := exists_many_symbols rest
    refine ⟨unread, blanksOnly, ?_⟩
    rw [many, parts, attempt_of_word blank isWord ended, words_append_of_blank blank,
      isWord.words_append ended]
    dsimp only
    rw [dif_pos (parts ▸ shorter), read]
    rfl
termination_by text.length

/--
A line with a delimiter is read to its end.
-/
theorem readAll_sides_of_divided (h : Divided line before after) :
    sides.readAll line = .ok (before, words after) := by
  obtain ⟨unread, blanksOnly, symbols⟩ := exists_many_symbols after
  have nothing : unread.dropWhile isBlank = [] := List.dropWhile_eq_nil_iff.2 blanksOnly
  have divided : (takeUntil delimiter <* literal delimiter) line = .ok (before, after) := by
    refine (bind_of_ok (takeUntil_of_divided h)).trans ?_
    exact bind_of_ok (literal_append delimiter after)
  apply readAll_of_ok
  refine (bind_of_ok (expecting_of_ok divided _)).trans ((bind_of_ok symbols).trans ?_)
  have skipped : blanks unread = .ok (unread.takeWhile isBlank, []) := by
    rw [blanks, takeWhile, if_neg (Nat.not_lt_zero _), nothing]
  rw [bind_of_ok skipped]
  rfl

theorem readAll_sides_of_missing (none : ¬ delimiter <:+: line) :
    sides.readAll line = .error ⟨["::="], false⟩ := by
  have undivided : (takeUntil delimiter <* literal delimiter) line = .error ⟨[], false⟩ :=
    bind_of_error (takeUntil_of_missing none)
  exact readAll_of_error (bind_of_error (expecting_of_error undivided _))

end Reader

/--
A line that is divided is faulty only if what stands before the delimiter is not one symbol.
-/
theorem readLine_of_divided (h : Divided line before after) : readLine line =
    if trim before = [] then .error .noLeftHandSide
    else if (trim before).any isBlank then .error (.notOneSymbol (.ofList (trim before)))
    else .ok ⟨⟨.ofList (trim before)⟩, (words after).map fun word => ⟨.ofList word⟩⟩ := by
  rw [readLine, Reader.readAll_sides_of_divided h]

theorem readLine_of_missing (none : ¬ delimiter <:+: line) :
    readLine line = .error (.missing ["::="]) := by
  rw [readLine, Reader.readAll_sides_of_missing none]

end Text

end ContextFree
