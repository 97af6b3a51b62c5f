/-!
This module contains the division of a text into the pieces between separating characters.
-/

namespace ContextFree

namespace Text

/--
The pieces between the separators, of which there is one more than there are separators. Pieces
between neighbouring separators, and before one that begins or after one that ends the text, are
empty.
-/
def pieces (isSeparator : Char → Bool) : List Char → List (List Char)
  | [] => [[]]
  | c :: rest =>
    if isSeparator c then
      [] :: pieces isSeparator rest
    else
      (pieces isSeparator rest).modifyHead (c :: ·)

variable {isSeparator : Char → Bool}

theorem pieces_ne_nil (text : List Char) : pieces isSeparator text ≠ [] := by
  induction text with
  | nil => simp [pieces]
  | cons c text ih =>
    simp only [pieces]
    split
    · simp
    · simpa using ih

theorem pieces_of_forall {text : List Char} (h : ∀ c ∈ text, isSeparator c = false) :
    pieces isSeparator text = [text] := by
  induction text with
  | nil => rfl
  | cons c text ih =>
    have rest := ih fun d hd => h d (List.mem_cons_of_mem c hd)
    simp [pieces, h c List.mem_cons_self, rest]

theorem pieces_append {c : Char} (h : isSeparator c = true) (before after : List Char) :
    pieces isSeparator (before ++ c :: after) =
      pieces isSeparator before ++ pieces isSeparator after := by
  induction before with
  | nil => simp [pieces, h]
  | cons d before ih =>
    simp only [List.cons_append, pieces, ih]
    split
    · rfl
    · obtain ⟨piece, more, head⟩ := List.exists_cons_of_ne_nil (pieces_ne_nil before)
      rw [head]
      rfl

end Text

end ContextFree
