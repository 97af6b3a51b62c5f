/-!
This module contains the division of texts into lines.
-/

namespace ContextFree

namespace Text

/--
The lines of a text. A line ends at a line feed, and a carriage return right before that belongs to
the ending. Nothing but text after the last line feed makes another line.
-/
def lines : List Char → List (List Char)
  | [] => []
  | '\n' :: rest => [] :: lines rest
  | '\r' :: '\n' :: rest => [] :: lines rest
  | c :: rest =>
    match lines rest with
    | [] => [[c]]
    | line :: more => (c :: line) :: more

end Text

end ContextFree
