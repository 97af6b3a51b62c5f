import ContextFree.Grammar.Basic
import ContextFree.Text.Pieces
import ContextFree.Text.Width

/-!
This module contains tables drawn with lines and rounded corners. Cells are aligned to the left with
a space on both sides, and a cell of several lines makes its row as high.
-/

namespace ContextFree

/--
A table with a heading and rows of as many cells.
-/
structure Table where
  heading : List String
  rows : List (List String)

namespace Table

def cellLines (cell : String) : List (List Char) :=
  Text.pieces (· = '\n') cell.toList

def cellWidth (cell : String) : Nat :=
  (cellLines cell).foldl (fun widest line => max widest (Text.width line)) 0

/--
The width of each column of the table: that of its widest cell.
-/
def widths (t : Table) : List Nat :=
  t.rows.foldl (fun widths row => List.zipWith max widths (row.map cellWidth))
    (t.heading.map cellWidth)

/--
A horizontal line: how it starts, how it crosses the lines between the columns, and how it ends.
-/
def ruler (left crossing right : String) (widths : List Nat) : String :=
  left ++ crossing.intercalate (widths.map fun n => String.join (List.replicate (n + 2) "─")) ++
    right

def padded (width : Nat) (line : List Char) : String :=
  " " ++ String.ofList (line ++ List.replicate (width - Text.width line) ' ') ++ " "

def rowLines (widths : List Nat) (row : List String) : List String :=
  let cells := row.map cellLines
  let height := cells.foldl (fun highest cell => max highest cell.length) 0
  (List.range height).map fun i =>
    "│" ++ "│".intercalate (List.zipWith (fun n cell => padded n (cell.getD i [])) widths cells) ++
      "│"

/--
The lines of the table. A table without rows ends with the line below its heading.
-/
def lines (t : Table) : List String :=
  let widths := t.widths
  let bottom := if t.rows = [] then [] else [ruler "╰" "┴" "╯" widths]
  [ruler "╭" "┬" "╮" widths] ++ rowLines widths t.heading ++ [ruler "├" "┼" "┤" widths] ++
    t.rows.flatMap (rowLines widths) ++ bottom

/--
The text of the table, without a line feed at the end.
-/
def toText (t : Table) : String :=
  "\n".intercalate t.lines

end Table

namespace Grammar

/--
The table of the productions, numbered from 1 in their order.
-/
def productionTable (g : Grammar) : Table where
  heading := ["#", "Variable", "Derives"]
  rows := (g.productions.toList.zipIdx 1).map fun entry =>
    [toString entry.2, entry.1.lhs.name, entry.1.rhsText]

end Grammar

end ContextFree
