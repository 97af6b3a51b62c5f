import ContextFree.OrderedMap.Lemmas
import ContextFree.Proofs.Notation
import ContextFree.Text.Definition
import Mathlib.Data.List.Nodup

/-!
This module contains that the formal definition of a grammar tells which grammar it is, up to the
order of its productions. Symbols may contain what the definition is written with, commas, brackets
and arrows, and so it is not taken apart at these but at the blanks, which no symbol contains: each
line after the heading is read back as a variable with its alternatives.
-/

namespace ContextFree

namespace Text

def arrow : List Char := ['→']

/--
What stands between alternatives.
-/
def bar : List Char := ['|']

variable {α : Type} {sep : List α} {ls ws : List (List α)} {a : α}

theorem append_intercalate (sep : List α) (h : ls ≠ []) :
    sep ++ sep.intercalate ls = ls.flatMap (sep ++ ·) := by
  induction ls with
  | nil => exact absurd rfl h
  | cons l ls ih =>
    cases ls with
    | nil => simp
    | cons m ls => simp [List.intercalate_cons_cons, ← ih (List.cons_ne_nil m ls)]

theorem mem_or_mem_of_mem_intercalate (h : a ∈ sep.intercalate ls) :
    a ∈ sep ∨ ∃ l ∈ ls, a ∈ l := by
  cases ls with
  | nil => cases h
  | cons l ls =>
    have mem := List.mem_append_right sep h
    rw [append_intercalate sep (List.cons_ne_nil l ls)] at mem
    obtain ⟨m, hm, ha⟩ := List.mem_flatMap.1 mem
    exact (List.mem_append.1 ha).imp_right fun ha => ⟨m, hm, ha⟩

theorem isWord_singleton {c : Char} (h : isBlank c = false) : IsWord [c] :=
  ⟨List.cons_ne_nil c [], List.forall_mem_singleton.2 h⟩

theorem words_cons_spaced {ws : List (List Char)} (areWords : ∀ w ∈ ws, IsWord w) :
    words (' ' :: ws.flatMap (' ' :: ·)) = ws :=
  words_append_spaced areWords [' ']

end Text

open Text

/--
A line of a formal definition: a variable and its alternatives.
-/
structure Row where
  lhs : Symbol
  alternatives : List (List Symbol)

namespace Row

def productions (row : Row) : List Production :=
  row.alternatives.map fun rhs => ⟨row.lhs, rhs⟩

def text (row : Row) : String :=
  "  " ++ row.lhs.name ++ " → " ++ " | ".intercalate (row.productions.map Production.rhsText)

/--
The words that an alternative is written with.
-/
def written (rhs : List Symbol) : List (List Char) :=
  if rhs = [] then [Symbol.emptyWord.toList] else rhs.map fun s => s.name.toList

/--
The alternative that has been written with the words.
-/
def readAlternative (words : List (List Char)) : List Symbol :=
  if words = [Symbol.emptyWord.toList] then [] else words.map fun word => ⟨.ofList word⟩

/--
Read a line by its words: the first is the variable, the second an arrow, and the other ones are the
alternatives with bars between them.
-/
def read? (line : List Char) : Option Row :=
  match words line with
  | [] | [_] => none
  | lhs :: sign :: rest =>
    if sign = arrow then
      some ⟨⟨.ofList lhs⟩, (rest.splitOn bar).map readAlternative⟩
    else
      none

/--
The line can be read back: there are alternatives, and their symbols are words other than the bar
and the sign for the empty word.
-/
structure Presentable (row : Row) : Prop where
  lhs : IsWord row.lhs.name.toList
  nonempty : row.alternatives ≠ []
  rhs : ∀ u ∈ row.alternatives, ∀ s ∈ u,
    IsWord s.name.toList ∧ s.name ≠ "|" ∧ s.name ≠ Symbol.emptyWord

variable {row : Row} {u : List Symbol}

theorem toList_rhsText (p : Production) :
    ' ' :: p.rhsText.toList = (written p.rhs).flatMap (' ' :: ·) := by
  by_cases empty : p.rhs = []
  · simp [Production.rhsText, Production.isEpsilon, written, empty]
  · have some : p.rhs.map (fun s => s.name.toList) ≠ [] := by simpa using empty
    have text : p.rhsText.toList = [' '].intercalate (p.rhs.map fun s => s.name.toList) := by
      simp [Production.rhsText, Production.isEpsilon, Symbol.spaced, empty,
        String.toList_intercalate, Function.comp_def]
    rw [text, written, if_neg empty]
    exact append_intercalate [' '] some

/--
A bar with spaces around it is a word like any other.
-/
theorem toList_intercalate_rhsText {ps : List Production} (nonempty : ps ≠ []) :
    ' ' :: (" | ".intercalate (ps.map Production.rhsText)).toList =
      ([bar].intercalate (ps.map (written ·.rhs))).flatMap (' ' :: ·) := by
  have texts : ps.map (fun p => p.rhsText.toList) ≠ [] := by simpa using nonempty
  have blocks : ps.map (written ·.rhs) ≠ [] := by simpa using nonempty
  have spaced : (" | ".intercalate (ps.map Production.rhsText)).toList =
      [' ', '|', ' '].intercalate (ps.map fun p => p.rhsText.toList) := by
    simp [String.toList_intercalate, Function.comp_def]
  -- with a bar before each alternative, and not only between them, both sides are the same
  apply (List.append_right_inj [' ', '|']).1
  calc
    [' ', '|'] ++ ' ' :: (" | ".intercalate (ps.map Production.rhsText)).toList
    _ = ps.flatMap fun p => [' ', '|'] ++ ' ' :: p.rhsText.toList := by
      rw [spaced]
      exact (append_intercalate [' ', '|', ' '] texts).trans (List.flatMap_map _ _ ps)
    _ = ps.flatMap fun p => ([bar] ++ written p.rhs).flatMap (' ' :: ·) := by
      simp only [toList_rhsText]
      rfl
    _ = ([bar] ++ [bar].intercalate (ps.map (written ·.rhs))).flatMap (' ' :: ·) := by
      rw [append_intercalate [bar] blocks, List.flatMap_map, List.flatMap_assoc]

/--
Every word of the line has a space of its own before it.
-/
theorem toList_text (nonempty : row.alternatives ≠ []) : row.text.toList =
    ' ' :: (row.lhs.name.toList :: arrow ::
      [bar].intercalate (row.alternatives.map written)).flatMap (' ' :: ·) := by
  have some : row.productions ≠ [] := by simpa [productions] using nonempty
  have blocks : row.productions.map (written ·.rhs) = row.alternatives.map written := by
    simp [productions, Function.comp_def]
  rw [List.flatMap_cons, List.flatMap_cons, ← blocks, ← toList_intercalate_rhsText some]
  simp [text, arrow]

section Presentable

variable (h : row.Presentable)
include h

theorem Presentable.isWord_of_mem_written (mem : u ∈ row.alternatives) :
    ∀ w ∈ written u, IsWord w := by
  intro w hw
  unfold written at hw
  split at hw
  · rw [List.mem_singleton.1 hw]
    exact isWord_singleton (by decide)
  · obtain ⟨s, hs, rfl⟩ := List.mem_map.1 hw
    exact (h.rhs u mem s hs).1

theorem Presentable.bar_not_mem_written (mem : u ∈ row.alternatives) : ¬ bar ∈ written u := by
  intro hw
  unfold written at hw
  split at hw
  · exact absurd hw (by decide)
  · obtain ⟨s, hs, same⟩ := List.mem_map.1 hw
    apply (h.rhs u mem s hs).2.1
    rw [← String.toList_inj, same]
    rfl

theorem Presentable.readAlternative_written (mem : u ∈ row.alternatives) :
    readAlternative (written u) = u := by
  unfold written
  split
  · rename_i empty
    rw [empty]
    rfl
  · rename_i some
    have notEmptyWord : u.map (fun s => s.name.toList) ≠ [Symbol.emptyWord.toList] := by
      intro same
      obtain ⟨s, rfl, name⟩ := List.map_eq_singleton_iff.1 same
      exact (h.rhs [s] mem s List.mem_cons_self).2.2 (String.toList_inj.1 name)
    rw [readAlternative, if_neg notEmptyWord, List.map_map]
    simp [Function.comp_def]

theorem Presentable.areWords : ∀ w ∈ row.lhs.name.toList :: arrow ::
    [bar].intercalate (row.alternatives.map written), IsWord w := by
  have isArrow : IsWord arrow := isWord_singleton (by decide)
  refine List.forall_mem_cons.2 ⟨h.lhs, List.forall_mem_cons.2 ⟨isArrow, fun w hw => ?_⟩⟩
  rcases mem_or_mem_of_mem_intercalate hw with hw | ⟨_, hu, hw⟩
  · rw [List.mem_singleton.1 hw]
    exact isWord_singleton (by decide)
  · obtain ⟨u, mem, rfl⟩ := List.mem_map.1 hu
    exact h.isWord_of_mem_written mem w hw

theorem Presentable.words_text : words row.text.toList =
    row.lhs.name.toList :: arrow :: [bar].intercalate (row.alternatives.map written) := by
  rw [toList_text h.nonempty]
  exact words_cons_spaced h.areWords

theorem Presentable.read?_text : read? row.text.toList = some row := by
  have divided : ([bar].intercalate (row.alternatives.map written)).splitOn bar =
      row.alternatives.map written := by
    refine List.splitOn_intercalate bar ?_ (by simpa using h.nonempty)
    intro _ hu
    obtain ⟨u, mem, rfl⟩ := List.mem_map.1 hu
    exact h.bar_not_mem_written mem
  have alternatives : (row.alternatives.map written).map readAlternative = row.alternatives := by
    rw [List.map_map]
    exact (List.map_congr_left fun u mem => h.readAlternative_written mem).trans (List.map_id _)
  simp only [read?, h.words_text, if_true, divided, alternatives, String.ofList_toList]

theorem Presentable.plain : ∀ c ∈ row.text.toList, c ≠ '\n' ∧ c ≠ '\r' := by
  intro c hc
  rw [toList_text h.nonempty] at hc
  rcases List.mem_cons.1 hc with rfl | hc
  · decide
  · obtain ⟨w, hw, hc⟩ := List.mem_flatMap.1 hc
    rcases List.mem_cons.1 hc with rfl | hc
    · decide
    · exact (h.areWords w hw).plain c hc

end Presentable

end Row

namespace Grammar

variable {g h : Grammar} {v : Symbol} {row : Row}

/--
The grammar can be told from its formal definition: its symbols are words, and none of a right-hand
side is the bar or the sign for the empty word.
-/
structure Presentable (g : Grammar) : Prop where
  start : IsWord g.start.name.toList
  symbols : ∀ s ∈ g.symbols, IsWord s.name.toList
  rhs : ∀ p ∈ g.productions, ∀ s ∈ p.rhs, s.name ≠ "|" ∧ s.name ≠ Symbol.emptyWord

instance (g : Grammar) : Decidable g.Presentable :=
  decidable_of_iff (IsWord g.start.name.toList ∧ (∀ s ∈ g.symbols.toList, IsWord s.name.toList) ∧
      ∀ p ∈ g.productions.toList, ∀ s ∈ p.rhs, s.name ≠ "|" ∧ s.name ≠ Symbol.emptyWord)
    ⟨fun h => ⟨h.1, h.2.1, h.2.2⟩, fun h => ⟨h.start, h.symbols, h.rhs⟩⟩

/--
The first line of the formal definition.
-/
def heading (g : Grammar) : String :=
  "G = (\x7b" ++ commaSeparated g.startAndVars ++ "\x7d, \x7b" ++ commaSeparated g.terminals ++
    "\x7d, P, " ++ g.start.name ++ ")"

def row? (g : Grammar) (v : Symbol) : Option Row :=
  match g.productionsOf v with
  | [] => none
  | ps => some ⟨v, ps.map Production.rhs⟩

/--
The lines of the formal definition, one for each variable that has a production.
-/
def rows (g : Grammar) : List Row :=
  g.startAndVars.toList.filterMap g.row?

section Rows

theorem map_mk_productionsOf (g : Grammar) (v : Symbol) :
    ((g.productionsOf v).map Production.rhs).map (fun rhs => ⟨v, rhs⟩) = g.productionsOf v := by
  rw [List.map_map]
  refine (List.map_congr_left fun p mem => ?_).trans (List.map_id _)
  obtain ⟨_, rfl⟩ := Productions.mem_of.1 mem
  rfl

theorem row?_eq_some_iff : g.row? v = some row ↔
    g.productionsOf v ≠ [] ∧ row = ⟨v, (g.productionsOf v).map Production.rhs⟩ := by
  unfold row?
  cases g.productionsOf v <;> simp [eq_comm]

theorem get?_alternatives (g : Grammar) (v : Symbol) : g.alternatives.get? v =
    if g.productionsOf v = [] then none else some ((g.productionsOf v).map Production.rhsText) := by
  have written : (g.productionsOf v).foldl (fun texts p => texts ++ [p.rhsText]) [] =
      (g.productionsOf v).map Production.rhsText := by
    rw [List.foldl_append_eq_append, List.nil_append, ← List.flatMap_def, ← List.map_eq_flatMap]
  have isVar : v ∈ g.productions.toList.map Production.lhs ↔ g.productionsOf v ≠ [] := by
    simp [productionsOf, Productions.of, List.filter_eq_nil_iff]
  rw [alternatives, OrderedMap.get?_collect]
  split
  · rename_i known
    rw [if_neg (isVar.1 known), ← written]
    rfl
  · rename_i unknown
    rw [if_pos (of_not_not (mt isVar.2 unknown))]

theorem line?_alternatives (g : Grammar) (v : Symbol) :
    line? g.alternatives v = (g.row? v).map (·.text ++ "\n") := by
  have same := map_mk_productionsOf g v
  unfold line? row?
  rw [get?_alternatives]
  cases split : g.productionsOf v with
  | nil => rfl
  | cons p ps =>
    rw [split] at same
    simp only [Option.map_some, Row.text, Row.productions, same]
    rfl

theorem mem_startAndVars : v ∈ g.startAndVars ↔ v = g.start ∨ v ∈ g.vars := by
  simp [startAndVars, OrderedSet.mem_toList]

theorem mem_rows_iff : row ∈ g.rows ↔ row.lhs ∈ g.startAndVars ∧ g.productionsOf row.lhs ≠ [] ∧
    row.alternatives = (g.productionsOf row.lhs).map Production.rhs := by
  simp only [rows, List.mem_filterMap, row?_eq_some_iff]
  constructor
  · rintro ⟨v, isVar, some, rfl⟩
    exact ⟨isVar, some, rfl⟩
  · rintro ⟨isVar, some, alternatives⟩
    refine ⟨row.lhs, isVar, some, ?_⟩
    rw [← alternatives]

theorem productions_of_mem_rows (mem : row ∈ g.rows) :
    row.productions = g.productionsOf row.lhs := by
  obtain ⟨_, _, alternatives⟩ := mem_rows_iff.1 mem
  rw [Row.productions, alternatives, map_mk_productionsOf]

theorem nodup_lhs_rows (g : Grammar) : (g.rows.map Row.lhs).Nodup := by
  rw [List.Nodup, List.pairwise_map, rows, List.pairwise_filterMap]
  refine g.startAndVars.nodup.imp fun different first hfirst second hsecond => ?_
  obtain ⟨_, rfl⟩ := row?_eq_some_iff.1 hfirst
  obtain ⟨_, rfl⟩ := row?_eq_some_iff.1 hsecond
  exact different

/--
No production is left out or written twice, since each stands on the line of its variable.
-/
theorem perm_rows (g : Grammar) : (g.rows.flatMap Row.productions).Perm g.productions.toList := by
  have nodup : (g.rows.flatMap Row.productions).Nodup := by
    have different := g.nodup_lhs_rows
    rw [List.Nodup, List.pairwise_map] at different
    refine List.nodup_flatMap.2 ⟨fun row mem => ?_, different.imp_of_mem ?_⟩
    · rw [productions_of_mem_rows mem]
      exact g.productions.nodup.filter _
    · intro _ _ hfirst hsecond different p ofFirst ofSecond
      rw [productions_of_mem_rows hfirst] at ofFirst
      rw [productions_of_mem_rows hsecond] at ofSecond
      obtain ⟨_, first⟩ := Productions.mem_of.1 ofFirst
      obtain ⟨_, second⟩ := Productions.mem_of.1 ofSecond
      exact different (first.symm.trans second)
  refine (List.perm_ext_iff_of_nodup nodup g.productions.nodup).2 fun p => ?_
  rw [List.mem_flatMap]
  constructor
  · rintro ⟨row, mem, hp⟩
    rw [productions_of_mem_rows mem] at hp
    exact (Productions.mem_of.1 hp).1
  · intro mem
    have ofVar : p ∈ g.productionsOf p.lhs := Productions.mem_of.2 ⟨mem, rfl⟩
    have isVar : p.lhs ∈ g.startAndVars := mem_startAndVars.2 (.inr (Productions.lhs_mem_vars mem))
    have isRow : ⟨p.lhs, (g.productionsOf p.lhs).map Production.rhs⟩ ∈ g.rows :=
      mem_rows_iff.2 ⟨isVar, List.ne_nil_of_mem ofVar, rfl⟩
    refine ⟨_, isRow, ?_⟩
    rwa [productions_of_mem_rows isRow]

end Rows

section Lines

/--
The lines of the formal definition.
-/
def definitionLines (g : Grammar) : List (List Char) :=
  g.heading.toList :: [] :: "P = \x7b".toList :: (g.rows.map (·.text.toList) ++ [['\x7d']])

theorem toList_definition (g : Grammar) :
    g.definition.toList = g.definitionLines.flatMap (· ++ ['\n']) := by
  have lines : g.startAndVars.toList.filterMap (line? g.alternatives) =
      g.rows.map (·.text ++ "\n") := by
    rw [rows, List.map_filterMap]
    exact List.filterMap_congr fun v _ => line?_alternatives g v
  simp only [definition, lines, definitionLines, heading]
  simp [String.toList_join, List.flatMap_map]

section Presentable

variable (presentable : g.Presentable)
include presentable

theorem Presentable.isWord_of_mem_startAndVars (mem : v ∈ g.startAndVars) :
    IsWord v.name.toList := by
  rcases mem_startAndVars.1 mem with rfl | isVar
  · exact presentable.start
  · exact presentable.symbols v (Productions.mem_symbols_of_mem_vars isVar)

theorem Presentable.of_mem_rows (mem : row ∈ g.rows) : row.Presentable := by
  obtain ⟨isVar, some, alternatives⟩ := mem_rows_iff.1 mem
  refine ⟨presentable.isWord_of_mem_startAndVars isVar, ?_, ?_⟩
  · rw [alternatives]
    simpa using some
  · intro u hu s hs
    rw [alternatives] at hu
    obtain ⟨p, hp, rfl⟩ := List.mem_map.1 hu
    obtain ⟨old, _⟩ := Productions.mem_of.1 hp
    exact ⟨presentable.symbols s (Productions.rhs_mem_symbols old hs), presentable.rhs p old s hs⟩

theorem Presentable.plain_heading : ∀ c ∈ g.heading.toList, c ≠ '\n' ∧ c ≠ '\r' := by
  have plain {symbols : OrderedSet Symbol} (areWords : ∀ s ∈ symbols, IsWord s.name.toList) :
      ∀ c ∈ (commaSeparated symbols).toList, c ≠ '\n' ∧ c ≠ '\r' := by
    have separator : ∀ c ∈ ", ".toList, c ≠ '\n' ∧ c ≠ '\r' := by simp
    intro c hc
    rw [commaSeparated, String.toList_intercalate] at hc
    rcases mem_or_mem_of_mem_intercalate hc with hc | ⟨_, hs, hc⟩
    · exact separator c hc
    · simp only [List.mem_map, exists_exists_and_eq_and] at hs
      obtain ⟨s, hs, rfl⟩ := hs
      exact (areWords s hs).plain c hc
  have vars := plain fun s hs => presentable.isWord_of_mem_startAndVars hs
  have terminals := plain fun s hs => presentable.symbols s (Productions.mem_terminals.1 hs).1
  simp only [heading, String.toList_append, List.forall_mem_append]
  exact ⟨⟨⟨⟨⟨⟨by simp, vars⟩, by simp⟩, terminals⟩, by simp⟩, presentable.start.plain⟩, by simp⟩

theorem Presentable.lines_definition : lines g.definition.toList = g.definitionLines := by
  rw [toList_definition]
  apply lines_fed
  refine List.forall_mem_cons.2 ⟨presentable.plain_heading, List.forall_mem_cons.2 ⟨nofun,
    List.forall_mem_cons.2 ⟨by simp, fun line hl => ?_⟩⟩⟩
  rcases List.mem_append.1 hl with hl | hl
  · obtain ⟨row, mem, rfl⟩ := List.mem_map.1 hl
    exact (presentable.of_mem_rows mem).plain
  · rw [List.mem_singleton.1 hl]
    simp

theorem Presentable.getLast?_words_heading :
    (words g.heading.toList).getLast? = some (g.start.name.toList ++ [')']) := by
  obtain ⟨before, split⟩ : ∃ before : List Char,
      g.heading.toList = before ++ ' ' :: (g.start.name.toList ++ [')']) := by
    refine ⟨("G = (\x7b" ++ commaSeparated g.startAndVars ++ "\x7d, \x7b" ++
      commaSeparated g.terminals ++ "\x7d, P,").toList, ?_⟩
    simp [heading]
  have isWord : IsWord (g.start.name.toList ++ [')']) := by
    refine ⟨List.append_ne_nil_of_right_ne_nil _ (List.cons_ne_nil _ _), ?_⟩
    exact List.forall_mem_append.2 ⟨presentable.start.2, List.forall_mem_singleton.2 (by decide)⟩
  rw [split, words_append_blank (by decide), isWord.words_eq, List.getLast?_concat]

theorem Presentable.map_read?_rows :
    (g.rows.map (·.text.toList)).map Row.read? = g.rows.map some := by
  rw [List.map_map]
  exact List.map_congr_left fun row mem => (presentable.of_mem_rows mem).read?_text

end Presentable

theorem equiv_of_definition_eq (hg : g.Presentable) (hh : h.Presentable)
    (same : g.definition = h.definition) : g ≈ h := by
  have lines : g.definitionLines = h.definitionLines := by
    rw [← hg.lines_definition, ← hh.lines_definition, same]
  obtain ⟨headings, below⟩ := List.cons.inj lines
  have texts := List.append_cancel_right (List.cons.inj (List.cons.inj below).2).2
  have start : g.start = h.start := by
    have last := hg.getLast?_words_heading
    rw [headings, hh.getLast?_words_heading] at last
    have names := List.append_cancel_right (Option.some.inj last)
    exact congrArg Symbol.mk (String.toList_inj.1 names.symm)
  have rows : g.rows = h.rows := by
    have read := hg.map_read?_rows
    rw [texts, hh.map_read?_rows] at read
    exact ((List.map_inj_right fun _ _ => Option.some.inj).1 read).symm
  have perm := g.perm_rows
  rw [rows] at perm
  exact equiv_iff.2 ⟨start, OrderedSet.equiv_iff_perm.2 (perm.symm.trans h.perm_rows)⟩

end Lines

/--
The formal definition has one line for each variable with productions, and every production is one
of the alternatives of its line, once. The lines can be read back, so that no two grammars have the
same definition, unless they differ in the order of their productions alone.
-/
theorem definition_faithful :
    (∀ g : Grammar, g.Presentable → ∃ rows : List Row,
      lines g.definition.toList = g.heading.toList :: [] :: "P = \x7b".toList ::
        (rows.map (·.text.toList) ++ [['\x7d']]) ∧
      (rows.map Row.lhs).Nodup ∧ (rows.flatMap Row.productions).Perm g.productions.toList ∧
      ∀ row ∈ rows, row.alternatives ≠ [] ∧ Row.read? row.text.toList = some row) ∧
    ∀ g h : Grammar, g.Presentable → h.Presentable → g.definition = h.definition → g ≈ h := by
  refine ⟨fun g presentable => ⟨g.rows, ?_, g.nodup_lhs_rows, g.perm_rows, ?_⟩, ?_⟩
  · exact presentable.lines_definition
  · intro row mem
    have ofRow := presentable.of_mem_rows mem
    exact ⟨ofRow.nonempty, ofRow.read?_text⟩
  · intro g h hg hh same
    exact equiv_of_definition_eq hg hh same

/--
Symbols that contain what a definition is written with.
-/
def punctuated : Grammar :=
  ofProductions ⟨"S,"⟩ [.ofNames "→" ["\x7d", "S,", "→"], .ofNames "S," ["→"], .ofNames "→" [],
    .ofNames "|" ["),"]]

def punctuatedAgain : Grammar :=
  ofProductions ⟨"S,"⟩ [.ofNames "S," ["→"], .ofNames "→" ["\x7d", "S,", "→"], .ofNames "|" ["),"],
    .ofNames "→" []]

theorem definition_faithful_punctuated :
    punctuated.definition = "G = (\x7bS,, →, |\x7d, \x7b\x7d, ),\x7d, P, S,)\n\n" ++
      "P = \x7b\n  S, → →\n  → → \x7d S, → | ε\n  | → ),\n\x7d\n" ∧
    punctuated.Presentable ∧ (∃ rows : List Row,
      lines punctuated.definition.toList = punctuated.heading.toList :: [] :: "P = \x7b".toList ::
        (rows.map (·.text.toList) ++ [['\x7d']]) ∧
      (rows.map Row.lhs).Nodup ∧
      (rows.flatMap Row.productions).Perm punctuated.productions.toList) ∧
    punctuated.definition = punctuatedAgain.definition ∧ punctuatedAgain.Presentable ∧
    punctuated ≈ punctuatedAgain := by
  have presentable : punctuated.Presentable := by decide
  have presentable' : punctuatedAgain.Presentable := by decide
  have written : punctuated.definition = "G = (\x7bS,, →, |\x7d, \x7b\x7d, ),\x7d, P, S,)\n\n" ++
      "P = \x7b\n  S, → →\n  → → \x7d S, → | ε\n  | → ),\n\x7d\n" := by rfl
  have writtenAgain : punctuatedAgain.definition = punctuated.definition := by rfl
  obtain ⟨lined, injective⟩ := definition_faithful
  obtain ⟨rows, lines, single, once, _⟩ := lined punctuated presentable
  exact ⟨written, presentable, ⟨rows, lines, single, once⟩, writtenAgain.symm, presentable',
    injective _ _ presentable presentable' writtenAgain.symm⟩

end Grammar

end ContextFree
