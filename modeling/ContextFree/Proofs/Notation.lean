import ContextFree.Grammar.Lemmas
import ContextFree.Proofs.Reading

/-!
This module contains which grammars are read from their own text: just those whose symbols can be
told apart in it and whose start variable has a production to stand on the first line. What has been
read from any text is such a grammar, so that writing and reading it again changes nothing but the
order of its productions.
-/

namespace ContextFree

namespace Text

variable {number : Nat} {ls : List (List Char)} {ps : List Production}

theorem readable_of_readLines (h : readLines number ls = .ok ps) : ∀ p ∈ ps, p.Readable := by
  induction ls generalizing number ps with
  | nil =>
    cases h
    intro p hp
    cases hp
  | cons line ls ih =>
    unfold readLines at h
    split at h
    · exact ih h
    · split at h
      · cases h
      · rename_i first read
        cases rest : readLines (number + 1) ls with
        | error e =>
          rw [rest] at h
          cases h
        | ok more =>
          rw [rest] at h
          cases h
          intro p hp
          rcases List.mem_cons.1 hp with rfl | hp
          · exact Production.readable_of_readLine read
          · exact ih rest p hp

theorem readLines_toText (readable : ∀ p ∈ ps, p.Readable) (number : Nat) :
    readLines number (ps.map fun p => p.toText.toList) = .ok ps := by
  induction ps generalizing number with
  | nil => rfl
  | cons p ps ih =>
    have first := readable p List.mem_cons_self
    have rest := ih (fun q hq => readable q (List.mem_cons_of_mem p hq)) (number + 1)
    rw [List.map_cons, readLines, first.toText_not_blank, if_neg Bool.false_ne_true,
      first.readLine_toText, rest]
    rfl

end Text

namespace Grammar

open Text

/--
The grammar can be told from its text: its productions can, and the start variable has one, so that
the first line is one of its productions.
-/
structure Readable (g : Grammar) : Prop where
  start : g.start ∈ g.vars
  productions : ∀ p ∈ g.productions, p.Readable

variable {g r : Grammar} {text : String} {p : Production}

theorem parse_eq_ok_iff : parse text = .ok g ↔
    ∃ p more, readLines 1 (lines text.toList) = .ok (p :: more) ∧
      g = ofProductions p.lhs (p :: more) := by
  simp only [parse]
  generalize readLines 1 (lines text.toList) = read
  cases read with
  | error e => simp
  | ok ps =>
    cases ps with
    | nil => simp
    | cons p more => simp [eq_comm]

theorem readable_of_parse (h : parse text = .ok g) : g.Readable := by
  obtain ⟨p, more, read, rfl⟩ := parse_eq_ok_iff.1 h
  constructor
  · exact Productions.mem_vars.2 ⟨p, OrderedSet.mem_ofList.2 List.mem_cons_self, rfl⟩
  · intro q hq
    exact readable_of_readLines read q (OrderedSet.mem_ofList.1 hq)

theorem Readable.of_equiv (h : r.Readable) (same : r ≈ g) : g.Readable := by
  obtain ⟨start, productions⟩ := equiv_iff.1 same
  constructor
  · obtain ⟨p, mem, lhs⟩ := Productions.mem_vars.1 h.start
    exact Productions.mem_vars.2 ⟨p, (productions p).1 mem, lhs.trans start⟩
  · intro p mem
    exact h.productions p ((productions p).2 mem)

@[simp]
theorem mem_startFirst : p ∈ g.startFirst ↔ p ∈ g.productions := by
  by_cases ofStart : p.lhs = g.start
  · simp [startFirst, ofStart, OrderedSet.mem_toList]
  · simp [startFirst, ofStart, OrderedSet.mem_toList]

theorem perm_startFirst (g : Grammar) : g.startFirst.Perm g.productions.toList := by
  have rearranged := List.filter_append_perm (·.lhs = g.start) g.productions.toList
  simpa [startFirst] using rearranged

theorem exists_startFirst (h : g.start ∈ g.vars) :
    ∃ p more, g.startFirst = p :: more ∧ p.lhs = g.start := by
  obtain ⟨p, mem, lhs⟩ := Productions.mem_vars.1 h
  have found : p ∈ g.productions.toList.filter (·.lhs = g.start) :=
    List.mem_filter.2 ⟨mem, decide_eq_true lhs⟩
  obtain ⟨first, more, front⟩ := List.exists_cons_of_ne_nil (List.ne_nil_of_mem found)
  have ofStart : first ∈ g.productions.toList.filter (·.lhs = g.start) :=
    front ▸ List.mem_cons_self
  refine ⟨first, more ++ g.productions.toList.filter (·.lhs ≠ g.start), ?_, ?_⟩
  · rw [startFirst, front, List.cons_append]
  · exact of_decide_eq_true (List.mem_filter.1 ofStart).2

/--
The grammar with the productions of the start variable moved to the front.
-/
def rearranged (g : Grammar) : Grammar :=
  ofProductions g.start g.startFirst

theorem toList_rearranged (g : Grammar) : g.rearranged.productions.toList = g.startFirst :=
  OrderedSet.toList_ofList (g.perm_startFirst.nodup_iff.2 g.productions.nodup)

theorem rearranged_equiv (g : Grammar) : g.rearranged ≈ g := by
  refine equiv_iff.2 ⟨rfl, fun p => ?_⟩
  exact OrderedSet.mem_ofList.trans mem_startFirst

theorem startFirst_rearranged (g : Grammar) : g.rearranged.startFirst = g.startFirst := by
  have start : g.rearranged.start = g.start := rfl
  rw [startFirst, toList_rearranged, start]
  simp [startFirst, List.filter_filter]

theorem toText_rearranged (g : Grammar) : g.rearranged.toText = g.toText := by
  rw [toText, startFirst_rearranged, toText]

theorem toList_toText (g : Grammar) :
    g.toText.toList = (g.startFirst.map fun p => p.toText.toList).flatMap (· ++ ['\n']) := by
  simp [toText, String.toList_join, List.flatMap_map]

theorem Readable.parse_toText (h : g.Readable) : parse g.toText = .ok g.rearranged := by
  have readable : ∀ p ∈ g.startFirst, p.Readable := fun p hp =>
    h.productions p (mem_startFirst.1 hp)
  have plain : ∀ l ∈ g.startFirst.map (fun p => p.toText.toList),
      ∀ c ∈ l, c ≠ '\n' ∧ c ≠ '\r' := by
    intro l hl
    obtain ⟨p, hp, rfl⟩ := List.mem_map.1 hl
    exact (readable p hp).plain
  obtain ⟨p, more, front, ofStart⟩ := exists_startFirst h.start
  refine parse_eq_ok_iff.2 ⟨p, more, ?_, ?_⟩
  · rw [toList_toText, lines_fed plain, readLines_toText readable, front]
  · rw [rearranged, front, ofStart]

/--
A grammar is read from its text, up to the order of its productions, just if it can be told from it.
That is so for every grammar that has been read from a text, and then writing it once more gives the
same text.
-/
theorem parse_toText_equiv_iff :
    (∀ g : Grammar, (∃ r, parse g.toText = .ok r ∧ r ≈ g) ↔ g.Readable) ∧
      ∀ text g, parse text = .ok g →
        ∃ r, parse g.toText = .ok r ∧ r ≈ g ∧ r.toText = g.toText := by
  constructor
  · intro g
    constructor
    · rintro ⟨r, read, same⟩
      exact (readable_of_parse read).of_equiv same
    · intro h
      exact ⟨g.rearranged, h.parse_toText, g.rearranged_equiv⟩
  · intro text g read
    exact ⟨g.rearranged, (readable_of_parse read).parse_toText, g.rearranged_equiv,
      g.toText_rearranged⟩

/--
A text with a blank line, a delimiter that is a symbol, and a production of the start variable at
the end.
-/
def scatteredText : String :=
  "E ::= T\r\n\nT ::= ::= x\n  E::=\tx"

def scattered : Grammar :=
  ofProductions ⟨"E"⟩ [.ofNames "E" ["T"], .ofNames "T" ["::=", "x"], .ofNames "E" ["x"]]

theorem parse_toText_equiv_scattered :
    parse scatteredText = .ok scattered ∧
      ∃ r, parse scattered.toText = .ok r ∧ r ≈ scattered ∧ r.toText = scattered.toText := by
  have read : parse scatteredText = .ok scattered := by decide +kernel
  exact ⟨read, parse_toText_equiv_iff.2 scatteredText scattered read⟩

end Grammar

end ContextFree
