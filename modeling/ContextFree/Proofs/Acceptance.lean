import ContextFree.Proofs.Lines
import ContextFree.Proofs.Notation

/-!
This module contains which texts are read as grammars, and as which ones: those with a production on
every line that is not blank, if there is such a line. Of any other text it contains which line is at
fault and what is wrong with it.
-/

namespace ContextFree

namespace Text

/--
`lhs` stands before the first delimiter of the line, with blanks around it only, and is one word.
-/
def Defines (line lhs : List Char) : Prop :=
  ∃ before after, Divided line before after ∧ Trimmed before lhs ∧ IsWord lhs

end Text

open Text

namespace Production

/--
The line is a text of the production: its variable stands before the first delimiter, with any blanks
around it, and the symbols of its right-hand side stand after that as words.
-/
def Written (line : List Char) (p : Production) : Prop :=
  ∃ before after, Divided line before after ∧ Trimmed before p.lhs.name.toList ∧
    IsWord p.lhs.name.toList ∧ InWords after (p.rhs.map fun s => s.name.toList)

variable {line : List Char} {p : Production}

theorem readLine_eq_ok_iff_written : readLine line = .ok p ↔ p.Written line := by
  obtain ⟨⟨name⟩, rhs⟩ := p
  simp only [readLine_eq_ok_iff, Written, trimmed_iff, inWords_iff]
  refine exists_congr fun before => exists_congr fun after => and_congr_right fun _ => ?_
  have names (ws : List (List Char)) :
      rhs = ws.map (fun word => ⟨.ofList word⟩) ↔ rhs.map (fun s => s.name.toList) = ws := by
    constructor
    · rintro rfl
      simp [Function.comp_def]
    · rintro rfl
      simp [Function.comp_def]
  rw [Production.mk.injEq, Symbol.mk.injEq, names]
  constructor
  · rintro ⟨isWord, rfl, rhs⟩
    rw [String.toList_ofList]
    exact ⟨rfl, isWord, rhs⟩
  · rintro ⟨lhs, isWord, rhs⟩
    rw [← lhs, String.ofList_toList]
    exact ⟨isWord, rfl, rhs⟩

theorem exists_written_iff : (∃ p : Production, p.Written line) ↔ ∃ lhs, Defines line lhs := by
  constructor
  · rintro ⟨p, before, after, divided, trimmed, isWord, _⟩
    exact ⟨p.lhs.name.toList, before, after, divided, trimmed, isWord⟩
  · rintro ⟨lhs, before, after, divided, trimmed, isWord⟩
    rw [trimmed_iff.1 trimmed] at isWord
    exact ⟨_, readLine_eq_ok_iff_written.1 (readLine_eq_ok_iff.2 ⟨_, _, divided, isWord, rfl⟩)⟩

theorem Written.not_blank (h : p.Written line) : ¬ Blank line := by
  obtain ⟨before, after, divided, _, _, _⟩ := h
  intro blank
  have solid : isBlank ':' = false := by decide
  rw [blank ':' (by simp [divided.parts, delimiter])] at solid
  cases solid

end Production

namespace ReadingFault

/--
What is wrong with a line: there is no delimiter, there are only blanks before it, or, within the
blanks at the ends, there are more of them between the characters before it.
-/
inductive Found (line : List Char) : ReadingFault → Prop where
  | noDelimiter (none : ¬ delimiter <:+: line) : Found line (.missing ["::="])
  | noLeftHandSide {before after : List Char} (divided : Divided line before after)
    (blank : Blank before) : Found line .noLeftHandSide
  | notOneSymbol {before after lhs : List Char} (divided : Divided line before after)
    (trimmed : Trimmed before lhs) (blanks : ∃ c ∈ lhs, isBlank c = true) :
    Found line (.notOneSymbol (.ofList lhs))

variable {line : List Char} {fault : ReadingFault}

theorem readLine_eq_error_iff : readLine line = .error fault ↔ fault.Found line := by
  constructor
  · intro h
    by_cases occurs : delimiter <:+: line
    · obtain ⟨before, after, divided⟩ := exists_divided_iff.2 occurs
      rw [readLine_of_divided divided] at h
      split at h
      · rename_i empty
        cases h
        exact .noLeftHandSide divided (blank_iff_trim.2 empty)
      · split at h
        · rename_i blanks
          cases h
          exact .notOneSymbol divided (trimmed_trim before) (List.any_eq_true.1 blanks)
        · cases h
    · rw [readLine_of_missing occurs] at h
      cases h
      exact .noDelimiter occurs
  · intro found
    cases found with
    | noDelimiter none => exact readLine_of_missing none
    | noLeftHandSide divided blank => simp [readLine_of_divided divided, blank_iff_trim.1 blank]
    | notOneSymbol divided trimmed blanks =>
      rw [trimmed_iff.1 trimmed] at blanks ⊢
      have notEmpty : trim _ ≠ [] := List.ne_nil_of_mem blanks.choose_spec.1
      simp [readLine_of_divided divided, notEmpty, blanks]

end ReadingFault

namespace Text

/--
The lines that are not blank are texts of the productions, in the same order.
-/
inductive Listed : List (List Char) → List Production → Prop where
  | nil : Listed [] []
  | blank {line : List Char} {ls : List (List Char)} {ps : List Production} (blank : Blank line)
    (more : Listed ls ps) : Listed (line :: ls) ps
  | written {line : List Char} {p : Production} {ls : List (List Char)} {ps : List Production}
    (written : p.Written line) (more : Listed ls ps) : Listed (line :: ls) (p :: ps)

/--
The line is blank or a text of a production.
-/
def Acceptable (line : List Char) : Prop :=
  ¬ Blank line → ∃ p : Production, p.Written line

/--
There is a line with the fault, and all lines before it, of which there are `index`, are acceptable.
-/
def FirstFault (ls : List (List Char)) (index : Nat) (fault : ReadingFault) : Prop :=
  ∃ before line after, ls = before ++ line :: after ∧ before.length = index ∧
    (∀ l ∈ before, Acceptable l) ∧ ¬ Blank line ∧ fault.Found line

variable {line : List Char} {ls : List (List Char)} {p : Production} {ps : List Production}
  {number index : Nat} {fault : ReadingFault} {e : GrammarError}

theorem listed_cons_of_blank (blank : Blank line) : Listed (line :: ls) ps ↔ Listed ls ps := by
  constructor
  · intro h
    cases h with
    | blank _ more => exact more
    | written written _ => exact absurd blank written.not_blank
  · exact .blank blank

theorem listed_cons_of_read (read : readLine line = .ok p) :
    Listed (line :: ls) ps ↔ ∃ more, ps = p :: more ∧ Listed ls more := by
  have written := Production.readLine_eq_ok_iff_written.1 read
  constructor
  · intro h
    cases h with
    | blank blank _ => exact absurd blank written.not_blank
    | written other more =>
      rw [Production.readLine_eq_ok_iff_written.2 other] at read
      cases read
      exact ⟨_, rfl, more⟩
  · rintro ⟨more, rfl, rest⟩
    exact .written written rest

theorem readLines_cons_of_blank (blank : Blank line) :
    readLines number (line :: ls) = readLines (number + 1) ls := by
  rw [readLines, if_pos (blank_iff_all.1 blank)]

theorem readLines_cons_of_fault (notBlank : ¬ Blank line) (read : readLine line = .error fault) :
    readLines number (line :: ls) = .error (.unreadable number fault) := by
  rw [readLines, if_neg (mt blank_iff_all.2 notBlank), read]

theorem readLines_cons_of_read (read : readLine line = .ok p) :
    readLines number (line :: ls) = (p :: ·) <$> readLines (number + 1) ls := by
  have notBlank := (Production.readLine_eq_ok_iff_written.1 read).not_blank
  rw [readLines, if_neg (mt blank_iff_all.2 notBlank), read]

theorem readLines_eq_ok_iff : readLines number ls = .ok ps ↔ Listed ls ps := by
  induction ls generalizing number ps with
  | nil =>
    constructor
    · intro h
      cases h
      exact .nil
    · intro h
      cases h
      rfl
  | cons line ls ih =>
    by_cases blank : Blank line
    · rw [readLines_cons_of_blank blank, ih, listed_cons_of_blank blank]
    · cases read : readLine line with
      | error fault =>
        rw [readLines_cons_of_fault blank read]
        constructor
        · intro failed
          cases failed
        · intro listed
          cases listed with
          | blank isBlank _ => exact absurd isBlank blank
          | written written _ =>
            rw [Production.readLine_eq_ok_iff_written.2 written] at read
            cases read
      | ok p =>
        rw [readLines_cons_of_read read, listed_cons_of_read read]
        simp only [← @ih _ (number + 1)]
        cases readLines (number + 1) ls with
        | error e => simp [Functor.map, Except.map]
        | ok more => simp [Functor.map, Except.map, eq_comm]

theorem FirstFault.cons (h : FirstFault ls index fault) (acceptable : Acceptable line) :
    FirstFault (line :: ls) (index + 1) fault := by
  obtain ⟨before, faulty, after, rfl, rfl, fine, notBlank, found⟩ := h
  exact ⟨line :: before, faulty, after, rfl, rfl, List.forall_mem_cons.2 ⟨acceptable, fine⟩,
    notBlank, found⟩

theorem readLines_of_firstFault (h : FirstFault ls index fault) (number : Nat) :
    readLines number ls = .error (.unreadable (number + index) fault) := by
  obtain ⟨before, line, after, rfl, rfl, fine, notBlank, found⟩ := h
  induction before generalizing number with
  | nil => exact readLines_cons_of_fault notBlank (ReadingFault.readLine_eq_error_iff.2 found)
  | cons first before ih =>
    obtain ⟨acceptable, fine⟩ := List.forall_mem_cons.1 fine
    have rest := ih (number + 1) fine
    rw [Nat.add_assoc, Nat.add_comm 1] at rest
    by_cases blank : Blank first
    · rw [List.cons_append, readLines_cons_of_blank blank, rest, List.length_cons]
    · obtain ⟨p, written⟩ := acceptable blank
      rw [List.cons_append, readLines_cons_of_read (Production.readLine_eq_ok_iff_written.2 written),
        rest, List.length_cons]
      rfl

theorem exists_firstFault (h : readLines number ls = .error e) :
    ∃ index fault, FirstFault ls index fault ∧ e = .unreadable (number + index) fault := by
  induction ls generalizing number with
  | nil => cases h
  | cons line ls ih =>
    have later (rest : readLines (number + 1) ls = .error e) (acceptable : Acceptable line) :
        ∃ index fault, FirstFault (line :: ls) index fault ∧
          e = .unreadable (number + index) fault := by
      obtain ⟨index, fault, first, rfl⟩ := ih rest
      exact ⟨index + 1, fault, first.cons acceptable, by rw [Nat.add_assoc, Nat.add_comm 1]⟩
    by_cases blank : Blank line
    · rw [readLines_cons_of_blank blank] at h
      exact later h fun notBlank => absurd blank notBlank
    · cases read : readLine line with
      | error fault =>
        rw [readLines_cons_of_fault blank read] at h
        cases h
        have found := ReadingFault.readLine_eq_error_iff.1 read
        refine ⟨0, fault, ⟨[], line, ls, rfl, rfl, ?_, blank, found⟩, rfl⟩
        intro l none
        cases none
      | ok p =>
        rw [readLines_cons_of_read read] at h
        refine later ?_ fun _ => ⟨p, Production.readLine_eq_ok_iff_written.1 read⟩
        cases rest : readLines (number + 1) ls with
        | error e' =>
          rw [rest] at h
          exact h
        | ok more =>
          rw [rest] at h
          cases h

theorem readLines_eq_error_iff : readLines number ls = .error e ↔
    ∃ index fault, FirstFault ls index fault ∧ e = .unreadable (number + index) fault := by
  constructor
  · exact exists_firstFault
  · rintro ⟨index, fault, first, rfl⟩
    exact readLines_of_firstFault first number

theorem exists_listed_iff : (∃ ps, Listed ls ps) ↔ ∀ line ∈ ls, Acceptable line := by
  induction ls with
  | nil => exact iff_of_true ⟨[], .nil⟩ nofun
  | cons line ls ih =>
    rw [List.forall_mem_cons, ← ih]
    constructor
    · rintro ⟨ps, listed⟩
      cases listed with
      | blank blank more => exact ⟨fun notBlank => absurd blank notBlank, _, more⟩
      | written written more => exact ⟨fun _ => ⟨_, written⟩, _, more⟩
    · rintro ⟨acceptable, ps, more⟩
      by_cases blank : Blank line
      · exact ⟨ps, .blank blank more⟩
      · obtain ⟨p, written⟩ := acceptable blank
        exact ⟨p :: ps, .written written more⟩

theorem Listed.eq_nil_iff (h : Listed ls ps) : ps = [] ↔ ∀ line ∈ ls, Blank line := by
  induction h with
  | nil => exact iff_of_true rfl nofun
  | blank blank _ ih => rw [List.forall_mem_cons, and_iff_right blank, ih]
  | written written _ _ =>
    rw [List.forall_mem_cons]
    exact iff_of_false (List.cons_ne_nil _ _) fun h => written.not_blank h.1

theorem listed_nil_iff : Listed ls [] ↔ ∀ line ∈ ls, Blank line := by
  constructor
  · intro listed
    exact listed.eq_nil_iff.1 rfl
  · intro blank
    obtain ⟨ps, listed⟩ := exists_listed_iff.2 fun line hl notBlank => absurd (blank line hl) notBlank
    rwa [← listed.eq_nil_iff.2 blank]

end Text

namespace Grammar

variable {g : Grammar} {text : String} {e : GrammarError} {p : Production}
  {more : List Production}

theorem eq_ofProductions_iff : g = ofProductions p.lhs (p :: more) ↔
    g.start = p.lhs ∧ g.productions.toList = (p :: more).eraseDups := by
  rw [← OrderedSet.toList_ofList_eq_eraseDups]
  constructor
  · rintro rfl
    exact ⟨rfl, rfl⟩
  · rintro ⟨start, productions⟩
    obtain ⟨_, _⟩ := g
    rw [ofProductions, Grammar.mk.injEq]
    exact ⟨start, OrderedSet.ext_toList productions⟩

theorem parse_eq_ok_iff_listed : parse text = .ok g ↔
    ∃ p more, Listed (lines text.toList) (p :: more) ∧ g.start = p.lhs ∧
      g.productions.toList = (p :: more).eraseDups := by
  rw [parse_eq_ok_iff]
  refine exists_congr fun p => exists_congr fun more => ?_
  rw [readLines_eq_ok_iff, eq_ofProductions_iff]

theorem parse_succeeds_iff : (∃ g, parse text = .ok g) ↔
    (∃ line ∈ lines text.toList, ¬ Blank line) ∧
      ∀ line ∈ lines text.toList, Acceptable line := by
  rw [← exists_listed_iff]
  constructor
  · rintro ⟨g, read⟩
    obtain ⟨p, more, listed, _⟩ := parse_eq_ok_iff_listed.1 read
    have notBlank := mt listed.eq_nil_iff.2 (List.cons_ne_nil p more)
    simp only [not_forall] at notBlank
    obtain ⟨line, mem, notBlank⟩ := notBlank
    exact ⟨⟨line, mem, notBlank⟩, _, listed⟩
  · rintro ⟨⟨line, mem, notBlank⟩, ps, listed⟩
    cases ps with
    | nil => exact absurd (listed.eq_nil_iff.1 rfl line mem) notBlank
    | cons p more =>
      exact ⟨ofProductions p.lhs (p :: more),
        parse_eq_ok_iff.2 ⟨p, more, readLines_eq_ok_iff.2 listed, rfl⟩⟩

theorem parse_eq_error_iff : parse text = .error e ↔
    (∃ index fault, FirstFault (lines text.toList) index fault ∧
        e = .unreadable (index + 1) fault) ∨
      (∀ line ∈ lines text.toList, Blank line) ∧
        e = .unreadable ((lines text.toList).length + 1) .noProductions := by
  have noProduction : (∀ line ∈ lines text.toList, Blank line) ↔
      readLines 1 (lines text.toList) = .ok [] := listed_nil_iff.symm.trans readLines_eq_ok_iff.symm
  simp only [Nat.add_comm _ 1, ← readLines_eq_error_iff, noProduction, parse]
  cases readLines 1 (lines text.toList) with
  | error e' => simp
  | ok ps =>
    cases ps with
    | nil => simp [eq_comm]
    | cons p more => simp

/--
A text is read just if there is a line that is not blank and each such line begins with one symbol
before its first delimiter. The grammar that is read starts with the variable of the first of them and
has their productions in order, each at the place of its first copy. Otherwise the error gives the
first line that is at fault, counted from 1 and with blank lines, and what is wrong with it, or, if
all lines are blank, the number after the last one.
-/
theorem parse_accepts (text : String) :
    ∃ ls, (∀ ls', InLines text.toList ls' ↔ ls' = ls) ∧
      ((∃ g, parse text = .ok g) ↔ (∃ line ∈ ls, ¬ Blank line) ∧
        ∀ line ∈ ls, ¬ Blank line → ∃ lhs, Defines line lhs) ∧
      (∀ g, parse text = .ok g ↔ ∃ p more, Listed ls (p :: more) ∧ g.start = p.lhs ∧
        g.productions.toList = (p :: more).eraseDups) ∧
      ∀ e, parse text = .error e ↔
        (∃ index fault, FirstFault ls index fault ∧ e = .unreadable (index + 1) fault) ∨
          (∀ line ∈ ls, Blank line) ∧ e = .unreadable (ls.length + 1) .noProductions := by
  refine ⟨lines text.toList, fun _ => inLines_iff, ?_, fun g => parse_eq_ok_iff_listed,
    fun e => parse_eq_error_iff⟩
  simp only [← Production.exists_written_iff]
  exact parse_succeeds_iff

/--
A text with a blank line, and with two symbols before the delimiter on the line after that.
-/
def faultyText : String :=
  "S ::= a\r\n\t\nA B ::= b\n"

theorem parse_accepts_faulty :
    parse faultyText = .error (.unreadable 3 (.notOneSymbol "A B")) ∧
      ∃ ls, InLines faultyText.toList ls ∧ FirstFault ls 2 (.notOneSymbol "A B") := by
  have failed : parse faultyText = .error (.unreadable 3 (.notOneSymbol "A B")) := by decide +kernel
  obtain ⟨ls, made, _, _, causes⟩ := parse_accepts faultyText
  refine ⟨failed, ls, (made ls).2 rfl, ?_⟩
  rcases (causes _).1 failed with ⟨index, fault, first, cause⟩ | ⟨_, cause⟩
  · obtain ⟨line, rfl⟩ := GrammarError.unreadable.inj cause
    obtain rfl : index = 2 := Nat.succ.inj line.symm
    exact first
  · exact absurd (GrammarError.unreadable.inj cause).2 (by decide)

end Grammar

end ContextFree
