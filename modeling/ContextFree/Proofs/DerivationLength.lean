import ContextFree.Proofs.GreibachForm
import ContextFree.Proofs.LeadingCycles

/-!
This module contains how long derivations in Greibach normal form are. Each of their steps puts a
right-hand side that begins with a terminal in the place of a variable, unless it erases the start
variable, and then nothing is left. So there are no more steps than terminals, and forms do not become
shorter on the way to a word.
-/

namespace ContextFree

namespace Productions

/--
How many symbols of the form are no variables.
-/
def terminalCount (ps : Productions) (u : List Symbol) : Nat :=
  u.countP (· ∉ ps.vars)

variable {ps : Productions} {p : Production} {u w : List Symbol} {v : Symbol} {n : Nat}

/--
A derivation from one symbol ends right there, or erases it, or goes on from a right-hand side that
is not empty.
-/
theorem derivesIn_singleton_cases (h : DerivesIn ps n [v] w) :
    n = 0 ∧ w = [v] ∨ n = 1 ∧ w = [] ∧ .epsilon v ∈ ps ∨
      ∃ p ∈ ps, p.rhs ≠ [] ∧ ∃ m, n = m + 1 ∧ DerivesIn ps m p.rhs w := by
  cases h with
  | refl => exact .inl ⟨rfl, rfl⟩
  | head first rest =>
    obtain ⟨⟨lhs, rhs⟩, mem, rfl, rfl⟩ := first.eq_rhs
    cases rhs with
    | nil =>
      obtain ⟨rfl, rfl⟩ := derivesIn_nil_iff.1 rest
      exact .inr (.inl ⟨rfl, rfl, mem⟩)
    | cons t tail => exact .inr (.inr ⟨_, mem, List.cons_ne_nil t tail, _, rfl, rest⟩)

theorem Step.length_le (h : Step ps u w) (lasting : ∀ t ∈ u, ¬ Derives ps [t] []) :
    u.length ≤ w.length := by
  obtain ⟨mem, before, after⟩ := h
  rename_i p
  have notEmpty := rhs_ne_nil_of_lasting mem (lasting p.lhs (by simp))
  have positive := List.length_pos_iff.2 notEmpty
  simp only [List.length_append, List.length_cons]
  omega

section TerminalLed

variable (terminalLed : ∀ p ∈ ps, ∀ t, p.first? = some t → ¬ t ∈ ps.vars)

include terminalLed

theorem terminalCount_rhs_pos (mem : p ∈ ps) (notEmpty : p.rhs ≠ []) :
    0 < ps.terminalCount p.rhs := by
  obtain ⟨t, rest, rhs⟩ := List.exists_cons_of_ne_nil notEmpty
  have leads : p.first? = some t := by rw [Production.first?, rhs, List.head?_cons]
  refine List.countP_pos_iff.2 ⟨t, rhs ▸ List.mem_cons_self, ?_⟩
  exact decide_eq_true (terminalLed p mem t leads)

/--
A step takes away a variable, which does not count, and brings in a terminal.
-/
theorem Step.terminalCount_lt (h : Step ps u w) (lasting : ∀ t ∈ u, ¬ Derives ps [t] []) :
    ps.terminalCount u < ps.terminalCount w := by
  obtain ⟨mem, before, after⟩ := h
  rename_i p
  have notEmpty := rhs_ne_nil_of_lasting mem (lasting p.lhs (by simp))
  have positive := terminalCount_rhs_pos terminalLed mem notEmpty
  have uncounted : ¬ decide (p.lhs ∉ ps.vars) = true := by simpa using ⟨p, mem, rfl⟩
  simp only [terminalCount, List.countP_append, List.countP_cons, if_neg uncounted] at positive ⊢
  omega

end TerminalLed

section Lasting

variable (lastingRhs : ∀ p ∈ ps, ∀ s ∈ p.rhs, ¬ Derives ps [s] [])

include lastingRhs

theorem DerivesIn.lasting (h : DerivesIn ps n u w) (lasting : ∀ t ∈ u, ¬ Derives ps [t] []) :
    ∀ t ∈ w, ¬ Derives ps [t] [] := by
  induction h with
  | refl => exact lasting
  | head first _ ih => exact ih (first.lasting lastingRhs lasting)

theorem DerivesIn.length_le (h : DerivesIn ps n u w) (lasting : ∀ t ∈ u, ¬ Derives ps [t] []) :
    u.length ≤ w.length := by
  induction h with
  | refl => exact Nat.le_refl _
  | head first _ ih =>
    exact Nat.le_trans (first.length_le lasting) (ih (first.lasting lastingRhs lasting))

/--
Once a right-hand side has been put in the place of a symbol, forms do not become shorter.
-/
theorem DerivesProperly.length_le (h : DerivesProperly ps [v] u) (further : Derives ps u w) :
    u.length ≤ w.length := by
  obtain ⟨n, derived⟩ := h
  obtain ⟨m, further⟩ := further
  rcases derivesIn_singleton_cases derived with ⟨none, _⟩ | ⟨_, rfl, _⟩ | ⟨p, mem, _, _, _, rest⟩
  · cases none
  · exact Nat.zero_le _
  · exact further.length_le lastingRhs (rest.lasting lastingRhs (lastingRhs p mem))

/--
The empty word is derived from a symbol in one step only.
-/
theorem derivesIn_singleton_nil_iff : DerivesIn ps n [v] [] ↔ n = 1 ∧ .epsilon v ∈ ps := by
  constructor
  · intro h
    rcases derivesIn_singleton_cases h with ⟨_, none⟩ | ⟨one, _, mem⟩ | ⟨p, mem, notEmpty, _, _, rest⟩
    · cases none
    · exact ⟨one, mem⟩
    · have empty := rest.length_le lastingRhs (lastingRhs p mem)
      exact absurd (List.eq_nil_of_length_eq_zero (Nat.le_zero.1 empty)) notEmpty
  · rintro ⟨rfl, mem⟩
    exact .head (.of_mem mem) (.refl [])

variable (terminalLed : ∀ p ∈ ps, ∀ t, p.first? = some t → ¬ t ∈ ps.vars)

include terminalLed

theorem DerivesIn.add_terminalCount_le (h : DerivesIn ps n u w)
    (lasting : ∀ t ∈ u, ¬ Derives ps [t] []) : n + ps.terminalCount u ≤ ps.terminalCount w := by
  induction h with
  | refl => omega
  | head first _ ih =>
    have more := first.terminalCount_lt terminalLed lasting
    have rest := ih (first.lasting lastingRhs lasting)
    omega

theorem DerivesIn.le_length (h : DerivesIn ps n [v] w) : n ≤ max 1 w.length := by
  rcases derivesIn_singleton_cases h with ⟨rfl, _⟩ | ⟨rfl, _⟩ | ⟨p, mem, notEmpty, m, rfl, rest⟩
  · exact Nat.zero_le _
  · exact Nat.le_max_left 1 _
  · have positive := terminalCount_rhs_pos terminalLed mem notEmpty
    have steps := rest.add_terminalCount_le lastingRhs terminalLed (lastingRhs p mem)
    have counted : ps.terminalCount w ≤ w.length := List.countP_le_length
    omega

end Lasting

end Productions

namespace Grammar

open Productions

variable {g : Grammar}

/--
In Greibach normal form a derivation from one symbol has at most as many steps as its word has
symbols, or the one step that erases the start variable, which is the only way to the empty word. No
symbol on a right-hand side derives the empty word, so no form that comes out of a step becomes shorter.
-/
theorem isGreibach_bounds_derivations (h : g.isGreibach = true) :
    (∀ n v w, g.productions.DerivesIn n [v] w → n ≤ max 1 w.length) ∧
      (∀ n v, g.productions.DerivesIn n [v] [] ↔
        n = 1 ∧ v = g.start ∧ .epsilon g.start ∈ g.productions) ∧
      (∀ s, g.occursInRhs s = true → ¬ g.productions.Derives [s] []) ∧
      ∀ v u w, g.productions.DerivesProperly [v] u → g.productions.Derives u w →
        u.length ≤ w.length := by
  obtain ⟨inside, noLink⟩ := isGreibach_iff.1 h
  have lastingRhs : ∀ p ∈ g.productions, ∀ s ∈ p.rhs, ¬ g.productions.Derives [s] [] := by
    intro p mem s occurs erased
    exact inside.not_mem_rhs p mem s occurs (mem_nullable_iff_derives.2 erased)
  have terminalLed : ∀ p ∈ g.productions, ∀ t, p.first? = some t → ¬ t ∈ g.productions.vars := by
    intro p mem t leads isVar
    exact noLink p.lhs t (leadsTo_iff.2 ⟨isVar, p, mem, rfl, leads⟩)
  refine ⟨fun n v w => DerivesIn.le_length lastingRhs terminalLed, fun n v => ?_, fun s occurs => ?_,
    fun v u w => DerivesProperly.length_le lastingRhs⟩
  · rw [derivesIn_singleton_nil_iff lastingRhs, and_congr_right_iff]
    rintro rfl
    constructor
    · intro mem
      obtain rfl : v = g.start := congrArg Production.lhs (inside.of_epsilon mem rfl).1
      exact ⟨rfl, mem⟩
    · rintro ⟨rfl, mem⟩
      exact mem
  · obtain ⟨p, mem, occurs⟩ := occursInRhs_iff.1 occurs
    exact lastingRhs p mem s occurs

/--
Pairs of brackets one inside the other, or nothing at all.
-/
def nestedPairs : Grammar :=
  ofProductions ⟨"S"⟩
    [.ofNames "S" [], .ofNames "S" ["(", "B"], .ofNames "S" ["(", "A", "B"],
      .ofNames "A" ["(", "B"], .ofNames "A" ["(", "A", "B"], .ofNames "B" [")"]]

/--
The bound is met by a pair of brackets, one step for each of them, and by nothing at all.
-/
theorem isGreibach_bounds_derivations_pairs :
    nestedPairs.isGreibach = true ∧
      nestedPairs.productions.DerivesIn 2 [⟨"S"⟩] [⟨"("⟩, ⟨")"⟩] ∧
      (∀ n, nestedPairs.productions.DerivesIn n [⟨"S"⟩] [⟨"("⟩, ⟨")"⟩] → n ≤ 2) ∧
      nestedPairs.productions.DerivesIn 1 [⟨"S"⟩] [] ∧
      ¬ nestedPairs.productions.Derives [⟨"A"⟩] [] ∧
      ∀ w, nestedPairs.productions.Derives [⟨"("⟩, ⟨"B"⟩] w → 2 ≤ w.length := by
  have form : nestedPairs.isGreibach = true := by decide
  obtain ⟨bound, erasure, lasting, growth⟩ := isGreibach_bounds_derivations form
  have opened : nestedPairs.productions.Step [⟨"S"⟩] [⟨"("⟩, ⟨"B"⟩] :=
    .of_mem (p := .ofNames "S" ["(", "B"]) (by decide)
  have closed : nestedPairs.productions.Step [⟨"("⟩, ⟨"B"⟩] [⟨"("⟩, ⟨")"⟩] :=
    .apply (p := .ofNames "B" [")"]) (by decide) [⟨"("⟩] []
  refine ⟨form, .head opened (.head closed (.refl _)), fun n => bound n _ _, ?_, ?_, ?_⟩
  · exact (erasure 1 ⟨"S"⟩).2 ⟨rfl, rfl, by decide⟩
  · exact lasting ⟨"A"⟩ (by decide)
  · exact fun w => growth ⟨"S"⟩ _ w ⟨0, .head opened (.refl _)⟩

end Grammar

end ContextFree
