import ContextFree.Proofs.GreibachForm
import ContextFree.Proofs.LeftRecursionRemoval

/-!
This module contains the correctness of the conversion to Greibach normal form: what comes out is in
that form and has the same words.
-/

namespace ContextFree

namespace Grammar

variable {g r : Grammar} {w : List Symbol} {n : Nat}

theorem greibachRound_eq_ok_iff : g.greibachRound = .ok r ↔
    ∃ erased, g.removeEpsilon = .ok erased ∧ ∃ straight, erased.removeLeftRecursion = .ok straight ∧
      r = straight.substituteLeading := by
  unfold greibachRound
  simp only [bind_eq_ok_iff, checkedAgainst_substituteLeading, Except.ok.injEq, eq_comm (b := r)]

theorem generates_greibachRound_iff (h : g.greibachRound = .ok r) :
    r.Generates w ↔ g.Generates w := by
  obtain ⟨erased, he, straight, hs, rfl⟩ := greibachRound_eq_ok_iff.1 h
  rw [← generates_removeEpsilon_iff he, ← generates_removeLeftRecursion_iff hs]
  exact yields_substituteLeading_iff

theorem greibachRounds_normalizes (h : g.greibachRounds n = .ok r) :
    r.isGreibach = true ∧ ∀ w, r.Generates w ↔ g.Generates w := by
  induction n generalizing g with
  | zero =>
    obtain ⟨rfl, form⟩ := checkGreibach_eq_ok_iff.1 h
    exact ⟨form, fun w => Iff.rfl⟩
  | succ n ih =>
    unfold greibachRounds at h
    split at h
    · rename_i form
      cases h
      exact ⟨form, fun w => Iff.rfl⟩
    · obtain ⟨next, round, rounds⟩ := bind_eq_ok_iff.1 h
      obtain ⟨form, words⟩ := ih rounds
      refine ⟨form, fun w => ?_⟩
      rw [words, generates_greibachRound_iff round]

/--
The conversion is made of rounds, however it counts them.
-/
theorem exists_greibachRounds (h : g.toGreibach = .ok r) : ∃ n, g.greibachRounds n = .ok r := by
  unfold toGreibach at h
  split at h
  · rename_i form
    cases h
    exact ⟨0, checkGreibach_eq_ok_iff.2 ⟨rfl, form⟩⟩
  · rename_i unfinished
    obtain ⟨first, round, rounds⟩ := bind_eq_ok_iff.1 h
    refine ⟨first.vars.size + 1, ?_⟩
    rw [greibachRounds, if_neg unfinished]
    exact bind_eq_ok_iff.2 ⟨first, round, rounds⟩

theorem isGreibach_toGreibach (h : g.toGreibach = .ok r) : r.isGreibach = true := by
  obtain ⟨n, rounds⟩ := exists_greibachRounds h
  exact (greibachRounds_normalizes rounds).1

theorem generates_toGreibach_iff (h : g.toGreibach = .ok r) : r.Generates w ↔ g.Generates w := by
  obtain ⟨n, rounds⟩ := exists_greibachRounds h
  exact (greibachRounds_normalizes rounds).2 w

/--
The conversion leads to a grammar in Greibach normal form, which has no left recursion either, and
keeps the language.
-/
theorem toGreibach_normalizes (h : g.toGreibach = .ok r) :
    r.isGreibach = true ∧ r.isLeftRecursive = false ∧ ∀ w, r.Generates w ↔ g.Generates w := by
  have form := isGreibach_toGreibach h
  exact ⟨form, isLeftRecursive_of_isGreibach form, fun _ => generates_toGreibach_iff h⟩

/--
Sums of variables and of sums in brackets.
-/
def sums : Grammar :=
  ofProductions ⟨"E"⟩
    [.ofNames "E" ["E", "+", "T"], .ofNames "E" ["T"],
      .ofNames "T" ["x"], .ofNames "T" ["(", "E", ")"]]

def greibachSums : Grammar :=
  ofProductions ⟨"E"⟩
    [.ofNames "T" ["x"], .ofNames "T" ["(", "E", ")"], .ofNames "E" ["x"],
      .ofNames "E" ["(", "E", ")"], .ofNames "E" ["x", "E2"], .ofNames "E" ["(", "E", ")", "E2"],
      .ofNames "E2" ["+", "T"], .ofNames "E2" ["+", "T", "E2"]]

set_option maxRecDepth 4000 in
theorem toGreibach_normalizes_sums :
    sums.toGreibach = .ok greibachSums ∧ greibachSums.isGreibach = true ∧
      greibachSums.isLeftRecursive = false ∧
      ∀ w, greibachSums.Generates w ↔ sums.Generates w := by
  have converted : sums.toGreibach = .ok greibachSums := by rfl
  exact ⟨converted, toGreibach_normalizes converted⟩

end Grammar

end ContextFree
