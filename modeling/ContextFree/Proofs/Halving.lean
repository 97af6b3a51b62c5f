import ContextFree.Proofs.GreibachRounds
import ContextFree.Proofs.LeadingCycles
import Mathlib.Algebra.Group.Nat.Defs
import Mathlib.Data.Nat.Find

/-!
This module contains how the conversion to Greibach normal form comes to its end. Once the first
round has removed erasing productions and left recursion, rounds do nothing but replace leading
variables, and each of them halves the longest chain of these. So it is known how many rounds there
are, and the bound on their number that the conversion is given is never met.
-/

namespace ContextFree

namespace Productions

/--
The longest chain of leading variables has this number of links, which is 0 if there are no
variables.
-/
structure LongestChain (ps : Productions) (d : Nat) : Prop where
  attained : d = 0 ∨ ∃ v, LeadsFar ps d v
  bound : ∀ n v, LeadsFar ps n v → n ≤ d

variable {ps : Productions} {d : Nat}

theorem exists_longestChain (straight : ps.isLeftRecursive = false) : ∃ d, ps.LongestChain d := by
  classical
  let d := Nat.findGreatest (fun n => ∃ v, LeadsFar ps n v) ps.vars.size
  refine ⟨d, ?_, fun n v chain => ?_⟩
  · exact Classical.or_iff_not_imp_left.2 (Nat.findGreatest_of_ne_zero rfl)
  · exact Nat.le_findGreatest (Nat.le_of_lt (chain.lt_size straight)) ⟨v, chain⟩

theorem LongestChain.straight (h : ps.LongestChain d) : ps.isLeftRecursive = false := by
  apply isLeftRecursive_eq_false_of_bound (n := d + 1)
  intro v chain
  exact Nat.not_succ_le_self d (h.bound _ v chain)

theorem LongestChain.eq_zero_iff (h : ps.LongestChain d) :
    d = 0 ↔ ∀ v w, ¬ ps.LeadsTo v w := by
  constructor
  · rintro rfl v w link
    exact Nat.not_succ_le_zero 0 (h.bound 1 v (.next link (.here (leadsTo_iff.1 link).1)))
  · intro none
    rcases h.attained with zero | ⟨v, chain⟩
    · exact zero
    · cases chain with
      | here => rfl
      | next link _ => exact absurd link (none v _)

end Productions

namespace Grammar

open Productions

variable {g source : Grammar} {outcome outcome' : Except GrammarError Grammar}
  {r : Grammar} {d m n : Nat}

/--
Rounds are made until the grammar is in Greibach normal form or one of them fails, and this number of
them is made. Nothing bounds that number beforehand.
-/
inductive ConvertsIn : Nat → Grammar → Except GrammarError Grammar → Prop where
  | done {g : Grammar} (form : g.isGreibach = true) : ConvertsIn 0 g (.ok g)
  | fail {g : Grammar} {e : GrammarError} (unfinished : g.isGreibach = false)
    (round : g.greibachRound = .error e) : ConvertsIn 1 g (.error e)
  | next {n : Nat} {g next : Grammar} {outcome : Except GrammarError Grammar}
    (unfinished : g.isGreibach = false) (round : g.greibachRound = .ok next)
    (rest : ConvertsIn n next outcome) : ConvertsIn (n + 1) g outcome

theorem ConvertsIn.unique (h : ConvertsIn m g outcome) (h' : ConvertsIn n g outcome') :
    m = n ∧ outcome = outcome' := by
  induction h generalizing n with
  | done form =>
    cases h' with
    | done => exact ⟨rfl, rfl⟩
    | fail unfinished | next unfinished => exact absurd form (Bool.eq_false_iff.1 unfinished)
  | fail unfinished round =>
    cases h' with
    | done form => exact absurd form (Bool.eq_false_iff.1 unfinished)
    | fail _ round' => exact ⟨rfl, congrArg _ (Except.error.inj (round.symm.trans round'))⟩
    | next _ round' => cases round.symm.trans round'
  | next unfinished round _ ih =>
    cases h' with
    | done form => exact absurd form (Bool.eq_false_iff.1 unfinished)
    | fail _ round' => cases round.symm.trans round'
    | next _ round' rest =>
      obtain rfl := Except.ok.inj (round.symm.trans round')
      exact (ih rest).imp_left (congrArg (· + 1))

theorem convertsIn_of_greibachRounds (h : g.greibachRounds n = .ok r) :
    ∃ m, ConvertsIn m g (.ok r) := by
  induction n generalizing g with
  | zero =>
    obtain ⟨rfl, form⟩ := checkGreibach_eq_ok_iff.1 h
    exact ⟨0, .done form⟩
  | succ n ih =>
    unfold greibachRounds at h
    split at h
    · rename_i form
      cases h
      exact ⟨0, .done form⟩
    · rename_i unfinished
      obtain ⟨next, round, rounds⟩ := bind_eq_ok_iff.1 h
      obtain ⟨m, rest⟩ := ih rounds
      exact ⟨m + 1, .next (Bool.eq_false_iff.2 unfinished) round rest⟩

/--
The bound on the number of rounds makes no difference.
-/
theorem exists_convertsIn (g : Grammar) : ∃ n, ConvertsIn n g g.toGreibach := by
  unfold toGreibach
  split
  · rename_i form
    exact ⟨0, .done form⟩
  · rename_i unfinished
    have unfinished := Bool.eq_false_iff.2 unfinished
    cases round : g.greibachRound with
    | error e => exact ⟨1, .fail unfinished round⟩
    | ok first =>
      obtain ⟨r, rounds⟩ := exists_greibachRounds_of_first round
      obtain ⟨n, rest⟩ := convertsIn_of_greibachRounds rounds
      refine ⟨n + 1, .next unfinished round ?_⟩
      change ConvertsIn n first (first.greibachRounds first.vars.size)
      rw [rounds]
      exact rest

/--
Rounds have nothing left to do but to replace leading variables, and the longest chain of these has
`d` links.
-/
structure Settled (g : Grammar) (d : Nat) : Prop where
  inside : g.productions.ErasesNothingInside g.start
  longest : g.productions.LongestChain d

theorem Settled.greibachRound (h : g.Settled d) :
    g.greibachRound = .ok g.substituteLeading :=
  greibachRound_of_straight h.inside h.longest.straight

theorem Settled.isGreibach_iff (h : g.Settled d) : g.isGreibach = true ↔ d = 0 := by
  rw [Grammar.isGreibach_iff, and_iff_right h.inside, h.longest.eq_zero_iff]

theorem Settled.substituteLeading (h : g.Settled d) : g.substituteLeading.Settled (d / 2) := by
  refine ⟨inside_substituteLeading h.inside, ?_, fun n v chain => ?_⟩
  · refine h.longest.attained.imp (fun none => by rw [none]) ?_
    rintro ⟨v, chain⟩
    exact ⟨v, leadsFar_substituteLeading_of_leadsFar (chain.mono (Nat.mul_div_le d 2))⟩
  · -- every link that is left stands for two links of before
    have longer := h.longest.bound _ v (leadsFar_substituteLeading h.inside chain)
    omega

theorem Settled.iterate (h : g.Settled d) (k : Nat) :
    (Grammar.substituteLeading^[k] g).Settled (d / 2 ^ k) := by
  induction k with
  | zero => simpa using h
  | succ k ih =>
    rw [Function.iterate_succ_apply', Nat.pow_succ, ← Nat.div_div_eq_div_mul]
    exact ih.substituteLeading

/--
The number of rounds from one on that leads to a settled grammar with leading variables replaced.
-/
theorem Settled.convertsIn (h : g.Settled d) (unfinished : source.isGreibach = false)
    (round : source.greibachRound = .ok g.substituteLeading) :
    ConvertsIn (d.log2 + 1) source (.ok (Grammar.substituteLeading^[d.log2 + 1] g)) := by
  -- the next round starts from `g.substituteLeading`, whose chains are half as long
  induction d using Nat.strongRecOn generalizing g source with
  | ind d ih =>
    have half := h.substituteLeading
    by_cases last : d / 2 = 0
    · have single : d.log2 = 0 := by
        rw [Nat.log2_def, if_neg (by omega)]
      rw [single]
      exact .next unfinished round (.done (half.isGreibach_iff.2 last))
    · have more : d.log2 = (d / 2).log2 + 1 := by
        rw [Nat.log2_def, if_pos (by omega)]
      rw [more, Function.iterate_succ_apply]
      have unfinished' : g.substituteLeading.isGreibach = false :=
        Bool.eq_false_iff.2 fun form => last (half.isGreibach_iff.1 form)
      exact .next unfinished round (ih (d / 2) (by omega) half unfinished' half.greibachRound)

/--
A round that replaces leading variables and changes nothing else, and halves the longest chain of
them.
-/
structure HalvingRound (g : Grammar) (d : Nat) : Prop where
  removeEpsilon : g.removeEpsilon = .ok g
  removeLeftRecursion : g.removeLeftRecursion = .ok g
  checked : g.substituteLeading.checkedAgainst g = .ok g.substituteLeading
  result : g.greibachRound = .ok g.substituteLeading
  start : g.substituteLeading.start = g.start
  vars : ∀ v, v ∈ g.substituteLeading.vars ↔ v ∈ g.vars
  longest : g.productions.LongestChain d
  halved : g.substituteLeading.productions.LongestChain (d / 2)

theorem Settled.halvingRound (h : g.Settled d) : g.HalvingRound d where
  removeEpsilon := removeEpsilon_of_inside h.inside
  removeLeftRecursion := removeLeftRecursion_of_straight h.longest.straight
  checked := checkedAgainst_substituteLeading
  result := h.greibachRound
  start := rfl
  vars _ := mem_vars_substituteLeading_iff
  longest := h.longest
  halved := h.substituteLeading.longest

/--
The conversion makes finitely many rounds, whether it succeeds or not. If the first round removes
erasing productions and left recursion then no variable leads back to itself from there on, and that
round and all others only replace leading variables, which halves the longest chain of them. The
number of rounds is that of the halvings which leave no chain.
-/
theorem toGreibach_halves_chains (g : Grammar) :
    (∃ rounds, ConvertsIn rounds g g.toGreibach) ∧
      ∀ erased straight, g.removeEpsilon = .ok erased → erased.removeLeftRecursion = .ok straight →
        g.greibachRound = .ok straight.substituteLeading ∧
        (∀ v, ¬ Relation.TransGen straight.productions.LeadsTo v v) ∧
        ∃ d, straight.productions.LongestChain d ∧
          (∀ k, (Grammar.substituteLeading^[k] straight).HalvingRound (d / 2 ^ k)) ∧
          (g.isGreibach = false →
            g.toGreibach = .ok (Grammar.substituteLeading^[d.log2 + 1] straight) ∧
              ConvertsIn (d.log2 + 1) g g.toGreibach) := by
  refine ⟨exists_convertsIn g, fun erased straight he hs => ?_⟩
  have round : g.greibachRound = .ok straight.substituteLeading :=
    greibachRound_eq_ok_iff.2 ⟨erased, he, straight, hs, rfl⟩
  have noRecursion := isLeftRecursive_removeLeftRecursion hs
  obtain ⟨d, longest⟩ := exists_longestChain noRecursion
  have settled : straight.Settled d :=
    ⟨inside_removeLeftRecursion (erased_of_removeEpsilon he).inside hs, longest⟩
  refine ⟨round, fun v cycle => ?_, d, longest, fun k => (settled.iterate k).halvingRound, ?_⟩
  · have recursive := isLeftRecursive_iff_cycle.2 ⟨v, cycle⟩
    exact Bool.false_ne_true (noRecursion.symm.trans recursive)
  · intro unfinished
    have converted := settled.convertsIn unfinished round
    obtain ⟨n, bounded⟩ := exists_convertsIn g
    obtain ⟨_, same⟩ := bounded.unique converted
    exact ⟨same, same ▸ converted⟩

/--
Variables that lead to one another one after another, the last one also to itself.
-/
def stairs : Grammar :=
  ofProductions ⟨"S"⟩
    [.ofNames "S" ["A", "s"], .ofNames "A" ["B", "a"], .ofNames "B" ["C", "b"],
      .ofNames "C" ["C", "c"], .ofNames "C" ["d"]]

def straightStairs : Grammar :=
  ofProductions ⟨"S"⟩
    [.ofNames "S" ["A", "s"], .ofNames "A" ["B", "a"], .ofNames "B" ["C", "b"],
      .ofNames "C" ["d"], .ofNames "C" ["d", "C2"], .ofNames "C2" ["c"], .ofNames "C2" ["c", "C2"]]

set_option maxRecDepth 4000 in
theorem toGreibach_halves_chains_stairs :
    stairs.removeEpsilon = .ok stairs ∧ stairs.removeLeftRecursion = .ok straightStairs ∧
      stairs.isGreibach = false ∧
      ∃ d, straightStairs.productions.LongestChain d ∧
        (Grammar.substituteLeading^[1] straightStairs).HalvingRound (d / 2 ^ 1) ∧
        stairs.toGreibach = .ok (Grammar.substituteLeading^[d.log2 + 1] straightStairs) ∧
        ConvertsIn (d.log2 + 1) stairs stairs.toGreibach := by
  have erased : stairs.removeEpsilon = .ok stairs := by rfl
  have straightened : stairs.removeLeftRecursion = .ok straightStairs := by rfl
  have unfinished : stairs.isGreibach = false := by decide
  obtain ⟨_, halves⟩ := toGreibach_halves_chains stairs
  obtain ⟨_, _, d, longest, rounds, converted⟩ := halves stairs straightStairs erased straightened
  exact ⟨erased, straightened, unfinished, d, longest, rounds 1, converted unfinished⟩

end Grammar

end ContextFree
