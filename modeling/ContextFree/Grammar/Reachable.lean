import ContextFree.Grammar.Lemmas

/-!
This module contains the removal of what a grammar has no use for: productions of variables that the
start variable does not need, and productions that replace a variable by itself.
-/

namespace ContextFree

namespace Productions

/--
The symbol is `v` or part of a right-hand side of a variable that is needed for `v`, where
productions that replace a variable by itself do not count.
-/
inductive Needs (ps : Productions) (v : Symbol) : Symbol → Prop where
  | refl : Needs ps v v
  | step {p : Production} {s : Symbol} (lhs : Needs ps v p.lhs) (mem : p ∈ ps)
    (proper : p.isSelfLoop = false) (occurs : s ∈ p.rhs) : Needs ps v s

/--
The symbols that variables of the frontier are replaced by and that have not been reached before, where
productions that replace a variable by itself do not count.
-/
def newlyReached (ps : Productions) (reached frontier : OrderedSet Symbol) : OrderedSet Symbol :=
  .ofList <| ps.toList.flatMap fun p =>
    if p.lhs ∈ frontier ∧ p.isSelfLoop = false then p.rhs.filter (· ∉ reached) else []

/--
Add what is newly reached from the frontier, which is the frontier of the next round, until there is
none. That takes as many rounds as there are frontiers, of which there are no more than the bound.
-/
def reachFrom (ps : Productions) :
    (bound : Nat) → (reached frontier : OrderedSet Symbol) → OrderedSet Symbol
  | 0, reached, _ => reached
  | bound + 1, reached, frontier =>
    if frontier = ∅ then
      reached
    else
      let next := ps.newlyReached reached frontier
      reachFrom ps bound (reached.insertMany next.toList) next

/--
The symbols that words derived from `v` are made of. No symbol is in two frontiers, so there are no more
frontiers than symbols, not counting `v`.
-/
def reachable (ps : Productions) (v : Symbol) : OrderedSet Symbol :=
  reachFrom ps (ps.symbols.size + 1) (.ofList [v]) (.ofList [v])

/--
The search from a frontier comes to an end after this number of rounds, of which each begins with a
frontier that is not empty. Nothing bounds the number beforehand.
-/
inductive ReachesIn (ps : Productions) :
    Nat → OrderedSet Symbol → OrderedSet Symbol → OrderedSet Symbol → Prop where
  | done {reached : OrderedSet Symbol} : ReachesIn ps 0 reached ∅ reached
  | round {n : Nat} {reached frontier found : OrderedSet Symbol} (more : frontier ≠ ∅)
    (rest : ReachesIn ps n (reached.insertMany (ps.newlyReached reached frontier).toList)
      (ps.newlyReached reached frontier) found) :
    ReachesIn ps (n + 1) reached frontier found

/--
What is true between two rounds of the search from `v`: all that has been reached is needed for `v`, and
whatever the variables that have been reached are replaced by has been reached as well, unless they are
in the frontier.
-/
structure Explored (ps : Productions) (v : Symbol) (reached frontier : OrderedSet Symbol) : Prop where
  start : v ∈ reached
  needed : ∀ s ∈ reached, ps.Needs v s
  part : ∀ s ∈ frontier, s ∈ reached
  closed : ∀ p ∈ ps, p.lhs ∈ reached → ¬ p.lhs ∈ frontier → p.isSelfLoop = false →
    ∀ s ∈ p.rhs, s ∈ reached

variable {ps : Productions} {reached frontier found found' : OrderedSet Symbol} {v s : Symbol}
  {m n : Nat}

theorem ReachesIn.unique (h : ReachesIn ps m reached frontier found)
    (h' : ReachesIn ps n reached frontier found') : m = n ∧ found = found' := by
  induction h generalizing n with
  | done =>
    cases h' with
    | done => exact ⟨rfl, rfl⟩
    | round more => exact absurd rfl more
  | round more _ ih =>
    cases h' with
    | done => exact absurd rfl more
    | round _ rest => exact (ih rest).imp_left (congrArg (· + 1))

@[simp]
theorem mem_newlyReached : s ∈ ps.newlyReached reached frontier ↔
    ∃ p ∈ ps, p.lhs ∈ frontier ∧ p.isSelfLoop = false ∧ s ∈ p.rhs ∧ ¬ s ∈ reached := by
  simp only [newlyReached, OrderedSet.mem_ofList, List.mem_flatMap, OrderedSet.mem_toList]
  refine exists_congr fun p => and_congr_right fun _ => ?_
  split
  · rename_i replaced
    simp [replaced]
  · rename_i kept
    refine iff_of_false List.not_mem_nil ?_
    rintro ⟨lhs, proper, _⟩
    exact kept ⟨lhs, proper⟩

theorem Explored.first (ps : Productions) (v : Symbol) :
    ps.Explored v (.ofList [v]) (.ofList [v]) := by
  refine ⟨by simp, ?_, fun s hs => hs, fun p _ lhs inside => absurd lhs inside⟩
  intro s hs
  obtain rfl : s = v := by simpa using hs
  exact .refl

theorem Explored.round (h : ps.Explored v reached frontier) :
    ps.Explored v (reached.insertMany (ps.newlyReached reached frontier).toList)
      (ps.newlyReached reached frontier) := by
  constructor
  · exact OrderedSet.mem_insertMany.2 (.inl h.start)
  · intro s hs
    rcases OrderedSet.mem_insertMany.1 hs with old | new
    · exact h.needed s old
    · obtain ⟨p, mem, lhs, proper, occurs, _⟩ := mem_newlyReached.1 new
      exact .step (h.needed _ (h.part _ lhs)) mem proper occurs
  · intro s new
    exact OrderedSet.mem_insertMany.2 (.inr new)
  · intro p mem lhs settled proper s occurs
    have old := (OrderedSet.mem_insertMany.1 lhs).resolve_right settled
    rw [OrderedSet.mem_insertMany]
    by_cases inside : p.lhs ∈ frontier
    · refine Classical.or_iff_not_imp_left.2 fun new => ?_
      exact mem_newlyReached.2 ⟨p, mem, inside, proper, occurs, new⟩
    · exact .inl (h.closed p mem old inside proper s occurs)

/--
Once the frontier is empty, nothing that has been reached leads any further.
-/
theorem ReachesIn.mem_iff (h : ReachesIn ps n reached frontier found)
    (explored : ps.Explored v reached frontier) : s ∈ found ↔ ps.Needs v s := by
  induction h with
  | done =>
    refine ⟨explored.needed s, fun needs => ?_⟩
    induction needs with
    | refl => exact explored.start
    | step _ mem proper occurs ih =>
      exact explored.closed _ mem ih (OrderedSet.not_mem_empty _) proper _ occurs
  | round _ _ ih => exact ih explored.round

theorem size_lt_insertMany_newlyReached (more : ps.newlyReached reached frontier ≠ ∅) :
    reached.size < (reached.insertMany (ps.newlyReached reached frontier).toList).size := by
  apply OrderedSet.size_lt_insertMany
  intro same
  refine more (OrderedSet.ext_toList (List.eq_nil_iff_forall_not_mem.2 fun s new => ?_))
  obtain ⟨_, _, _, _, _, outside⟩ := mem_newlyReached.1 new
  exact outside (same ▸ OrderedSet.mem_insertMany.2 (.inr new))

theorem mem_insert_symbols_of_newlyReached (known : ∀ s ∈ reached, s ∈ ps.symbols.insert v) :
    ∀ s ∈ reached.insertMany (ps.newlyReached reached frontier).toList,
      s ∈ ps.symbols.insert v := by
  intro s hs
  rcases OrderedSet.mem_insertMany.1 hs with old | new
  · exact known s old
  · obtain ⟨p, mem, _, _, occurs, _⟩ := mem_newlyReached.1 new
    exact OrderedSet.mem_insert.2 (.inl (rhs_mem_symbols mem occurs))

/--
The bound makes no difference as long as it is not smaller than the number of symbols that have not been
reached, with one more if the frontier is not empty.
-/
theorem exists_reachesIn_reachFrom {bound : Nat}
    (known : ∀ s ∈ reached, s ∈ ps.symbols.insert v)
    (enough : (ps.symbols.insert v).size + (if frontier = ∅ then 0 else 1) ≤ bound + reached.size) :
    ∃ n ≤ bound, ReachesIn ps n reached frontier (reachFrom ps bound reached frontier) := by
  have fits := OrderedSet.size_le_of_subset known
  induction bound generalizing reached frontier with
  | zero =>
    have empty : frontier = ∅ := by
      refine Decidable.byContradiction fun more => ?_
      rw [if_neg more] at enough
      omega
    subst empty
    exact ⟨0, Nat.le_refl 0, .done⟩
  | succ bound ih =>
    unfold reachFrom
    split
    · rename_i empty
      subst empty
      exact ⟨0, Nat.zero_le _, .done⟩
    · rename_i more
      rw [if_neg more] at enough
      have known' : ∀ s ∈ reached.insertMany (ps.newlyReached reached frontier).toList,
          s ∈ ps.symbols.insert v := mem_insert_symbols_of_newlyReached known
      have enough' : (ps.symbols.insert v).size +
          (if ps.newlyReached reached frontier = ∅ then 0 else 1) ≤
          bound + (reached.insertMany (ps.newlyReached reached frontier).toList).size := by
        split
        · rename_i last
          rw [last, OrderedSet.toList_empty, OrderedSet.insertMany_nil]
          omega
        · rename_i next
          have := size_lt_insertMany_newlyReached next
          omega
      obtain ⟨n, le, rest⟩ := ih known' enough' (OrderedSet.size_le_of_subset known')
      exact ⟨n + 1, Nat.succ_le_succ le, .round more rest⟩

theorem exists_reachesIn_reachable (ps : Productions) (v : Symbol) :
    ∃ n ≤ ps.symbols.size + 1, ReachesIn ps n (.ofList [v]) (.ofList [v]) (ps.reachable v) := by
  have known : ∀ s ∈ OrderedSet.ofList [v], s ∈ ps.symbols.insert v := by simp
  refine exists_reachesIn_reachFrom known (Nat.add_le_add ?_ ?_)
  · by_cases hv : v ∈ ps.symbols
    · rw [OrderedSet.insert_of_mem hv]
      exact Nat.le_succ _
    · exact Nat.le_of_eq (OrderedSet.size_insert_of_not_mem hv)
  · split
    · exact Nat.zero_le _
    · exact Nat.le_of_eq rfl

theorem mem_reachable_iff : s ∈ ps.reachable v ↔ ps.Needs v s := by
  obtain ⟨n, _, search⟩ := exists_reachesIn_reachable ps v
  exact search.mem_iff (.first ps v)

end Productions

namespace Grammar

/--
The productions of reachable variables, without those that replace a variable by itself.
-/
def useful (g : Grammar) : Productions :=
  let reachable := g.productions.reachable g.start
  g.productions.filter fun p => p.lhs ∈ reachable ∧ p.isSelfLoop = false

/--
Remove unreachable symbols and productions that replace a variable by itself. That fails for a
reachable variable other than the start variable that has no other production.
-/
def prune (g : Grammar) : Except GrammarError Grammar :=
  checkedAgainst ⟨g.start, g.useful⟩ g

end Grammar

end ContextFree
