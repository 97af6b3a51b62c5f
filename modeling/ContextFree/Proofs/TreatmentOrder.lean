import ContextFree.Proofs.Equivalence
import ContextFree.Proofs.GreibachRounds
import ContextFree.Proofs.Stranding

/-!
This module contains when left recursion can be removed and a grammar be converted to Greibach normal
form, and how far that is a matter of the order of productions. It is only where a variable comes
before one that it leads on to and that does not open.
-/

namespace ContextFree

namespace Grammar

open Productions

/--
The grammar whose variables are treated: pruned and without erasing productions.
-/
def prepared (g : Grammar) : Except GrammarError Grammar :=
  g.prune >>= removeEpsilon

variable {g h a b r : Grammar} {s v : Symbol} {m : Nat}

theorem prepared_eq_ok_iff :
    g.prepared = .ok r ↔ ∃ pruned, g.prune = .ok pruned ∧ pruned.removeEpsilon = .ok r :=
  bind_eq_ok_iff

theorem trim_of_prepared (prepared : g.prepared = .ok r) : r.Trim := by
  obtain ⟨pruned, hp, he⟩ := prepared_eq_ok_iff.1 prepared
  exact trim_removeEpsilon (trim_of_prune hp) he

theorem inside_of_prepared (prepared : g.prepared = .ok r) :
    r.productions.ErasesNothingInside r.start := by
  obtain ⟨pruned, _, he⟩ := prepared_eq_ok_iff.1 prepared
  exact (erased_of_removeEpsilon he).inside

/--
Replacing leading variables, beginning with this one, cannot come to an end, by an erasing production
neither.
-/
structure Shut (g : Grammar) (v : Symbol) : Prop where
  isVar : v ∈ g.vars
  closed : ¬ g.Opens v
  whole : v = g.start → ¬ .epsilon g.start ∈ g.productions

theorem Shut.exists_leadsTo (shut : g.Shut v)
    (inside : g.productions.ErasesNothingInside g.start) :
    ∃ w, g.Shut w ∧ g.productions.LeadsTo v w := by
  obtain ⟨⟨_, u⟩, mem, rfl⟩ := mem_vars.1 shut.isVar
  rcases mem_productions_iff.1 mem with old | ⟨same, erasing⟩
  · obtain ⟨t, rest, rfl⟩ := List.exists_cons_of_ne_nil (rhs_ne_nil_of_mem_nonErasing inside old)
    obtain ⟨isVar, closed⟩ : t ∈ g.vars ∧ ¬ g.Opens t := by
      apply Classical.byContradiction
      intro opens
      refine shut.closed (.intro old fun s starts known => ?_)
      obtain rfl := Option.some.inj starts
      exact Classical.byContradiction fun closed => opens ⟨known, closed⟩
    refine ⟨t, ⟨isVar, closed, ?_⟩, leadsTo_iff.2 ⟨isVar, _, mem, rfl, rfl⟩⟩
    rintro rfl erasing
    exact (inside.of_epsilon erasing rfl).2 _ mem List.mem_cons_self
  · cases same
    exact absurd erasing (shut.whole rfl)

/--
Without left recursion all variables open, unless it is by being erased that the start variable comes
to an end.
-/
theorem opens_of_straight (inside : g.productions.ErasesNothingInside g.start)
    (straight : g.isLeftRecursive = false) (isVar : v ∈ g.vars) (ne : v ≠ g.start) : g.Opens v := by
  apply Classical.byContradiction
  intro closed
  have isVars : ∀ v, g.Shut v → v ∈ g.vars := fun v shut => shut.isVar
  have leads : ∀ v, g.Shut v → ∃ w, g.Shut w ∧ g.productions.LeadsTo v w := fun v shut =>
    shut.exists_leadsTo inside
  have shut : g.Shut v := ⟨isVar, closed, fun same => absurd same ne⟩
  exact isLeftRecursive_eq_false_iff.1 straight v (mem_leadingCore_of_closed isVars leads shut)

theorem not_stranded_of_straight (inside : g.productions.ErasesNothingInside g.start)
    (straight : g.isLeftRecursive = false) : ¬ g.Stranded := by
  rintro ⟨m, u, exposed, isVar, closed, later⟩
  by_cases same : u = g.start
  · subst same
    have := (exposed.of_start_closed isVar closed).2.2
    omega
  · exact closed (opens_of_straight inside straight isVar same)

theorem straightened_succeeds_iff (prepared : g.prepared = .ok a) :
    (∃ r, if a.isLeftRecursive then
        ∃ result, prune ⟨a.start, a.untangled⟩ = .ok result ∧ result.checkedAgainst a = .ok r
      else r = a) ↔ ¬ a.Stranded := by
  have inside := inside_of_prepared prepared
  split
  · rename_i recursive
    obtain ⟨v, isVar⟩ := exists_mem_vars_of_isLeftRecursive recursive
    have isStart := (trim_of_prepared prepared).start_mem_vars isVar
    rw [← untangled_succeeds_iff inside isStart]
    simp only [bind_eq_ok_iff]
  · rename_i straight
    exact iff_of_true ⟨a, rfl⟩ (not_stranded_of_straight inside (Bool.eq_false_iff.2 straight))

/--
Left recursion can be removed just if there is none or no variable is stranded.
-/
theorem removeLeftRecursion_succeeds_iff : (∃ r, g.removeLeftRecursion = .ok r) ↔
    g.isLeftRecursive = false ∨ ∃ a, g.prepared = .ok a ∧ ¬ a.Stranded := by
  cases recursive : g.isLeftRecursive with
  | false => exact iff_of_true ⟨g, removeLeftRecursion_of_straight recursive⟩ (.inl rfl)
  | true =>
    rw [or_iff_right Bool.true_eq_false.mp]
    simp only [removeLeftRecursion_eq_ok_iff recursive]
    constructor
    · rintro ⟨r, pruned, hp, a, he, last⟩
      have prepared := prepared_eq_ok_iff.2 ⟨pruned, hp, he⟩
      exact ⟨a, prepared, (straightened_succeeds_iff prepared).1 ⟨r, last⟩⟩
    · rintro ⟨a, prepared, free⟩
      obtain ⟨r, last⟩ := (straightened_succeeds_iff prepared).2 free
      obtain ⟨pruned, hp, he⟩ := prepared_eq_ok_iff.1 prepared
      exact ⟨r, pruned, hp, a, he, last⟩

theorem toGreibach_succeeds_iff_removeLeftRecursion : (∃ r, g.toGreibach = .ok r) ↔
    g.isGreibach = true ∨
      ∃ erased, g.removeEpsilon = .ok erased ∧ ∃ r, erased.removeLeftRecursion = .ok r := by
  rw [toGreibach_succeeds_iff]
  refine or_congr_right ?_
  simp only [greibachRound_eq_ok_iff]
  constructor
  · rintro ⟨_, erased, he, straight, hs, rfl⟩
    exact ⟨erased, he, straight, hs⟩
  · rintro ⟨erased, he, straight, hs⟩
    exact ⟨_, erased, he, straight, hs, rfl⟩

theorem nonErasing_congr (same : g ≈ h) : g.nonErasing ≈ h.nonErasing := by
  obtain ⟨start, productions⟩ := equiv_iff.1 same
  intro p
  rw [mem_nonErasing, mem_nonErasing, start]
  exact and_congr_left fun _ => productions p

theorem opens_of_equiv (same : g ≈ h) (opens : g.Opens v) : h.Opens v := by
  obtain ⟨_, productions⟩ := equiv_iff.1 same
  have known := vars_congr productions
  induction opens with
  | intro mem _ ih =>
    exact .intro ((nonErasing_congr same _).1 mem) fun t starts isVar =>
      ih t starts ((known t).2 isVar)

theorem opens_congr (same : g ≈ h) : g.Opens v ↔ h.Opens v :=
  ⟨opens_of_equiv same, opens_of_equiv (Setoid.symm same)⟩

theorem opening_of_equiv {u : List Symbol} (same : g ≈ h)
    (opening : g.nonErasing.Opening g.vars u) : h.nonErasing.Opening h.vars u := by
  intro s starts isVar
  have known := vars_congr (equiv_iff.1 same).2
  exact opens_of_equiv same (opening s starts ((known s).2 isVar))

/--
The two grammars have each variable that opens, and the start variable, in the same order with the
variables that it leads on to and that do not open.
-/
def SameTurns (g h : Grammar) : Prop :=
  ∀ v u, g.Opens v ∨ v = g.start → ¬ g.Opens u →
    Relation.ReflTransGen g.productions.LeadsTo v u → (g.place v < g.place u ↔ h.place v < h.place u)

theorem SameTurns.symm (turns : SameTurns g h) (same : g ≈ h) : SameTurns h g := by
  obtain ⟨start, productions⟩ := equiv_iff.1 same
  intro v u first closed leads
  rw [← opens_congr same, ← start] at first
  rw [← opens_congr same] at closed
  have leads : Relation.ReflTransGen g.productions.LeadsTo v u :=
    Relation.ReflTransGen.mono (fun v w link => link.mono fun p => (productions p).2) v u leads
  exact (turns v u first closed leads).symm

theorem exposed_of_sameTurns (same : g ≈ h) (turns : SameTurns g h)
    (exposed : g.nonErasing.Exposed g.vars g.place g.start m s) :
    ∃ n, h.nonErasing.Exposed h.vars h.place h.start n s ∧
      ∀ u, ¬ g.Opens u → Relation.ReflTransGen g.productions.LeadsTo s u →
        m < g.place u → n < h.place u := by
  obtain ⟨start, productions⟩ := equiv_iff.1 same
  have known := vars_congr productions
  have mem := nonErasing_congr same
  induction exposed with
  | start le =>
    refine ⟨h.place g.start, ?_, fun u closed leads later => ?_⟩
    · rw [start]
      exact .start (Nat.le_refl _)
    · exact (turns _ u (.inr rfl) closed leads).1 (Nat.lt_of_le_of_lt le later)
  | @first m v s u _ isVar old starts isVar' le ih =>
    obtain ⟨n, exposed, bound⟩ := ih
    have link : g.productions.LeadsTo v s :=
      leadsTo_iff.2 ⟨isVar', _, mem_of_mem_nonErasing old, rfl, starts⟩
    have step {n : Nat} (lhs : h.nonErasing.Exposed h.vars h.place h.start n v)
        (le : h.Opens s → h.place s ≤ n) : h.nonErasing.Exposed h.vars h.place h.start n s :=
      lhs.first ((known v).1 isVar) ((mem _).1 old) starts ((known s).1 isVar') le
    by_cases opens : g.Opens s
    · refine ⟨max n (h.place s), ?_, fun u closed leads later => Nat.max_lt.2 ⟨?_, ?_⟩⟩
      · exact step (exposed.raise (Nat.le_max_left _ _)) fun _ => Nat.le_max_right _ _
      · exact bound u closed (.head link leads) later
      · exact (turns s u (.inl opens) closed leads).1 (Nat.lt_of_le_of_lt (le opens) later)
    · refine ⟨n, step exposed fun opens' => absurd ((opens_congr same).2 opens') opens, ?_⟩
      intro u closed leads later
      exact bound u closed (.head link leads) later
  | @behind m n v s u _ isVar old opening occurs le ih =>
    obtain ⟨_, exposed, _⟩ := ih
    have step {n : Nat} (le : h.Opens s → h.place s ≤ n) :
        h.nonErasing.Exposed h.vars h.place h.start n s :=
      exposed.behind ((known v).1 isVar) ((mem _).1 old) (opening_of_equiv same opening) occurs le
    by_cases opens : g.Opens s
    · refine ⟨h.place s, step fun _ => Nat.le_refl _, fun u closed leads later => ?_⟩
      exact (turns s u (.inl opens) closed leads).1 (Nat.lt_of_le_of_lt (le opens) later)
    · refine ⟨0, step fun opens' => absurd ((opens_congr same).2 opens') opens, ?_⟩
      intro u _ _ _
      exact Nat.succ_pos _
  | loose _ notVar old =>
    exact absurd (lhs_mem_vars (mem_of_mem_nonErasing old)) notVar

theorem stranded_of_sameTurns (same : g ≈ h) (turns : SameTurns g h) (stranded : g.Stranded) :
    h.Stranded := by
  obtain ⟨m, u, exposed, isVar, closed, later⟩ := stranded
  obtain ⟨n, exposed, bound⟩ := exposed_of_sameTurns same turns exposed
  refine ⟨n, u, exposed, ?_, ?_, bound u closed .refl later⟩
  · exact (vars_congr (equiv_iff.1 same).2 u).1 isVar
  · exact fun opens => closed ((opens_congr same).2 opens)

theorem prepared_congr (same : g ≈ h) : Agree g.prepared h.prepared :=
  (prune_congr same).bind fun _ _ => removeEpsilon_congr

theorem removeLeftRecursion_succeeds_of_equiv (same : g ≈ h)
    (turns : ∀ a b, g.prepared = .ok a → h.prepared = .ok b → SameTurns a b)
    (succeeds : ∃ r, g.removeLeftRecursion = .ok r) : ∃ r, h.removeLeftRecursion = .ok r := by
  rw [removeLeftRecursion_succeeds_iff] at succeeds ⊢
  rcases succeeds with straight | ⟨a, ha, free⟩
  · exact .inl ((isLeftRecursive_congr (equiv_iff.1 same).2).symm.trans straight)
  · obtain ⟨b, hb, same⟩ := (prepared_congr same).exists_ok ha
    refine .inr ⟨b, hb, fun stranded => free ?_⟩
    exact stranded_of_sameTurns (Setoid.symm same) ((turns a b ha hb).symm same) stranded

theorem toGreibach_succeeds_of_equiv (same : g ≈ h)
    (turns : ∀ a b, g.removeEpsilon >>= prepared = .ok a → h.removeEpsilon >>= prepared = .ok b →
      SameTurns a b)
    (succeeds : ∃ r, g.toGreibach = .ok r) : ∃ r, h.toGreibach = .ok r := by
  rw [toGreibach_succeeds_iff_removeLeftRecursion] at succeeds ⊢
  rcases succeeds with form | ⟨a, ha, succeeds⟩
  · exact .inl (isGreibach_of_equiv same form)
  · obtain ⟨b, hb, same⟩ := (removeEpsilon_congr same).exists_ok ha
    refine .inr ⟨b, hb, removeLeftRecursion_succeeds_of_equiv same ?_ succeeds⟩
    intro a' b' ha' hb'
    exact turns a' b' (bind_eq_ok_iff.2 ⟨a, ha, ha'⟩) (bind_eq_ok_iff.2 ⟨b, hb, hb'⟩)

theorem Agree.sameTurns_symm {x y : Except GrammarError Grammar} (agree : Agree x y)
    (turns : ∀ a b, x = .ok a → y = .ok b → SameTurns a b) (a b : Grammar) (ha : y = .ok a)
    (hb : x = .ok b) : SameTurns a b := by
  obtain ⟨_, ha', same⟩ := agree.exists_ok hb
  cases ha.symm.trans ha'
  exact (turns b a hb ha).symm same

/--
On grammars that differ in the order of their productions only, the conversions succeed or fail
together as long as variables take the same turns with those that they lead on to and that do not
open, after what is done before variables are treated.
-/
theorem conversions_succeed_together (same : g ≈ h) :
    ((∀ a b, g.prepared = .ok a → h.prepared = .ok b → SameTurns a b) →
      ((∃ r, g.removeLeftRecursion = .ok r) ↔ ∃ r, h.removeLeftRecursion = .ok r)) ∧
    ((∀ a b, g.removeEpsilon >>= prepared = .ok a → h.removeEpsilon >>= prepared = .ok b →
        SameTurns a b) →
      ((∃ r, g.toGreibach = .ok r) ↔ ∃ r, h.toGreibach = .ok r)) := by
  constructor
  · intro turns
    exact ⟨removeLeftRecursion_succeeds_of_equiv same turns,
      removeLeftRecursion_succeeds_of_equiv (Setoid.symm same)
        ((prepared_congr same).sameTurns_symm turns)⟩
  · intro turns
    have agree : Agree (g.removeEpsilon >>= prepared) (h.removeEpsilon >>= prepared) :=
      (removeEpsilon_congr same).bind fun _ _ => prepared_congr
    exact ⟨toGreibach_succeeds_of_equiv same turns,
      toGreibach_succeeds_of_equiv (Setoid.symm same) (agree.sameTurns_symm turns)⟩

/--
`A` does not open, and comes before the variables that lead to it.
-/
def emptiedFirst : Grammar :=
  ofProductions ⟨"S"⟩
    [.ofNames "A" ["A", "a"], .ofNames "S" ["A", "s"], .ofNames "S" ["B"], .ofNames "B" ["b"]]

def emptiedFirstToo : Grammar :=
  ofProductions ⟨"S"⟩
    [.ofNames "A" ["A", "a"], .ofNames "B" ["b"], .ofNames "S" ["B"], .ofNames "S" ["A", "s"]]

/--
The same productions once more, but `A` comes last.
-/
def emptiedLast : Grammar :=
  ofProductions ⟨"S"⟩
    [.ofNames "S" ["A", "s"], .ofNames "S" ["B"], .ofNames "B" ["b"], .ofNames "A" ["A", "a"]]

theorem sameTurns_emptiedFirst : SameTurns emptiedFirst emptiedFirstToo := by
  have opensB : emptiedFirst.Opens ⟨"B"⟩ := by
    refine .intro (u := [⟨"b"⟩]) (by decide) ?_
    rintro s starts isVar
    cases starts
    exact absurd isVar (by decide)
  have opensS : emptiedFirst.Opens ⟨"S"⟩ :=
    .intro (u := [⟨"B"⟩]) (by decide) (opening_cons opensB)
  intro v u _ closed leads
  rcases Relation.ReflTransGen.cases_tail leads with rfl | ⟨w, _, link⟩
  · exact iff_of_false (Nat.lt_irrefl _) (Nat.lt_irrefl _)
  · have all : ∀ u ∈ emptiedFirst.vars.toList, u = ⟨"A"⟩ ∨ u = ⟨"S"⟩ ∨ u = ⟨"B"⟩ := by decide
    rcases all u (leadsTo_iff.1 link).1 with rfl | rfl | rfl
    · -- nothing comes before the first place
      have first : emptiedFirst.place ⟨"A"⟩ = 1 ∧ emptiedFirstToo.place ⟨"A"⟩ = 1 := by decide
      rw [first.1, first.2]
      exact iff_of_false (Nat.not_lt.2 (Nat.succ_pos _)) (Nat.not_lt.2 (Nat.succ_pos _))
    · exact absurd opensS closed
    · exact absurd opensB closed

theorem conversions_succeed_together_emptied :
    emptiedFirst ≈ emptiedFirstToo ∧
      (∀ a b, emptiedFirst.prepared = .ok a → emptiedFirstToo.prepared = .ok b →
        SameTurns a b) ∧
      ((∃ r, emptiedFirst.removeLeftRecursion = .ok r) ↔
        ∃ r, emptiedFirstToo.removeLeftRecursion = .ok r) ∧
      (∀ a b, emptiedFirst.removeEpsilon >>= prepared = .ok a →
        emptiedFirstToo.removeEpsilon >>= prepared = .ok b → SameTurns a b) ∧
      ((∃ r, emptiedFirst.toGreibach = .ok r) ↔ ∃ r, emptiedFirstToo.toGreibach = .ok r) := by
  have same : emptiedFirst ≈ emptiedFirstToo := by decide
  have turns : ∀ a b, emptiedFirst.prepared = .ok a → emptiedFirstToo.prepared = .ok b →
      SameTurns a b := by
    intro a b ha hb
    have ha' : emptiedFirst.prepared = .ok emptiedFirst := by rfl
    have hb' : emptiedFirstToo.prepared = .ok emptiedFirstToo := by rfl
    cases ha.symm.trans ha'
    cases hb.symm.trans hb'
    exact sameTurns_emptiedFirst
  have turns' : ∀ a b, emptiedFirst.removeEpsilon >>= prepared = .ok a →
      emptiedFirstToo.removeEpsilon >>= prepared = .ok b → SameTurns a b := by
    intro a b ha hb
    have ha' : emptiedFirst.removeEpsilon >>= prepared = .ok emptiedFirst := by rfl
    have hb' : emptiedFirstToo.removeEpsilon >>= prepared = .ok emptiedFirstToo := by rfl
    cases ha.symm.trans ha'
    cases hb.symm.trans hb'
    exact sameTurns_emptiedFirst
  have together := conversions_succeed_together same
  exact ⟨same, turns, together.1 turns, turns', together.2 turns'⟩

set_option maxRecDepth 4000 in
/--
Both conversions follow the order of productions where that changes the turns.
-/
theorem conversions_follow_order :
    emptiedFirst ≈ emptiedLast ∧
      emptiedLast.removeLeftRecursion = .error (.underivable ⟨"A"⟩) ∧
      ¬ ((∃ r, emptiedFirst.removeLeftRecursion = .ok r) ↔
        ∃ r, emptiedLast.removeLeftRecursion = .ok r) ∧
      emptiedLast.toGreibach = .error (.underivable ⟨"A"⟩) ∧
      ¬ ((∃ r, emptiedFirst.toGreibach = .ok r) ↔ ∃ r, emptiedLast.toGreibach = .ok r) := by
  have straight : emptiedFirst.removeLeftRecursion =
      .ok (ofProductions ⟨"S"⟩ [.ofNames "S" ["B"], .ofNames "B" ["b"]]) := by rfl
  have normal : emptiedFirst.toGreibach =
      .ok (ofProductions ⟨"S"⟩ [.ofNames "S" ["b"], .ofNames "B" ["b"]]) := by rfl
  have notStraight : emptiedLast.removeLeftRecursion = .error (.underivable ⟨"A"⟩) := by rfl
  have notNormal : emptiedLast.toGreibach = .error (.underivable ⟨"A"⟩) := by rfl
  refine ⟨by decide, notStraight, fun together => ?_, notNormal, fun together => ?_⟩
  · obtain ⟨r, succeeds⟩ := together.1 ⟨_, straight⟩
    rw [notStraight] at succeeds
    cases succeeds
  · obtain ⟨r, succeeds⟩ := together.1 ⟨_, normal⟩
    rw [notNormal] at succeeds
    cases succeeds

end Grammar

end ContextFree
