import ContextFree.Proofs.Opening

/-!
This module contains which variables the start variable still needs when left recursion has been
removed. What stands behind the first symbol of a right-hand side that opens stays there, whatever
that first symbol is replaced by. A leading variable stays only if it comes later in the order of
treatment than the variables that lead to it, and otherwise it gives way to what it leads to. A
variable that does not open is stranded if it stays. No step of the treatment changes whether there
is one.
-/

namespace ContextFree

namespace Productions

/--
The symbol is at the end of a chain of leading variables, of which those that open have places up to
`m`. The chain begins with the start variable, or with a symbol behind the first one of a right-hand
side that opens and whose variable is exposed itself, or with any symbol of a right-hand side of an
auxiliary variable.
-/
inductive Exposed (ps : Productions) (vars : OrderedSet Symbol) (place : Symbol → Nat)
    (start : Symbol) : Nat → Symbol → Prop where
  | start {m : Nat} (le : place start ≤ m) : Exposed ps vars place start m start
  | first {m : Nat} {v s : Symbol} {u : List Symbol} (lhs : Exposed ps vars place start m v)
    (isVar : v ∈ vars) (mem : ⟨v, u⟩ ∈ ps) (starts : u.head? = some s) (known : s ∈ vars)
    (le : Opens ps vars s → place s ≤ m) : Exposed ps vars place start m s
  | behind {m n : Nat} {v s : Symbol} {u : List Symbol} (lhs : Exposed ps vars place start m v)
    (isVar : v ∈ vars) (mem : ⟨v, u⟩ ∈ ps) (opening : Opening ps vars u) (occurs : s ∈ u.tail)
    (le : Opens ps vars s → place s ≤ n) : Exposed ps vars place start n s
  | loose {m n : Nat} {v s : Symbol} {u : List Symbol} (lhs : Exposed ps vars place start m v)
    (notVar : ¬ v ∈ vars) (mem : ⟨v, u⟩ ∈ ps) (occurs : s ∈ u)
    (le : Opens ps vars s → place s ≤ n) : Exposed ps vars place start n s

/--
A variable that does not open comes later than all those that open in a chain that leads to it.
-/
def Stranded (ps : Productions) (vars : OrderedSet Symbol) (place : Symbol → Nat)
    (start : Symbol) : Prop :=
  ∃ m u, Exposed ps vars place start m u ∧ u ∈ vars ∧ ¬ Opens ps vars u ∧ m < place u

variable {ps ps' : Productions} {vars : OrderedSet Symbol} {place : Symbol → Nat}
  {start s v w aux : Symbol} {m n : Nat} {u : List Symbol}

theorem Exposed.place_le (h : Exposed ps vars place start m s) (opens : Opens ps vars s) :
    place s ≤ m := by
  cases h with
  | start le => exact le
  | first _ _ _ _ _ le => exact le opens
  | behind _ _ _ _ _ le => exact le opens
  | loose _ _ _ _ le => exact le opens

theorem Exposed.raise (h : Exposed ps vars place start m s) (le : m ≤ n) :
    Exposed ps vars place start n s := by
  induction h with
  | start le' => exact .start (Nat.le_trans le' le)
  | first _ isVar mem starts known le' ih =>
    exact .first (ih le) isVar mem starts known fun opens => Nat.le_trans (le' opens) le
  | behind lhs isVar mem opening occurs le' =>
    exact .behind lhs isVar mem opening occurs fun opens => Nat.le_trans (le' opens) le
  | loose lhs notVar mem occurs le' =>
    exact .loose lhs notVar mem occurs fun opens => Nat.le_trans (le' opens) le

/--
A start variable that does not open exposes no others but such variables, by chains that it is in
itself.
-/
theorem Exposed.of_start_closed (h : Exposed ps vars place start m s) (isStart : start ∈ vars)
    (closed : ¬ Opens ps vars start) : s ∈ vars ∧ ¬ Opens ps vars s ∧ place start ≤ m := by
  induction h with
  | start le => exact ⟨isStart, closed, le⟩
  | first _ _ mem starts known _ ih =>
    refine ⟨known, fun opens => ih.2.1 (.intro mem ?_), ih.2.2⟩
    intro t starts' _
    rw [← Option.some.inj (starts.symm.trans starts')]
    exact opens
  | behind _ _ mem opening _ _ ih => exact absurd (.intro mem opening) ih.2.1
  | loose _ notVar _ _ _ ih => exact absurd ih.1 notVar

section Unfold

variable (nonempty : ∀ p ∈ ps, p.rhs ≠ []) (ne : w ≠ v) (isVar : v ∈ vars) (isVar' : w ∈ vars)

include nonempty ne isVar'

theorem opening_unfoldLeading_iff :
    Opening (ps.unfoldLeading v w) vars u ↔ Opening ps vars u := by
  unfold Opening
  simp only [opens_unfoldLeading_iff nonempty ne isVar']

include isVar

theorem Exposed.of_unfoldLeading (before : place w < place v)
    (h : Exposed (ps.unfoldLeading v w) vars place start m s) :
    Exposed ps vars place start m s := by
  have opens {t : Symbol} := opens_unfoldLeading_iff nonempty ne isVar' (s := t)
  have opening {u : List Symbol} := opening_unfoldLeading_iff nonempty ne isVar' (u := u)
  -- where a production of `v` starts with `w`, a bound for `v` is one for `w`, too
  have lead {m : Nat} {rest : List Symbol} (lhs : Exposed ps vars place start m v)
      (old : ⟨v, w :: rest⟩ ∈ ps) : Exposed ps vars place start m w := by
    refine .first lhs isVar old rfl isVar' fun opensW => ?_
    have := lhs.place_le (.intro old (opening_cons opensW))
    omega
  induction h with
  | start le => exact .start le
  | first _ isVar mem starts known le ih =>
    rw [opens] at le
    rcases mem_unfoldLeading_cases mem with ⟨old, _⟩ | ⟨rest, a, old, alternative, same⟩
    · exact .first ih isVar old starts known le
    · cases same
      rw [List.head?_append_of_ne_nil a (nonempty _ alternative)] at starts
      exact .first (lead ih old) isVar' alternative starts known le
  | behind _ isVar mem opens' occurs le ih =>
    rw [opens] at le
    rw [opening] at opens'
    rcases mem_unfoldLeading_cases mem with ⟨old, _⟩ | ⟨rest, a, old, alternative, same⟩
    · exact .behind ih isVar old opens' occurs le
    · cases same
      rw [opening_append (nonempty _ alternative)] at opens'
      rw [List.tail_append_of_ne_nil (nonempty _ alternative), List.mem_append] at occurs
      rcases occurs with occurs | occurs
      · exact .behind (lead ih old) isVar' alternative opens' occurs le
      · exact .behind ih isVar old (opening_cons (.intro alternative opens')) occurs le
  | loose _ notVar mem occurs le ih =>
    rw [opens] at le
    rcases mem_unfoldLeading_cases mem with ⟨old, _⟩ | ⟨_, _, _, _, same⟩
    · exact .loose ih notVar old occurs le
    · cases same
      exact absurd isVar notVar

/--
Only `w` may no longer be exposed, and then what it exposes is exposed by `v`.
-/
theorem Exposed.unfoldLeading (h : Exposed ps vars place start m s) :
    Exposed (ps.unfoldLeading v w) vars place start m s ∨
      s = w ∧ (∃ rest, ⟨v, w :: rest⟩ ∈ ps) ∧
        Exposed (ps.unfoldLeading v w) vars place start m v := by
  have opens {t : Symbol} := opens_unfoldLeading_iff nonempty ne isVar' (s := t)
  have opening {u : List Symbol} := opening_unfoldLeading_iff nonempty ne isVar' (u := u)
  induction h with
  | start le => exact .inl (.start le)
  | @first m t s u _ known mem starts known' le ih =>
    rw [← opens] at le
    rcases ih with ih | ⟨rfl, ⟨rest, old⟩, ih⟩
    · by_cases selected : t = v ∧ u.head? = some w
      · obtain ⟨rfl, starts'⟩ := selected
        obtain rfl := Option.some.inj (starts.symm.trans starts')
        obtain ⟨rest, rfl⟩ := List.head?_eq_some_iff.1 starts
        exact .inr ⟨rfl, ⟨rest, mem⟩, ih⟩
      · exact .inl (.first ih known (mem_unfoldLeading_of_ne mem selected) starts known' le)
    · rw [← List.head?_append_of_ne_nil u (nonempty _ mem)] at starts
      exact .inl (.first ih isVar (mem_unfoldLeading_of_mem old mem) starts known' le)
  | @behind m n t s u _ known mem opens' occurs le ih =>
    rw [← opens] at le
    left
    rcases ih with ih | ⟨rfl, ⟨rest, old⟩, ih⟩
    · by_cases selected : t = v ∧ u.head? = some w
      · obtain ⟨rfl, starts⟩ := selected
        obtain ⟨rest, rfl⟩ := List.head?_eq_some_iff.1 starts
        obtain ⟨a, alternative, opensA⟩ := opens_iff.1 (opens' w rfl isVar')
        refine .behind ih known (mem_unfoldLeading_of_mem mem alternative) ?_ ?_ le
        · rw [opening, opening_append (nonempty _ alternative)]
          exact opensA
        · rw [List.tail_append_of_ne_nil (nonempty _ alternative)]
          exact List.mem_append_right _ occurs
      · exact .behind ih known (mem_unfoldLeading_of_ne mem selected) (opening.2 opens') occurs le
    · refine .behind ih isVar (mem_unfoldLeading_of_mem old mem) ?_ ?_ le
      · rw [opening, opening_append (nonempty _ mem)]
        exact opens'
      · rw [List.tail_append_of_ne_nil (nonempty _ mem)]
        exact List.mem_append_left _ occurs
  | @loose m n t s u _ notVar mem occurs le ih =>
    rw [← opens] at le
    rcases ih with ih | ⟨rfl, _⟩
    · refine .inl (.loose ih notVar (mem_unfoldLeading_of_ne mem ?_) occurs le)
      rintro ⟨rfl, _⟩
      exact notVar isVar
    · exact absurd isVar' notVar

theorem stranded_unfoldLeading_iff (before : place w < place v) :
    Stranded (ps.unfoldLeading v w) vars place start ↔ Stranded ps vars place start := by
  have opens {t : Symbol} := opens_unfoldLeading_iff nonempty ne isVar' (s := t)
  unfold Stranded
  simp only [opens]
  constructor
  · rintro ⟨m, u, exposed, known, closed, later⟩
    exact ⟨m, u, exposed.of_unfoldLeading nonempty ne isVar isVar' before, known, closed, later⟩
  · rintro ⟨m, u, exposed, known, closed, later⟩
    rcases exposed.unfoldLeading nonempty ne isVar isVar' with exposed | ⟨rfl, _, exposed⟩
    · exact ⟨m, u, exposed, known, closed, later⟩
    · -- `v` comes later still, and is stranded in place of what led its production
      refine ⟨m, v, exposed, isVar, fun opensV => ?_, by omega⟩
      have := exposed.place_le (opens.2 opensV)
      omega

end Unfold

section SelfLoops

variable (isVar : v ∈ vars)

include isVar

theorem opening_withoutSelfLoops_iff :
    Opening (ps.withoutSelfLoops v) vars u ↔ Opening ps vars u := by
  unfold Opening
  simp only [opens_withoutSelfLoops_iff isVar]

theorem exposed_withoutSelfLoops_iff :
    Exposed (ps.withoutSelfLoops v) vars place start m s ↔ Exposed ps vars place start m s := by
  have opens {t : Symbol} : Opens (ps.withoutSelfLoops v) vars t ↔ Opens ps vars t :=
    opens_withoutSelfLoops_iff isVar
  have opening {u : List Symbol} : Opening (ps.withoutSelfLoops v) vars u ↔ Opening ps vars u :=
    opening_withoutSelfLoops_iff isVar
  constructor
  · intro h
    induction h with
    | start le => exact .start le
    | first _ isVar mem starts known le ih =>
      rw [opens] at le
      exact .first ih isVar (mem_withoutSelfLoops.1 mem).1 starts known le
    | behind _ isVar mem opens' occurs le ih =>
      rw [opens] at le
      exact .behind ih isVar (mem_withoutSelfLoops.1 mem).1 (opening.1 opens') occurs le
    | loose _ notVar mem occurs le ih =>
      rw [opens] at le
      exact .loose ih notVar (mem_withoutSelfLoops.1 mem).1 occurs le
  · intro h
    induction h with
    | start le => exact .start le
    | @first m t s u _ known mem starts known' le ih =>
      rw [← opens] at le
      by_cases loop : t = v ∧ u = [v]
      · obtain ⟨rfl, rfl⟩ := loop
        rw [← Option.some.inj starts]
        exact ih
      · exact .first ih known (mem_withoutSelfLoops.2 ⟨mem, loop⟩) starts known' le
    | @behind m n t s u _ known mem opens' occurs le ih =>
      rw [← opens] at le
      refine .behind ih known (mem_withoutSelfLoops.2 ⟨mem, ?_⟩) (opening.2 opens') occurs le
      rintro ⟨_, rfl⟩
      cases occurs
    | @loose m n t s u _ notVar mem occurs le ih =>
      rw [← opens] at le
      refine .loose ih notVar (mem_withoutSelfLoops.2 ⟨mem, ?_⟩) occurs le
      rintro ⟨rfl, _⟩
      exact notVar isVar

theorem stranded_withoutSelfLoops_iff :
    Stranded (ps.withoutSelfLoops v) vars place start ↔ Stranded ps vars place start := by
  unfold Stranded
  simp only [opens_withoutSelfLoops_iff isVar, exposed_withoutSelfLoops_iff isVar]

end SelfLoops

section Turn

variable (nonempty : ∀ p ∈ ps, p.rhs ≠ []) (isVar : v ∈ vars) (notVar : ¬ aux ∈ vars)
  (fresh : ¬ aux ∈ ps.symbols)

include fresh in
theorem ne_of_mem_rhs {t : Symbol} (mem : ⟨t, u⟩ ∈ ps) (occurs : s ∈ u) : s ≠ aux := by
  rintro rfl
  exact (not_mem_of_fresh fresh mem).2 occurs

include nonempty isVar notVar fresh

theorem opening_turnRight_iff {t : Symbol} (mem : ⟨t, u⟩ ∈ ps) :
    Opening (ps.turnRight v aux) vars u ↔ Opening ps vars u := by
  refine forall_congr' fun s => imp_congr_right fun starts => imp_congr_right fun _ => ?_
  exact opens_turnRight_iff nonempty isVar notVar
    (ne_of_mem_rhs fresh mem (List.mem_of_mem_head? starts))

theorem Exposed.turnRight (h : Exposed ps vars place start m s) :
    Exposed (ps.turnRight v aux) vars place start m s := by
  have opens {t s : Symbol} {u : List Symbol} (mem : ⟨t, u⟩ ∈ ps) (occurs : s ∈ u) :=
    opens_turnRight_iff nonempty isVar notVar (ne_of_mem_rhs fresh mem occurs)
  have opening {t : Symbol} {u : List Symbol} (mem : ⟨t, u⟩ ∈ ps) :=
    opening_turnRight_iff nonempty isVar notVar fresh mem
  induction h with
  | start le => exact .start le
  | @first m t s u _ known mem starts known' le ih =>
    rw [← opens mem (List.mem_of_mem_head? starts)] at le
    by_cases other : t = v
    · subst other
      by_cases again : s = t
      · rw [again]
        exact ih
      · refine .first ih known (mem_turnRight_iff.2 (.last mem ?_)) starts known' le
        rw [starts]
        exact fun same => again (Option.some.inj same)
    · exact .first ih known (mem_turnRight_iff.2 (.old mem other)) starts known' le
  | @behind m n t s u _ known mem opens' occurs le ih =>
    rw [← opens mem (List.mem_of_mem_tail occurs)] at le
    have opens'' := (opening mem).2 opens'
    by_cases other : t = v
    · subst other
      by_cases again : u.head? = some t
      · -- what stood behind `v` is now exposed by the auxiliary variable
        obtain ⟨rest, rfl⟩ := List.head?_eq_some_iff.1 again
        obtain ⟨a, alternative, ends, opensA⟩ := exists_opening_other isVar (opens' t rfl known)
        have auxExposed : Exposed (ps.turnRight t aux) vars place start (place aux) aux := by
          refine .behind ih known (mem_turnRight_iff.2 (.first alternative ends)) ?_ ?_
            fun _ => Nat.le_refl _
          · rw [opening_append (nonempty _ alternative), opening alternative]
            exact opensA
          · rw [List.tail_append_of_ne_nil (nonempty _ alternative)]
            exact List.mem_append_right _ (List.mem_singleton.2 rfl)
        exact .loose auxExposed notVar (mem_turnRight_iff.2 (.auxLast mem)) occurs le
      · exact .behind ih known (mem_turnRight_iff.2 (.last mem again)) opens'' occurs le
    · exact .behind ih known (mem_turnRight_iff.2 (.old mem other)) opens'' occurs le
  | @loose m n t s u _ notVar' mem occurs le ih =>
    rw [← opens mem occurs] at le
    refine .loose ih notVar' (mem_turnRight_iff.2 (.old mem ?_)) occurs le
    rintro rfl
    exact notVar' isVar

/--
The auxiliary variable is exposed only if `v` opens and is exposed itself.
-/
theorem Exposed.of_turnRight (isStart : start ∈ vars)
    (h : Exposed (ps.turnRight v aux) vars place start m s) :
    s ≠ aux ∧ Exposed ps vars place start m s ∨
      s = aux ∧ Opens ps vars v ∧ ∃ n, Exposed ps vars place start n v := by
  have ne {t : Symbol} (known : t ∈ vars) : t ≠ aux := by
    rintro rfl
    exact notVar known
  have opens {t : Symbol} (ne : t ≠ aux) := opens_turnRight_iff nonempty isVar notVar ne
  have opening {t : Symbol} {u : List Symbol} (mem : ⟨t, u⟩ ∈ ps) :=
    opening_turnRight_iff nonempty isVar notVar fresh mem
  induction h with
  | start le => exact .inl ⟨ne isStart, .start le⟩
  | @first m t s u _ known mem starts known' le ih =>
    rw [opens (ne known')] at le
    obtain ⟨_, lhs⟩ := ih.resolve_right fun h => ne known h.1
    left
    refine ⟨ne known', ?_⟩
    cases mem_turnRight_iff.1 mem with
    | old old other => exact .first lhs known old starts known' le
    | last old ends => exact .first lhs known old starts known' le
    | first old ends =>
      rw [List.head?_append_of_ne_nil _ (nonempty _ old)] at starts
      exact .first lhs known old starts known' le
    | auxLast => exact absurd known notVar
    | auxNext => exact absurd known notVar
  | @behind m n t s u _ known mem opens' occurs le ih =>
    obtain ⟨_, lhs⟩ := ih.resolve_right fun h => ne known h.1
    have kept {u : List Symbol} (old : ⟨t, u⟩ ∈ ps) (opens' : Opening ps vars u)
        (occurs : s ∈ u.tail) : s ≠ aux ∧ Exposed ps vars place start n s := by
      have other := ne_of_mem_rhs fresh old (List.mem_of_mem_tail occurs)
      rw [opens other] at le
      exact ⟨other, .behind lhs known old opens' occurs le⟩
    cases mem_turnRight_iff.1 mem with
    | old old other => exact .inl (kept old ((opening old).1 opens') occurs)
    | last old ends => exact .inl (kept old ((opening old).1 opens') occurs)
    | first old ends =>
      rw [opening_append (nonempty _ old), opening old] at opens'
      rw [List.tail_append_of_ne_nil (nonempty _ old), List.mem_append] at occurs
      rcases occurs with occurs | occurs
      · exact .inl (kept old opens' occurs)
      · exact .inr ⟨List.mem_singleton.1 occurs, .intro old opens', m, lhs⟩
    | auxLast => exact absurd known notVar
    | auxNext => exact absurd known notVar
  | @loose m n t s u _ notVar' mem occurs le ih =>
    have behind {u : List Symbol} (same : t = aux) (old : ⟨v, v :: u⟩ ∈ ps) (occurs : s ∈ u) :
        s ≠ aux ∧ Exposed ps vars place start n s := by
      obtain ⟨_, opensV, m, lhs⟩ := ih.resolve_left fun h => h.1 same
      have other := ne_of_mem_rhs fresh old (List.mem_cons_of_mem v occurs)
      rw [opens other] at le
      exact ⟨other, .behind lhs isVar old (opening_cons opensV) occurs le⟩
    cases mem_turnRight_iff.1 mem with
    | old old other =>
      obtain ⟨_, lhs⟩ := ih.resolve_right fun h => (not_mem_of_fresh fresh old).1 h.1
      have other := ne_of_mem_rhs fresh old occurs
      rw [opens other] at le
      exact .inl ⟨other, .loose lhs notVar' old occurs le⟩
    | last => exact absurd isVar notVar'
    | first => exact absurd isVar notVar'
    | auxLast old => exact .inl (behind rfl old occurs)
    | auxNext old =>
      rcases List.mem_append.1 occurs with occurs | occurs
      · exact .inl (behind rfl old occurs)
      · obtain ⟨_, exposed⟩ := ih.resolve_left fun h => h.1 rfl
        exact .inr ⟨List.mem_singleton.1 occurs, exposed⟩

theorem stranded_turnRight_iff (isStart : start ∈ vars) :
    Stranded (ps.turnRight v aux) vars place start ↔ Stranded ps vars place start := by
  have ne {t : Symbol} (known : t ∈ vars) : t ≠ aux := by
    rintro rfl
    exact notVar known
  constructor
  · rintro ⟨m, u, exposed, known, closed, later⟩
    rw [opens_turnRight_iff nonempty isVar notVar (ne known)] at closed
    obtain ⟨_, exposed⟩ := (exposed.of_turnRight nonempty isVar notVar fresh isStart).resolve_right
      fun h => ne known h.1
    exact ⟨m, u, exposed, known, closed, later⟩
  · rintro ⟨m, u, exposed, known, closed, later⟩
    rw [← opens_turnRight_iff nonempty isVar notVar (ne known)] at closed
    exact ⟨m, u, exposed.turnRight nonempty isVar notVar fresh, known, closed, later⟩

end Turn

end Productions

end ContextFree
