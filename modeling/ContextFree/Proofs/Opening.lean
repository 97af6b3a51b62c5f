import ContextFree.Proofs.Untangling

/-!
This module contains which variables can be derived into a word that starts with no variable, by
replacing leading variables only. The treatment of left recursion neither adds to these variables nor
takes any away. The others are left without productions in the end, or with such as start with a
variable that is left without any.
-/

namespace ContextFree

namespace Productions

/--
Replacing leading variables, beginning with this one, can come to an end at a symbol that is not in
`vars`.
-/
inductive Opens (ps : Productions) (vars : OrderedSet Symbol) : Symbol → Prop where
  | intro {v : Symbol} {u : List Symbol} (mem : ⟨v, u⟩ ∈ ps)
    (leading : ∀ s, u.head? = some s → s ∈ vars → Opens ps vars s) : Opens ps vars v

/--
If the word starts with a variable then with one that opens.
-/
def Opening (ps : Productions) (vars : OrderedSet Symbol) (u : List Symbol) : Prop :=
  ∀ s, u.head? = some s → s ∈ vars → Opens ps vars s

variable {ps ps' : Productions} {vars : OrderedSet Symbol} {s v w aux : Symbol}
  {u rest : List Symbol}

theorem opens_iff : Opens ps vars v ↔ ∃ u, ⟨v, u⟩ ∈ ps ∧ Opening ps vars u := by
  constructor
  · rintro ⟨mem, leading⟩
    exact ⟨_, mem, leading⟩
  · rintro ⟨u, mem, opening⟩
    exact .intro mem opening

theorem Opens.mono (h : Opens ps vars s) (sub : ∀ p ∈ ps, p ∈ ps') : Opens ps' vars s := by
  induction h with
  | intro mem _ ih => exact .intro (sub _ mem) ih

theorem opening_append (notEmpty : u ≠ []) : Opening ps vars (u ++ rest) ↔ Opening ps vars u := by
  unfold Opening
  rw [List.head?_append_of_ne_nil u notEmpty]

theorem opening_cons (h : Opens ps vars w) : Opening ps vars (w :: u) := by
  intro s starts _
  rw [← Option.some.inj starts]
  exact h

theorem opens_unfoldLeading_iff (nonempty : ∀ p ∈ ps, p.rhs ≠ []) (ne : w ≠ v) (isVar : w ∈ vars) :
    Opens (ps.unfoldLeading v w) vars s ↔ Opens ps vars s := by
  constructor
  · intro h
    induction h with
    | intro mem _ ih =>
      rcases mem_unfoldLeading_cases mem with ⟨old, _⟩ | ⟨rest, a, old, alternative, same⟩
      · exact .intro old ih
      · cases same
        have opening : Opening ps vars a := (opening_append (nonempty _ alternative)).1 ih
        exact .intro old (opening_cons (.intro alternative opening))
  · intro h
    induction h with
    | @intro t u mem _ ih =>
      by_cases selected : t = v ∧ u.head? = some w
      · -- `w` has a production that opens, and the productions of `w` stay as they are
        obtain ⟨rfl, starts⟩ := selected
        obtain ⟨rest, rfl⟩ := List.head?_eq_some_iff.1 starts
        obtain ⟨a, alternative, opening⟩ := opens_iff.1 (ih w rfl isVar)
        have old : ⟨w, a⟩ ∈ ps := by
          rcases mem_unfoldLeading_cases alternative with ⟨old, _⟩ | ⟨_, _, _, _, same⟩
          · exact old
          · exact absurd (congrArg Production.lhs same) ne
        exact .intro (mem_unfoldLeading_of_mem mem old)
          ((opening_append (nonempty _ old)).2 opening)
      · exact .intro (mem_unfoldLeading_of_ne mem selected) ih

theorem opens_withoutSelfLoops_iff (isVar : v ∈ vars) :
    Opens (ps.withoutSelfLoops v) vars s ↔ Opens ps vars s := by
  constructor
  · intro h
    exact h.mono fun p mem => (mem_withoutSelfLoops.1 mem).1
  · intro h
    induction h with
    | @intro t u mem _ ih =>
      by_cases loop : t = v ∧ u = [v]
      · obtain ⟨rfl, rfl⟩ := loop
        exact ih t rfl isVar
      · exact .intro (mem_withoutSelfLoops.2 ⟨mem, loop⟩) ih

theorem exists_opening_other (isVar : v ∈ vars) (h : Opens ps vars v) :
    ∃ u, ⟨v, u⟩ ∈ ps ∧ u.head? ≠ some v ∧ Opening ps vars u := by
  generalize same : v = t at h
  induction h with
  | @intro t u mem leading ih =>
    subst same
    by_cases starts : u.head? = some v
    · exact ih v starts isVar rfl
    · exact ⟨u, mem, starts, leading⟩

theorem opens_turnRight_iff (nonempty : ∀ p ∈ ps, p.rhs ≠ []) (isVar : v ∈ vars)
    (notVar : ¬ aux ∈ vars) (ne : s ≠ aux) :
    Opens (ps.turnRight v aux) vars s ↔ Opens ps vars s := by
  constructor
  · intro h
    induction h with
    | @intro t u mem _ ih =>
      have opening : Opening ps vars u := by
        intro s starts known
        apply ih s starts known
        rintro rfl
        exact notVar known
      cases mem_turnRight_iff.1 mem with
      | old old other => exact .intro old opening
      | last old ends => exact .intro old opening
      | first old ends => exact .intro old ((opening_append (nonempty _ old)).1 opening)
      | auxLast => exact absurd rfl ne
      | auxNext => exact absurd rfl ne
  · intro h
    clear ne
    induction h with
    | @intro t u mem _ ih =>
      by_cases other : t = v
      · subst other
        by_cases starts : u.head? = some t
        · exact ih t starts isVar
        · exact .intro (mem_turnRight_iff.2 (.last mem starts)) ih
      · exact .intro (mem_turnRight_iff.2 (.old mem other)) ih

end Productions

end ContextFree
