import ContextFree.Proofs.LeadingChains
import ContextFree.Proofs.Nullability
import Mathlib.Logic.Relation

/-!
This module contains that left recursion is what its name says: some variable leads back to itself,
which a search that starts from every variable finds out as well. Unless a symbol that can be erased
occurs on a right-hand side, that is so just if some variable derives a form that begins with it.
-/

namespace ContextFree

namespace Productions

/--
The variables that the productions of `v` start with.
-/
def leaders (ps : Productions) (v : Symbol) : List Symbol :=
  ((ps.of v).filterMap Production.first?).filter (· ∈ ps.vars)

/--
Go on with a search for a way from `v` back to `v`. The variables in `found` are visited one after
another, and all but the first `visited` ones still have to be. A visit finds the variables that the
one which is visited leads to, and ends the search if `v` is among them. There is no answer if the
search takes more than `turns` turns.
-/
def searchBack (ps : Productions) (v : Symbol) :
    (turns : Nat) → (found : OrderedSet Symbol) → (visited : Nat) → Option Bool
  | 0, _, _ => none
  | turns + 1, found, visited =>
    match found.get? visited with
    | none => some false
    | some w =>
      if v ∈ ps.leaders w then
        some true
      else
        searchBack ps v turns (found.insertMany (ps.leaders w)) (visited + 1)

/--
Whether the variable leads back to itself, if so many turns of the search are enough.
-/
def leadsBack? (ps : Productions) (v : Symbol) (turns : Nat) : Option Bool :=
  ps.searchBack v turns (.ofList [v]) 0

/--
What is known while a way back to `v` is searched for: all variables in `found` can be reached from
`v`, and where those that have been visited lead to has been found, and is not `v`.
-/
structure Searching (ps : Productions) (v : Symbol) (found : OrderedSet Symbol) (visited : Nat) :
    Prop where
  start : v ∈ found
  isVars : ∀ w ∈ found, w ∈ ps.vars
  reached : ∀ w ∈ found, Relation.ReflTransGen ps.LeadsTo v w
  visited_le : visited ≤ found.size
  closed : ∀ w ∈ found.toList.take visited, ∀ u, ps.LeadsTo w u → u ∈ found ∧ u ≠ v

variable {ps : Productions} {found : OrderedSet Symbol} {u w x : List Symbol} {s v t : Symbol}
  {n turns visited : Nat}

theorem mem_leaders_iff : t ∈ ps.leaders v ↔ ps.LeadsTo v t := by
  simp only [leaders, List.mem_filter, List.mem_filterMap, mem_of, decide_eq_true_eq, leadsTo_iff,
    and_assoc, and_comm (b := t ∈ ps.vars)]

section Search

theorem searching_ofList (isVar : v ∈ ps.vars) : Searching ps v (.ofList [v]) 0 := by
  have only : ∀ w ∈ OrderedSet.ofList [v], w = v := by simp
  refine ⟨by simp, fun w hw => only w hw ▸ isVar, fun w hw => only w hw ▸ .refl, Nat.zero_le _, ?_⟩
  intro w hw
  cases hw

/--
A visit that does not lead back to `v`.
-/
theorem Searching.visit (h : Searching ps v found visited) (next : found.get? visited = some t)
    (onward : ¬ ps.LeadsTo t v) :
    Searching ps v (found.insertMany (ps.leaders t)) (visited + 1) := by
  have known : t ∈ found := List.mem_of_getElem? next
  have inside : visited < found.size := (List.getElem?_eq_some_iff.1 next).1
  obtain ⟨added, whole⟩ := OrderedSet.toList_prefix_insertMany found (ps.leaders t)
  have size : (found.insertMany (ps.leaders t)).size = found.size + added.length := by
    rw [OrderedSet.size, ← whole, List.length_append, OrderedSet.size]
  refine ⟨OrderedSet.mem_insertMany.2 (.inl h.start), ?_, ?_, by omega, ?_⟩
  · intro w hw
    rcases OrderedSet.mem_insertMany.1 hw with old | led
    · exact h.isVars w old
    · exact (leadsTo_iff.1 (mem_leaders_iff.1 led)).1
  · intro w hw
    rcases OrderedSet.mem_insertMany.1 hw with old | led
    · exact h.reached w old
    · exact (h.reached t known).tail (mem_leaders_iff.1 led)
  · intro w hw u link
    -- new variables come last, so that those that have been visited stay in front
    have place : found.toList.take (visited + 1) = found.toList.take visited ++ [t] := by
      rw [List.take_add_one, show found.toList[visited]? = some t from next, Option.toList_some]
    rw [← whole, List.take_append_of_le_length inside, place] at hw
    rcases List.mem_append.1 hw with earlier | now
    · obtain ⟨old, ne⟩ := h.closed w earlier u link
      exact ⟨OrderedSet.mem_insertMany.2 (.inl old), ne⟩
    · obtain rfl := List.mem_singleton.1 now
      refine ⟨OrderedSet.mem_insertMany.2 (.inr (mem_leaders_iff.2 link)), ?_⟩
      rintro rfl
      exact onward link

/--
Once all variables that were found have been visited, there is no way back.
-/
theorem Searching.not_leads_back (h : Searching ps v found visited)
    (done : found.get? visited = none) : ¬ Relation.TransGen ps.LeadsTo v v := by
  have all : found.toList.take visited = found.toList :=
    List.take_of_length_le (List.getElem?_eq_none_iff.1 done)
  have closed := all ▸ h.closed
  intro back
  obtain ⟨t, way, link⟩ := Relation.TransGen.tail'_iff.1 back
  have known : t ∈ found := by
    clear link
    induction way with
    | refl => exact h.start
    | tail _ link ih => exact (closed _ ih _ link).1
  exact (closed t known v link).2 rfl

theorem Searching.exists_searchBack (h : Searching ps v found visited)
    (enough : ps.vars.size < turns + visited) : ∃ answer,
      ps.searchBack v turns found visited = some answer ∧
        (answer = true ↔ Relation.TransGen ps.LeadsTo v v) := by
  induction turns generalizing found visited with
  | zero =>
    have := h.visited_le
    have := OrderedSet.size_le_of_subset h.isVars
    omega
  | succ turns ih =>
    unfold searchBack
    split
    · rename_i done
      exact ⟨false, rfl, iff_of_false Bool.false_ne_true (h.not_leads_back done)⟩
    · rename_i t next
      split
      · rename_i back
        have way := h.reached t (List.mem_of_getElem? next)
        exact ⟨true, rfl, iff_of_true rfl (.tail' way (mem_leaders_iff.1 back))⟩
      · rename_i onward
        rw [mem_leaders_iff] at onward
        exact ih (h.visit next onward) (by omega)

/--
There are no more turns than variables, and one to find that no variable is left.
-/
theorem exists_leadsBack? (isVar : v ∈ ps.vars) : ∃ answer,
    ps.leadsBack? v (ps.vars.size + 1) = some answer ∧
      (answer = true ↔ Relation.TransGen ps.LeadsTo v v) :=
  (searching_ofList isVar).exists_searchBack (Nat.lt_succ_self _)

end Search

section Cycles

theorem mem_leadingCore_of_cycle (h : Relation.TransGen ps.LeadsTo v v) : v ∈ ps.leadingCore := by
  have isVars : ∀ t, Relation.TransGen ps.LeadsTo t t → t ∈ ps.vars := by
    intro t cycle
    obtain ⟨_, link, _⟩ := Relation.TransGen.head'_iff.1 cycle
    exact link.mem_vars
  have closed : ∀ t, Relation.TransGen ps.LeadsTo t t →
      ∃ s, Relation.TransGen ps.LeadsTo s s ∧ ps.LeadsTo t s := by
    intro t cycle
    obtain ⟨s, link, way⟩ := Relation.TransGen.head'_iff.1 cycle
    exact ⟨s, .tail' way link, link⟩
  exact mem_leadingCore_of_closed isVars closed h

theorem mem_vars_of_transGen (h : Relation.TransGen ps.LeadsTo v t) : t ∈ ps.vars := by
  obtain ⟨_, _, link⟩ := Relation.TransGen.tail'_iff.1 h
  exact (leadsTo_iff.1 link).1

/--
Without cycles fewer variables can be reached with every link, which is a rank.
-/
theorem isLeftRecursive_eq_false_of_acyclic
    (acyclic : ∀ v, ¬ Relation.TransGen ps.LeadsTo v v) : ps.isLeftRecursive = false := by
  classical
  let reach (v : Symbol) : OrderedSet Symbol :=
    ps.vars.filter fun t => Relation.TransGen ps.LeadsTo v t
  have mem_reach (v t : Symbol) : t ∈ reach v ↔ Relation.TransGen ps.LeadsTo v t := by
    rw [OrderedSet.mem_filter, decide_eq_true_iff]
    exact and_iff_right_of_imp mem_vars_of_transGen
  apply isLeftRecursive_eq_false_of_rank fun v => (reach v).size
  intro v t link
  have new : ¬ t ∈ reach t := fun h => acyclic t ((mem_reach t t).1 h)
  have sub : ∀ s ∈ (reach t).insert t, s ∈ reach v := by
    intro s hs
    rcases OrderedSet.mem_insert.1 hs with way | rfl
    · exact (mem_reach v s).2 (.head link ((mem_reach t s).1 way))
    · exact (mem_reach v s).2 (.single link)
  have larger := OrderedSet.size_le_of_subset sub
  rw [OrderedSet.size_insert_of_not_mem new] at larger
  omega

theorem isLeftRecursive_iff_cycle :
    ps.isLeftRecursive = true ↔ ∃ v, Relation.TransGen ps.LeadsTo v v := by
  constructor
  · intro recursive
    apply Classical.byContradiction
    intro none
    rw [isLeftRecursive_eq_false_of_acyclic (not_exists.1 none)] at recursive
    cases recursive
  · rintro ⟨v, cycle⟩
    rw [← Bool.not_eq_false, isLeftRecursive_eq_false_iff]
    exact fun straight => straight v (mem_leadingCore_of_cycle cycle)

end Cycles

section Derivations

theorem LeadsTo.derivesIn (h : ps.LeadsTo v t) : ∃ x, DerivesIn ps 1 [v] (t :: x) := by
  obtain ⟨_, p, mem, rfl, starts⟩ := leadsTo_iff.1 h
  rw [Production.first?_eq_some_iff] at starts
  exact ⟨p.tail, starts ▸ .head (.of_mem mem) (.refl p.rhs)⟩

theorem exists_derivesProperly (h : Relation.TransGen ps.LeadsTo v t) :
    ∃ x, DerivesProperly ps [v] (t :: x) := by
  induction h with
  | single link =>
    obtain ⟨x, derived⟩ := link.derivesIn
    exact ⟨x, 0, derived⟩
  | tail _ link ih =>
    obtain ⟨x, n, derived⟩ := ih
    obtain ⟨y, further⟩ := link.derivesIn
    have inside := further.inside [] x
    exact ⟨y ++ x, 1 + n, derived.trans (by simpa using inside)⟩

theorem rhs_ne_nil_of_lasting {p : Production} (mem : p ∈ ps) (lasting : ¬ Derives ps [p.lhs] []) :
    p.rhs ≠ [] := by
  intro empty
  exact lasting (empty ▸ .of_mem mem)

/--
A step keeps the first symbol of a form, or replaces it by one that a production of it starts with,
as long as nothing is erased.
-/
theorem Step.exists_cons (h : Step ps (s :: u) w) (lasting : ∀ t ∈ s :: u, ¬ Derives ps [t] []) :
    ∃ t x, w = t :: x ∧ (t = s ∨ ∃ p ∈ ps, p.lhs = s ∧ p.first? = some t) := by
  generalize form : s :: u = whole at h
  obtain ⟨mem, before, after⟩ := h
  rename_i p
  cases before with
  | nil =>
    obtain ⟨rfl, rfl⟩ := List.cons.inj form
    have notEmpty := rhs_ne_nil_of_lasting mem (lasting p.lhs List.mem_cons_self)
    obtain ⟨t, rest, rhs⟩ := List.exists_cons_of_ne_nil notEmpty
    refine ⟨t, rest ++ u, by simp [rhs], .inr ⟨p, mem, rfl, ?_⟩⟩
    rw [Production.first?, rhs, List.head?_cons]
  | cons b before =>
    obtain ⟨rfl, _⟩ := List.cons.inj form
    exact ⟨s, _, rfl, .inl rfl⟩

theorem Step.eq_rhs (h : Step ps [v] w) : ∃ p ∈ ps, p.lhs = v ∧ p.rhs = w := by
  generalize form : [v] = u at h
  obtain ⟨mem, before, after⟩ := h
  cases before with
  | nil =>
    obtain ⟨rfl, rfl⟩ := List.cons.inj form
    exact ⟨_, mem, rfl, by simp⟩
  | cons b before => simp at form

theorem derivesIn_nil_iff : DerivesIn ps n [] w ↔ n = 0 ∧ w = [] := by
  constructor
  · intro h
    cases h with
    | refl => exact ⟨rfl, rfl⟩
    | head first _ =>
      generalize form : [] = u at first
      obtain ⟨_, before, after⟩ := first
      cases before <;> cases form
  · rintro ⟨rfl, rfl⟩
    exact .refl []

theorem mem_vars_of_leads (way : Relation.ReflTransGen ps.LeadsTo s v) (isVar : v ∈ ps.vars) :
    s ∈ ps.vars := by
  rcases way.cases_head with rfl | ⟨_, link, _⟩
  · exact isVar
  · exact link.mem_vars

section Lasting

variable (lastingRhs : ∀ p ∈ ps, ∀ s ∈ p.rhs, ¬ Derives ps [s] [])

include lastingRhs

theorem Step.lasting (h : Step ps u w) (lasting : ∀ t ∈ u, ¬ Derives ps [t] []) :
    ∀ t ∈ w, ¬ Derives ps [t] [] := by
  obtain ⟨mem, before, after⟩ := h
  intro t ht
  simp only [List.mem_append] at ht
  rcases ht with (ht | ht) | ht
  · exact lasting t (List.mem_append_left _ ht)
  · exact lastingRhs _ mem t ht
  · exact lasting t (List.mem_append_right before (List.mem_cons_of_mem _ ht))

theorem DerivesIn.leads (h : DerivesIn ps n (s :: u) (v :: w)) (isVar : v ∈ ps.vars)
    (lasting : ∀ t ∈ s :: u, ¬ Derives ps [t] []) : Relation.ReflTransGen ps.LeadsTo s v := by
  induction n generalizing s u with
  | zero =>
    cases h
    exact .refl
  | succ n ih =>
    cases h with
    | head first rest =>
      have kept := first.lasting lastingRhs lasting
      obtain ⟨t, x, rfl, origin⟩ := first.exists_cons lasting
      have way := ih rest kept
      rcases origin with rfl | ⟨p, mem, lhs, starts⟩
      · exact way
      · have link := leadsTo_iff.2 ⟨mem_vars_of_leads way isVar, p, mem, lhs, starts⟩
        exact .head link way

theorem transGen_of_derivesProperly (h : DerivesProperly ps [v] (t :: w)) (isVar : t ∈ ps.vars) :
    Relation.TransGen ps.LeadsTo v t := by
  obtain ⟨n, derived⟩ := h
  cases derived with
  | head first rest =>
    obtain ⟨p, mem, rfl, rfl⟩ := first.eq_rhs
    cases rhs : p.rhs with
    | nil =>
      rw [rhs] at rest
      cases (derivesIn_nil_iff.1 rest).2
    | cons s u =>
      rw [rhs] at rest
      have way := rest.leads lastingRhs isVar (rhs ▸ lastingRhs p mem)
      have starts : p.first? = some s := by rw [Production.first?, rhs, List.head?_cons]
      exact .head' (leadsTo_iff.2 ⟨mem_vars_of_leads way isVar, p, mem, rfl, starts⟩) way

/--
The variables that lead to one another are those that derive forms beginning with one another.
-/
theorem transGen_leadsTo_iff (isVar : t ∈ ps.vars) :
    Relation.TransGen ps.LeadsTo v t ↔ ∃ x, DerivesProperly ps [v] (t :: x) := by
  constructor
  · exact exists_derivesProperly
  · rintro ⟨x, derived⟩
    exact transGen_of_derivesProperly lastingRhs derived isVar

end Lasting

end Derivations

end Productions

namespace Grammar

open Productions

/--
A search for a way back comes to an end from every variable, and has the right answer. The grammar
is left recursive just if there is a way back from some variable; and where no symbol on a right-hand
side derives the empty word, just if some variable derives a form that begins with it.
-/
theorem isLeftRecursive_exact (g : Grammar) :
    (∀ v ∈ g.vars, ∃ answer, g.productions.leadsBack? v (g.vars.size + 1) = some answer ∧
      (answer = true ↔ Relation.TransGen g.productions.LeadsTo v v)) ∧
      (g.isLeftRecursive = true ↔ ∃ v, Relation.TransGen g.productions.LeadsTo v v) ∧
      ((∀ p ∈ g.productions, ∀ s ∈ p.rhs, ¬ g.productions.Derives [s] []) →
        (g.isLeftRecursive = true ↔
          ∃ v ∈ g.vars, ∃ x, g.productions.DerivesProperly [v] (v :: x))) := by
  refine ⟨fun v => exists_leadsBack?, isLeftRecursive_iff_cycle, fun lasting => ?_⟩
  apply isLeftRecursive_iff_cycle.trans
  constructor
  · rintro ⟨v, cycle⟩
    exact ⟨v, mem_vars_of_transGen cycle, exists_derivesProperly cycle⟩
  · rintro ⟨v, isVar, derived⟩
    exact ⟨v, (transGen_leadsTo_iff lasting isVar).2 derived⟩

/--
A variable leads back to itself through another one. Nothing is erased but the start variable, which
occurs on no right-hand side.
-/
def detour : Grammar :=
  ofProductions ⟨"S"⟩
    [.ofNames "S" ["A"], .ofNames "S" [], .ofNames "A" ["B", "a"], .ofNames "B" ["A", "b"],
      .ofNames "B" ["c"]]

theorem isLeftRecursive_exact_detour :
    (∀ p ∈ detour.productions, ∀ s ∈ p.rhs, ¬ detour.productions.Derives [s] []) ∧
      detour.productions.leadsBack? ⟨"A"⟩ 4 = some true ∧
      Relation.TransGen detour.productions.LeadsTo ⟨"A"⟩ ⟨"A"⟩ ∧
      detour.isLeftRecursive = true ∧
      ∃ v ∈ detour.vars, ∃ x, detour.productions.DerivesProperly [v] (v :: x) := by
  obtain ⟨search, _, derivations⟩ := isLeftRecursive_exact detour
  have lasting : ∀ p ∈ detour.productions, ∀ s ∈ p.rhs, ¬ detour.productions.Derives [s] [] := by
    have kept : ∀ p ∈ detour.productions.toList, ∀ s ∈ p.rhs, ¬ s ∈ detour.nullable := by decide
    intro p mem s occurs erased
    exact kept p mem s occurs (mem_nullable_iff_derives.2 erased)
  have found : detour.productions.leadsBack? ⟨"A"⟩ 4 = some true := by decide
  have recursive : detour.isLeftRecursive = true := by decide
  obtain ⟨answer, same, back⟩ := search ⟨"A"⟩ (by decide)
  obtain rfl := Option.some.inj (found.symm.trans same)
  exact ⟨lasting, found, back.1 rfl, recursive, (derivations lasting).1 recursive⟩

end Grammar

end ContextFree
