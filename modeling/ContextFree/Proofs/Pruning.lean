import ContextFree.Grammar.Reachable
import ContextFree.Proofs.Spelling

/-!
This module contains what pruning does to the words of a grammar. What is needed for the start
variable keeps its words, and a grammar in which all of that is productive can always be pruned.

Words are those for a given set of variables, which may be larger than that of the left-hand sides:
productions that have just been rewritten may have lost all those of a variable.
-/

namespace ContextFree

namespace Productions

/--
All productions are of variables in the set, and a variable in the set that occurs has one.
-/
structure Complete (ps : Productions) (vars : OrderedSet Symbol) : Prop where
  lhs : ∀ v ∈ ps.vars, v ∈ vars
  occurring : ∀ v ∈ vars, ¬ v ∈ ps.terminals

/--
Every variable that is needed for `start` derives a word of terminals.
-/
def Productive (ps : Productions) (vars : OrderedSet Symbol) (start : Symbol) : Prop :=
  ∀ v, ps.Needs start v → v ∈ vars → ∃ w, Spells ps vars [v] w

variable {ps ps' : Productions} {vars : OrderedSet Symbol} {u w : List Symbol} {v s t : Symbol}

theorem Needs.occurs {p : Production} (lhs : ps.Needs v p.lhs) (mem : p ∈ ps) (hs : s ∈ p.rhs) :
    ps.Needs v s := by
  cases loop : p.isSelfLoop with
  | true =>
    rw [Production.isSelfLoop_iff.1 loop, List.mem_singleton] at hs
    rw [hs]
    exact lhs
  | false => exact .step lhs mem loop hs

theorem Needs.trans (h : ps.Needs v s) (h' : ps.Needs s t) : ps.Needs v t := by
  induction h' with
  | refl => exact h
  | step _ mem proper occurs ih => exact .step ih mem proper occurs

theorem Needs.mono (h : ps.Needs v s) (sub : ∀ p ∈ ps, p ∈ ps') : ps'.Needs v s := by
  induction h with
  | refl => exact .refl
  | step _ mem proper occurs ih => exact .step ih (sub _ mem) proper occurs

theorem Needs.eq_or_mem_symbols (h : ps.Needs v s) : s = v ∨ s ∈ ps.symbols := by
  cases h with
  | refl => exact .inl rfl
  | step _ mem _ occurs => exact .inr (rhs_mem_symbols mem occurs)

theorem Needs.eq_or_mem_vars (h : ps.Needs v s) : s = v ∨ v ∈ ps.vars := by
  induction h with
  | refl => exact .inl rfl
  | step _ mem _ _ ih =>
    refine .inr (ih.elim ?_ id)
    rintro rfl
    exact lhs_mem_vars mem

theorem Step.needs (h : Step ps u w) (hs : s ∈ w) : ∃ t ∈ u, ps.Needs t s := by
  obtain ⟨mem, before, after⟩ := h
  rcases List.mem_append.1 hs with hs | hs
  · rcases List.mem_append.1 hs with hs | hs
    · exact ⟨s, List.mem_append_left _ hs, .refl⟩
    · exact ⟨_, List.mem_append_right before List.mem_cons_self, Needs.refl.occurs mem hs⟩
  · exact ⟨s, List.mem_append_right before (List.mem_cons_of_mem _ hs), .refl⟩

theorem DerivesIn.needs {n : Nat} (h : DerivesIn ps n u w) (hs : s ∈ w) :
    ∃ t ∈ u, ps.Needs t s := by
  induction h with
  | refl => exact ⟨s, hs, .refl⟩
  | head first _ ih =>
    obtain ⟨t, ht, later⟩ := ih hs
    obtain ⟨r, hr, sooner⟩ := first.needs ht
    exact ⟨r, hr, sooner.trans later⟩

/--
What is needed for a variable is what turns up in its derivations.
-/
theorem needs_iff_derives : ps.Needs v s ↔ ∃ u, Derives ps [v] u ∧ s ∈ u := by
  constructor
  · intro h
    induction h with
    | refl => exact ⟨[v], .refl [v], List.mem_cons_self⟩
    | step _ mem _ occurs ih =>
      obtain ⟨u, derived, hs⟩ := ih
      obtain ⟨before, after, rfl⟩ := List.append_of_mem hs
      have further : Derives ps (before ++ _) (before ++ _) :=
        Derives.append (.refl before) (Derives.append (.of_mem mem) (.refl after))
      refine ⟨_, derived.trans further, ?_⟩
      exact List.mem_append_right before (List.mem_append_left after occurs)
  · rintro ⟨u, ⟨n, derived⟩, hs⟩
    obtain ⟨t, ht, needed⟩ := derived.needs hs
    rw [← List.mem_singleton.1 ht]
    exact needed

theorem Complete.mem_vars (h : ps.Complete vars) {p : Production} (mem : p ∈ ps) {s : Symbol}
    (hs : s ∈ p.rhs) (isVar : s ∈ vars) : s ∈ ps.vars := by
  apply Classical.byContradiction
  intro notVar
  exact h.occurring s isVar (mem_terminals.2 ⟨rhs_mem_symbols mem hs, notVar⟩)

theorem Complete.spells_iff (h : ps.Complete vars) (form : ∀ s ∈ u, s ∈ vars → s ∈ ps.vars) :
    Spells ps ps.vars u w ↔ Spells ps vars u w := by
  constructor
  · intro spelled
    apply spelled.change_vars form
    intro p mem s hs isVar
    exact h.mem_vars mem hs isVar
  · intro spelled
    exact spelled.change_vars (fun s _ => h.lhs s) (fun _ _ s _ => h.lhs s)

end Productions

namespace Grammar

variable {g r : Grammar} {vars : OrderedSet Symbol} {u w : List Symbol} {v : Symbol}

/--
Every variable that is needed for the start variable derives a word of terminals.
-/
def Productive (g : Grammar) : Prop :=
  ∀ v, g.productions.Needs g.start v → v ∈ g.vars → ∃ w, g.Yields v w

theorem productive_iff : g.Productive ↔ g.productions.Productive g.vars g.start := by
  refine forall_congr' fun v => imp_congr_right fun _ => forall_congr' fun isVar => ?_
  refine exists_congr fun w => ?_
  rw [yields_iff, and_iff_right isVar]

theorem Productive.exists_spells (h : g.Productive) {s : Symbol}
    (needed : g.productions.Needs g.start s) : ∃ w, g.productions.Spells g.vars [s] w := by
  by_cases isVar : s ∈ g.vars
  · obtain ⟨w, yields⟩ := h s needed isVar
    exact ⟨w, (yields_iff.1 yields).2⟩
  · exact ⟨[s], .singleton isVar⟩

theorem yields_iff_of_complete (h : g.productions.Complete vars) :
    g.Yields v w ↔ v ∈ g.vars ∧ g.productions.Spells vars [v] w := by
  rw [yields_iff]
  refine and_congr_right fun isVar => h.spells_iff ?_
  intro s hs _
  rw [List.mem_singleton.1 hs]
  exact isVar

theorem productive_of_complete (complete : g.productions.Complete vars)
    (productive : g.productions.Productive vars g.start) : g.Productive := by
  intro v needed isVar
  obtain ⟨w, spelled⟩ := productive v needed (complete.lhs v isVar)
  exact ⟨w, (yields_iff_of_complete complete).2 ⟨isVar, spelled⟩⟩

@[simp]
theorem mem_useful {p : Production} :
    p ∈ g.useful ↔
      p ∈ g.productions ∧ g.productions.Needs g.start p.lhs ∧ p.isSelfLoop = false := by
  simp [useful, Productions.mem_reachable_iff]

theorem needs_useful_iff : g.useful.Needs g.start v ↔ g.productions.Needs g.start v := by
  constructor
  · intro h
    induction h with
    | refl => exact .refl
    | step _ mem proper occurs ih => exact .step ih (mem_useful.1 mem).1 proper occurs
  · intro h
    induction h with
    | refl => exact .refl
    | step lhs mem proper occurs ih =>
      exact .step ih (mem_useful.2 ⟨mem, lhs, proper⟩) proper occurs

theorem spells_useful_iff (needed : ∀ s ∈ u, g.productions.Needs g.start s) :
    g.useful.Spells vars u w ↔ g.productions.Spells vars u w := by
  constructor
  · intro h
    exact h.mono fun p mem => (mem_useful.1 mem).1
  · intro h
    have reads : Productions.Reads
        (fun s w => g.productions.Needs g.start s → g.useful.Spells vars [s] w) u w := by
      apply h.reads
      · intro s terminal _
        exact .singleton terminal
      · intro p mem v inner lhs
        cases loop : p.isSelfLoop with
        | true =>
          -- what the production derives is derived without it
          rw [Production.isSelfLoop_iff.1 loop, Productions.reads_singleton_iff] at inner
          exact inner lhs
        | false =>
          refine .of_mem (mem_useful.2 ⟨mem, lhs, loop⟩) (.of_reads inner ?_)
          intro s hs v spelled
          exact spelled (.step lhs mem loop hs)
    refine .of_reads reads ?_
    intro s hs v spelled
    exact spelled (needed s hs)

theorem spells_var_useful_iff (needed : g.productions.Needs g.start v) :
    g.useful.Spells vars [v] w ↔ g.productions.Spells vars [v] w := by
  apply spells_useful_iff
  intro s hs
  rw [List.mem_singleton.1 hs]
  exact needed

theorem mem_vars_useful (needed : g.productions.Needs g.start v) (isVar : v ∈ vars)
    (h : g.productions.Spells vars [v] w) : v ∈ g.useful.vars := by
  have spelled := (spells_var_useful_iff needed).2 h
  obtain ⟨p, mem, lhs, _⟩ := (Productions.spells_var_iff isVar).1 spelled
  exact Productions.mem_vars.2 ⟨p, mem, lhs⟩

theorem needs_of_mem_vars_useful (h : v ∈ g.useful.vars) : g.productions.Needs g.start v := by
  obtain ⟨p, mem, rfl⟩ := Productions.mem_vars.1 h
  exact (mem_useful.1 mem).2.1

theorem needs_of_mem_symbols_useful (h : v ∈ g.useful.symbols) :
    g.useful.Needs g.start v := by
  obtain ⟨p, mem, occurs⟩ := Productions.mem_symbols.1 h
  obtain ⟨_, lhs, proper⟩ := mem_useful.1 mem
  rcases occurs with rfl | occurs
  · exact needs_useful_iff.2 lhs
  · exact .step (needs_useful_iff.2 lhs) mem proper occurs

/--
Every symbol is needed for the start variable.
-/
def Trim (g : Grammar) : Prop :=
  ∀ s ∈ g.symbols, g.productions.Needs g.start s

theorem trim_useful : (Grammar.mk g.start g.useful).Trim := by
  intro s hs
  exact needs_of_mem_symbols_useful hs

theorem Trim.start_mem_vars (h : g.Trim) (nonempty : v ∈ g.vars) : g.start ∈ g.vars := by
  obtain ⟨p, mem, rfl⟩ := mem_vars.1 nonempty
  rcases (h p.lhs (Productions.lhs_mem_symbols mem)).eq_or_mem_vars with same | isVar
  · exact same ▸ nonempty
  · exact isVar

/--
A variable that is left without productions has had no words. The start variable is none of these:
nothing is left with it.
-/
theorem lost_of_mem_terminals_useful (isVar : v ∈ vars) (h : v ∈ g.useful.terminals) :
    g.productions.Needs g.start v ∧ v ≠ g.start ∧ ∀ w, ¬ g.productions.Spells vars [v] w := by
  obtain ⟨occurs, notVar⟩ := Productions.mem_terminals.1 h
  have needed := needs_useful_iff.1 (needs_of_mem_symbols_useful occurs)
  refine ⟨needed, ?_, fun w spelled => notVar (mem_vars_useful needed isVar spelled)⟩
  rintro rfl
  obtain ⟨p, mem, _⟩ := Productions.mem_symbols.1 occurs
  exact notVar (trim_useful.start_mem_vars (Productions.lhs_mem_vars mem))

theorem prune_eq_ok_iff :
    g.prune = .ok r ↔ r = ⟨g.start, g.useful⟩ ∧ ∀ v ∈ g.vars, ¬ v ∈ r.terminals := by
  unfold prune
  rw [checkedAgainst_eq_ok_iff]
  constructor
  · rintro ⟨rfl, checked⟩
    exact ⟨rfl, checked⟩
  · rintro ⟨rfl, checked⟩
    exact ⟨rfl, checked⟩

theorem trim_of_prune (h : g.prune = .ok r) : r.Trim := by
  obtain ⟨rfl, _⟩ := prune_eq_ok_iff.1 h
  exact trim_useful

theorem yields_useful_iff (complete : g.useful.Complete vars)
    (needed : g.productions.Needs g.start v) (isVar : v ∈ vars) :
    (Grammar.mk g.start g.useful).Yields v w ↔ g.productions.Spells vars [v] w := by
  rw [yields_iff_of_complete (g := ⟨g.start, g.useful⟩) complete, ← spells_var_useful_iff needed]
  constructor
  · rintro ⟨_, spelled⟩
    exact spelled
  · intro spelled
    exact ⟨mem_vars_useful needed isVar ((spells_var_useful_iff needed).1 spelled), spelled⟩

theorem generates_useful_iff (complete : g.useful.Complete vars) (isVar : g.start ∈ vars) :
    (Grammar.mk g.start g.useful).Generates w ↔ g.productions.Spells vars [g.start] w :=
  yields_useful_iff complete .refl isVar

theorem vars_useful_subset (h : v ∈ g.useful.vars) : v ∈ g.vars :=
  Productions.mem_vars_mono (fun _ mem => (mem_useful.1 mem).1) h

theorem complete_of_prune (h : g.prune = .ok r) : r.productions.Complete g.vars := by
  obtain ⟨rfl, checked⟩ := prune_eq_ok_iff.1 h
  exact ⟨fun v hv => vars_useful_subset hv, checked⟩

theorem yields_prune_iff (h : g.prune = .ok r) (needed : g.productions.Needs g.start v) :
    r.Yields v w ↔ g.Yields v w := by
  have complete := complete_of_prune h
  obtain ⟨rfl, _⟩ := prune_eq_ok_iff.1 h
  by_cases isVar : v ∈ g.vars
  · rw [yields_useful_iff complete needed isVar, yields_iff, and_iff_right isVar]
  · constructor
    · intro yields
      exact absurd (complete.lhs v (yields_iff.1 yields).1) isVar
    · intro yields
      exact absurd (yields_iff.1 yields).1 isVar

theorem generates_prune_iff (h : g.prune = .ok r) : r.Generates w ↔ g.Generates w := by
  have same : r.start = g.start := by
    obtain ⟨rfl, _⟩ := prune_eq_ok_iff.1 h
    rfl
  rw [Generates, same]
  exact yields_prune_iff h .refl

theorem complete_useful_of_productive (isVars : ∀ v ∈ g.vars, v ∈ vars)
    (productive : g.productions.Productive vars g.start) : g.useful.Complete vars := by
  constructor
  · intro v hv
    exact isVars v (vars_useful_subset hv)
  · intro v isVar terminal
    obtain ⟨occurs, notVar⟩ := Productions.mem_terminals.1 terminal
    have needed := needs_useful_iff.1 (needs_of_mem_symbols_useful occurs)
    obtain ⟨w, spelled⟩ := productive v needed isVar
    exact notVar (mem_vars_useful needed isVar spelled)

theorem productive_useful (productive : g.productions.Productive vars g.start) :
    g.useful.Productive vars g.start := by
  intro v needed isVar
  have needed := needs_useful_iff.1 needed
  obtain ⟨w, spelled⟩ := productive v needed isVar
  exact ⟨w, (spells_var_useful_iff needed).2 spelled⟩

theorem prune_of_productive (isVars : ∀ v ∈ g.vars, v ∈ vars)
    (productive : g.productions.Productive vars g.start) :
    g.prune = .ok ⟨g.start, g.useful⟩ := by
  have complete := complete_useful_of_productive isVars productive
  exact prune_eq_ok_iff.2 ⟨rfl, fun v hv => complete.occurring v (isVars v hv)⟩

theorem Productive.prune (h : g.Productive) : ∃ r, g.prune = .ok r ∧ r.Productive := by
  have productive := productive_iff.1 h
  have complete := complete_useful_of_productive (fun v hv => hv) productive
  refine ⟨_, prune_of_productive (fun v hv => hv) productive, ?_⟩
  exact productive_of_complete (g := ⟨g.start, g.useful⟩) complete (productive_useful productive)

end Grammar

end ContextFree
