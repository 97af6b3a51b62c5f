import ContextFree.Proofs.DirectRecursion
import ContextFree.Proofs.LeadingSubstitution

/-!
This module contains what happens to the productions of a variable before its direct left recursion
is turned to the right: leading variables that have been treated are unfolded one after another, in
the order in which they were treated. They lead on to later ones only, so that afterwards none of
them leads a production any more.
-/

namespace ContextFree

theorem idxOf_lt_of_append {α : Type} [DecidableEq α] {l m : List α} {a b : α} (ha : a ∈ l)
    (hb : ¬ b ∈ l) : (l ++ m).idxOf a < (l ++ m).idxOf b := by
  rw [List.idxOf_append, List.idxOf_append, if_pos ha, if_neg hb]
  have := List.idxOf_lt_length_of_mem ha
  omega

namespace Productions

/--
What the productions are made of while `base` is being untangled: left-hand sides are variables or
auxiliary ones, right-hand sides are not empty, and there are no new symbols but the auxiliary ones.
-/
structure MadeOf (base : Productions) (vars : OrderedSet Symbol) (auxs : List Symbol)
    (ps : Productions) : Prop where
  lhs : ∀ p ∈ ps, p.lhs ∈ vars ∨ p.lhs ∈ auxs
  rhs : ∀ p ∈ ps, ∀ s ∈ p.rhs, s ∈ auxs ∨ ∃ q ∈ base, s ∈ q.rhs
  nonempty : ∀ p ∈ ps, p.rhs ≠ []

/--
The leading symbols of treated variables come later in the order, those of auxiliary variables are
no auxiliary variables but earlier ones, and the other variables have their original productions.
-/
structure Ordered (base : Productions) (order treated auxs : List Symbol) (ps : Productions) :
    Prop where
  untreated : ∀ p : Production, ¬ p.lhs ∈ treated → ¬ p.lhs ∈ auxs → (p ∈ ps ↔ p ∈ base)
  treated : ∀ p ∈ ps, p.lhs ∈ treated → ∀ s, p.first? = some s →
    ¬ s ∈ auxs ∧ (s ∈ order → order.idxOf p.lhs < order.idxOf s)
  auxiliary : ∀ p ∈ ps, p.lhs ∈ auxs → ∀ s ∈ auxs, p.first? = some s →
    auxs.idxOf s < auxs.idxOf p.lhs

/--
The productions of `v` are being rewritten so that they start with none of the variables in `done`.
-/
structure Unfolding (base : Productions) (vars : OrderedSet Symbol) (auxs : List Symbol)
    (ps : Productions) (v : Symbol) (done : List Symbol) (ps' : Productions) : Prop where
  others : ∀ q : Production, q.lhs ≠ v → (q ∈ ps' ↔ q ∈ ps)
  first : ∀ q ∈ ps', q.lhs = v → ∀ s, q.first? = some s → ¬ s ∈ auxs ∧ ¬ s ∈ done
  madeOf : MadeOf base vars auxs ps'
  words : ∀ all : OrderedSet Symbol, (∀ s ∈ vars, s ∈ all) → ∀ u w,
    Spells ps' all u w ↔ Spells ps all u w

variable {base ps ps' : Productions} {vars : OrderedSet Symbol}
  {order treated rest auxs done more : List Symbol} {v w : Symbol} {q : Production}

theorem mem_unfoldLeading_of_ne (mem : q ∈ ps) (h : ¬ (q.lhs = v ∧ q.first? = some w)) :
    q ∈ ps.unfoldLeading v w := by
  apply mem_substituteLeading_of_kept mem
  intro selected
  exact absurd (of_decide_eq_true selected) h

theorem mem_unfoldLeading_of_mem {u : List Symbol} (mem : ⟨v, w :: rest⟩ ∈ ps)
    (alternative : ⟨w, u⟩ ∈ ps) : ⟨v, u ++ rest⟩ ∈ ps.unfoldLeading v w :=
  mem_substituteLeading_of_selected mem (decide_eq_true ⟨rfl, rfl⟩) rfl alternative rfl

theorem mem_unfoldLeading_cases (h : q ∈ ps.unfoldLeading v w) :
    q ∈ ps ∧ (q.lhs = v → q.first? ≠ some w) ∨
      ∃ rest a, ⟨v, w :: rest⟩ ∈ ps ∧ ⟨w, a⟩ ∈ ps ∧ q = ⟨v, a ++ rest⟩ := by
  rcases mem_substituteLeading_cases h with
    ⟨mem, unselected⟩ | ⟨⟨lhs, rhs⟩, mem, ⟨lhs', a⟩, alternative, rest, selected, rfl, rfl⟩
  · refine .inl ⟨mem, fun lhs starts => ?_⟩
    have empty := unselected (decide_eq_true ⟨lhs, starts⟩)
    rw [Production.first?, empty] at starts
    cases starts
  · obtain ⟨rfl, starts⟩ := of_decide_eq_true selected
    obtain rfl := Option.some.inj starts
    exact .inr ⟨rest, a, mem, alternative, rfl⟩

theorem MadeOf.subset (h : MadeOf base vars auxs ps) (sub : ∀ p ∈ ps', p ∈ ps) :
    MadeOf base vars auxs ps' :=
  ⟨fun p mem => h.lhs p (sub p mem), fun p mem => h.rhs p (sub p mem),
    fun p mem => h.nonempty p (sub p mem)⟩

theorem MadeOf.unfoldLeading (h : MadeOf base vars auxs ps) :
    MadeOf base vars auxs (ps.unfoldLeading v w) := by
  constructor
  · intro q mem
    rcases mem_unfoldLeading_cases mem with ⟨old, _⟩ | ⟨rest, a, old, _, rfl⟩
    · exact h.lhs q old
    · exact h.lhs ⟨v, w :: rest⟩ old
  · intro q mem s occurs
    rcases mem_unfoldLeading_cases mem with ⟨old, _⟩ | ⟨rest, a, old, alternative, rfl⟩
    · exact h.rhs q old s occurs
    · rcases List.mem_append.1 occurs with occurs | occurs
      · exact h.rhs _ alternative s occurs
      · exact h.rhs _ old s (List.mem_cons_of_mem w occurs)
  · intro q mem
    rcases mem_unfoldLeading_cases mem with ⟨old, _⟩ | ⟨rest, a, _, alternative, rfl⟩
    · exact h.nonempty q old
    · exact List.append_ne_nil_of_left_ne_nil (h.nonempty _ alternative) rest

theorem spells_unfoldLeading_iff {all : OrderedSet Symbol} (isVar : w ∈ all) {u x : List Symbol} :
    Spells (ps.unfoldLeading v w) all u x ↔ Spells ps all u x := by
  apply spells_substituteLeading_iff
  intro p _ selected
  obtain ⟨_, starts⟩ := of_decide_eq_true selected
  exact ⟨w, isVar, starts⟩

theorem Unfolding.step (h : Unfolding base vars auxs ps v done ps') (ne : w ≠ v) (isVar : w ∈ vars)
    (later : ∀ a, ⟨w, a⟩ ∈ ps → ∀ s, a.head? = some s → ¬ s ∈ auxs ∧ ¬ s ∈ done ++ [w]) :
    Unfolding base vars auxs ps v (done ++ [w]) (ps'.unfoldLeading v w) := by
  constructor
  · intro q lhs
    rw [← h.others q lhs]
    constructor
    · intro mem
      rcases mem_unfoldLeading_cases mem with ⟨mem, _⟩ | ⟨rest, a, _, _, rfl⟩
      · exact mem
      · exact absurd rfl lhs
    · intro mem
      exact mem_unfoldLeading_of_ne mem fun selected => lhs selected.1
  · intro q mem lhs s starts
    rcases mem_unfoldLeading_cases mem with ⟨mem, unselected⟩ | ⟨rest, a, _, alternative, rfl⟩
    · obtain ⟨notAux, notDone⟩ := h.first q mem lhs s starts
      refine ⟨notAux, ?_⟩
      rw [List.mem_append, List.mem_singleton, not_or]
      refine ⟨notDone, ?_⟩
      rintro rfl
      exact unselected lhs starts
    · -- what `w` is replaced by leads on to later variables only, so none of `done` comes back
      apply later a ((h.others _ ne).1 alternative) s
      obtain ⟨t, rest', rfl⟩ := List.exists_cons_of_ne_nil (h.madeOf.nonempty _ alternative)
      exact starts
  · exact h.madeOf.unfoldLeading
  · intro all sub u x
    rw [spells_unfoldLeading_iff (sub w isVar), h.words all sub]

theorem Ordered.leads_past (ordered : Ordered base (done ++ w :: more) treated auxs ps)
    (mem : w ∈ treated) (notDone : ¬ w ∈ done) {a : List Symbol} (alternative : ⟨w, a⟩ ∈ ps)
    {s : Symbol} (starts : a.head? = some s) : ¬ s ∈ auxs ∧ ¬ s ∈ done ++ [w] := by
  obtain ⟨notAux, after⟩ := ordered.treated _ alternative mem s starts
  refine ⟨notAux, ?_⟩
  intro hs
  have after := after (by
    rw [List.append_cons]
    exact List.mem_append_left more hs)
  rcases List.mem_append.1 hs with hs | hs
  · have before := idxOf_lt_of_append (m := w :: more) hs notDone
    exact Nat.lt_asymm before after
  · rw [List.mem_singleton.1 hs] at after
    exact Nat.lt_irrefl _ after

theorem Unfolding.run (h : Unfolding base vars auxs ps v done ps')
    (ordered : Ordered base (done ++ more ++ v :: rest) (done ++ more) auxs ps)
    (nodup : (done ++ more ++ v :: rest).Nodup) (isVars : ∀ w ∈ done ++ more, w ∈ vars) :
    Unfolding base vars auxs ps v (done ++ more) (more.foldl (unfoldLeading v) ps') := by
  induction more generalizing done ps' with
  | nil =>
    rw [List.append_nil]
    exact h
  | cons w more ih =>
    have mem : w ∈ done ++ w :: more := List.mem_append_right done List.mem_cons_self
    obtain ⟨nodupTreated, _, apart⟩ := List.nodup_append.1 nodup
    have ne : w ≠ v := apart w mem v List.mem_cons_self
    have notDone : ¬ w ∈ done := fun hw =>
      (List.nodup_append.1 nodupTreated).2.2 w hw w List.mem_cons_self rfl
    have next : Unfolding base vars auxs ps v (done ++ [w]) (ps'.unfoldLeading v w) := by
      apply h.step ne (isVars w mem)
      intro a alternative s starts
      rw [List.append_assoc] at ordered
      exact ordered.leads_past mem notDone alternative starts
    have shift : done ++ w :: more = done ++ [w] ++ more := List.append_cons done w more
    rw [shift] at ordered nodup isVars ⊢
    exact ih next ordered nodup isVars

theorem Unfolding.withoutSelfLoops (h : Unfolding base vars auxs ps v done ps') :
    Unfolding base vars auxs ps v done (ps'.withoutSelfLoops v) := by
  constructor
  · intro q lhs
    rw [mem_withoutSelfLoops, h.others q lhs]
    exact and_iff_left fun loop => lhs loop.1
  · intro q mem
    exact h.first q (mem_withoutSelfLoops.1 mem).1
  · exact h.madeOf.subset fun p mem => (mem_withoutSelfLoops.1 mem).1
  · intro all sub u x
    rw [spells_withoutSelfLoops_iff, h.words all sub]

end Productions

end ContextFree
