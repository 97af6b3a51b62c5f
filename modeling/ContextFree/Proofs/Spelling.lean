import ContextFree.Grammar.Derivation
import ContextFree.Grammar.Lemmas

/-!
This module contains the derivation of words symbol by symbol. A derivation applies productions
anywhere and in any order; here each symbol of a form is spelled out on its own, so that proofs
follow the structure of a derivation tree. Both derive the same words, `yields_iff`.

The set of variables is a parameter: what counts as a variable while productions are being
rewritten does not change when one of them loses its last production.
-/

namespace ContextFree

namespace Productions

/--
The word is composed of one word for each symbol of the form.
-/
inductive Reads (words : Symbol → List Symbol → Prop) : List Symbol → List Symbol → Prop where
  | nil : Reads words [] []
  | cons {s : Symbol} {u v w : List Symbol} (head : words s v) (tail : Reads words u w) :
    Reads words (s :: u) (v ++ w)

/--
The form is turned into the word by productions, where symbols outside `vars` stand for themselves.
-/
inductive Spells (ps : Productions) (vars : OrderedSet Symbol) :
    List Symbol → List Symbol → Prop where
  | nil : Spells ps vars [] []
  | fixed {s : Symbol} {u w : List Symbol} (terminal : ¬ s ∈ vars) (rest : Spells ps vars u w) :
    Spells ps vars (s :: u) (s :: w)
  | replace {p : Production} {u v w : List Symbol} (mem : p ∈ ps)
    (inner : Spells ps vars p.rhs v) (rest : Spells ps vars u w) :
    Spells ps vars (p.lhs :: u) (v ++ w)

section Reads

variable {words words' : Symbol → List Symbol → Prop} {u v w x : List Symbol} {s : Symbol}

@[simp]
theorem reads_nil_iff : Reads words [] w ↔ w = [] := by
  constructor
  · intro h
    cases h
    rfl
  · rintro rfl
    exact .nil

theorem reads_cons_iff :
    Reads words (s :: u) w ↔ ∃ v x, w = v ++ x ∧ words s v ∧ Reads words u x := by
  constructor
  · intro h
    cases h with
    | cons head tail => exact ⟨_, _, rfl, head, tail⟩
  · rintro ⟨v, x, rfl, head, tail⟩
    exact .cons head tail

@[simp]
theorem reads_singleton_iff : Reads words [s] w ↔ words s w := by
  rw [reads_cons_iff]
  constructor
  · rintro ⟨v, x, rfl, head, tail⟩
    rw [reads_nil_iff.1 tail, List.append_nil]
    exact head
  · intro h
    exact ⟨w, [], (List.append_nil w).symm, h, .nil⟩

theorem Reads.append (h : Reads words u w) (h' : Reads words v x) :
    Reads words (u ++ v) (w ++ x) := by
  induction h with
  | nil => exact h'
  | cons head _ ih =>
    rw [List.append_assoc]
    exact .cons head ih

theorem reads_append_iff :
    Reads words (u ++ v) w ↔ ∃ x y, w = x ++ y ∧ Reads words u x ∧ Reads words v y := by
  constructor
  · intro h
    induction u generalizing w with
    | nil => exact ⟨[], w, rfl, .nil, h⟩
    | cons s u ih =>
      obtain ⟨a, b, rfl, head, tail⟩ := reads_cons_iff.1 h
      obtain ⟨x, y, rfl, left, right⟩ := ih tail
      exact ⟨a ++ x, y, (List.append_assoc a x y).symm, .cons head left, right⟩
  · rintro ⟨x, y, rfl, left, right⟩
    exact left.append right

theorem Reads.mono (h : Reads words u w) (sub : ∀ s ∈ u, ∀ v, words s v → words' s v) :
    Reads words' u w := by
  induction h with
  | nil => exact .nil
  | cons head _ ih =>
    refine .cons (sub _ List.mem_cons_self _ head) (ih ?_)
    intro s hs
    exact sub s (List.mem_cons_of_mem _ hs)

theorem Reads.forall_nil (h : Reads words u []) : ∀ s ∈ u, words s [] := by
  induction u with
  | nil =>
    intro s hs
    cases hs
  | cons t u ih =>
    obtain ⟨x, y, empty, head, tail⟩ := reads_cons_iff.1 h
    obtain ⟨rfl, rfl⟩ := List.append_eq_nil_iff.1 empty.symm
    intro s hs
    rcases List.mem_cons.1 hs with rfl | hs
    · exact head
    · exact ih tail s hs

theorem reads_nil_of_forall (h : ∀ s ∈ u, words s []) : Reads words u [] := by
  induction u with
  | nil => exact .nil
  | cons s u ih =>
    have tail := ih fun t ht => h t (List.mem_cons_of_mem s ht)
    exact .cons (h s List.mem_cons_self) tail

theorem Reads.eq_nil (h : Reads words u w) (empty : ∀ s ∈ u, ∀ v, words s v → v = []) :
    w = [] := by
  induction h with
  | nil => rfl
  | cons head _ ih =>
    rw [empty _ List.mem_cons_self _ head, List.nil_append]
    exact ih fun s hs => empty s (List.mem_cons_of_mem _ hs)

theorem exists_reads (h : ∀ s ∈ u, ∃ v, words s v) : ∃ w, Reads words u w := by
  induction u with
  | nil => exact ⟨[], .nil⟩
  | cons s u ih =>
    obtain ⟨v, head⟩ := h s List.mem_cons_self
    obtain ⟨w, tail⟩ := ih fun t ht => h t (List.mem_cons_of_mem s ht)
    exact ⟨v ++ w, .cons head tail⟩

theorem exists_reads_of_mem (h : ∀ s ∈ u, ∃ v, words s v) (mem : s ∈ u) (word : words s v) :
    ∃ w, Reads words u w ∧ (w = [] → v = []) := by
  obtain ⟨left, right, rfl⟩ := List.append_of_mem mem
  obtain ⟨x, before⟩ := exists_reads fun t ht => h t (List.mem_append_left _ ht)
  obtain ⟨y, after⟩ := exists_reads fun t ht =>
    h t (List.mem_append_right left (List.mem_cons_of_mem s ht))
  refine ⟨x ++ (v ++ y), before.append (.cons word after), ?_⟩
  intro empty
  exact (List.append_eq_nil_iff.1 (List.append_eq_nil_iff.1 empty).2).1

end Reads

section Spells

variable {ps ps' : Productions} {vars vars' : OrderedSet Symbol} {u v w x : List Symbol}
  {s : Symbol}

theorem Spells.append (h : Spells ps vars u w) (h' : Spells ps vars v x) :
    Spells ps vars (u ++ v) (w ++ x) := by
  induction h with
  | nil => exact h'
  | fixed terminal _ ih => exact .fixed terminal ih
  | replace mem inner _ _ ih =>
    rw [List.append_assoc]
    exact .replace mem inner ih

theorem Spells.of_mem (mem : ⟨s, u⟩ ∈ ps) (h : Spells ps vars u w) : Spells ps vars [s] w := by
  rw [← List.append_nil w]
  exact .replace mem h .nil

theorem Spells.singleton (terminal : ¬ s ∈ vars) : Spells ps vars [s] [s] :=
  .fixed terminal .nil

theorem spells_iff_reads :
    Spells ps vars u w ↔ Reads (fun s v => Spells ps vars [s] v) u w := by
  constructor
  · intro h
    induction h with
    | nil => exact .nil
    | fixed terminal _ ih => exact .cons (.singleton terminal) ih
    | replace mem inner _ _ ih => exact .cons (.of_mem mem inner) ih
  · intro h
    induction h with
    | nil => exact .nil
    | cons head _ ih => exact head.append ih

theorem Spells.of_reads {words : Symbol → List Symbol → Prop} (h : Reads words u w)
    (sub : ∀ s ∈ u, ∀ v, words s v → Spells ps vars [s] v) : Spells ps vars u w :=
  spells_iff_reads.2 (h.mono sub)

theorem spells_append_iff :
    Spells ps vars (u ++ v) w ↔
      ∃ x y, w = x ++ y ∧ Spells ps vars u x ∧ Spells ps vars v y := by
  simp only [spells_iff_reads (u := u ++ v), spells_iff_reads (u := u),
    spells_iff_reads (u := v), reads_append_iff]

theorem spells_cons_iff :
    Spells ps vars (s :: u) w ↔
      ∃ x y, w = x ++ y ∧ Spells ps vars [s] x ∧ Spells ps vars u y :=
  spells_append_iff (u := [s])

@[simp]
theorem spells_nil_iff : Spells ps vars [] w ↔ w = [] := by
  rw [spells_iff_reads, reads_nil_iff]

theorem spells_singleton_iff :
    Spells ps vars [s] w ↔
      ¬ s ∈ vars ∧ w = [s] ∨ ∃ p ∈ ps, p.lhs = s ∧ Spells ps vars p.rhs w := by
  constructor
  · intro h
    cases h with
    | fixed terminal rest =>
      rw [spells_nil_iff.1 rest]
      exact .inl ⟨terminal, rfl⟩
    | replace mem inner rest =>
      rw [spells_nil_iff.1 rest, List.append_nil]
      exact .inr ⟨_, mem, rfl, inner⟩
  · rintro (⟨terminal, rfl⟩ | ⟨p, mem, rfl, inner⟩)
    · exact .singleton terminal
    · exact .of_mem mem inner

theorem spells_var_iff (h : s ∈ vars) :
    Spells ps vars [s] w ↔ ∃ p ∈ ps, p.lhs = s ∧ Spells ps vars p.rhs w := by
  rw [spells_singleton_iff]
  exact ⟨fun h' => h'.resolve_left fun left => left.1 h, .inr⟩

/--
The words that the productions spell are the least ones that the productions are closed under: what
is closed under all productions has all of them.
-/
theorem Spells.reads {words : Symbol → List Symbol → Prop} (h : Spells ps vars u w)
    (fixed : ∀ s, ¬ s ∈ vars → words s [s])
    (closed : ∀ p ∈ ps, ∀ v, Reads words p.rhs v → words p.lhs v) : Reads words u w := by
  induction h with
  | nil => exact .nil
  | fixed terminal _ ih => exact .cons (fixed _ terminal) ih
  | replace mem _ _ inner ih => exact .cons (closed _ mem _ inner) ih

theorem Spells.of_closed (h : Spells ps vars u w)
    (fixed : ∀ s, ¬ s ∈ vars → Spells ps' vars' [s] [s])
    (closed : ∀ p ∈ ps, ∀ v, Spells ps' vars' p.rhs v → Spells ps' vars' [p.lhs] v) :
    Spells ps' vars' u w := by
  rw [spells_iff_reads]
  apply h.reads fixed
  intro p mem v inner
  exact closed p mem v (spells_iff_reads.2 inner)

theorem Spells.mono (h : Spells ps vars u w) (sub : ∀ p ∈ ps, p ∈ ps') :
    Spells ps' vars u w := by
  apply h.of_closed (fun _ => .singleton)
  intro p mem v inner
  exact .of_mem (sub p mem) inner

theorem Spells.not_mem_vars (h : Spells ps vars u w) : ∀ s ∈ w, ¬ s ∈ vars := by
  induction h with
  | nil =>
    intro s hs
    cases hs
  | fixed terminal _ ih =>
    intro s hs
    rcases List.mem_cons.1 hs with rfl | hs
    · exact terminal
    · exact ih s hs
  | replace _ _ _ inner ih =>
    intro s hs
    exact (List.mem_append.1 hs).elim (inner s) (ih s)

theorem Spells.change_vars (h : Spells ps vars u w) (form : ∀ s ∈ u, s ∈ vars' → s ∈ vars)
    (rhs : ∀ p ∈ ps, ∀ s ∈ p.rhs, s ∈ vars' → s ∈ vars) : Spells ps vars' u w := by
  induction h with
  | nil => exact .nil
  | fixed terminal _ ih =>
    refine .fixed (fun hs => terminal (form _ List.mem_cons_self hs)) (ih ?_)
    intro s hs
    exact form s (List.mem_cons_of_mem _ hs)
  | replace mem _ _ inner ih =>
    refine .replace mem (inner (rhs _ mem)) (ih ?_)
    intro s hs
    exact form s (List.mem_cons_of_mem _ hs)

theorem spells_congr_vars (same : ∀ s, s ∈ vars ↔ s ∈ vars') :
    Spells ps vars u w ↔ Spells ps vars' u w := by
  constructor
  · intro h
    exact h.change_vars (fun s _ => (same s).2) (fun _ _ s _ => (same s).2)
  · intro h
    exact h.change_vars (fun s _ => (same s).1) (fun _ _ s _ => (same s).1)

theorem spells_refl (h : ∀ s ∈ w, ¬ s ∈ vars) : Spells ps vars w w := by
  induction w with
  | nil => exact .nil
  | cons s w ih =>
    refine .fixed (h s List.mem_cons_self) (ih ?_)
    intro t ht
    exact h t (List.mem_cons_of_mem s ht)

theorem Spells.eq_of_terminals (h : Spells ps vars u w) (isVars : ∀ v ∈ ps.vars, v ∈ vars)
    (terminal : ∀ s ∈ u, ¬ s ∈ vars) : w = u := by
  induction h with
  | nil => rfl
  | fixed _ _ ih => rw [ih fun t ht => terminal t (List.mem_cons_of_mem _ ht)]
  | replace mem _ _ _ _ => exact absurd (isVars _ (lhs_mem_vars mem)) (terminal _ List.mem_cons_self)

theorem Spells.of_step (first : Step ps u v) (h : Spells ps vars v w) : Spells ps vars u w := by
  obtain ⟨mem, before, after⟩ := first
  obtain ⟨x, y, rfl, left, right⟩ := spells_append_iff.1 h
  obtain ⟨x, z, rfl, left, inner⟩ := spells_append_iff.1 left
  rw [List.append_assoc]
  exact left.append (.replace mem inner right)

theorem Spells.of_derivesIn {n : Nat} (h : DerivesIn ps n u w) (terminal : ∀ s ∈ w, ¬ s ∈ vars) :
    Spells ps vars u w := by
  induction h with
  | refl => exact spells_refl terminal
  | head first _ ih => exact .of_step first (ih terminal)

theorem Spells.derives (h : Spells ps vars u w) : Derives ps u w := by
  induction h with
  | nil => exact .refl []
  | fixed _ _ ih => exact Derives.append (.refl [_]) ih
  | replace mem _ _ inner ih => exact Derives.append ((Derives.of_mem mem).trans inner) ih

theorem derives_iff_spells (terminal : ∀ s ∈ w, ¬ s ∈ vars) :
    Derives ps u w ↔ Spells ps vars u w := by
  constructor
  · rintro ⟨n, h⟩
    exact .of_derivesIn h terminal
  · exact Spells.derives

theorem yields_iff :
    Yields ps vars s w ↔ ∃ p ∈ ps, p.lhs = s ∧ Spells ps vars p.rhs w := by
  constructor
  · rintro ⟨⟨n, h⟩, terminal⟩
    cases h with
    | head first rest =>
      generalize form : [s] = u at first
      obtain ⟨mem, before, after⟩ := first
      -- a form of one symbol leaves no room around the variable that is replaced
      cases before with
      | nil =>
        obtain ⟨rfl, rfl⟩ := List.cons.inj form
        refine ⟨_, mem, rfl, ?_⟩
        have spelled : Spells ps vars _ w := .of_derivesIn rest terminal
        simpa using spelled
      | cons b before => simp at form
  · rintro ⟨p, mem, rfl, inner⟩
    obtain ⟨n, derived⟩ := inner.derives
    exact ⟨⟨n, .head (.of_mem mem) derived⟩, inner.not_mem_vars⟩

theorem yields_iff_spells (isVar : s ∈ vars) : Yields ps vars s w ↔ Spells ps vars [s] w := by
  rw [yields_iff, spells_var_iff isVar]

end Spells

end Productions

namespace Grammar

variable {g : Grammar} {v : Symbol} {w : List Symbol}

@[simp]
theorem mem_vars : v ∈ g.vars ↔ ∃ p ∈ g.productions, p.lhs = v :=
  Productions.mem_vars

theorem yields_iff : g.Yields v w ↔ v ∈ g.vars ∧ g.productions.Spells g.vars [v] w := by
  rw [Yields, Productions.yields_iff]
  constructor
  · rintro ⟨p, mem, rfl, inner⟩
    exact ⟨Productions.lhs_mem_vars mem, .of_mem mem inner⟩
  · rintro ⟨isVar, h⟩
    exact (Productions.spells_var_iff isVar).1 h

theorem eq_of_yields_of_rhs {u : List Symbol}
    (only : ∀ p ∈ g.productions, p.lhs = v → p.rhs = u) (terminal : ∀ s ∈ u, ¬ s ∈ g.vars)
    (h : g.Yields v w) : w = u := by
  obtain ⟨p, mem, lhs, spelled⟩ := Productions.yields_iff.1 h
  rw [only p mem lhs] at spelled
  exact spelled.eq_of_terminals (fun _ isVar => isVar) terminal

end Grammar

end ContextFree
