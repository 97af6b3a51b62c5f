import ContextFree.Grammar.Basic

/-!
This module contains the meaning of grammars: a production may be applied anywhere in a word, and
the language of a grammar are the words of terminals that its start variable derives.
-/

namespace ContextFree

namespace Productions

inductive Step (ps : Productions) : List Symbol → List Symbol → Prop where
  | apply {p : Production} (mem : p ∈ ps) (before after : List Symbol) :
    Step ps (before ++ p.lhs :: after) (before ++ p.rhs ++ after)

/--
So many applications of productions, one after another.
-/
inductive DerivesIn (ps : Productions) : Nat → List Symbol → List Symbol → Prop where
  | refl (u : List Symbol) : DerivesIn ps 0 u u
  | head {n : Nat} {u v w : List Symbol} (first : Step ps u v) (rest : DerivesIn ps n v w) :
    DerivesIn ps (n + 1) u w

def Derives (ps : Productions) (u w : List Symbol) : Prop :=
  ∃ n, DerivesIn ps n u w

def DerivesProperly (ps : Productions) (u w : List Symbol) : Prop :=
  ∃ n, DerivesIn ps (n + 1) u w

/--
One or more applications of productions lead from `v` to the word `w`, in which none of `variables`
is left.
-/
def Yields (ps : Productions) (vars : OrderedSet Symbol) (v : Symbol) (w : List Symbol) :
    Prop :=
  DerivesProperly ps [v] w ∧ ∀ s ∈ w, ¬ s ∈ vars

variable {ps : Productions}

theorem Step.of_mem {p : Production} (mem : p ∈ ps) : Step ps [p.lhs] p.rhs := by
  simpa using Step.apply mem [] []

theorem Step.inside {u v : List Symbol} (h : Step ps u v) (before after : List Symbol) :
    Step ps (before ++ u ++ after) (before ++ v ++ after) := by
  obtain ⟨mem, b, a⟩ := h
  simpa using Step.apply mem (before ++ b) (a ++ after)

theorem DerivesIn.inside {n : Nat} {u v : List Symbol} (h : DerivesIn ps n u v)
    (before after : List Symbol) :
    DerivesIn ps n (before ++ u ++ after) (before ++ v ++ after) := by
  induction h with
  | refl => exact .refl _
  | head first _ ih => exact .head (first.inside before after) ih

theorem DerivesIn.trans {m n : Nat} {u v w : List Symbol} (h : DerivesIn ps m u v)
    (h' : DerivesIn ps n v w) : DerivesIn ps (n + m) u w := by
  induction h with
  | refl => exact h'
  | head first _ ih => exact .head first (ih h')

theorem Derives.refl (u : List Symbol) : Derives ps u u :=
  ⟨0, .refl u⟩

theorem Derives.trans {u v w : List Symbol} (h : Derives ps u v) (h' : Derives ps v w) :
    Derives ps u w :=
  let ⟨_, h⟩ := h
  let ⟨_, h'⟩ := h'
  ⟨_, h.trans h'⟩

theorem Derives.of_mem {p : Production} (mem : p ∈ ps) : Derives ps [p.lhs] p.rhs :=
  ⟨1, .head (.of_mem mem) (.refl _)⟩

theorem Derives.append {u v u' v' : List Symbol} (h : Derives ps u v) (h' : Derives ps u' v') :
    Derives ps (u ++ u') (v ++ v') := by
  obtain ⟨_, h⟩ := h
  obtain ⟨_, h'⟩ := h'
  have left := h.inside [] u'
  have right := h'.inside v []
  exact ⟨_, DerivesIn.trans (by simpa using left) (by simpa using right)⟩

end Productions

namespace Grammar

/--
The variable derives the word in one or more steps, and the word consists of terminals.
-/
def Yields (g : Grammar) (v : Symbol) (w : List Symbol) : Prop :=
  g.productions.Yields g.vars v w

/--
The word belongs to the language of the grammar.
-/
def Generates (g : Grammar) (w : List Symbol) : Prop :=
  g.Yields g.start w

end Grammar

end ContextFree
