import ContextFree.Grammar.Leading
import Mathlib.Logic.Function.Iterate

/-!
This module contains what left recursion means for chains of leading variables. Without left
recursion no chain has as many links as there are variables, and with it there are chains of any
length. A rank that becomes smaller with every link therefore shows that there is no left recursion.
-/

namespace ContextFree

namespace Productions

/--
A chain of leading variables with this number of links goes out from the variable.
-/
inductive LeadsFar (ps : Productions) : Nat → Symbol → Prop where
  | here {v : Symbol} (isVar : v ∈ ps.vars) : LeadsFar ps 0 v
  | next {n : Nat} {v w : Symbol} (link : ps.LeadsTo v w) (rest : LeadsFar ps n w) :
    LeadsFar ps (n + 1) v

variable {ps ps' : Productions} {v w : Symbol} {m n : Nat}

theorem leadsTo_iff :
    ps.LeadsTo v w ↔ w ∈ ps.vars ∧ ∃ p ∈ ps, p.lhs = v ∧ p.first? = some w := by
  simp only [LeadsTo, OrderedSet.mem_toList]

theorem LeadsTo.mem_vars (h : ps.LeadsTo v w) : v ∈ ps.vars := by
  obtain ⟨_, p, mem, lhs, _⟩ := leadsTo_iff.1 h
  exact Productions.mem_vars.2 ⟨p, mem, lhs⟩

theorem LeadsFar.shorten (h : LeadsFar ps (n + 1) v) : LeadsFar ps n v := by
  induction n generalizing v with
  | zero =>
    cases h with
    | next link _ => exact .here link.mem_vars
  | succ n ih =>
    cases h with
    | next link rest => exact .next link (ih rest)

theorem LeadsFar.mono (h : LeadsFar ps n v) (le : m ≤ n) : LeadsFar ps m v := by
  induction le with
  | refl => exact h
  | step _ ih => exact ih h.shorten

theorem mem_leadingCore_of_closed {set : Symbol → Prop} (isVars : ∀ v, set v → v ∈ ps.vars)
    (closed : ∀ v, set v → ∃ w, set w ∧ ps.LeadsTo v w) (h : set v) : v ∈ ps.leadingCore := by
  revert v
  apply stabilize_induction (motive := fun found => ∀ {v}, set v → v ∈ found)
  · intro v hv
    exact isVars v hv
  · intro found all v hv
    obtain ⟨w, hw, link⟩ := closed v hv
    obtain ⟨_, p, mem, lhs, starts⟩ := leadsTo_iff.1 link
    exact mem_leadingPart.2 ⟨all hv, p, mem, lhs, startsWith_iff.2 ⟨w, all hw, starts⟩⟩

theorem mem_vars_of_mem_leadingCore (h : v ∈ ps.leadingCore) : v ∈ ps.vars := by
  revert v
  apply stabilize_induction (motive := fun found => ∀ {v}, v ∈ found → v ∈ ps.vars)
  · intro v hv
    exact hv
  · intro found all v hv
    exact all (mem_leadingPart.1 hv).1

theorem exists_leadsTo_of_mem_leadingCore (h : v ∈ ps.leadingCore) :
    ∃ w ∈ ps.leadingCore, ps.LeadsTo v w := by
  rw [← leadingPart_leadingCore] at h
  obtain ⟨_, p, mem, lhs, starts⟩ := mem_leadingPart.1 h
  obtain ⟨w, hw, starts⟩ := startsWith_iff.1 starts
  exact ⟨w, hw, leadsTo_iff.2 ⟨mem_vars_of_mem_leadingCore hw, p, mem, lhs, starts⟩⟩

theorem leadsFar_of_mem_leadingCore (h : v ∈ ps.leadingCore) : LeadsFar ps n v := by
  induction n generalizing v with
  | zero => exact .here (mem_vars_of_mem_leadingCore h)
  | succ n ih =>
    obtain ⟨w, hw, link⟩ := exists_leadsTo_of_mem_leadingCore h
    exact .next link (ih hw)

theorem isLeftRecursive_eq_false_iff : ps.isLeftRecursive = false ↔ ∀ v, ¬ v ∈ ps.leadingCore := by
  unfold isLeftRecursive
  rw [decide_eq_false_iff_not, Decidable.not_not]
  constructor
  · intro empty v hv
    rw [empty] at hv
    exact OrderedSet.not_mem_empty v hv
  · intro none
    refine OrderedSet.ext_toList (List.eq_nil_iff_forall_not_mem.2 ?_)
    exact none

theorem isSelfLoop_of_straight (straight : ps.isLeftRecursive = false) {p : Production}
    (mem : p ∈ ps) : p.isSelfLoop = false := by
  rw [Bool.eq_false_iff]
  intro loop
  have link : ps.LeadsTo p.lhs p.lhs := by
    refine leadsTo_iff.2 ⟨lhs_mem_vars mem, p, mem, rfl, ?_⟩
    rw [Production.first?, Production.isSelfLoop_iff.1 loop]
    rfl
  have isVars : ∀ v, v = p.lhs → v ∈ ps.vars := by
    rintro v rfl
    exact link.mem_vars
  have closed : ∀ v, v = p.lhs → ∃ w, w = p.lhs ∧ ps.LeadsTo v w := by
    rintro v rfl
    exact ⟨p.lhs, rfl, link⟩
  exact isLeftRecursive_eq_false_iff.1 straight p.lhs (mem_leadingCore_of_closed isVars closed rfl)

theorem LeadsTo.mono (h : ps.LeadsTo v w) (sub : ∀ p ∈ ps, p ∈ ps') : ps'.LeadsTo v w := by
  obtain ⟨isVar, p, mem, lhs, starts⟩ := leadsTo_iff.1 h
  exact leadsTo_iff.2 ⟨mem_vars_mono sub isVar, p, sub p mem, lhs, starts⟩

theorem isLeftRecursive_eq_false_mono (h : ps'.isLeftRecursive = false)
    (sub : ∀ p ∈ ps, p ∈ ps') : ps.isLeftRecursive = false := by
  rw [isLeftRecursive_eq_false_iff] at h ⊢
  intro v hv
  refine h v (mem_leadingCore_of_closed ?_ ?_ hv)
  · intro v hv
    obtain ⟨w, _, link⟩ := exists_leadsTo_of_mem_leadingCore hv
    exact (link.mono sub).mem_vars
  · intro v hv
    obtain ⟨w, hw, link⟩ := exists_leadsTo_of_mem_leadingCore hv
    exact ⟨w, hw, link.mono sub⟩

theorem isLeftRecursive_eq_false_of_bound (bound : ∀ v, ¬ LeadsFar ps n v) :
    ps.isLeftRecursive = false := by
  rw [isLeftRecursive_eq_false_iff]
  intro v hv
  exact bound v (leadsFar_of_mem_leadingCore hv)

theorem LeadsFar.mem_iterate (h : LeadsFar ps n v) : v ∈ ps.leadingPart^[n] ps.vars := by
  induction n generalizing v with
  | zero =>
    cases h with
    | here isVar => exact isVar
  | succ n ih =>
    have shorter := ih h.shorten
    rw [Function.iterate_succ_apply', mem_leadingPart]
    cases h with
    | next link rest =>
      obtain ⟨_, p, mem, lhs, starts⟩ := leadsTo_iff.1 link
      exact ⟨shorter, p, mem, lhs, startsWith_iff.2 ⟨_, ih rest, starts⟩⟩

theorem mem_vars_of_mem_iterate (h : v ∈ ps.leadingPart^[n] ps.vars) : v ∈ ps.vars := by
  induction n with
  | zero => exact h
  | succ n ih =>
    rw [Function.iterate_succ_apply', mem_leadingPart] at h
    exact ih h.1

theorem size_leadingPart_lt {found : OrderedSet Symbol} (straight : ps.isLeftRecursive = false)
    (isVars : ∀ v ∈ found, v ∈ ps.vars) (hv : v ∈ found) :
    (ps.leadingPart found).size < found.size := by
  refine OrderedSet.size_filter_lt fun stable => ?_
  change ps.leadingPart found = found at stable
  apply isLeftRecursive_eq_false_iff.1 straight v
  refine mem_leadingCore_of_closed isVars ?_ hv
  intro v hv
  rw [← stable] at hv
  obtain ⟨_, p, mem, lhs, starts⟩ := mem_leadingPart.1 hv
  obtain ⟨w, hw, starts⟩ := startsWith_iff.1 starts
  exact ⟨w, hw, leadsTo_iff.2 ⟨isVars w hw, p, mem, lhs, starts⟩⟩

theorem size_iterate_leadingPart (straight : ps.isLeftRecursive = false)
    (h : v ∈ ps.leadingPart^[n] ps.vars) :
    (ps.leadingPart^[n] ps.vars).size + n ≤ ps.vars.size := by
  induction n with
  | zero => exact Nat.le_refl _
  | succ n ih =>
    rw [Function.iterate_succ_apply'] at h ⊢
    have before := (mem_leadingPart.1 h).1
    have smaller := size_leadingPart_lt straight (fun v => mem_vars_of_mem_iterate) before
    have := ih before
    omega

/--
Without left recursion a chain has fewer links than there are variables.
-/
theorem LeadsFar.lt_size (h : LeadsFar ps n v) (straight : ps.isLeftRecursive = false) :
    n < ps.vars.size := by
  have left := h.mem_iterate
  have bound := size_iterate_leadingPart straight left
  have : 0 < (ps.leadingPart^[n] ps.vars).size := List.length_pos_of_mem left
  omega

theorem LeadsFar.le_rank {rank : Symbol → Nat} (h : LeadsFar ps n v)
    (decreasing : ∀ v w, ps.LeadsTo v w → rank w < rank v) : n ≤ rank v := by
  induction h with
  | here => exact Nat.zero_le _
  | next link _ ih => exact Nat.lt_of_le_of_lt ih (decreasing _ _ link)

theorem isLeftRecursive_eq_false_of_rank (rank : Symbol → Nat)
    (decreasing : ∀ v w, ps.LeadsTo v w → rank w < rank v) : ps.isLeftRecursive = false := by
  rw [isLeftRecursive_eq_false_iff]
  intro v hv
  -- from a variable in the core there are chains longer than its rank
  have long : LeadsFar ps (rank v + 1) v := leadsFar_of_mem_leadingCore hv
  have := long.le_rank decreasing
  omega

end Productions

end ContextFree
