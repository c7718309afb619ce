import Mathlib.Logic.Relation

/-!
# Parent-pointer trees

The forks of a ledger form a tree in which every node names at most one parent.  Ancestry is the
reflexive-transitive closure of the parent relation.  This file proves what the fork-choice
arguments use of it:

* ancestry is a preorder, and a proper ancestor is an ancestor (`AncestorOrSelf.trans`, …);
* the ancestors of one node form a chain (`AncestorOrSelf.total_of_common`): two forks that
  share a descendant never conflict;
* following parents from a node until a given ancestor is met visits a unique list of nodes
  (`PathTo`), which in an acyclic tree is exactly the set of nodes strictly between
  (`PathTo.mem_iff`).
-/

namespace ForkTree

variable {α : Type} (parent : α → Option α)

/-- `a` is the parent of `b`. -/
def IsParent (a b : α) : Prop := parent b = some a

/-- `a` is `b` or an ancestor of `b`. -/
def AncestorOrSelf (a b : α) : Prop := Relation.ReflTransGen (IsParent parent) a b

/-- `a` is a proper ancestor of `b`. -/
def Ancestor (a b : α) : Prop := Relation.TransGen (IsParent parent) a b

variable {parent}

namespace AncestorOrSelf

@[refl] theorem refl (a : α) : AncestorOrSelf parent a a := Relation.ReflTransGen.refl

theorem trans {a b c : α} (hab : AncestorOrSelf parent a b) (hbc : AncestorOrSelf parent b c) :
    AncestorOrSelf parent a c :=
  Relation.ReflTransGen.trans hab hbc

theorem of_parent {a b : α} (h : parent b = some a) : AncestorOrSelf parent a b :=
  Relation.ReflTransGen.single h

/-- Two ancestors of one node are comparable: parent pointers leave no room for a branch below
a common descendant. -/
theorem total_of_common {a b x : α} (ha : AncestorOrSelf parent a x)
    (hb : AncestorOrSelf parent b x) : AncestorOrSelf parent a b ∨ AncestorOrSelf parent b a := by
  induction ha generalizing b with
  | refl => exact Or.inr hb
  | @tail y x hay hyx ih =>
    rcases Relation.ReflTransGen.cases_tail hb with rfl | ⟨y', hby', hy'x⟩
    · exact Or.inl (hay.tail hyx)
    · have hyy : y' = y := Option.some.inj (hy'x.symm.trans hyx)
      subst hyy
      exact ih hby'

end AncestorOrSelf

namespace Ancestor

theorem trans {a b c : α} (hab : Ancestor parent a b) (hbc : Ancestor parent b c) :
    Ancestor parent a c :=
  Relation.TransGen.trans hab hbc

theorem of_parent {a b : α} (h : parent b = some a) : Ancestor parent a b :=
  Relation.TransGen.single h

theorem of_ancestorOrSelf_of_parent {a b c : α} (hab : AncestorOrSelf parent a b)
    (hbc : parent c = some b) : Ancestor parent a c :=
  Relation.TransGen.tail' hab hbc

end Ancestor

theorem ancestorOrSelf_iff {a b : α} :
    AncestorOrSelf parent a b ↔ a = b ∨ Ancestor parent a b := by
  unfold AncestorOrSelf Ancestor
  rw [Relation.reflTransGen_iff_eq_or_transGen, eq_comm]

/-- The parent of a node lies above every proper ancestor of it. -/
theorem Ancestor.ancestorOrSelf_of_parent {a b p : α} (h : Ancestor parent a b)
    (hp : parent b = some p) : AncestorOrSelf parent a p := by
  obtain ⟨c, hac, hcb⟩ := Relation.TransGen.tail'_iff.1 h
  have hcp : c = p := Option.some.inj (hcb.symm.trans hp)
  exact hcp ▸ hac

/-! ## Walking up to an ancestor -/

variable (parent) in
/-- `PathTo parent stop a l`: following parent links from `a`, the nodes met before the first
visit of `stop` are `l`, in order. -/
inductive PathTo (stop : α) : α → List α → Prop
  | stop : PathTo stop stop []
  | step {a p : α} {l : List α} : a ≠ stop → parent a = some p → PathTo stop p l →
      PathTo stop a (a :: l)

namespace PathTo

variable {stop : α}

/-- The walk from a node reaches every ancestor of it. -/
theorem exists_of_ancestorOrSelf {a : α} (h : AncestorOrSelf parent stop a) :
    ∃ l, PathTo parent stop a l := by
  induction h with
  | refl => exact ⟨[], .stop⟩
  | @tail b c _ hbc ih =>
    obtain ⟨l, hl⟩ := ih
    by_cases hc : c = stop
    · exact ⟨[], hc ▸ .stop⟩
    · exact ⟨c :: l, .step hc hbc hl⟩

theorem ancestorOrSelf {a : α} {l : List α} (h : PathTo parent stop a l) :
    AncestorOrSelf parent stop a := by
  induction h with
  | stop => rfl
  | step _ hp _ ih => exact ih.trans (.of_parent hp)

/-- The walk is determined by its ends: parents are unique. -/
theorem unique {a : α} {l l' : List α} (h : PathTo parent stop a l) (h' : PathTo parent stop a l') :
    l = l' := by
  induction h generalizing l' with
  | stop =>
    cases h' with
    | stop => rfl
    | step hne _ _ => exact absurd rfl hne
  | step hne hp _ ih =>
    cases h' with
    | stop => exact absurd rfl hne
    | step _ hp' hl' =>
      have hpp := Option.some.inj (hp.symm.trans hp')
      subst hpp
      rw [ih hl']

/-- Every node of the walk lies strictly between `stop` and the start. -/
theorem mem {a s : α} {l : List α} (h : PathTo parent stop a l) (hs : s ∈ l) :
    AncestorOrSelf parent s a ∧ Ancestor parent stop s := by
  induction h with
  | stop => cases hs
  | @step a p l _ hp hl ih =>
    rcases List.mem_cons.1 hs with rfl | hs
    · exact ⟨.refl s, Ancestor.of_ancestorOrSelf_of_parent hl.ancestorOrSelf hp⟩
    · obtain ⟨hsp, hstop⟩ := ih hs
      exact ⟨hsp.trans (.of_parent hp), hstop⟩

/-- In an acyclic tree the walk visits exactly the nodes strictly between `stop` and the start. -/
theorem mem_iff (acyclic : ∀ x, ¬ Ancestor parent x x) {a s : α} {l : List α}
    (h : PathTo parent stop a l) :
    s ∈ l ↔ AncestorOrSelf parent s a ∧ Ancestor parent stop s := by
  refine ⟨h.mem, ?_⟩
  rintro ⟨hsa, hstop⟩
  induction h with
  | stop =>
    -- `stop` above `s` above `stop` closes a cycle
    rcases ancestorOrSelf_iff.1 hsa with rfl | hs
    · exact absurd hstop (acyclic s)
    · exact absurd (hstop.trans hs) (acyclic _)
  | @step a p l _ hp _ ih =>
    rcases ancestorOrSelf_iff.1 hsa with rfl | hs
    · exact List.mem_cons_self
    · exact List.mem_cons_of_mem a (ih (hs.ancestorOrSelf_of_parent hp))

end PathTo

end ForkTree
