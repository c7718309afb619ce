import Mathlib

/-!
# Iterators that may panic

A Rust iterator is a state and a `next` that hands out an item or says it is done; here `next` may
also panic (`none`).  The iterator carries a measure that each item handed out lowers, so that
collecting it (`toList`) and searching it (`find`) are total functions.  `find` stops at the first
item it accepts and does not run `next` further, as `Iterator::find` does; where collecting
returns, searching returns what searching the collected list gives (`find_of_toList`).
-/

namespace Rust

/-- An iterator over states `σ`: `next` panics (`none`), is done (`some (none, _)`) or hands out
an item, and a measure that handing out an item lowers. -/
structure Iter (σ α : Type) where
  next : σ → Option (Option α × σ)
  measure : σ → Nat
  next_lt : ∀ s a s', next s = some (some a, s') → measure s' < measure s

namespace Iter

variable {σ α : Type}

/-- `collect`: the items up to the first `None`; `none` when `next` panics on the way. -/
def toList (it : Iter σ α) (s : σ) : Option (List α) :=
  match h : it.next s with
  | none => none
  | some (none, _) => some []
  | some (some a, s') => (toList it s').map (a :: ·)
termination_by it.measure s
decreasing_by exact it.next_lt _ _ _ h

/-- `find`: the first item `p` accepts, or `None` at the end; `none` when `next` panics first. -/
def find (it : Iter σ α) (p : α → Bool) (s : σ) : Option (Option α) :=
  match h : it.next s with
  | none => none
  | some (none, _) => some none
  | some (some a, s') => if p a then some (some a) else find it p s'
termination_by it.measure s
decreasing_by exact it.next_lt _ _ _ h

variable {it : Iter σ α}

theorem toList_of_next_none {s : σ} (h : it.next s = none) : it.toList s = none := by
  rw [toList]
  split <;> simp_all

theorem toList_of_next_done {s s' : σ} (h : it.next s = some (none, s')) :
    it.toList s = some [] := by
  rw [toList]
  split <;> simp_all

theorem toList_of_next_item {s s' : σ} {a : α} (h : it.next s = some (some a, s')) :
    it.toList s = (it.toList s').map (a :: ·) := by
  rw [toList]
  split <;> simp_all

/-- Collecting depends only on what `next` does. -/
theorem toList_eq_of_next_eq {s s' : σ} (h : it.next s = it.next s') :
    it.toList s = it.toList s' := by
  cases hnext : it.next s' with
  | none => rw [toList_of_next_none (h.trans hnext), toList_of_next_none hnext]
  | some p =>
    obtain ⟨_ | a, s''⟩ := p
    · rw [toList_of_next_done (h.trans hnext), toList_of_next_done hnext]
    · rw [toList_of_next_item (h.trans hnext), toList_of_next_item hnext]

theorem find_of_next_done {p : α → Bool} {s s' : σ} (h : it.next s = some (none, s')) :
    it.find p s = some none := by
  rw [find]
  split <;> simp_all

theorem find_of_next_item {p : α → Bool} {s s' : σ} {a : α} (h : it.next s = some (some a, s')) :
    it.find p s = if p a then some (some a) else it.find p s' := by
  rw [find]
  split <;> simp_all

/-- Where collecting returns, `find` returns the first collected item `p` accepts. -/
theorem find_of_toList (p : α → Bool) {s : σ} {l : List α} (h : it.toList s = some l) :
    it.find p s = some (l.find? p) := by
  induction s using toList.induct it generalizing l with
  | case1 s hnone =>
    rw [toList_of_next_none hnone] at h
    cases h
  | case2 s s' hdone =>
    rw [toList_of_next_done hdone] at h
    cases h
    exact find_of_next_done hdone
  | case3 s a s' hitem ih =>
    rw [toList_of_next_item hitem, Option.map_eq_some_iff] at h
    obtain ⟨l', hl', rfl⟩ := h
    rw [find_of_next_item hitem, List.find?_cons]
    cases p a
    · exact ih hl'
    · rfl

end Iter

end Rust
