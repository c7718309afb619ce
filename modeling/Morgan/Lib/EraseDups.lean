import Mathlib

/-!
# The first element of each key

`unique_by(f)` of itertools keeps, of the elements with one key, the first, in the order of the
list; core's `eraseDupsBy` does the same for any relation, and `uniqueBy f` is it for equal keys.
The result is a sublist, its keys are distinct, and every key of the list survives.
-/

namespace List

variable {α β : Type} [BEq β] [LawfulBEq β] (f : α → β)

/-- `unique_by(f)`: the first element of each key, in order. -/
def uniqueBy (l : List α) : List α := l.eraseDupsBy fun x y => f x == f y

omit [LawfulBEq β] in
theorem uniqueBy_cons (a : α) (l : List α) :
    (a :: l).uniqueBy f = a :: (l.filter fun b => !(f b == f a)).uniqueBy f := by
  simp [uniqueBy, eraseDupsBy_cons]

omit [LawfulBEq β] in
theorem uniqueBy_sublist : ∀ l : List α, l.uniqueBy f <+ l
  | [] => Sublist.slnil
  | a :: l => by
    rw [uniqueBy_cons]
    exact ((uniqueBy_sublist _).trans filter_sublist).cons_cons a
termination_by l => l.length
decreasing_by exact Nat.lt_succ_of_le (length_filter_le _ _)

/-- The keys kept are distinct. -/
theorem nodup_map_uniqueBy : ∀ l : List α, ((l.uniqueBy f).map f).Nodup
  | [] => nodup_nil
  | a :: l => by
    rw [uniqueBy_cons, map_cons]
    refine nodup_cons.2 ⟨fun h => ?_, nodup_map_uniqueBy _⟩
    -- the tail keeps only elements of another key
    obtain ⟨b, hb, hfb⟩ := mem_map.1 h
    have hne := (mem_filter.1 ((uniqueBy_sublist f _).subset hb)).2
    simp [hfb] at hne
termination_by l => l.length
decreasing_by exact Nat.lt_succ_of_le (length_filter_le _ _)

/-- Every key of the list is kept. -/
theorem mem_map_uniqueBy {b : β} : ∀ {l : List α}, b ∈ (l.uniqueBy f).map f ↔ b ∈ l.map f
  | [] => Iff.rfl
  | a :: l => by
    rw [uniqueBy_cons, map_cons, map_cons, mem_cons, mem_cons]
    by_cases hb : b = f a
    · simp [hb]
    · have hfilter : b ∈ (l.filter fun x => !(f x == f a)).map f ↔ b ∈ l.map f := by
        simp only [mem_map, mem_filter]
        constructor
        · rintro ⟨x, ⟨hx, -⟩, rfl⟩
          exact ⟨x, hx, rfl⟩
        · rintro ⟨x, hx, rfl⟩
          exact ⟨x, ⟨hx, by simpa using hb⟩, rfl⟩
      rw [mem_map_uniqueBy, hfilter]
termination_by l => l.length
decreasing_by exact Nat.lt_succ_of_le (length_filter_le _ _)

end List
