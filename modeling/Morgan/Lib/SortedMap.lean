import Mathlib

/-!
# Ordered maps as sorted association lists

A `BTreeMap` is a list of entries in strictly increasing key order.  `insert` puts an entry at its
place, replacing the entry of an equal key; iteration is the list's order, and a range is the
entries whose keys lie in it.  `append` inserts the entries of a second map one after another, so
that its values win, as `BTreeMap::append` does.
-/

/-- A finite map whose entries are in increasing key order. -/
abbrev SortedMap (κ β : Type) := List (κ × β)

namespace SortedMap

variable {κ β : Type} [LinearOrder κ]

/-- The value of a key. -/
def get? (m : SortedMap κ β) (k : κ) : Option β := (m.find? (·.1 = k)).map (·.2)

/-- Insert an entry at its place, replacing the entry of the same key. -/
def insert : SortedMap κ β → κ → β → SortedMap κ β
  | [], k, v => [(k, v)]
  | (k', v') :: m, k, v =>
    if k < k' then (k, v) :: (k', v') :: m
    else if k = k' then (k, v) :: m
    else (k', v') :: insert m k v

/-- Drop the entry of a key. -/
def erase (m : SortedMap κ β) (k : κ) : SortedMap κ β := m.filter (·.1 ≠ k)

/-- The entries whose keys lie in `[lo, hi]`, in order. -/
def range (m : SortedMap κ β) (lo hi : κ) : SortedMap κ β := m.filter fun e => lo ≤ e.1 ∧ e.1 ≤ hi

/-- `BTreeMap::append`: insert the entries of `other`, whose values win. -/
def append (m other : SortedMap κ β) : SortedMap κ β := other.foldl (fun m e => m.insert e.1 e.2) m

/-- The map of a sequence of entries, a later entry of a key replacing an earlier one. -/
def ofList (entries : List (κ × β)) : SortedMap κ β := append [] entries

theorem insert_nil (k : κ) (v : β) : insert [] k v = [(k, v)] := rfl

theorem insert_cons (k' : κ) (v' : β) (m : SortedMap κ β) (k : κ) (v : β) :
    insert ((k', v') :: m) k v =
      if k < k' then (k, v) :: (k', v') :: m
      else if k = k' then (k, v) :: m
      else (k', v') :: insert m k v :=
  rfl

theorem get?_cons (k' : κ) (v' : β) (m : SortedMap κ β) (k : κ) :
    get? ((k', v') :: m) k = if k' = k then some v' else get? m k := by
  by_cases h : k' = k <;> simp [get?, h]

@[simp] theorem get?_insert_self (m : SortedMap κ β) (k : κ) (v : β) :
    get? (m.insert k v) k = some v := by
  induction m with
  | nil => simp [insert_nil, get?_cons]
  | cons e m ih =>
    obtain ⟨k', v'⟩ := e
    rw [insert_cons]
    split_ifs with hlt heq
    · simp [get?_cons]
    · simp [get?_cons]
    · rw [get?_cons, if_neg (Ne.symm heq), ih]

theorem get?_insert_of_ne (m : SortedMap κ β) {k k₀ : κ} (h : k ≠ k₀) (v : β) :
    get? (m.insert k v) k₀ = get? m k₀ := by
  induction m with
  | nil => simp [insert_nil, get?_cons, h]
  | cons e m ih =>
    obtain ⟨k', v'⟩ := e
    rw [insert_cons]
    split_ifs with hlt heq
    · rw [get?_cons, if_neg h]
    · rw [get?_cons, if_neg h, get?_cons, if_neg (heq ▸ h)]
    · rw [get?_cons, get?_cons, ih]

theorem get?_insert (m : SortedMap κ β) (k : κ) (v : β) (k₀ : κ) :
    get? (m.insert k v) k₀ = if k = k₀ then some v else get? m k₀ := by
  split_ifs with h
  · exact h ▸ get?_insert_self m k v
  · exact get?_insert_of_ne m h v

/-- A lookup after `append`: the last entry of the key in `other`, else the map's. -/
theorem get?_append (m other : SortedMap κ β) (k : κ) :
    get? (m.append other) k = ((other.reverse.find? (·.1 = k)).map (·.2)).or (get? m k) := by
  induction other generalizing m with
  | nil => simp [append]
  | cons e other ih =>
    have happend : m.append (e :: other) = (m.insert e.1 e.2).append other := rfl
    rw [happend, ih, get?_insert, List.reverse_cons, List.find?_append]
    by_cases he : e.1 = k
    · cases other.reverse.find? (·.1 = k) <;> simp [he]
    · cases other.reverse.find? (·.1 = k) <;> simp [he]

/-! ## Sorted maps

A map built by `insert` from the empty one has its keys in strictly increasing order, so each key
has one entry: an `insert` then takes off the old entry's share of a sum over the entries and adds
the new one's. -/

/-- The keys are in strictly increasing order. -/
def Sorted (m : SortedMap κ β) : Prop := m.Pairwise fun a b => a.1 < b.1

theorem Sorted.nil : Sorted ([] : SortedMap κ β) := List.Pairwise.nil

theorem Sorted.tail {e : κ × β} {m : SortedMap κ β} (h : Sorted (e :: m)) : Sorted m :=
  (List.pairwise_cons.1 h).2

theorem mem_insert {m : SortedMap κ β} {k : κ} {v : β} {e : κ × β} (he : e ∈ m.insert k v) :
    e = (k, v) ∨ e ∈ m := by
  induction m with
  | nil => simpa [insert_nil] using he
  | cons e' m ih =>
    obtain ⟨k', v'⟩ := e'
    rw [insert_cons] at he
    split_ifs at he with hlt heq
    · simp only [List.mem_cons] at he ⊢
      tauto
    · simp only [List.mem_cons] at he ⊢
      tauto
    · rcases List.mem_cons.1 he with rfl | he
      · exact .inr List.mem_cons_self
      · exact (ih he).imp_right (List.mem_cons_of_mem _)

theorem mem_erase {m : SortedMap κ β} {k : κ} {e : κ × β} (he : e ∈ m.erase k) : e ∈ m :=
  (List.mem_filter.1 he).1

theorem mem_append {m other : SortedMap κ β} {e : κ × β} (he : e ∈ m.append other) :
    e ∈ m ∨ e ∈ other := by
  induction other generalizing m with
  | nil => exact .inl he
  | cons e' other ih =>
    rcases ih he with he | he
    · rcases mem_insert he with rfl | he
      · exact .inr List.mem_cons_self
      · exact .inl he
    · exact .inr (List.mem_cons_of_mem _ he)

theorem Sorted.insert {m : SortedMap κ β} (h : Sorted m) (k : κ) (v : β) :
    Sorted (m.insert k v) := by
  induction m with
  | nil => exact List.pairwise_singleton _ _
  | cons e m ih =>
    obtain ⟨k', v'⟩ := e
    have hafter := List.pairwise_cons.1 h
    rw [insert_cons]
    split_ifs with hlt heq
    · -- the new key goes first, below `k'` and so below every key after it
      refine List.pairwise_cons.2 ⟨fun e he => ?_, h⟩
      rcases List.mem_cons.1 he with rfl | he
      · exact hlt
      · exact hlt.trans (hafter.1 e he)
    · subst heq
      exact List.pairwise_cons.2 ⟨hafter.1, hafter.2⟩
    · -- `k'` stays first, below the new key and every key after it
      refine List.pairwise_cons.2 ⟨fun e he => ?_, ih hafter.2⟩
      rcases mem_insert he with rfl | he
      · exact lt_of_le_of_ne (not_lt.1 hlt) (Ne.symm heq)
      · exact hafter.1 e he

/-- Two maps related entry by entry, by a relation that only relates entries of one key, stay
related when one key is inserted into both with related values. -/
theorem forall₂_insert {γ : Type} {R : κ × β → κ × γ → Prop} (hkey : ∀ e e', R e e' → e.1 = e'.1)
    {m : SortedMap κ β} {m' : SortedMap κ γ} (h : List.Forall₂ R m m') {k : κ} {v : β} {v' : γ}
    (hv : R (k, v) (k, v')) : List.Forall₂ R (m.insert k v) (m'.insert k v') := by
  induction h with
  | nil => exact .cons hv .nil
  | cons he hrest ih =>
    rename_i e e' m m'
    obtain ⟨k₁, w⟩ := e
    obtain ⟨k₂, w'⟩ := e'
    obtain rfl : k₁ = k₂ := hkey _ _ he
    rw [insert_cons, insert_cons]
    split_ifs with hlt heq
    · exact .cons hv (.cons he hrest)
    · exact .cons hv hrest
    · exact .cons he ih

/-- A key above every key of the map goes at its end. -/
theorem insert_of_lt {m : SortedMap κ β} {k : κ} (h : ∀ e ∈ m, e.1 < k) (v : β) :
    m.insert k v = m ++ [(k, v)] := by
  induction m with
  | nil => rfl
  | cons e m ih =>
    obtain ⟨k', v'⟩ := e
    have hlt : k' < k := h (k', v') List.mem_cons_self
    rw [insert_cons, if_neg (not_lt.2 hlt.le), if_neg (ne_of_gt hlt),
      ih fun e he => h e (List.mem_cons_of_mem _ he), List.cons_append]

/-- Entries in increasing key order, above every key of the map, are inserted at its end. -/
theorem foldl_insert_of_pairwise :
    ∀ {m : SortedMap κ β} {entries : List (κ × β)}, entries.Pairwise (fun a b => a.1 < b.1) →
      (∀ e ∈ m, ∀ e' ∈ entries, e.1 < e'.1) →
        entries.foldl (fun m e => m.insert e.1 e.2) m = m ++ entries
  | m, [], _, _ => (List.append_nil m).symm
  | m, (k, v) :: entries, hpair, hlt => by
    have hhead := List.pairwise_cons.1 hpair
    rw [List.foldl_cons, insert_of_lt (fun e he => hlt e he _ List.mem_cons_self) v,
      foldl_insert_of_pairwise hhead.2, List.append_assoc, List.singleton_append]
    intro e he e' he'
    rcases List.mem_append.1 he with he | he
    · exact hlt e he e' (List.mem_cons_of_mem _ he')
    · rw [List.mem_singleton.1 he]
      exact hhead.1 e' he'

theorem Sorted.append {m : SortedMap κ β} (h : Sorted m) (other : SortedMap κ β) :
    Sorted (m.append other) := by
  induction other generalizing m with
  | nil => exact h
  | cons e other ih => exact ih (h.insert e.1 e.2)

theorem Sorted.ofList (entries : List (κ × β)) : Sorted (ofList entries) :=
  Sorted.nil.append entries

/-- No key below the first of a sorted map has an entry. -/
theorem get?_eq_none_of_lt {k' k : κ} {v' : β} {m : SortedMap κ β} (h : Sorted ((k', v') :: m))
    (hlt : k < k') : get? ((k', v') :: m) k = none := by
  have hkeys : ∀ e ∈ (k', v') :: m, e.1 ≠ k := by
    intro e he
    rcases List.mem_cons.1 he with rfl | he
    · exact ne_of_gt hlt
    · exact ne_of_gt (hlt.trans ((List.pairwise_cons.1 h).1 e he))
  simpa [get?, List.find?_eq_none] using hkeys

/-- A sum over the values after `insert`, with the replaced value's term back, is the sum before
it with the new value's term. -/
theorem sum_map_insert {M : Type} [AddCommMonoid M] (f : β → M) {m : SortedMap κ β}
    (h : Sorted m) (k : κ) (v : β) :
    ((m.insert k v).map (f ·.2)).sum + ((m.get? k).map f).getD 0 = (m.map (f ·.2)).sum + f v := by
  induction m with
  | nil => simp [insert_nil, get?]
  | cons e m ih =>
    obtain ⟨k', v'⟩ := e
    rw [insert_cons]
    split_ifs with hlt heq
    · rw [get?_eq_none_of_lt h hlt]
      simp only [List.map_cons, List.sum_cons, Option.map_none, Option.getD_none, add_zero]
      exact add_comm _ _
    · subst heq
      simp only [List.map_cons, List.sum_cons, get?_cons]
      simp only [if_true, Option.map_some, Option.getD_some]
      abel
    · rw [get?_cons, if_neg (Ne.symm heq), List.map_cons, List.sum_cons, add_assoc, ih h.tail,
        List.map_cons, List.sum_cons, add_assoc]

/-! ## Searching a map -/

/-- An `insert` of an entry that `p` rejects, into a map where `p` rejects the entry it would
replace, leaves the first entry `p` accepts. -/
theorem find?_insert_of_not {p : κ × β → Bool} {m : SortedMap κ β} {k : κ} {v : β}
    (hk : p (k, v) = false) (hm : ∀ e ∈ m, e.1 = k → p e = false) :
    (m.insert k v).find? p = m.find? p := by
  induction m with
  | nil => simp [insert_nil, hk]
  | cons e m ih =>
    obtain ⟨k', v'⟩ := e
    rw [insert_cons]
    split_ifs with hlt heq
    · simp [List.find?_cons, hk]
    · subst heq
      simp [hk, hm (k, v') List.mem_cons_self rfl]
    · simp [List.find?_cons, ih fun e he => hm e (List.mem_cons_of_mem _ he)]

/-- The entry inserted is the first `p` accepts when `p` rejects every entry of the map. -/
theorem find?_insert_of_forall_not {p : κ × β → Bool} {m : SortedMap κ β} {k : κ} {v : β}
    (hk : p (k, v) = true) (hm : ∀ e ∈ m, p e = false) : (m.insert k v).find? p = some (k, v) := by
  induction m with
  | nil => simp [insert_nil, hk]
  | cons e m ih =>
    obtain ⟨k', v'⟩ := e
    rw [insert_cons]
    split_ifs with hlt heq
    · simp [hk]
    · simp [hk]
    · simp [hm (k', v') List.mem_cons_self, ih fun e he => hm e (List.mem_cons_of_mem _ he)]

/-- An `insert` of a new key adds an entry. -/
theorem length_insert {m : SortedMap κ β} {k : κ} (hm : ∀ e ∈ m, e.1 ≠ k) (v : β) :
    (m.insert k v).length = m.length + 1 := by
  induction m with
  | nil => rfl
  | cons e m ih =>
    obtain ⟨k', v'⟩ := e
    rw [insert_cons]
    split_ifs with hlt heq
    · rfl
    · exact absurd heq.symm (hm (k', v') List.mem_cons_self)
    · simp [ih fun e he => hm e (List.mem_cons_of_mem _ he)]

end SortedMap
