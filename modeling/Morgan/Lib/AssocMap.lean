import Mathlib.Data.List.Basic
import Mathlib.Data.List.Nodup
import Mathlib.Algebra.GroupWithZero.Nat
import Mathlib.Algebra.Order.BigOperators.Group.Finset

/-!
# Finite maps as association lists

A hash map is a list of entries with distinct keys.  `get?` is `List.lookup`; `set` drops the
entry of a key and appends the new one, which keeps the keys distinct (`nodup_keys_set`), for a
map whose iteration order no computation depends on.  An insertion-ordered map (`IndexMap`)
overwrites an entry where it stands (`insert`, `modify`).
-/

/-- A finite map: a list of entries, one per key. -/
abbrev AssocMap (α β : Type) := List (α × β)

namespace AssocMap

variable {α β : Type} [BEq α]

/-- The value of a key. -/
def get? (m : AssocMap α β) (a : α) : Option β := m.lookup a

/-- The keys, in the order of the entries. -/
def keys (m : AssocMap α β) : List α := m.map Prod.fst

/-- Set the value of a key: drop its entry, if any, and add the new one. -/
def set (m : AssocMap α β) (a : α) (b : β) : AssocMap α β :=
  m.filter (fun e => !(e.1 == a)) ++ [(a, b)]

/-- `IndexMap::insert`: overwrite the value of a key where its entry stands, or append an entry. -/
def insert (m : AssocMap α β) (a : α) (b : β) : AssocMap α β :=
  if m.any (·.1 == a) then m.map (fun e => if e.1 == a then (a, b) else e) else m ++ [(a, b)]

/-- Update the value of a key where its entry stands (`get_mut`). -/
def modify (m : AssocMap α β) (a : α) (f : β → β) : AssocMap α β :=
  m.map fun e => if e.1 == a then (e.1, f e.2) else e

/-- `HashMap::remove`: drop the entry of a key. -/
def erase (m : AssocMap α β) (a : α) : AssocMap α β := m.filter fun e => !(e.1 == a)

/-- `HashMap::extend`: set the entries one after another, a later one replacing an earlier. -/
def extend (m : AssocMap α β) (entries : List (α × β)) : AssocMap α β :=
  entries.foldl (fun m e => m.set e.1 e.2) m

variable [LawfulBEq α]

theorem nodup_keys_set {m : AssocMap α β} (h : m.keys.Nodup) (a : α) (b : β) :
    (m.set a b).keys.Nodup := by
  have hsub : keys (m.filter fun e => !(e.1 == a)) |>.Nodup := h.sublist (List.filter_sublist.map _)
  simp only [set, keys, List.map_append, List.map_cons, List.map_nil]
  refine List.nodup_append.2 ⟨hsub, List.nodup_cons.2 ⟨List.not_mem_nil, List.nodup_nil⟩, ?_⟩
  rintro x hx y hy rfl
  rw [List.mem_singleton.1 hy] at hx
  obtain ⟨e, he, rfl⟩ := List.mem_map.1 hx
  simp at he

theorem nodup_keys_extend {m : AssocMap α β} (h : m.keys.Nodup) (entries : List (α × β)) :
    (m.extend entries).keys.Nodup := by
  induction entries generalizing m with
  | nil => exact h
  | cons e entries ih => exact ih (nodup_keys_set h e.1 e.2)

theorem lookup_cons_of_eq {x : α × β} {a : α} (h : x.1 = a) (m : AssocMap α β) :
    (x :: m).lookup a = some x.2 := by
  obtain ⟨k, v⟩ := x
  subst h
  simp

theorem lookup_cons_of_ne {x : α × β} {a : α} (h : x.1 ≠ a) (m : AssocMap α β) :
    (x :: m).lookup a = m.lookup a := by
  obtain ⟨k, v⟩ := x
  simp [List.lookup_cons, beq_false_of_ne (Ne.symm h)]

theorem lookup_filter_of_ne (m : AssocMap α β) {a a' : α} (h : a' ≠ a) :
    (m.filter fun e => !(e.1 == a)).lookup a' = m.lookup a' := by
  induction m with
  | nil => rfl
  | cons x m ih =>
    by_cases hx : x.1 = a
    · have hx' : x.1 ≠ a' := by rw [hx]; exact Ne.symm h
      rw [List.filter_cons_of_neg (by simp [hx]), ih, lookup_cons_of_ne hx']
    · rw [List.filter_cons_of_pos (by simpa using hx)]
      by_cases hx' : x.1 = a'
      · rw [lookup_cons_of_eq hx', lookup_cons_of_eq hx']
      · rw [lookup_cons_of_ne hx', lookup_cons_of_ne hx', ih]

@[simp] theorem get?_set_self (m : AssocMap α β) (a : α) (b : β) :
    (m.set a b).get? a = some b := by
  have hnone : (m.filter fun e => !(e.1 == a)).lookup a = none := by
    rw [List.lookup_eq_none_iff]
    intro p hp
    have hpa : ¬ p.1 = a := by simpa using (List.mem_filter.1 hp).2
    exact bne_iff_ne.2 (Ne.symm hpa)
  simp [get?, set, List.lookup_append, hnone]

theorem get?_set_of_ne (m : AssocMap α β) {a a' : α} (h : a' ≠ a) (b : β) :
    (m.set a b).get? a' = m.get? a' := by
  have hnone : [(a, b)].lookup a' = none := lookup_cons_of_ne (Ne.symm h) []
  simp [get?, set, List.lookup_append, lookup_filter_of_ne m h, hnone]

/-- Rewriting the entries of one key leaves the lookups of the others. -/
theorem lookup_map_of_ne (m : AssocMap α β) {a k : α} (h : k ≠ a) (g : α × β → α × β)
    (hg : ∀ e : α × β, e.1 = a → (g e).1 = a) :
    (m.map fun e => if e.1 == a then g e else e).lookup k = m.lookup k := by
  induction m with
  | nil => rfl
  | cons x m ih =>
    by_cases hx : x.1 = a
    · have hgx : (g x).1 ≠ k := by rw [hg x hx]; exact Ne.symm h
      have hxk : x.1 ≠ k := by rw [hx]; exact Ne.symm h
      rw [List.map_cons, if_pos (by simpa using hx), lookup_cons_of_ne hgx, ih,
        lookup_cons_of_ne hxk]
    · rw [List.map_cons, if_neg (by simpa using hx)]
      by_cases hxk : x.1 = k
      · rw [lookup_cons_of_eq hxk, lookup_cons_of_eq hxk]
      · rw [lookup_cons_of_ne hxk, lookup_cons_of_ne hxk, ih]

@[simp] theorem get?_insert_self (m : AssocMap α β) (a : α) (b : β) :
    (m.insert a b).get? a = some b := by
  unfold insert get?
  split
  · rename_i hany
    induction m with
    | nil => simp at hany
    | cons x m ih =>
      by_cases hx : x.1 = a
      · rw [List.map_cons, if_pos (by simpa using hx)]
        exact lookup_cons_of_eq (x := (a, b)) rfl _
      · have hrest : (m.any fun e => e.1 == a) = true := by simpa [hx] using hany
        rw [List.map_cons, if_neg (by simpa using hx), lookup_cons_of_ne hx, ih hrest]
  · rename_i hany
    have hnone : m.lookup a = none := by
      rw [List.lookup_eq_none_iff]
      intro p hp
      have hpa : p.1 ≠ a := fun h => hany (List.any_eq_true.2 ⟨p, hp, by simp [h]⟩)
      exact bne_iff_ne.2 (Ne.symm hpa)
    simp [List.lookup_append, hnone]

theorem get?_insert_of_ne (m : AssocMap α β) {a k : α} (h : k ≠ a) (b : β) :
    (m.insert a b).get? k = m.get? k := by
  unfold insert get?
  split
  · exact lookup_map_of_ne m h (fun _ => (a, b)) fun _ _ => rfl
  · have hnone : [(a, b)].lookup k = none := lookup_cons_of_ne (Ne.symm h) []
    simp [List.lookup_append, hnone]

omit [LawfulBEq α] in
/-- An entry after an insertion is an entry from before, or the one inserted. -/
theorem mem_insert {m : AssocMap α β} {a : α} {b : β} {e : α × β} (h : e ∈ m.insert a b) :
    e ∈ m ∨ e = (a, b) := by
  unfold insert at h
  split at h
  · obtain ⟨x, hx, rfl⟩ := List.mem_map.1 h
    split
    · exact Or.inr rfl
    · exact Or.inl hx
  · rcases List.mem_append.1 h with h | h
    · exact Or.inl h
    · exact Or.inr (List.mem_singleton.1 h)

theorem nodup_keys_insert {m : AssocMap α β} (h : m.keys.Nodup) (a : α) (b : β) :
    (m.insert a b).keys.Nodup := by
  unfold insert keys
  split
  · -- the entry of `a` is overwritten where it stands, so the keys stay as they were
    have hkeys : (m.map fun e => if e.1 == a then (a, b) else e).map Prod.fst = m.map Prod.fst := by
      rw [List.map_map]
      refine List.map_congr_left fun e _ => ?_
      by_cases he : e.1 = a
      · simp [he]
      · simp [he]
    rw [hkeys]
    exact h
  · rename_i hany
    rw [List.map_append, List.map_singleton]
    refine List.nodup_append.2 ⟨h, List.nodup_singleton _, ?_⟩
    rintro x hx y hy rfl
    obtain ⟨e, he, rfl⟩ := List.mem_map.1 hx
    exact hany (List.any_eq_true.2 ⟨e, he, by simp [List.mem_singleton.1 hy]⟩)

@[simp] theorem get?_modify_self (m : AssocMap α β) (a : α) (f : β → β) :
    (m.modify a f).get? a = (m.get? a).map f := by
  unfold modify get?
  induction m with
  | nil => rfl
  | cons x m ih =>
    by_cases hx : x.1 = a
    · rw [List.map_cons, if_pos (by simpa using hx), lookup_cons_of_eq hx]
      exact lookup_cons_of_eq (x := (x.1, f x.2)) hx _
    · rw [List.map_cons, if_neg (by simpa using hx), lookup_cons_of_ne hx, lookup_cons_of_ne hx,
        ih]

theorem get?_modify_of_ne (m : AssocMap α β) {a k : α} (h : k ≠ a) (f : β → β) :
    (m.modify a f).get? k = m.get? k :=
  lookup_map_of_ne m h (fun e => (e.1, f e.2)) fun _ he => he
/-- Setting a new key appends its entry. -/
theorem set_of_not_mem {m : AssocMap α β} {a : α} (h : a ∉ m.keys) (b : β) :
    m.set a b = m ++ [(a, b)] := by
  unfold set
  rw [List.filter_eq_self.2]
  intro e he
  have hne : e.1 ≠ a := fun hea => h (hea ▸ List.mem_map_of_mem he)
  simpa using hne

/-- One value set at each key of a list, in turn. -/
theorem get?_foldl_set (b : β) (a : α) :
    ∀ (ks : List α) (m : AssocMap α β),
      (ks.foldl (fun m k => m.set k b) m).get? a = if a ∈ ks then some b else m.get? a
  | [], m => by simp
  | k :: ks, m => by
    rw [List.foldl_cons, get?_foldl_set b a ks]
    by_cases hk : a = k
    · subst hk
      simp
    · by_cases hks : a ∈ ks
      · simp [hks]
      · simp [hks, hk, get?_set_of_ne m hk]

/-- A key has a value exactly when it has an entry. -/
theorem get?_eq_none_iff {m : AssocMap α β} {a : α} : m.get? a = none ↔ a ∉ m.keys := by
  induction m with
  | nil => simp [get?, keys]
  | cons x m ih =>
    by_cases hx : x.1 = a
    · rw [get?, lookup_cons_of_eq hx]
      simp [keys, hx]
    · rw [get?, lookup_cons_of_ne hx, ← get?, ih]
      simp [keys, Ne.symm hx]

/-- Erasing the first key of a map with distinct keys leaves the others. -/
theorem keys_erase_of_keys_eq_cons {m : AssocMap α β} {a : α} {rest : List α}
    (hkeys : m.keys = a :: rest) (hnodup : m.keys.Nodup) : (m.erase a).keys = rest := by
  cases m with
  | nil => cases hkeys
  | cons x m =>
    simp only [keys, List.map_cons, List.cons.injEq] at hkeys
    obtain ⟨rfl, hrest⟩ := hkeys
    have hnot : x.1 ∉ keys m := by
      have := hnodup
      simp only [keys, List.map_cons, List.nodup_cons] at this
      exact this.1
    rw [erase, List.filter_cons_of_neg (by simp), List.filter_eq_self.2]
    · exact hrest
    · intro e he
      have hne : e.1 ≠ x.1 := fun h => hnot (h ▸ List.mem_map_of_mem he)
      simpa using hne

/-- Erasing a key keeps the value of every key it leaves. -/
theorem get?_of_get?_erase {m : AssocMap α β} {a k : α} {b : β} (h : (m.erase a).get? k = some b) :
    m.get? k = some b := by
  by_cases hk : k = a
  · subst hk
    have hnone : (m.erase k).get? k = none := by
      rw [get?, List.lookup_eq_none_iff]
      intro p hp
      have hpk : ¬ p.1 = k := by simpa using (List.mem_filter.1 hp).2
      exact bne_iff_ne.2 (Ne.symm hpk)
    rw [hnone] at h
    cases h
  · rwa [erase, get?, lookup_filter_of_ne m hk] at h

/-- Erasing a key that has no entry leaves the map. -/
theorem erase_of_not_mem {m : AssocMap α β} {a : α} (h : a ∉ m.keys) : m.erase a = m := by
  unfold erase
  rw [List.filter_eq_self]
  intro e he
  have hne : e.1 ≠ a := fun hea => h (hea ▸ List.mem_map_of_mem he)
  simpa using hne

/-- A sum over the entries is the sum without a key's entry and that entry's term. -/
theorem sum_map_erase (f : β → Nat) {m : AssocMap α β} (hm : m.keys.Nodup) (a : α) :
    ((m.erase a).map fun e => f e.2).sum + ((m.get? a).map f).getD 0 =
      (m.map fun e => f e.2).sum := by
  induction m with
  | nil => simp [erase, get?]
  | cons x m ih =>
    simp only [keys, List.map_cons, List.nodup_cons] at hm
    obtain ⟨hx, hm⟩ := hm
    by_cases hxa : x.1 = a
    · -- the entry of `a` goes, and no other has its key
      rw [erase, List.filter_cons_of_neg (by simp [hxa]), ← erase, erase_of_not_mem (hxa ▸ hx),
        get?, lookup_cons_of_eq hxa]
      simp only [Option.map_some, Option.getD_some, List.map_cons, List.sum_cons]
      omega
    · rw [erase, List.filter_cons_of_pos (by simpa using hxa), ← erase, get?,
        lookup_cons_of_ne hxa, ← get?]
      simp only [List.map_cons, List.sum_cons]
      have := ih hm
      omega

/-- Setting a key changes a sum over the entries by the new value's term less the old one's. -/
theorem sum_map_set (f : β → Nat) {m : AssocMap α β} (hm : m.keys.Nodup) (a : α) (b : β) :
    ((m.set a b).map fun e => f e.2).sum + ((m.get? a).map f).getD 0 =
      (m.map fun e => f e.2).sum + f b := by
  have herase := sum_map_erase f hm a
  have hset : m.set a b = m.erase a ++ [(a, b)] := rfl
  rw [hset, List.map_append, List.sum_append]
  simp only [List.map_cons, List.map_nil, List.sum_cons, List.sum_nil]
  omega

/-- In a map with distinct keys, an entry is the value of its key. -/
theorem get?_of_mem {m : AssocMap α β} (hm : m.keys.Nodup) {e : α × β} (he : e ∈ m) :
    m.get? e.1 = some e.2 := by
  induction m with
  | nil => cases he
  | cons x m ih =>
    simp only [keys, List.map_cons, List.nodup_cons] at hm
    rcases List.mem_cons.1 he with rfl | he
    · exact lookup_cons_of_eq rfl m
    · have hne : x.1 ≠ e.1 := fun h => hm.1 (h ▸ List.mem_map_of_mem he)
      rw [get?, lookup_cons_of_ne hne, ← get?]
      exact ih hm.2 he

theorem mem_keys_of_get? {m : AssocMap α β} {a : α} {b : β} (h : m.get? a = some b) :
    a ∈ m.keys := by
  induction m with
  | nil => cases h
  | cons x m ih =>
    by_cases hx : x.1 = a
    · exact hx ▸ List.mem_cons_self
    · rw [get?, lookup_cons_of_ne hx] at h
      exact List.mem_cons_of_mem _ (ih h)

/-- The value of a key is the value of one of its entries. -/
theorem mem_of_get? {m : AssocMap α β} {a : α} {b : β} (h : m.get? a = some b) : (a, b) ∈ m := by
  induction m with
  | nil => cases h
  | cons x m ih =>
    by_cases hx : x.1 = a
    · rw [get?, lookup_cons_of_eq hx, Option.some.injEq] at h
      subst hx h
      exact List.mem_cons_self
    · rw [get?, lookup_cons_of_ne hx] at h
      exact List.mem_cons_of_mem _ (ih h)

/-- The values of distinct keys, missing keys counted as `0`, sum to at most the values of the
whole map. -/
theorem sum_getD_le [DecidableEq α] {m : AssocMap α Nat} (hm : m.keys.Nodup) {ks : List α}
    (hks : ks.Nodup) : (ks.map fun k => (m.get? k).getD 0).sum ≤ (m.map (·.2)).sum := by
  have hvalues : (m.keys.map fun k => (m.get? k).getD 0) = m.map (·.2) := by
    rw [keys, List.map_map]
    refine List.map_congr_left fun e he => ?_
    simp [get?_of_mem hm he]
  rw [← List.sum_toFinset _ hks, ← hvalues, ← List.sum_toFinset _ hm]
  refine Finset.sum_le_sum_of_ne_zero fun k _ hk => List.mem_toFinset.2 ?_
  cases hget : m.get? k with
  | none => simp [hget] at hk
  | some b => exact mem_keys_of_get? hget

end AssocMap

/-! ## Functions updated along a list of distinct keys

A map read as a function of its keys: the values listed along distinct keys, updated at one key,
are the listed values with one position set. -/

namespace List

variable {α β : Type}

/-- Distinct keys at two positions differ. -/
theorem Nodup.getElem?_ne {ks : List α} (hks : ks.Nodup) {i j : Nat} {a b : α}
    (ha : ks[i]? = some a) (hb : ks[j]? = some b) (hij : i ≠ j) : a ≠ b := by
  rintro rfl
  obtain ⟨hi, rfl⟩ := List.getElem?_eq_some_iff.1 ha
  obtain ⟨hj, hji⟩ := List.getElem?_eq_some_iff.1 hb
  exact hij (hks.getElem_inj_iff.1 hji.symm)

variable [DecidableEq α]

/-- Along distinct keys, updating a function at the key of position `i` sets position `i`. -/
theorem map_update_eq_set (V : α → β) {ks : List α} (hks : ks.Nodup) {i : Nat} {k : α}
    (hk : ks[i]? = some k) (x : β) : ks.map (Function.update V k x) = (ks.map V).set i x := by
  obtain ⟨hi, rfl⟩ := List.getElem?_eq_some_iff.1 hk
  apply List.ext_getElem (by simp)
  intro j hj _
  have hj' : j < ks.length := by simpa using hj
  -- two positions of distinct keys hold the same key only if they are one
  have hkey : ks[j] = ks[i] ↔ j = i := hks.getElem_inj_iff
  by_cases hji : j = i
  · subst hji
    simp
  · simp [Ne.symm hji, (not_congr hkey).2 hji]

/-- A function is determined by its values along a list and off it. -/
theorem eq_of_map_eq {V U : α → β} {ks : List α} (hmap : ks.map V = ks.map U)
    (hoff : ∀ k, k ∉ ks → V k = U k) : V = U := by
  funext k
  by_cases hk : k ∈ ks
  · exact List.map_inj_left.1 hmap k hk
  · exact hoff k hk

/-- Updating a function at one of distinct keys changes a sum along them by the new value's term
less the old one's. -/
theorem sum_map_update (f : β → Nat) (V : α → β) {ks : List α} (hks : ks.Nodup) {k : α}
    (hk : k ∈ ks) (x : β) :
    (ks.map fun a => f (Function.update V k x a)).sum + f (V k) =
      (ks.map fun a => f (V a)).sum + f x := by
  induction ks with
  | nil => cases hk
  | cons a ks ih =>
    rw [List.nodup_cons] at hks
    simp only [List.map_cons, List.sum_cons]
    by_cases hak : a = k
    · -- the key is at the head; along the rest nothing changes
      subst hak
      have hrest : (ks.map fun b => f (Function.update V a x b)) = ks.map fun b => f (V b) :=
        List.map_congr_left fun b hb => by
          have hba : b ≠ a := fun hba => hks.1 (hba ▸ hb)
          rw [Function.update_of_ne hba]
      rw [hrest, Function.update_self]
      omega
    · have hk' : k ∈ ks := (List.mem_cons.1 hk).resolve_left (Ne.symm hak)
      have := ih hks.2 hk'
      rw [Function.update_of_ne hak]
      omega

end List
