import Mathlib

/-!
# A register that keeps the greatest value offered

Values are offered one after another to a register; a value replaces the one held when its key is
strictly greater (`adopt`).  Over a linear order of keys:

* `select_spec`: after a list of offers the register holds one of them, of greatest key;
* `select_eq_of_mem_iff`: when the key tells the offered values apart, what is held depends only on
  which values were offered, not on their order or repeats;
* `le_key_adopt`: an offer never lowers the key held.

Sorting by key with the stable merge sort puts a value of greatest key last
(`getLast?_mergeSort_spec`).
-/

namespace Greatest

variable {α β : Type} [LinearOrder β] (key : α → β)

/-- Offer a value to the register. -/
def adopt : Option α → α → Option α
  | none, a => some a
  | some c, a => if key c < key a then some a else some c

theorem adopt_none (a : α) : adopt key none a = some a := rfl

theorem adopt_some (c a : α) :
    adopt key (some c) a = if key c < key a then some a else some c := rfl

/-- The register after a list of offers to an empty one. -/
def select (l : List α) : Option α := l.foldl (adopt key) none

variable {key} {l l' : List α} {a c m : α}

@[simp] theorem select_nil : select key ([] : List α) = none := rfl

theorem select_concat (l : List α) (a : α) :
    select key (l ++ [a]) = adopt key (select key l) a := by
  simp [select, List.foldl_append]

theorem adopt_ne_none (cur : Option α) (a : α) : adopt key cur a ≠ none := by
  cases cur with
  | none => simp [adopt_none]
  | some c =>
    rw [adopt_some]
    split <;> simp

/-- The value held after an offer is the offered one or the one held before, of key no lower than
either. -/
theorem adopt_spec {cur : Option α} (h : adopt key cur a = some m) :
    (m = a ∨ cur = some m) ∧ key a ≤ key m ∧ ∀ c, cur = some c → key c ≤ key m := by
  cases cur with
  | none =>
    simp only [adopt_none, Option.some.injEq] at h
    subst h
    simp
  | some c =>
    rw [adopt_some] at h
    split at h
    · rename_i hlt
      cases h
      exact ⟨Or.inl rfl, le_refl _, fun c' hc' => by cases hc'; exact hlt.le⟩
    · rename_i hlt
      cases h
      exact ⟨Or.inr rfl, not_lt.1 hlt, fun c' hc' => by cases hc'; exact le_refl _⟩

/-- An offer never lowers the key held. -/
theorem le_key_adopt (h : adopt key (some c) a = some m) : key c ≤ key m :=
  (adopt_spec h).2.2 c rfl

theorem select_eq_none_iff : select key l = none ↔ l = [] := by
  induction l using List.reverseRecOn with
  | nil => simp
  | append_singleton l a _ => simp [select_concat, adopt_ne_none]

/-- The register holds an offered value of greatest key.  The induction is on the offers, from the
last. -/
theorem select_spec (h : select key l = some m) : m ∈ l ∧ ∀ a ∈ l, key a ≤ key m := by
  induction l using List.reverseRecOn generalizing m with
  | nil => simp at h
  | append_singleton l a ih =>
    rw [select_concat] at h
    obtain ⟨hm, hle, hcur⟩ := adopt_spec h
    refine ⟨?_, fun b hb => ?_⟩
    · rcases hm with rfl | hm
      · simp
      · exact List.mem_append_left _ (ih hm).1
    · rcases List.mem_append.1 hb with hb | hb
      · -- an earlier offer is below what was held, and that is below what is held now
        cases hsel : select key l with
        | none => simp [select_eq_none_iff.1 hsel] at hb
        | some c => exact ((ih hsel).2 b hb).trans (hcur c hsel)
      · rw [List.mem_singleton.1 hb]
        exact hle

/-- A value of greatest key is what the register holds, when the key tells the offers apart. -/
theorem select_eq_of_max (hinj : ∀ a ∈ l, ∀ b ∈ l, key a = key b → a = b) (hm : m ∈ l)
    (hmax : ∀ a ∈ l, key a ≤ key m) : select key l = some m := by
  cases hsel : select key l with
  | none => simp [select_eq_none_iff.1 hsel] at hm
  | some m' =>
    obtain ⟨hm', hmax'⟩ := select_spec hsel
    exact congrArg some (hinj m' hm' m hm (le_antisymm (hmax m' hm') (hmax' m hm)))

/-- Two registers offered the same values, in any order and with any repeats, hold the same one,
when the key tells the offers apart. -/
theorem select_eq_of_mem_iff (hinj : ∀ a ∈ l, ∀ b ∈ l, key a = key b → a = b)
    (h : ∀ a, a ∈ l ↔ a ∈ l') : select key l = select key l' := by
  cases hsel : select key l with
  | none =>
    rw [select_eq_none_iff] at hsel
    subst hsel
    cases l' with
    | nil => rfl
    | cons x l' => exact absurd ((h x).2 List.mem_cons_self) List.not_mem_nil
  | some m =>
    obtain ⟨hm, hmax⟩ := select_spec hsel
    have hinj' : ∀ a ∈ l', ∀ b ∈ l', key a = key b → a = b := fun a ha b hb =>
      hinj a ((h a).2 ha) b ((h b).2 hb)
    exact (select_eq_of_max hinj' ((h m).1 hm) fun a ha => hmax a ((h a).2 ha)).symm

/-- The last value of a list sorted by key, stably, is one of its values of greatest key. -/
theorem getLast?_mergeSort_spec
    (h : (l.mergeSort fun a b => decide (key a ≤ key b)).getLast? = some m) :
    m ∈ l ∧ ∀ a ∈ l, key a ≤ key m := by
  have hsorted := List.pairwise_mergeSort
    (fun a b c (hab : decide (key a ≤ key b) = true) (hbc : decide (key b ≤ key c) = true) =>
      decide_eq_true ((of_decide_eq_true hab).trans (of_decide_eq_true hbc)))
    (fun a b => by simpa using le_total (key a) (key b)) l
  obtain ⟨ys, hys⟩ := List.getLast?_eq_some_iff.1 h
  have hmem : ∀ a, a ∈ l ↔ a ∈ ys ++ [m] := fun a => by rw [← hys, List.mem_mergeSort]
  refine ⟨(hmem m).2 (List.mem_append_right _ (List.mem_singleton_self m)), fun a ha => ?_⟩
  rw [hys, List.pairwise_append] at hsorted
  rcases List.mem_append.1 ((hmem a).1 ha) with ha | ha
  · exact of_decide_eq_true (hsorted.2.2 a ha m (List.mem_singleton_self m))
  · rw [List.mem_singleton.1 ha]

end Greatest
