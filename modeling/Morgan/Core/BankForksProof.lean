import Morgan.Core.BankForks

/-!
# Descendants and pruning

`descendants()` folds each bank into the map: the entry of the bank's own slot is created, and
its slot is added to the entry of every proper ancestor.  Entries only grow along the fold
(`foldl_addDescendants_mono`), so `descendants()[a]` holds exactly the slots of the banks that
list `a` among their proper ancestors (`mem_descendants_iff`), and it has an entry for every bank
slot (`descendants_isSome`).

`set_root(r)` keeps exactly those banks (`mem_setRoot_banks`): the bank of `r` lists `r` as its own
slot, not as a proper ancestor, so the root bank itself is pruned (`setRoot_get_root`).
-/

namespace Morgan

namespace BankForks

theorem mem_foldl_addDescendants :
    ∀ (l : List ForkBank) (m : DescendantsMap) {a s : Slot} {d : Finset Slot},
      l.foldl addDescendants m a = some d → s ∈ d →
        (∃ d₀, m a = some d₀ ∧ s ∈ d₀) ∨ ∃ b ∈ l, b.slot = s ∧ a ∈ b.ancestors ∧ a ≠ b.slot
  | [], m, a, s, d, h, hs => Or.inl ⟨d, h, hs⟩
  | b :: l, m, a, s, d, h, hs => by
    rcases mem_foldl_addDescendants l (addDescendants m b) h hs with ⟨d₀, h₀, hs₀⟩ | ⟨b', hb', rest⟩
    · unfold addDescendants at h₀
      -- the entry of `a` after `b`: `b`'s slot added, the empty entry created, or untouched
      split_ifs at h₀ with ha ha'
      · rw [Option.some.inj h₀.symm, Finset.mem_insert] at hs₀
        rcases hs₀ with rfl | hs₀
        · exact Or.inr ⟨b, List.mem_cons_self, rfl, ha⟩
        · cases hm : m a with
          | none => simp [hm] at hs₀
          | some d₁ => exact Or.inl ⟨d₁, rfl, by simpa [hm] using hs₀⟩
      · rw [← Option.some.inj h₀] at hs₀
        cases hm : m a with
        | none => simp [hm] at hs₀
        | some d₁ => exact Or.inl ⟨d₁, rfl, by simpa [hm] using hs₀⟩
      · exact Or.inl ⟨d₀, h₀, hs₀⟩
    · exact Or.inr ⟨b', List.mem_cons_of_mem b hb', rest⟩

/-- A slot in `descendants()[a]` is the slot of a bank whose ancestors contain `a`. -/
theorem mem_descendants {forks : BankForks} {a s : Slot} {d : Finset Slot}
    (h : forks.descendants a = some d) (hs : s ∈ d) :
    ∃ b ∈ forks.banks, b.slot = s ∧ a ∈ b.ancestors ∧ a ≠ b.slot := by
  rcases mem_foldl_addDescendants forks.banks _ h hs with ⟨_, h₀, _⟩ | hb
  · cases h₀
  · exact hb

theorem addDescendants_mono {m : DescendantsMap} {a : Slot} {d : Finset Slot} (h : m a = some d)
    (b : ForkBank) : ∃ d', addDescendants m b a = some d' ∧ d ⊆ d' := by
  unfold addDescendants
  split_ifs
  · exact ⟨_, rfl, by simp [h, Finset.subset_insert]⟩
  · exact ⟨_, rfl, by simp [h]⟩
  · exact ⟨d, h, subset_rfl⟩

/-- Folding banks in never removes an entry nor a slot from an entry. -/
theorem foldl_addDescendants_mono :
    ∀ (l : List ForkBank) {m : DescendantsMap} {a : Slot} {d : Finset Slot}, m a = some d →
      ∃ d', l.foldl addDescendants m a = some d' ∧ d ⊆ d'
  | [], _, _, d, h => ⟨d, h, subset_rfl⟩
  | b :: l, _, _, _, h => by
    obtain ⟨d₁, h₁, hsub₁⟩ := addDescendants_mono h b
    obtain ⟨d₂, h₂, hsub₂⟩ := foldl_addDescendants_mono l h₁
    exact ⟨d₂, h₂, hsub₁.trans hsub₂⟩

theorem foldl_addDescendants_entry :
    ∀ (l : List ForkBank) (m : DescendantsMap) {b : ForkBank}, b ∈ l →
      ∃ d, l.foldl addDescendants m b.slot = some d
  | b' :: l, m, b, hb => by
    rcases List.mem_cons.1 hb with rfl | hb
    · have h : addDescendants m b b.slot = some ((m b.slot).getD ∅) := by simp [addDescendants]
      obtain ⟨d, hd, -⟩ := foldl_addDescendants_mono l h
      exact ⟨d, hd⟩
    · exact foldl_addDescendants_entry l _ hb

theorem foldl_addDescendants_mem :
    ∀ (l : List ForkBank) (m : DescendantsMap) {a : Slot} {b : ForkBank}, b ∈ l →
      a ∈ b.ancestors → a ≠ b.slot → ∃ d, l.foldl addDescendants m a = some d ∧ b.slot ∈ d
  | b' :: l, m, a, b, hb, ha, hne => by
    rcases List.mem_cons.1 hb with rfl | hb
    · have h : addDescendants m b a = some (Insert.insert b.slot ((m a).getD ∅)) := by
        simp [addDescendants, ha, hne]
      obtain ⟨d, hd, hsub⟩ := foldl_addDescendants_mono l h
      exact ⟨d, hd, hsub (Finset.mem_insert_self _ _)⟩
    · exact foldl_addDescendants_mem l _ hb ha hne

/-- Every bank slot has an entry in `descendants()`. -/
theorem descendants_isSome {forks : BankForks} {b : ForkBank} (hb : b ∈ forks.banks) :
    ∃ d, forks.descendants b.slot = some d :=
  foldl_addDescendants_entry _ _ hb

/-- `descendants()[a]` holds exactly the slots of the banks listing `a` as a proper ancestor. -/
theorem mem_descendants_iff {forks : BankForks} {a : Slot} {d : Finset Slot}
    (h : forks.descendants a = some d) (s : Slot) :
    s ∈ d ↔ ∃ b ∈ forks.banks, b.slot = s ∧ a ∈ b.ancestors ∧ a ≠ b.slot := by
  constructor
  · exact mem_descendants h
  · rintro ⟨b, hb, rfl, ha, hne⟩
    obtain ⟨d', hd', hs⟩ := foldl_addDescendants_mem _ _ hb ha hne
    rw [descendants, hd'] at h
    exact Option.some.inj h ▸ hs

theorem get_eq_some {forks : BankForks} {slot : Slot} {b : ForkBank}
    (h : forks.get slot = some b) : b ∈ forks.banks ∧ b.slot = slot :=
  ⟨List.mem_of_find?_eq_some h, by simpa using List.find?_some h⟩

theorem get_eq_none {forks : BankForks} {slot : Slot} :
    forks.get slot = none ↔ ∀ b ∈ forks.banks, b.slot ≠ slot := by
  simp [get, List.find?_eq_none]

/-- After `set_root(r)`: the banks kept are exactly those that list `r` as a proper ancestor, and
`set_root` does not panic when `r` has a bank. -/
theorem mem_setRoot_banks {forks : BankForks} {r : Slot} {b₀ : ForkBank}
    (hr : forks.get r = some b₀) :
    ∃ forks', forks.setRoot r = some forks' ∧ forks'.root = r ∧
      ∀ b, b ∈ forks'.banks ↔ b ∈ forks.banks ∧ r ∈ b.ancestors ∧ r ≠ b.slot := by
  obtain ⟨hb₀, rfl⟩ := get_eq_some hr
  obtain ⟨d, hd⟩ := descendants_isSome hb₀
  refine ⟨⟨forks.banks.filter (·.slot ∈ d), b₀.slot, forks.nodup_filter _⟩, ?_, rfl, fun b => ?_⟩
  · -- the descendants map reads only the banks, which recording the root leaves alone
    have hd' : ({ forks with root := b₀.slot } : BankForks).descendants b₀.slot = some d := hd
    simp [setRoot, hr, pruneNonRoot, hd']
  simp only [List.mem_filter, decide_eq_true_eq]
  rw [mem_descendants_iff hd]
  constructor
  · rintro ⟨hb, b', hb', hslot, ha, hne⟩
    have : b' = b := by
      have := forks.nodup
      exact (List.inj_on_of_nodup_map this hb' hb hslot)
    subst this
    exact ⟨hb, ha, hne⟩
  · rintro ⟨hb, ha, hne⟩
    exact ⟨hb, b, hb, rfl, ha, hne⟩

/-- `set_root(r)` prunes the bank of `r` itself. -/
theorem setRoot_get_root {forks forks' : BankForks} {r : Slot} (h : forks.setRoot r = some forks') :
    forks'.get r = none := by
  obtain ⟨b₀, hb₀⟩ : ∃ b₀, forks.get r = some b₀ := by
    cases hg : forks.get r with
    | none => simp [setRoot, hg] at h
    | some b₀ => exact ⟨b₀, rfl⟩
  obtain ⟨forks'', h'', -, hmem⟩ := mem_setRoot_banks hb₀
  rw [h] at h''
  cases h''
  exact get_eq_none.2 fun b hb hbr => ((hmem b).1 hb).2.2 hbr.symm

/-- `set_root(1)` over the chain `0 ← 1 ← 2`: the bank of the new root is pruned with slot 0, and
only slot 2 is left. -/
theorem setRoot_prunes_new_root :
    ((⟨[⟨0, {0}, true⟩, ⟨1, {0, 1}, true⟩, ⟨2, {0, 1, 2}, true⟩], 0, by decide⟩ : BankForks).setRoot 1).map
      (fun forks => (forks.get 1, forks.banks.map (·.slot))) = some (none, [2]) := by
  decide

end BankForks

end Morgan
