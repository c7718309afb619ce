import Mathlib
import Morgan.Core.BlocktreeInsert

/-!
# Finding the missing blobs of a slot

`blockBufferPool.rs`, `find_missing_indexes`: the indexes in `[start_index, end_index)` of a slot
that have no blob in the `Data` column, in increasing order, at most `max_missing` of them.

The column is read through a cursor over its keys in order.  A key is the slot and the index
written big-endian, so the order is by slot, then by index (`keyLt`).  A `Cursor` is the list of
the keys in that order, and carries the order as a field; `seek` drops the keys below its target.
The loop pushes the gap before each key of the slot, stops at a key of a later slot, at the end of
the column or past `end_index`, and stops as soon as `max_missing` indexes are found.

* `findMissingLoop_eq`: from any point of the cursor the loop pushes the filtered range, cut to
  what is left of `max_missing`; the induction is on the cursor, with the keys ahead of it above
  the current index as the invariant.
* `find_missing_indexes_exact`: the result is the range filtered by the stored keys and cut to
  `max_missing`, for every set of stored keys.
-/

namespace Morgan

/-- The order of the `Data` column's keys: by slot, then by index. -/
def keyLt (a b : Slot × UInt64) : Bool := a.1 < b.1 || (a.1 = b.1 && a.2 < b.2)

theorem keyLt_iff {a b : Slot × UInt64} :
    keyLt a b = true ↔
      a.1.toNat < b.1.toNat ∨ a.1.toNat = b.1.toNat ∧ a.2.toNat < b.2.toNat := by
  simp [keyLt, UInt64.lt_iff_toNat_lt, UInt64.toNat_inj]

theorem keyLe_trans (a b c : Slot × UInt64) (hab : (!keyLt b a) = true)
    (hbc : (!keyLt c b) = true) : (!keyLt c a) = true := by
  simp only [Bool.not_eq_true', ← Bool.not_eq_true, keyLt_iff] at *
  omega

theorem keyLe_total (a b : Slot × UInt64) : (!keyLt b a || !keyLt a b) = true := by
  simp only [Bool.or_eq_true, Bool.not_eq_true', ← Bool.not_eq_true, keyLt_iff]
  omega

/-- A cursor over the `Data` column: its keys, in increasing order. -/
structure Cursor where
  keys : List (Slot × UInt64)
  sorted : keys.Pairwise fun a b => keyLt a b = true

namespace Cursor

/-- The cursor over a set of stored keys, given as a list in any order and with repeats. -/
def ofKeys (keys : List (Slot × UInt64)) : Cursor where
  keys := keys.dedup.mergeSort fun a b => !keyLt b a
  sorted := by
    have hle := List.pairwise_mergeSort keyLe_trans keyLe_total keys.dedup
    have hnd := ((List.mergeSort_perm keys.dedup fun a b => !keyLt b a).nodup_iff).2
      (List.nodup_dedup keys)
    -- sorted without repeats is sorted strictly
    refine (hle.and hnd).imp fun {a b} ⟨hab, hne⟩ => ?_
    have hne' : a.1.toNat ≠ b.1.toNat ∨ a.2.toNat ≠ b.2.toNat := by
      by_contra hc
      exact hne (Prod.ext (UInt64.toNat_inj.1 (by omega)) (UInt64.toNat_inj.1 (by omega)))
    simp only [Bool.not_eq_true', ← Bool.not_eq_true, keyLt_iff] at hab ⊢
    omega

theorem mem_ofKeys {keys : List (Slot × UInt64)} {k : Slot × UInt64} :
    k ∈ (ofKeys keys).keys ↔ k ∈ keys := by
  simp [ofKeys, List.mem_mergeSort]

end Cursor

/-- `seek`: the cursor at the first key not below the target. -/
def seek (keys : List (Slot × UInt64)) (target : Slot × UInt64) : List (Slot × UInt64) :=
  keys.dropWhile fun k => keyLt k target

/-- The indexes of the range `a..b`. -/
def indexRange (a b : UInt64) : List UInt64 :=
  (List.range' a.toNat (b.toNat - a.toNat)).map UInt64.ofNat

/-- The `for i in prev_index..upper_index` loop: push each index, and stop once `max_missing`
indexes are found (`true`). -/
def pushMissing (maxMissing : Nat) : List UInt64 → List UInt64 → Bool × List UInt64
  | [], missing => (false, missing)
  | i :: is, missing =>
    if (missing ++ [i]).length = maxMissing then (true, missing ++ [i])
    else pushMissing maxMissing is (missing ++ [i])

/-- The outer loop of `find_missing_indexes`, over the cursor from `prev_index` on: a key of a
later slot stands for `end_index`. -/
def findMissingLoop (slot endIndex : UInt64) (maxMissing : Nat) :
    List (Slot × UInt64) → UInt64 → List UInt64 → List UInt64
  | [], prevIndex, missing => (pushMissing maxMissing (indexRange prevIndex endIndex) missing).2
  | (currentSlot, index) :: rest, prevIndex, missing =>
    let currentIndex := if currentSlot > slot then endIndex else index
    let upperIndex := min currentIndex endIndex
    match pushMissing maxMissing (indexRange prevIndex upperIndex) missing with
    | (true, missing) => missing
    | (false, missing) =>
      if currentSlot > slot then missing
      else if currentIndex ≥ endIndex then missing
      else findMissingLoop slot endIndex maxMissing rest (currentIndex + 1) missing

/-- `find_missing_indexes`. -/
def findMissingIndexes (cursor : Cursor) (slot startIndex endIndex : UInt64)
    (maxMissing : Nat) : List UInt64 :=
  if startIndex ≥ endIndex || maxMissing = 0 then []
  else findMissingLoop slot endIndex maxMissing (seek cursor.keys (slot, startIndex)) startIndex []

/-- `find_missing_data_indexes`: the search over the cursor of the `Data` column. -/
def Ledger.findMissingDataIndexes (l : Ledger) (slot startIndex endIndex : UInt64)
    (maxMissing : Nat) : List UInt64 :=
  findMissingIndexes (Cursor.ofKeys l.data) slot startIndex endIndex maxMissing

/-- The indexes of `a..b` with no stored key of the slot. -/
def missingIn (keys : List (Slot × UInt64)) (slot a b : UInt64) : List UInt64 :=
  (indexRange a b).filter fun i => (slot, i) ∉ keys

/-! ## Ranges of indexes -/

section Ranges

variable {a b c i : UInt64}

theorem mem_indexRange : i ∈ indexRange a b ↔ a.toNat ≤ i.toNat ∧ i.toNat < b.toNat := by
  have hb := b.toNat_lt
  constructor
  · simp only [indexRange, List.mem_map, List.mem_range'_1]
    rintro ⟨n, hn, rfl⟩
    rw [UInt64.toNat_ofNat', Nat.mod_eq_of_lt (by omega)]
    omega
  · intro h
    simp only [indexRange, List.mem_map, List.mem_range'_1]
    exact ⟨i.toNat, by omega, UInt64.ofNat_toNat⟩

@[simp] theorem length_indexRange : (indexRange a b).length = b.toNat - a.toNat := by
  simp [indexRange]

theorem indexRange_of_le (h : b.toNat ≤ a.toNat) : indexRange a b = [] := by
  simp [indexRange, Nat.sub_eq_zero_of_le h]

theorem indexRange_append (hab : a.toNat ≤ b.toNat) (hbc : b.toNat ≤ c.toNat) :
    indexRange a b ++ indexRange b c = indexRange a c := by
  have hsplit := @List.range'_append a.toNat (b.toNat - a.toNat) (c.toNat - b.toNat) 1
  rw [show a.toNat + 1 * (b.toNat - a.toNat) = b.toNat by omega,
    show b.toNat - a.toNat + (c.toNat - b.toNat) = c.toNat - a.toNat by omega] at hsplit
  simp only [indexRange, ← List.map_append, hsplit]

/-- Below another index, `a + 1` does not wrap. -/
theorem toNat_add_one_of_lt (h : a.toNat < b.toNat) : (a + 1).toNat = a.toNat + 1 := by
  have := b.toNat_lt
  rw [UInt64.toNat_add, UInt64.toNat_one]
  omega

theorem indexRange_cons (h : a.toNat < b.toNat) : indexRange a b = a :: indexRange (a + 1) b := by
  simp only [indexRange, toNat_add_one_of_lt h]
  rw [show b.toNat - a.toNat = (b.toNat - (a.toNat + 1)) + 1 by omega, List.range'_succ,
    List.map_cons, UInt64.ofNat_toNat]

theorem min_eq_of_toNat_le (h : a.toNat ≤ b.toNat) : min a b = a := by
  rw [UInt64.min_def, if_pos (UInt64.le_iff_toNat_le.2 h)]

theorem min_eq_of_toNat_ge (h : b.toNat ≤ a.toNat) : min a b = b := by
  rw [UInt64.min_def]
  split
  · rename_i hab
    exact UInt64.toNat_inj.1 (by rw [UInt64.le_iff_toNat_le] at hab; omega)
  · rfl

end Ranges

/-! ## Pushing a range -/

/-- The inner loop pushes the range, cut to what is left of `max_missing`, and reports whether it
reached it. -/
theorem pushMissing_eq (maxMissing : Nat) :
    ∀ (is missing : List UInt64), missing.length < maxMissing →
      pushMissing maxMissing is missing =
        (decide (maxMissing - missing.length ≤ is.length),
          missing ++ is.take (maxMissing - missing.length))
  | [], missing, h => by
    simp only [pushMissing, List.length_nil, List.take_nil, List.append_nil, Prod.mk.injEq,
      and_true]
    exact (decide_eq_false (by omega)).symm
  | i :: is, missing, h => by
    by_cases hfull : missing.length + 1 = maxMissing
    · rw [pushMissing, if_pos (by simpa using hfull)]
      have hleft : maxMissing - missing.length = 1 := by omega
      simp [hleft]
    · have hlen : (missing ++ [i]).length < maxMissing := by simp; omega
      rw [pushMissing, if_neg (by simpa using hfull), pushMissing_eq maxMissing is _ hlen]
      have hleft : maxMissing - missing.length = (maxMissing - (missing.length + 1)) + 1 := by
        omega
      simp only [List.length_append, List.length_cons, hleft, List.take_succ_cons,
        List.append_assoc, List.singleton_append, Prod.mk.injEq]
      simp

/-! ## The keys ahead of the cursor -/

section Keys

variable {slot : Slot} {k h : Slot × UInt64} {rest keys : List (Slot × UInt64)}

theorem not_keyLt_self (k : Slot × UInt64) : keyLt k k = false := by
  rw [← Bool.not_eq_true, keyLt_iff]
  omega

/-- A key below the head of a sorted cursor is not in it. -/
theorem not_mem_of_keyLt_head (hs : (h :: rest).Pairwise fun a b => keyLt a b = true)
    (hk : keyLt k h = true) : k ∉ h :: rest := by
  intro hmem
  rcases List.mem_cons.1 hmem with rfl | hmem
  · simp [not_keyLt_self] at hk
  · have := List.rel_of_pairwise_cons hs hmem
    rw [keyLt_iff] at hk this
    omega

/-- Past the head of a sorted cursor, the keys are the tail's. -/
theorem mem_cons_iff_of_keyLt (hk : keyLt h k = true) : k ∈ h :: rest ↔ k ∈ rest := by
  refine ⟨fun hmem => (List.mem_cons.1 hmem).resolve_left ?_, List.mem_cons_of_mem h⟩
  rintro rfl
  simp [not_keyLt_self] at hk

/-- `seek` keeps every key not below its target. -/
theorem mem_seek_iff {target : Slot × UInt64} (hk : keyLt k target = false) :
    k ∈ seek keys target ↔ k ∈ keys := by
  induction keys with
  | nil => simp [seek]
  | cons x xs ih =>
    unfold seek at ih ⊢
    rw [List.dropWhile_cons]
    split
    · rw [ih, List.mem_cons]
      refine ⟨Or.inr, fun hx => hx.resolve_left ?_⟩
      rintro rfl
      simp_all
    · rfl

/-- After `seek`, no key of the cursor is below its target. -/
theorem seek_above {target : Slot × UInt64} (hs : keys.Pairwise fun a b => keyLt a b = true) :
    ∀ k ∈ seek keys target, keyLt k target = false := by
  induction keys with
  | nil => simp [seek]
  | cons x xs ih =>
    unfold seek at ih ⊢
    rw [List.dropWhile_cons]
    split
    · exact ih (List.pairwise_cons.1 hs).2
    · rename_i hx
      intro k hk
      rcases List.mem_cons.1 hk with rfl | hk
      · simpa using hx
      · have hxk := List.rel_of_pairwise_cons hs hk
        simp only [Bool.not_eq_true] at hx
        rw [← Bool.not_eq_true, keyLt_iff] at hx ⊢
        rw [keyLt_iff] at hxk
        omega

end Keys

/-! ## The filtered range -/

section Missing

variable {keys keys' : List (Slot × UInt64)} {slot a b c : UInt64}

theorem missingIn_append (hab : a.toNat ≤ b.toNat) (hbc : b.toNat ≤ c.toNat) :
    missingIn keys slot a b ++ missingIn keys slot b c = missingIn keys slot a c := by
  rw [missingIn, missingIn, missingIn, ← List.filter_append, indexRange_append hab hbc]

theorem missingIn_congr (h : ∀ i ∈ indexRange a b, (slot, i) ∈ keys ↔ (slot, i) ∈ keys') :
    missingIn keys slot a b = missingIn keys' slot a b :=
  List.filter_congr fun i hi => by simp [h i hi]

theorem missingIn_of_not_mem (h : ∀ i ∈ indexRange a b, (slot, i) ∉ keys) :
    missingIn keys slot a b = indexRange a b :=
  List.filter_eq_self.2 fun i hi => by simp [h i hi]

theorem mem_missingIn {i : UInt64} :
    i ∈ missingIn keys slot a b ↔
      a.toNat ≤ i.toNat ∧ i.toNat < b.toNat ∧ (slot, i) ∉ keys := by
  simp [missingIn, mem_indexRange, and_assoc]

/-- The missing indexes come in increasing order. -/
theorem missingIn_sorted : (missingIn keys slot a b).Pairwise fun i j => i < j := by
  have hb := b.toNat_lt
  refine List.Pairwise.filter _ ?_
  rw [indexRange, List.pairwise_map]
  refine List.Pairwise.imp_of_mem (fun {m n} hm hn hmn => ?_) (List.pairwise_lt_range' 1)
  rw [List.mem_range'_1] at hm hn
  rw [UInt64.lt_iff_toNat_lt, UInt64.toNat_ofNat', UInt64.toNat_ofNat',
    Nat.mod_eq_of_lt (by omega), Nat.mod_eq_of_lt (by omega)]
  exact hmn

end Missing

/-! ## The loop -/

section Loop

variable {slot endIndex : UInt64} {maxMissing : Nat}

/-- At a key of the slot not below `prev_index`, the filtered range is the gap before the key
and the filtered range from it. -/
theorem missingIn_head_split {idx prevIndex : UInt64} {rest : List (Slot × UInt64)}
    (hs : ((slot, idx) :: rest).Pairwise fun a b => keyLt a b = true)
    (hprev : prevIndex.toNat ≤ idx.toNat) (hend : prevIndex.toNat ≤ endIndex.toNat) :
    missingIn ((slot, idx) :: rest) slot prevIndex endIndex =
      indexRange prevIndex (min idx endIndex) ++
        missingIn ((slot, idx) :: rest) slot (min idx endIndex) endIndex := by
  have hmin := UInt64.toNat_min idx endIndex
  rw [← @missingIn_append _ slot prevIndex (min idx endIndex) endIndex (by omega) (by omega),
    missingIn_of_not_mem]
  intro i hi
  rw [mem_indexRange] at hi
  refine not_mem_of_keyLt_head hs (keyLt_iff.2 (Or.inr ⟨rfl, ?_⟩))
  show i.toNat < idx.toNat
  omega

/-- Past a stored key of the slot, the filtered range is the tail's. -/
theorem missingIn_past_head {idx : UInt64} {rest : List (Slot × UInt64)}
    (hidx : idx.toNat < endIndex.toNat) :
    missingIn ((slot, idx) :: rest) slot idx endIndex = missingIn rest slot (idx + 1) endIndex := by
  rw [missingIn, indexRange_cons hidx, List.filter_cons_of_neg (by simp), ← missingIn]
  refine missingIn_congr fun i hi => mem_cons_iff_of_keyLt (keyLt_iff.2 (Or.inr ⟨rfl, ?_⟩))
  rw [mem_indexRange, toNat_add_one_of_lt hidx] at hi
  show idx.toNat < i.toNat
  omega

/-- The loop from any point of the cursor: the keys ahead are sorted and none is below
`(slot, prev_index)`, and fewer than `max_missing` indexes are found so far.  The induction is on
the cursor; each key of the slot pushes the gap before it. -/
theorem findMissingLoop_eq :
    ∀ (c : List (Slot × UInt64)) (prevIndex : UInt64) (missing : List UInt64),
      c.Pairwise (fun a b => keyLt a b = true) → (∀ k ∈ c, keyLt k (slot, prevIndex) = false) →
      prevIndex.toNat ≤ endIndex.toNat → missing.length < maxMissing →
      findMissingLoop slot endIndex maxMissing c prevIndex missing =
        missing ++ (missingIn c slot prevIndex endIndex).take (maxMissing - missing.length)
  | [], prevIndex, missing, _, _, _, hlen => by
    rw [findMissingLoop, pushMissing_eq maxMissing _ _ hlen,
      missingIn_of_not_mem fun _ _ => List.not_mem_nil]
  | (currentSlot, index) :: rest, prevIndex, missing, hs, habove, hend, hlen => by
    have hhead := habove _ List.mem_cons_self
    rw [← Bool.not_eq_true, keyLt_iff] at hhead
    simp only at hhead
    by_cases hlater : currentSlot > slot
    · -- a key of a later slot: the rest of the range is missing
      have hnone : ∀ i ∈ indexRange prevIndex endIndex,
          (slot, i) ∉ (currentSlot, index) :: rest := fun i _ =>
        not_mem_of_keyLt_head hs (keyLt_iff.2 (Or.inl (UInt64.lt_iff_toNat_lt.1 hlater)))
      rw [missingIn_of_not_mem hnone]
      simp only [findMissingLoop, if_pos hlater, min_eq_of_toNat_le (le_refl _),
        pushMissing_eq maxMissing _ _ hlen]
      split <;> simp_all
    · -- a key of the slot itself, at or past `prev_index`
      have hslot : currentSlot = slot := by
        simp only [gt_iff_lt, UInt64.lt_iff_toNat_lt, not_lt] at hlater
        exact UInt64.toNat_inj.1 (by omega)
      subst currentSlot
      have hprev : prevIndex.toNat ≤ index.toNat := by omega
      rw [missingIn_head_split hs hprev hend]
      simp only [findMissingLoop, if_neg hlater, pushMissing_eq maxMissing _ _ hlen]
      set gap := indexRange prevIndex (min index endIndex)
      by_cases hfit : maxMissing - missing.length ≤ gap.length
      · -- the gap fills `max_missing`
        simp only [decide_eq_true hfit, List.take_append_of_le_length hfit]
      · have hgap : gap.take (maxMissing - missing.length) = gap :=
          List.take_of_length_le (by omega)
        simp only [decide_eq_false hfit, List.take_append, hgap]
        by_cases hpast : index ≥ endIndex
        · -- the key is past `end_index`: the gap was the rest of the range
          rw [if_pos hpast, min_eq_of_toNat_ge (UInt64.le_iff_toNat_le.1 hpast),
            missingIn_of_not_mem fun _ hi => absurd hi (by simp [indexRange_of_le])]
          simp [indexRange_of_le]
        · have hidx : index.toNat < endIndex.toNat := by
            have := hpast
            simp only [ge_iff_le, UInt64.le_iff_toNat_le, not_le] at this
            exact this
          rw [if_neg hpast, min_eq_of_toNat_le hidx.le]
          have hsucc := toNat_add_one_of_lt hidx
          have hgapn : gap.length = index.toNat - prevIndex.toNat := by
            simp [gap, min_eq_of_toNat_le hidx.le]
          rw [missingIn_past_head hidx]
          -- the tail is ahead of the next index, and the gap left room
          refine findMissingLoop_eq rest _ _ (List.pairwise_cons.1 hs).2 (fun k hk => ?_)
            (by omega) (by simp only [List.length_append]; omega) |>.trans ?_
          · have := List.rel_of_pairwise_cons hs hk
            rw [← Bool.not_eq_true, keyLt_iff]
            rw [keyLt_iff] at this
            simp only at this ⊢
            omega
          · simp only [List.length_append, List.append_assoc]
            congr 3
            simp only [gap, min_eq_of_toNat_le hidx.le] at hgapn ⊢
            omega

end Loop

/-- `find_missing_indexes` over any cursor: the range filtered by the cursor's keys and cut to
`max_missing`. -/
theorem findMissingIndexes_eq (cursor : Cursor) (slot startIndex endIndex : UInt64)
    (maxMissing : Nat) :
    findMissingIndexes cursor slot startIndex endIndex maxMissing =
      (missingIn cursor.keys slot startIndex endIndex).take maxMissing := by
  unfold findMissingIndexes
  split
  · -- nothing to search
    rename_i h
    simp only [Bool.or_eq_true, decide_eq_true_eq] at h
    rcases h with h | rfl
    · rw [missingIn, indexRange_of_le (UInt64.le_iff_toNat_le.1 h)]
      simp
    · simp
  · rename_i h
    simp only [Bool.or_eq_true, decide_eq_true_eq, not_or, ge_iff_le, UInt64.le_iff_toNat_le,
      not_le] at h
    have hstart := h.1
    have hsorted : (seek cursor.keys (slot, startIndex)).Pairwise fun a b => keyLt a b = true :=
      cursor.sorted.sublist (List.dropWhile_suffix _).sublist
    rw [findMissingLoop_eq _ _ _ hsorted (seek_above cursor.sorted) hstart.le
      (by simp only [List.length_nil]; omega)]
    simp only [List.nil_append, List.length_nil, Nat.sub_zero]
    -- past the seek, the keys of the range are all still there
    refine congrArg _ (missingIn_congr fun i hi => mem_seek_iff ?_)
    rw [mem_indexRange] at hi
    rw [← Bool.not_eq_true, keyLt_iff]
    simp only
    omega

theorem find_missing_indexes_exact (keys : List (Slot × UInt64))
    (slot startIndex endIndex : UInt64) (maxMissing : Nat) :
    findMissingIndexes (Cursor.ofKeys keys) slot startIndex endIndex maxMissing =
      (missingIn keys slot startIndex endIndex).take maxMissing := by
  rw [findMissingIndexes_eq]
  exact congrArg _ (missingIn_congr fun _ _ => Cursor.mem_ofKeys)

/-- `find_missing_data_indexes` reads the filtered range of the ledger's stored keys. -/
theorem Ledger.findMissingDataIndexes_eq (l : Ledger) (slot startIndex endIndex : UInt64)
    (maxMissing : Nat) :
    l.findMissingDataIndexes slot startIndex endIndex maxMissing =
      (missingIn l.data slot startIndex endIndex).take maxMissing := by
  rw [findMissingDataIndexes, findMissingIndexes_eq]
  exact congrArg _ (missingIn_congr fun _ _ => Cursor.mem_ofKeys)

end Morgan
