import Mathlib
import Morgan.Kvstore.Consistency

/-!
# The memtable's accounted size

`MemTable::new` counts a memtable's size from its records: `OVERHEAD_PER_RECORD` for each, and the
length of its data, none for a deletion.  `put` and `delete` keep that count as they go, a new key
adding the overhead and a replaced record's data taken off, so a memtable made by them is always
accounted; so is the store's, through its writes, its reads and a fresh `open`.

`commit` is the exception: it splices a batch's records into the memtable with `BTreeMap::append`
and leaves the size as it was, and `ensure_memtable`, which compares the size with `max_mem`, then
keeps a memtable whose records reach it.
-/

namespace Morgan

namespace Kvstore

open ExceptState

variable {κ : Type} [LinearOrder κ]

/-- What a record of the memtable accounts for: its key and commit id, and its data. -/
def Value.memory (value : Value) : UInt64 := OVERHEAD_PER_RECORD + optBytesMemory value.val

/-- The size of a memtable's records, as `MemTable::new` counts it. -/
def accountedSize (values : SortedMap κ Value) : UInt64 := (values.map (Value.memory ·.2)).sum

omit [LinearOrder κ] in
theorem accountedSize_nil : accountedSize ([] : SortedMap κ Value) = 0 := rfl

omit [LinearOrder κ] in
theorem MemTable.new_memSize (values : SortedMap κ Value) :
    (MemTable.new values).memSize = accountedSize values := by
  -- the fold from any start adds the records' sizes to it
  have hfold : ∀ (acc : UInt64) (l : SortedMap κ Value),
      l.foldl (fun acc e => acc + OVERHEAD_PER_RECORD + optBytesMemory e.2.val) acc =
        acc + accountedSize l := by
    intro acc l
    induction l generalizing acc with
    | nil => exact (add_zero acc).symm
    | cons e l ih =>
      rw [List.foldl_cons, ih]
      simp only [accountedSize, List.map_cons, List.sum_cons, Value.memory]
      abel
  exact (hfold 0 values).trans (zero_add _)

/-- A memtable whose records are in key order and whose size is what they account for. -/
structure MemTable.Accounted (t : MemTable κ) : Prop where
  sorted : SortedMap.Sorted t.values
  memSize_eq : t.memSize = accountedSize t.values

theorem MemTable.Accounted.new {values : SortedMap κ Value} (h : SortedMap.Sorted values) :
    (MemTable.new values).Accounted :=
  ⟨h, MemTable.new_memSize values⟩

theorem MemTable.Accounted.empty : (⟨0, []⟩ : MemTable κ).Accounted :=
  ⟨SortedMap.Sorted.nil, rfl⟩

/-- `put` and `delete` keep the count: the new record's size goes on, and a replaced record's data
comes off, its overhead standing for the new one's. -/
theorem MemTable.Accounted.write {t : MemTable κ} (h : t.Accounted) (key : κ) (value : Value) :
    (t.write key value).Accounted := by
  refine ⟨MemTable.values_write t key value ▸ h.sorted.insert key value, ?_⟩
  have hsum := SortedMap.sum_map_insert Value.memory h.sorted key value
  rw [MemTable.values_write]
  unfold MemTable.write
  split
  · -- a new key: its overhead and data go on
    rename_i hnone
    rw [hnone, Option.map_none, Option.getD_none, add_zero] at hsum
    show t.memSize + optBytesMemory value.val + OVERHEAD_PER_RECORD = accountedSize _
    rw [accountedSize, hsum, ← accountedSize, ← h.memSize_eq, Value.memory]
    abel
  · -- a replaced record: its data comes off, its overhead stands for the new one's
    rename_i old hold
    rw [hold, Option.map_some, Option.getD_some] at hsum
    show t.memSize + optBytesMemory value.val - optBytesMemory old.val = accountedSize _
    rw [accountedSize, eq_sub_of_add_eq hsum, ← accountedSize, ← h.memSize_eq, Value.memory,
      Value.memory]
    abel

theorem MemTable.Accounted.foldl_write {t : MemTable κ} (h : t.Accounted) (commit : Int)
    (records : List (κ × Option (List UInt8))) :
    (records.foldl (fun t r => t.write r.1 ⟨commit, r.2⟩) t).Accounted := by
  induction records generalizing t with
  | nil => exact h
  | cons r records ih => exact ih (h.write r.1 ⟨commit, r.2⟩)

/-! ## The store's calls -/

/-- A step of the store that keeps its memtable accounted. -/
def KeepsAccounted (s s' : KvStore κ) : Prop := s.mem.Accounted → s'.mem.Accounted

instance : Std.Refl (KeepsAccounted (κ := κ)) := ⟨fun _ h => h⟩

instance : IsTrans (KvStore κ) KeepsAccounted := ⟨fun _ _ _ h₁ h₂ h => h₂ (h₁ h)⟩

/-- A step that leaves the memtable alone keeps it accounted. -/
theorem keepsAccounted_of_keepsMem {α : Type} {prog : StoreM κ α}
    (h : Guarantees (Same KvStore.mem) prog) : Guarantees KeepsAccounted prog :=
  h.mono fun _ _ hsame hacc => hsame ▸ hacc

/-- `ensure_memtable` keeps the memtable, or flushes it and leaves an empty one. -/
theorem ensureMemtable_keepsAccounted :
    Guarantees KeepsAccounted (ensureMemtable : StoreM κ Unit) :=
  ensureMemtable_guarantees (fun _ _ _ _ => MemTable.Accounted.empty)
    (keepsAccounted_of_keepsMem (send_keeps KvStore.mem (fun _ _ => rfl) _))

theorem writeMany_keepsAccounted (records : List (κ × Option (List UInt8))) :
    Guarantees KeepsAccounted (writeMany records) :=
  writeMany_guarantees (fun _ h => h) (fun _ commit e h => h.write e.1 ⟨commit, e.2⟩)
    ensureMemtable_keepsAccounted records

/-- `put`, `put_many`, `delete` and `delete_many` keep the memtable accounted. -/
theorem Write.run_keepsAccounted (w : Write κ) : Guarantees KeepsAccounted w.run := by
  rw [Write.run_eq_writeMany]
  exact writeMany_keepsAccounted _

omit [LinearOrder κ] in
/-- `query_compactor` installs levels and sends requests, and leaves the memtable alone. -/
theorem queryCompactor_keepsMem :
    Guarantees (Same KvStore.mem) (queryCompactor : StoreM κ Unit) := by
  refine Guarantees.get_bind fun s r s' h => ?_
  split at h
  · refine Guarantees.of_set_bind h ?_ rfl
    exact Guarantees.bind (Guarantees.modify fun s => by split <;> rfl) fun _ =>
      Guarantees.tryCatch (send_keeps _ (fun _ _ => rfl) _) fun _ => Guarantees.abort
  · exact Guarantees.of_set_bind h (Guarantees.throw _) rfl
  · exact Guarantees.pure _ s r s' h

theorem get_keepsMem (key : κ) : Guarantees (Same KvStore.mem) (get key) :=
  Guarantees.bind queryCompactor_keepsMem fun _ =>
    Guarantees.get_bind fun s r s' h => Guarantees.pure _ s r s' h

theorem range_keepsMem (lo hi : κ) : Guarantees (Same KvStore.mem) (range lo hi) :=
  Guarantees.bind queryCompactor_keepsMem fun _ =>
    Guarantees.get_bind fun s r s' h => Guarantees.pure _ s r s' h

omit [LinearOrder κ] in
/-- A write batch's calls take a commit id and log, and leave the store's memtable alone. -/
theorem batch_keepsMem (config : WriteBatchConfig) :
    Guarantees (Same KvStore.mem) (batch config : StoreM κ (WriteBatch κ)) :=
  Guarantees.bind (Guarantees.get_bind fun _ _ _ h =>
    Guarantees.of_set_bind h (Guarantees.pure _) rfl) fun _ => Guarantees.pure _

theorem WriteBatch.writeMany_keepsMem (b : WriteBatch κ)
    (records : List (κ × Option (List UInt8))) :
    Guarantees (Same KvStore.mem) (b.writeMany records) := by
  unfold WriteBatch.writeMany
  split
  · exact Guarantees.bind (Guarantees.modify fun _ => rfl) fun _ => Guarantees.pure _
  · exact Guarantees.bind (Guarantees.pure _) fun _ => Guarantees.pure _

/-- The batch's own memtable is accounted too: it is written by `put` and `delete`. -/
theorem WriteBatch.writeMany_accounted {b : WriteBatch κ} (h : b.memtable.Accounted)
    (records : List (κ × Option (List UInt8))) {s s' : KvStore κ} {b' : WriteBatch κ}
    (hrun : (b.writeMany records).run.run s = some (.ok b', s')) : b'.memtable.Accounted := by
  unfold WriteBatch.writeMany at hrun
  split at hrun <;>
  · cases hrun
    exact h.foldl_write b.commit records

theorem materialize_sorted {log : List (LogRecord κ)} {values : SortedMap κ Value}
    (h : materialize log = .ok values) : SortedMap.Sorted values := by
  unfold materialize at h
  split at h
  · cases h
  · cases h
    exact SortedMap.Sorted.ofList _

/-- A store opened on a root has an accounted memtable: the log's records are read into a map by
key, or none are, and `MemTable::new` counts them. -/
theorem openStore_accounted {config : Config} {root : Root κ} {now : Nat} {s : KvStore κ}
    (h : openStore config root now = .ok s) : s.mem.Accounted := by
  obtain ⟨values, -, -, hvalues, -, rfl⟩ := openStore_eq_ok h
  refine MemTable.Accounted.new ?_
  split at hvalues
  · exact materialize_sorted hvalues
  · cases hvalues
    exact SortedMap.Sorted.nil

/-- Writes, in any number, keep the memtable accounted. -/
theorem writes_keepAccounted (ws : List (Write κ)) :
    Guarantees KeepsAccounted (ws.forM Write.run) :=
  Guarantees.forM ws fun w _ => w.run_keepsAccounted

/-- With the memtable accounted, `ensure_memtable` flushes exactly when its records reach
`max_mem`: below it the store is left as it was, and from it on the memtable is emptied. -/
theorem ensureMemtable_of_accounted {s s' : KvStore κ} {r : Except Error Unit}
    (hacc : s.mem.Accounted) (h : (ensureMemtable : StoreM κ Unit).run.run s = some (r, s')) :
    (accountedSize s.mem.values < s.config.maxMem ∧ r = .ok () ∧ s' = s) ∨
      (s.config.maxMem ≤ accountedSize s.mem.values ∧ s'.mem = ⟨0, []⟩) := by
  unfold ensureMemtable at h
  rw [run_getThe_bind, hacc.memSize_eq] at h
  split_ifs at h with hlt
  · cases h
    exact .inl ⟨hlt, rfl, rfl⟩
  refine .inr ⟨UInt64.not_lt.1 hlt, ?_⟩
  split at h
  · rename_i s₁ _
    rw [run_set_bind] at h
    have hrest : Guarantees (Same KvStore.mem)
        (if isLvl0Full s₁.tables s₁.config = true then send Req.start else pure () :
          StoreM κ Unit) := by
      split
      · exact send_keeps _ (fun _ _ => rfl) _
      · exact Guarantees.pure _
    exact hrest _ r s' h
  · cases h

/-! ## `commit` -/

/-- A store that flushes once 100 bytes are accounted. -/
def flushAt100 : Config := ⟨100, 10, 1000, false⟩

/-- A batch putting 100 bytes under key 1, committed. -/
def commitHundredBytes : StoreM Nat Unit := do
  let b ← batch ⟨false, 1000⟩
  let b ← b.put 1 (List.replicate 100 0)
  commitBatch b

/-- On a fresh store that flushes at 100 bytes, a committed batch of 100 bytes leaves the
memtable holding records of 132 accounted bytes with its size still at 0, and no table flushed. -/
theorem commit_leaves_memSize_behind :
    ((openStore flushAt100 (Root.empty : Root Nat) 0).toOption.bind fun s =>
        (commitHundredBytes.run.run s).map fun p =>
          (p.1, p.2.mem.memSize, accountedSize p.2.mem.values, p.2.tables.length)) =
      some (.ok (), 0, 132, 0) := by
  decide

end Kvstore

end Morgan
