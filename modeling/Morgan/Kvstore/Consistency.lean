import Mathlib
import Morgan.Kvstore.Store

/-!
# The store against a map

A store should answer like the map its writes make: `get` the data of the key's last write,
`range` the live keys of the range.  Until its first flush it does: writes only add records to
the memtable, and `get_eq_reference_before_flush` follows from one step lemma per write.  Once
tables are flushed there are three ways it does not, each shown on a run:

* level 0 is keyed by a table's first key, so a flushed table replaces the one before it that
  starts at the same key, and that table's other keys are lost;
* the compactor merges the active set it loaded, then turns every active table to garbage, those
  flushed since included, and the store installs the merge in place of all its levels;
* `tables.meta` is written only when a compaction is installed, and the log is reset at every
  flush, so a table flushed since is not found when the root is opened again.
-/

namespace Morgan

namespace Kvstore

open ExceptState

variable {κ : Type} [LinearOrder κ]

/-- A write call: `put`, `put_many`, `delete` or `delete_many`. -/
inductive Write (κ : Type) where
  | put (key : κ) (data : List UInt8)
  | putMany (rows : List (κ × List UInt8))
  | delete (key : κ)
  | deleteMany (keys : List κ)

/-- The records a write makes, in order: a key and its data, `none` for a deletion. -/
def Write.records : Write κ → List (κ × Option (List UInt8))
  | .put key data => [(key, some data)]
  | .putMany rows => rows.map fun (key, data) => (key, some data)
  | .delete key => [(key, none)]
  | .deleteMany keys => keys.map fun key => (key, none)

/-- The store's call for a write. -/
def Write.run : Write κ → StoreM κ Unit
  | .put key data => Kvstore.put key data
  | .putMany rows => Kvstore.putMany rows
  | .delete key => Kvstore.delete key
  | .deleteMany keys => Kvstore.deleteMany keys

theorem Write.run_eq_writeMany (w : Write κ) : w.run = writeMany w.records := by
  cases w <;> rfl

/-- The map of the writes: the data of the last record of the key, `none` for a deletion or when
no write names it. -/
def reference (writes : List (Write κ)) (key : κ) : Option (List UInt8) :=
  (((writes.flatMap Write.records).reverse.find? (·.1 = key)).map (·.2)).getD none

/-- The data of the last record of a key, `some none` for a deletion, and `none` when no record
names the key. -/
def lastRecord (records : List (κ × Option (List UInt8))) (key : κ) : Option (Option (List UInt8)) :=
  (records.reverse.find? (·.1 = key)).map (·.2)

theorem lastRecord_append (a b : List (κ × Option (List UInt8))) (key : κ) :
    lastRecord (a ++ b) key = (lastRecord b key).or (lastRecord a key) := by
  unfold lastRecord
  rw [List.reverse_append, List.find?_append]
  cases b.reverse.find? (·.1 = key) <;> rfl

theorem reference_eq_lastRecord (writes : List (Write κ)) (key : κ) :
    reference writes key = (lastRecord (writes.flatMap Write.records) key).getD none := rfl

/-! ## What a write keeps

A write takes a commit id, adds its records to the log and the memtable, and calls
`ensure_memtable`, which may flush and ask for a compaction; a relation that each of these steps
keeps, every write keeps. -/

omit [LinearOrder κ] in
/-- `send` changes the requests only. -/
theorem send_keeps {β : Type} (f : KvStore κ → β)
    (hf : ∀ (s : KvStore κ) req, f { s with requests := s.requests ++ [req] } = f s) (req : Req) :
    Guarantees (Same f) (send req : StoreM κ Unit) := by
  refine Guarantees.get_bind fun s r s' h => ?_
  split at h
  · exact Guarantees.throw _ s r s' h
  · exact Guarantees.of_set h (hf s req)

theorem ensureMemtable_guarantees {R : KvStore κ → KvStore κ → Prop} [Std.Refl R]
    [IsTrans (KvStore κ) R]
    (hflush : ∀ s s₁, flushTable s.mem.values s = some s₁ →
      R s { s₁ with mem := (⟨0, []⟩ : MemTable κ), log := [] })
    (hsend : Guarantees R (send .start : StoreM κ Unit)) :
    Guarantees R (ensureMemtable : StoreM κ Unit) := by
  refine Guarantees.get_bind fun s r s' h => ?_
  split at h
  · exact Guarantees.pure _ s r s' h
  · split at h
    · rename_i s₁ hflush₁
      refine Guarantees.of_set_bind h ?_ (hflush s s₁ hflush₁)
      split
      · exact hsend
      · exact Guarantees.pure _
    · exact Guarantees.abort s r s' h

theorem writeMany_guarantees {R : KvStore κ → KvStore κ → Prop} [Std.Refl R]
    [IsTrans (KvStore κ) R] (hcommit : ∀ s : KvStore κ, R s { s with commit := s.commit + 1 })
    (hrecord : ∀ (s : KvStore κ) commit (e : κ × Option (List UInt8)),
      R s { s with log := s.log ++ [(e.1, commit, e.2)], mem := s.mem.write e.1 ⟨commit, e.2⟩ })
    (hensure : Guarantees R (ensureMemtable : StoreM κ Unit))
    (records : List (κ × Option (List UInt8))) : Guarantees R (writeMany records) :=
  Guarantees.bind (Guarantees.get_bind fun s _ _ h =>
      Guarantees.of_set_bind h (Guarantees.pure _) (hcommit s)) fun commit =>
    Guarantees.bind (Guarantees.forM _ fun e _ => Guarantees.modify fun s => hrecord s commit e)
      fun _ => hensure

theorem flushTable_tablesMeta {mem : SortedMap κ Value} {s s' : KvStore κ}
    (h : flushTable mem s = some s') : s'.tablesMeta = s.tablesMeta := by
  rcases flushTable_eq_some h with ⟨-, rfl⟩ | ⟨sst, rest, -, rfl⟩ <;> rfl

/-- A write leaves `tables.meta` as it was: only `dump_tables` writes it. -/
theorem Write.run_keepsMeta (w : Write κ) : Guarantees (Same KvStore.tablesMeta) w.run := by
  rw [Write.run_eq_writeMany]
  refine writeMany_guarantees ?_ ?_ ?_ _
  · exact fun _ => rfl
  · exact fun _ _ _ => rfl
  exact ensureMemtable_guarantees (fun _ _ hflush => (flushTable_tablesMeta hflush :))
    (send_keeps _ (fun _ _ => rfl) _)

/-- The store has levels after a step whenever it had some before. -/
def LevelsStay (s s' : KvStore κ) : Prop := s.tables ≠ [] → s'.tables ≠ []

instance : Std.Refl (LevelsStay (κ := κ)) := ⟨fun _ h => h⟩

instance : IsTrans (KvStore κ) LevelsStay := ⟨fun _ _ _ h₁ h₂ h => h₂ (h₁ h)⟩

/-- A flush leaves a level when the memtable had records or when there were levels already. -/
theorem flushTable_tables_ne_nil {mem : SortedMap κ Value} {s s' : KvStore κ}
    (hne : mem ≠ [] ∨ s.tables ≠ []) (h : flushTable mem s = some s') : s'.tables ≠ [] := by
  rcases flushTable_eq_some h with ⟨hmem, rfl⟩ | ⟨sst, rest, -, rfl⟩
  · exact hne.resolve_left (not_not_intro hmem)
  -- level 0 is there, made for the table or kept
  · split <;> simp_all [List.isEmpty_iff]

theorem Write.run_levelsStay (w : Write κ) : Guarantees LevelsStay w.run := by
  rw [Write.run_eq_writeMany]
  refine writeMany_guarantees ?_ ?_ ?_ _
  · exact fun _ h => h
  · exact fun _ _ _ h => h
  refine ensureMemtable_guarantees
    (fun _ _ hflush hne => (flushTable_tables_ne_nil (.inr hne) hflush :)) ?_
  exact (send_keeps KvStore.tables (fun _ _ => rfl) _).mono fun _ _ h hne => h ▸ hne

/-! ## Before the first flush -/

theorem run_forM_writeRecord (commit : Int) (records : List (κ × Option (List UInt8)))
    (s : KvStore κ) :
    (records.forM (writeRecord commit)).run.run s = some (.ok (), { s with
      log := s.log ++ records.map (fun r => (r.1, commit, r.2)),
      mem := records.foldl (fun t r => t.write r.1 ⟨commit, r.2⟩) s.mem }) := by
  induction records generalizing s with
  | nil => simp
  | cons r records ih =>
    show (writeRecord commit r >>= fun _ => records.forM (writeRecord commit)).run.run s = _
    have hw : (writeRecord commit r).run.run s = some (.ok (), { s with
        log := s.log ++ [(r.1, commit, r.2)], mem := s.mem.write r.1 ⟨commit, r.2⟩ }) := rfl
    rw [run_bind, hw, Option.bind_some]
    simp only [ih, List.map_cons, List.foldl_cons, List.append_assoc, List.singleton_append]

/-- `ensure_memtable` on a store with no levels: it flushes a nonempty memtable, leaving a level,
or leaves the levels, the answers of the compactor and the memtable's records as they were. -/
theorem ensureMemtable_flat {s s' : KvStore κ} {r : Except Error Unit}
    (h : (ensureMemtable : StoreM κ Unit).run.run s = some (r, s')) (htables : s.tables = []) :
    s'.tables ≠ [] ∨ (r = .ok () ∧ s'.tables = [] ∧ s'.responses = s.responses ∧
      s'.mem.values = s.mem.values) := by
  unfold ensureMemtable at h
  rw [run_getThe_bind] at h
  split_ifs at h
  · cases h
    exact .inr ⟨rfl, htables, rfl, rfl⟩
  split at h
  · rename_i s₁ hflush
    rw [run_set_bind] at h
    by_cases hmem : s.mem.values = []
    · -- nothing to flush: the levels stay empty and no compaction is asked for
      rw [hmem] at hflush
      cases hflush
      simp only [htables, isLvl0Full] at h
      cases h
      exact .inr ⟨rfl, rfl, rfl, hmem.symm⟩
    · have hne := flushTable_tables_ne_nil (.inl hmem) hflush
      have hrest : Guarantees (Same KvStore.tables)
          (if isLvl0Full s₁.tables s₁.config = true then send Req.start else pure () :
            StoreM κ Unit) := by
        split
        · exact send_keeps _ (fun _ _ => rfl) _
        · exact Guarantees.pure _
      exact .inl ((hrest _ r s' h).symm ▸ hne)
  · cases h

/-- A write on a store with no levels either flushes, leaving a level, or adds its records, under
one commit id, to the memtable. -/
theorem writeMany_flat {records : List (κ × Option (List UInt8))} {s s' : KvStore κ}
    {r : Except Error Unit} (h : (writeMany records).run.run s = some (r, s'))
    (htables : s.tables = []) :
    s'.tables ≠ [] ∨ (r = .ok () ∧ s'.tables = [] ∧ s'.responses = s.responses ∧
      s'.mem.values = s.mem.values.append (records.map fun e => (e.1, ⟨s.commit, e.2⟩))) := by
  have hcommit : (nextCommit : StoreM κ Int).run.run s =
      some (.ok s.commit, { s with commit := s.commit + 1 }) := rfl
  unfold writeMany at h
  rw [run_bind, hcommit, Option.bind_some] at h
  simp only at h
  rw [run_bind, run_forM_writeRecord, Option.bind_some] at h
  dsimp only at h
  rcases ensureMemtable_flat h htables with hne | ⟨hr, hflat, hresp, hvalues⟩
  · exact .inl hne
  · exact .inr ⟨hr, hflat, hresp, hvalues.trans (MemTable.values_foldl_write _ _ _)⟩

/-- What the memtable answers for a key after records are added under one commit id. -/
theorem view_append (m : SortedMap κ Value) (commit : Int)
    (records : List (κ × Option (List UInt8))) (key : κ) :
    ((m.append (records.map fun e => (e.1, ⟨commit, e.2⟩))).get? key).bind Value.val =
      (lastRecord records key).getD ((m.get? key).bind Value.val) := by
  rw [SortedMap.get?_append, ← List.map_reverse, List.find?_map, lastRecord]
  have hkey : ((fun x : κ × Value => decide (x.1 = key)) ∘
      fun e : κ × Option (List UInt8) => (e.1, (⟨commit, e.2⟩ : Value))) =
      fun e : κ × Option (List UInt8) => decide (e.1 = key) := rfl
  rw [hkey]
  cases records.reverse.find? (·.1 = key) <;> rfl

/-- Writes on a store with no levels either leave a level, or leave the answers of the compactor
alone and answer, for each key, the data of the key's last record, else what the memtable held. -/
theorem writes_flat {ws : List (Write κ)} {s s' : KvStore κ} {r : Except Error Unit}
    (h : (ws.forM Write.run).run.run s = some (r, s')) (htables : s.tables = []) :
    s'.tables ≠ [] ∨ (r = .ok () ∧ s'.tables = [] ∧ s'.responses = s.responses ∧
      ∀ key, (s'.mem.values.get? key).bind Value.val =
        (lastRecord (ws.flatMap Write.records) key).getD ((s.mem.values.get? key).bind Value.val)) := by
  -- induction on the writes, each one a step of `writeMany_flat`
  induction ws generalizing s with
  | nil =>
    cases h
    exact .inr ⟨rfl, htables, rfl, fun key => rfl⟩
  | cons w ws ih =>
    have h' : (w.run >>= fun _ => ws.forM Write.run).run.run s = some (r, s') := h
    rw [run_bind, Option.bind_eq_some_iff] at h'
    obtain ⟨⟨r₁, s₁⟩, h₁, h'⟩ := h'
    rw [Write.run_eq_writeMany] at h₁
    rcases writeMany_flat h₁ htables with hne | ⟨hr₁, hflat₁, hresp₁, hvalues₁⟩
    · -- a level once made stays for the rest of the writes
      refine .inl ?_
      cases r₁ with
      | ok _ => exact Guarantees.forM ws (fun w _ => w.run_levelsStay) s₁ r s' h' hne
      | error e =>
        cases h'
        exact hne
    · subst hr₁
      rcases ih h' hflat₁ with hne | ⟨hr, hflat, hresp, hview⟩
      · exact .inl hne
      · refine .inr ⟨hr, hflat, hresp.trans hresp₁, fun key => ?_⟩
        rw [hview, hvalues₁, view_append, List.flatMap_cons, lastRecord_append]
        cases lastRecord (ws.flatMap Write.records) key <;> rfl

/-- Before its first flush the store is the map of its writes: from a store with no levels, an
empty memtable and no answer of the compactor waiting, after writes that leave it with no levels,
`get` answers the data of the key's last write. -/
theorem get_eq_reference_before_flush {ws : List (Write κ)} {s s' : KvStore κ}
    {r : Except Error Unit} (key : κ) (hmem : s.mem.values = []) (htables : s.tables = [])
    (hresp : s.responses = []) (hrun : (ws.forM Write.run).run.run s = some (r, s'))
    (hflat : s'.tables = []) :
    r = .ok () ∧ (get key).run.run s' = some (.ok (reference ws key), s') := by
  rcases writes_flat hrun htables with hne | ⟨hr, -, hresp', hview⟩
  · exact absurd hflat hne
  refine ⟨hr, ?_⟩
  have hquery : (queryCompactor : StoreM κ Unit).run.run s' = some (.ok (), s') := by
    unfold queryCompactor
    rw [run_getThe_bind, hresp', hresp]
    rfl
  unfold get
  rw [run_bind, hquery, Option.bind_some]
  show some (Except.ok (storageGet s'.mem.values s'.tables key), s') = _
  rw [hflat, storageGet_nil, hview, hmem, reference_eq_lastRecord]
  rfl

/-! ## A flushed table replaces the one with its first key -/

/-- A flush puts its table into level 0 under the table's first key, in place of any table there
with that key. -/
theorem flushTable_level0 {mem : SortedMap κ Value} {s s' : KvStore κ} {sst : SSTable κ}
    {rest : List (κ × Value)} (hcreate : SSTable.create mem 0 = some (sst, rest))
    (h : flushTable mem s = some s') :
    s'.tables.head?.map (SortedMap.get? · sst.indexMeta.start) = some (some sst) := by
  rcases flushTable_eq_some h with ⟨rfl, -⟩ | ⟨sst', rest', hcreate', rfl⟩
  · cases hcreate
  rw [hcreate, Option.some.injEq, Prod.mk.injEq] at hcreate'
  obtain ⟨rfl, -⟩ := hcreate'
  -- level 0 is made for the table when there are no levels yet
  split
  · simp
  · rename_i htables
    obtain ⟨level0, levels, hcons⟩ := List.exists_cons_of_ne_nil (mt List.isEmpty_iff.2 htables)
    simp [hcons]

/-- A store that flushes on every write and never compacts. -/
def flushEveryWrite : Config := ⟨1, 10, 1000, false⟩

/-- Keys 1 and 2 in one `put_many`, and then key 1 again. -/
def collisionWrites : List (Write Nat) := [.putMany [(1, [1]), (2, [2])], .put 1 [3]]

/-- The map holds key 2, but the store has lost it, to `get` and to `range` alike: the second
flush's table starts at key 1, as the first's did, and replaces it in level 0. -/
theorem get_loses_key_of_replaced_table :
    reference collisionWrites 2 = some [2] ∧
      sessions flushEveryWrite Root.empty [(0, collisionWrites.forM Write.run *> get 2)] =
        some [.ok none] ∧
      sessions flushEveryWrite Root.empty [(0, collisionWrites.forM Write.run *> range 1 2)] =
        some [.ok [(1, [3])]] := by
  decide +kernel

/-! ## The compactor's hand-off -/

/-- A step of the system: a call on the store, or a step of the compactor's thread. -/
inductive Event (κ : Type) where
  | write (w : Write κ)
  | get (key : κ)
  | recv
  | merge
  | rotate

/-- Run events from a state: the answers of the gets, with the error of a write that fails;
`none` when a call panics or a step of the compactor is not enabled. -/
def runEvents : KvStore κ → List (Event κ) → Option (List (Except Error (Option (List UInt8))))
  | _, [] => some []
  | s, .write w :: rest => do
    let (r, s) ← w.run.run.run s
    let rs ← runEvents s rest
    match r with
    | .ok _ => return rs
    | .error e => return .error e :: rs
  | s, .get key :: rest => do
    let (r, s) ← (get key).run.run s
    let rs ← runEvents s rest
    return r :: rs
  | s, .recv :: rest => compactorRecv s >>= (runEvents · rest)
  | s, .merge :: rest => compactorMerge s >>= (runEvents · rest)
  | s, .rotate :: rest => compactorRotate s >>= (runEvents · rest)

/-- The writes among the events, in order. -/
def writesOf (events : List (Event κ)) : List (Write κ) :=
  events.filterMap fun
    | .write w => some w
    | _ => none

omit [LinearOrder κ] in
/-- The rotation at the end of a compaction turns every active table to garbage, whether the
compactor loaded it or it was flushed since. -/
theorem compactorRotate_retires {s s' : KvStore κ} {id : Nat} (h : compactorRotate s = some s')
    (hid : (id, Kind.active) ∈ s.mappings) : (id, Kind.garbage) ∈ s'.mappings := by
  unfold compactorRotate at h
  split at h
  · cases h
    exact List.mem_map.2 ⟨_, hid, rfl⟩
  · cases h

omit [LinearOrder κ] in
/-- Emptying the trash deletes the files of every garbage table. -/
theorem emptyTrash_deletes {s : KvStore κ} {id : Nat} (hid : (id, Kind.garbage) ∈ s.mappings)
    (sst : SSTable κ) : (id, sst) ∉ (emptyTrash s).files := by
  intro hmem
  have hgarbage : id ∈ (s.mappings.filter (·.2 = .garbage)).map (·.1) :=
    List.mem_map.2 ⟨_, List.mem_filter.2 ⟨hid, by simp⟩, rfl⟩
  simp only [emptyTrash, List.mem_filter] at hmem
  simp [hgarbage] at hmem

omit [LinearOrder κ] in
/-- `query_compactor` installs the compactor's levels in place of all the store's. -/
theorem queryCompactor_installs {s s' : KvStore κ} {tables : TableVec κ} {rest : List (Resp κ)}
    {r : Except Error Unit} (hresp : s.responses = .done tables :: rest)
    (h : queryCompactor.run.run s = some (r, s')) : s'.tables = tables := by
  unfold queryCompactor at h
  rw [run_getThe_bind] at h
  simp only [hresp, run_set_bind] at h
  have hrest : Guarantees (Same KvStore.tables)
      (dumpTables >>= fun _ => tryCatch (send Req.gc) fun _ => (abort : StoreM κ Unit)) :=
    Guarantees.bind (Guarantees.modify fun s => by split <;> rfl) fun _ =>
      Guarantees.tryCatch (send_keeps _ (fun _ _ => rfl) _) fun _ => Guarantees.abort
  exact hrest _ r s' h

/-- A store that flushes on every write and compacts whenever level 0 holds a table. -/
def compactEveryFlush : Config := ⟨1, 0, 1000, false⟩

/-- Key 1 is flushed and the compactor loads the active set; key 2 is flushed; the compactor
merges what it loaded, rotates the mapper and answers; then key 2 is read. -/
def handoffEvents : List (Event Nat) :=
  [.write (.put 1 [1]), .recv, .write (.put 2 [2]), .merge, .rotate, .get 2]

/-- The map holds key 2, but the installed levels are the merge of the snapshot, without the table
flushed after it, which the rotation turned to garbage. -/
theorem get_loses_table_flushed_during_compaction :
    reference (writesOf handoffEvents) 2 = some [2] ∧
      ((openStore compactEveryFlush (Root.empty : Root Nat) 0).toOption.bind
          (runEvents · handoffEvents)) = some [.ok none] := by
  decide +kernel

/-! ## Reopening a root -/

/-- After writes alone on a store whose root has no `tables.meta`, the store opened again on its
root has no levels, and its memtable is what the log holds, the records since the last flush: the
tables flushed are not found, and an empty log fails to open. -/
theorem reopen_after_writes {config : Config} {now : Nat} {ws : List (Write κ)}
    {s s' : KvStore κ} {r : Except Error Unit} (hmeta : s.tablesMeta = none)
    (hdisk : config.inMemory = false) (hrun : (ws.forM Write.run).run.run s = some (r, s')) :
    (openStore config s'.drop now).map (fun s'' => (s''.tables, s''.mem.values)) =
      (materialize s'.log).map ([], ·) := by
  have hkeep : Guarantees (Same KvStore.tablesMeta) (ws.forM Write.run) :=
    Guarantees.forM ws fun w _ => w.run_keepsMeta
  have hmeta' : s'.tablesMeta = none := (hkeep s r s' hrun).trans hmeta
  cases hlog : materialize s'.log with
  | error e =>
    simp only [openStore, KvStore.drop, hdisk, hlog, Option.isSome_some, Option.getD_some]
    rfl
  | ok values =>
    simp only [openStore, KvStore.drop, hdisk, hlog, loadTables, hmeta', Option.isSome_some,
      Option.getD_some]
    rfl

/-- A store that flushes once 64 bytes are accounted. -/
def flushAt64 : Config := ⟨64, 10, 1000, false⟩

/-- Key 1 with 32 bytes fills the memtable and is flushed; key 2 stays in the log; the store reads
key 1, is dropped, and is opened again, and reads key 1 once more. -/
theorem reopen_loses_flushed_write :
    sessions flushAt64 (Root.empty : Root Nat)
        [(0, put 1 (List.replicate 32 0) *> put 2 [] *> get 1), (1, get 1)] =
      some [.ok (some (List.replicate 32 0)), .ok none] := by
  decide

end Kvstore

end Morgan
