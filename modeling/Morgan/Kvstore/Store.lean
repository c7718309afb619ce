import Mathlib
import Morgan.Kvstore.Table
import Morgan.Lib.AssocMap
import Morgan.Lib.Guarantee

/-!
# The store, its mapper and its compactor

`lib.rs`, `storage.rs`, `writelog.rs`, `writebatch.rs`, `mapper/` and `compactor.rs`.  Writes go
to the write log and the memtable; when the memtable's accounted size reaches `max_mem` it is
flushed to a level-0 table, the log is reset, and a compaction is requested once level 0 holds
more than `max_tables` tables.  The compactor is a thread of its own: it loads the mapper's active
set, merges it into compaction tables, rotates the mapper's kinds (active to garbage, compaction to
active) and answers with the new levels, which the next `get` or `range` installs.

The state is one record: what the store's locks guard, the mapper's mappings, the root directory's
files, the two channels and the phase of the compactor's thread; each operation of the store is a
program in `StoreM`, which keeps the state on an error and stops on a panic, and each step of the
compactor's thread is a function of the state, so that runs interleave them.  The log is synced on
every write (`sync_every_write`) and its records are kept whole; ids of new tables are fresh
numbers where the source draws random ones, and the mapper's hash map is a list in insertion order.
-/

namespace Morgan

namespace Kvstore

variable {κ : Type} [LinearOrder κ]

/-- `Error`: an I/O error, a closed channel to the compactor, and a full write batch. -/
inductive Error where
  | io
  | channel
  | writeBatchFull (capacity : UInt64)
  deriving DecidableEq, Repr

/-- `Config`; `max_mem` is a `usize`, `log_config` is fixed to syncing every write. -/
structure Config where
  maxMem : UInt64
  maxTables : Nat
  pageSize : Nat
  inMemory : Bool
  deriving DecidableEq, Repr

/-! ## The memtable -/

/-- `MemTable::OVERHEAD_PER_RECORD`: a key and a commit id. -/
def OVERHEAD_PER_RECORD : UInt64 := UInt64.ofNat KEY_LEN + 8

/-- `opt_bytes_memory`. -/
def optBytesMemory (bytes : Option (List UInt8)) : UInt64 :=
  UInt64.ofNat ((bytes.map List.length).getD 0)

/-- `MemTable`: the records written since the last flush and their accounted size. -/
structure MemTable (κ : Type) where
  memSize : UInt64
  values : SortedMap κ Value
  deriving DecidableEq, Repr

/-- `MemTable::new`. -/
def MemTable.new (values : SortedMap κ Value) : MemTable κ :=
  ⟨values.foldl (fun acc e => acc + OVERHEAD_PER_RECORD + optBytesMemory e.2.val) 0, values⟩

/-- The body shared by `MemTable::put` and `MemTable::delete`: the new value's data is counted, a
new key adds the overhead, and a replaced value's data is taken off. -/
def MemTable.write (t : MemTable κ) (key : κ) (value : Value) : MemTable κ :=
  let memSize := t.memSize + optBytesMemory value.val
  match t.values.get? key with
  | none => ⟨memSize + OVERHEAD_PER_RECORD, t.values.insert key value⟩
  | some old => ⟨memSize - optBytesMemory old.val, t.values.insert key value⟩

/-- `MemTable::put`. -/
def MemTable.put (t : MemTable κ) (key : κ) (commit : Int) (data : List UInt8) : MemTable κ :=
  t.write key ⟨commit, some data⟩

/-- `MemTable::delete`. -/
def MemTable.delete (t : MemTable κ) (key : κ) (commit : Int) : MemTable κ :=
  t.write key ⟨commit, none⟩

theorem MemTable.values_write (t : MemTable κ) (key : κ) (value : Value) :
    (t.write key value).values = t.values.insert key value := by
  unfold MemTable.write
  split <;> rfl

theorem MemTable.values_foldl_write (t : MemTable κ) (commit : Int)
    (records : List (κ × Option (List UInt8))) :
    (records.foldl (fun t r => t.write r.1 ⟨commit, r.2⟩) t).values =
      t.values.append (records.map fun r => (r.1, ⟨commit, r.2⟩)) := by
  induction records generalizing t with
  | nil => rfl
  | cons r records ih =>
    rw [List.foldl_cons, ih, MemTable.values_write]
    rfl

/-! ## The write log, the mapper and the compactor's channels -/

/-- A record of the write log: a key, a commit id, and the data, `None` for a deletion. -/
abbrev LogRecord (κ : Type) := κ × Int × Option (List UInt8)

/-- `WriteLog::materialize`: the log's records into a map, a later record of a key replacing an
earlier one; the memory map of an empty log file fails. -/
def materialize (log : List (LogRecord κ)) : Except Error (SortedMap κ Value) :=
  if log.isEmpty then .error .io
  else .ok (SortedMap.ofList (log.map fun (key, commit, data) => (key, ⟨commit, data⟩)))

/-- `Kind`, the set a table of the mapper belongs to. -/
inductive Kind where
  | active
  | compaction
  | garbage
  deriving DecidableEq, Repr

/-- The kind `rotate_tables` gives a table of a kind. -/
def Kind.rotate : Kind → Kind
  | .active => .garbage
  | .compaction => .active
  | .garbage => .garbage

/-- `compactor::Req`. -/
inductive Req where
  | start
  | gc
  deriving DecidableEq, Repr

/-- `compactor::Resp`. -/
inductive Resp (κ : Type) where
  | done (tables : TableVec κ)
  | failed (e : Error)

/-- The compactor's thread: waiting for a request, compacting the tables it loaded, about to
rotate the mapper and answer with the new levels, or stopped by a panic. -/
inductive Compactor (κ : Type) where
  | idle
  | loaded (tables : TableVec κ)
  | compacted (tables : TableVec κ)
  | stopped

/-- What a store leaves in its root directory: the write log (`none` when there is no file),
`tables.meta`, and the tables' files by id, with the next fresh id. -/
structure Root (κ : Type) where
  log : Option (List (LogRecord κ))
  tablesMeta : Option (List (Nat × Kind))
  files : AssocMap Nat (SSTable κ)
  nextId : Nat

/-- A directory no store has used. -/
def Root.empty : Root κ := ⟨none, none, [], 0⟩

/-- A `KvStore` and its compactor: the commit counter, the memtable, the log's records, the
levels, the mapper's mappings, `tables.meta` and the files, the two channels, and the thread. -/
structure KvStore (κ : Type) where
  config : Config
  commit : Nat
  mem : MemTable κ
  log : List (LogRecord κ)
  tables : TableVec κ
  mappings : List (Nat × Kind)
  tablesMeta : Option (List (Nat × Kind))
  files : AssocMap Nat (SSTable κ)
  nextId : Nat
  requests : List Req
  responses : List (Resp κ)
  compactor : Compactor κ

/-- Dropping the store: the root keeps the log, `tables.meta` and the files. -/
def KvStore.drop (s : KvStore κ) : Root κ := ⟨some s.log, s.tablesMeta, s.files, s.nextId⟩

/-! ## The mapper -/

/-- `Mapper::make_table`: the table's files under a fresh id, and the id's mapping of the kind. -/
def makeTable (s : KvStore κ) (kind : Kind) (sst : SSTable κ) : KvStore κ :=
  { s with mappings := s.mappings ++ [(s.nextId, kind)], files := s.files.set s.nextId sst,
           nextId := s.nextId + 1 }

/-- `Mapper::rotate_tables`. -/
def rotateTables (s : KvStore κ) : KvStore κ :=
  { s with mappings := s.mappings.map fun (id, kind) => (id, kind.rotate) }

/-- `Mapper::empty_trash`: the garbage tables' mappings and files go. -/
def emptyTrash (s : KvStore κ) : KvStore κ :=
  let garbage := (s.mappings.filter (·.2 = .garbage)).map (·.1)
  { s with mappings := s.mappings.filter (·.2 ≠ .garbage),
           files := s.files.filter fun e => e.1 ∉ garbage }

/-- `Mapper::active_set`: the tables of the active mappings; a missing file is an I/O error. -/
def activeSet (mappings : List (Nat × Kind)) (files : AssocMap Nat (SSTable κ)) :
    Option (List (SSTable κ)) :=
  (mappings.filter (·.2 = .active)).mapM fun e => files.get? e.1

/-! ## Flushing and reading -/

/-- `storage::flush_table`: the memtable's records as one level-0 table, an active table of the
mapper, put into level 0 under its first key; `none` is the panic of `SSTable::create`. -/
def flushTable (mem : SortedMap κ Value) (s : KvStore κ) : Option (KvStore κ) :=
  if mem.isEmpty then some s
  else
    let pages := if s.tables.isEmpty then [[]] else s.tables
    match SSTable.create mem 0 with
    | none => none
    | some (sst, _) =>
      let s := makeTable s .active sst
      some { s with tables := pages.modify 0 (SortedMap.insert · sst.indexMeta.start sst) }

/-- What a flush can do: nothing when the memtable is empty, else make a table of it and put the
table into level 0 under its first key, level 0 being made when there are no levels. -/
theorem flushTable_eq_some {mem : SortedMap κ Value} {s s' : KvStore κ}
    (h : flushTable mem s = some s') :
    (mem = [] ∧ s' = s) ∨ ∃ sst rest, SSTable.create mem 0 = some (sst, rest) ∧
      s' = { makeTable s .active sst with
        tables := (if s.tables.isEmpty then [[]] else s.tables).modify 0
          (SortedMap.insert · sst.indexMeta.start sst) } := by
  unfold flushTable at h
  by_cases hempty : mem.isEmpty
  · rw [if_pos hempty] at h
    exact .inl ⟨List.isEmpty_iff.1 hempty, (Option.some.inj h).symm⟩
  · rw [if_neg hempty] at h
    refine .inr ?_
    cases hc : SSTable.create mem 0 with
    | none => simp [hc] at h
    | some p =>
      simp only [hc, Option.some.injEq] at h
      exact ⟨p.1, p.2, rfl, h.symm⟩

/-- `storage::get`: the memtable's value, else the merge of the key's records in the tables, level
by level and within a level from the last table to the first. -/
def storageGet (mem : SortedMap κ Value) (pages : TableVec κ) (key : κ) : Option (List UInt8) :=
  match mem.get? key with
  | some idx => idx.val
  | none =>
    let candidates := pages.flatMap fun level =>
      level.reverse.filterMap fun e =>
        if e.2.couldContain key then (e.2.get key).map ((key, ·)) else none
    -- `Merged` never yields a deletion, so the source's `unwrap` holds
    ((merged [candidates]).head?).bind (·.2.val)

/-- With no levels, `get` is the memtable's answer. -/
theorem storageGet_nil (mem : SortedMap κ Value) (key : κ) :
    storageGet mem [] key = (mem.get? key).bind Value.val := by
  unfold storageGet
  cases mem.get? key <;> rfl

/-- `storage::range`: the merge of the memtable's records in the range and every table's. -/
def storageRange (mem : SortedMap κ Value) (tables : TableVec κ) (lo hi : κ) :
    List (κ × List UInt8) :=
  let sources := mem.range lo hi :: tables.flatMap fun level => level.map (·.2.range lo hi)
  (merged sources).filterMap fun e => e.2.val.map (e.1, ·)

/-! ## Compaction -/

/-- The loop of `compact_level_0` and `compact_upper_level`: while rows are left, a compaction
table of the level capped at the page size, put into the new tables under its first key.  Every
table takes at least one row, so the rows bound the rounds. -/
def makeTables (level pageSize : Nat) :
    Nat → List (κ × Value) → KvStore κ → SortedMap κ (SSTable κ) →
      Option (KvStore κ × SortedMap κ (SSTable κ))
  | _, [], s, newTables => some (s, newTables)
  | 0, _ :: _, _, _ => none
  | fuel + 1, rows, s, newTables => do
    let (sst, rest) ← SSTable.createCapped rows level pageSize
    makeTables level pageSize fuel rest (makeTable s .compaction sst)
      (SortedMap.insert newTables sst.indexMeta.start sst)

/-- `compact_level_0`: levels 0 and 1 merged into new level-1 tables; `none` is the panic of its
assertion on empty levels. -/
def compactLevel0 (s : KvStore κ) (tables : TableVec κ) : Option (KvStore κ × TableVec κ) := do
  guard !tables.isEmpty
  let tables := if tables.length = 1 then tables ++ [[]] else tables
  let rows := merged ((tables.take 2).flatMap fun level => level.map (·.2.rows))
  let (s, newTables) ← makeTables 1 s.config.pageSize rows.length rows s []
  pure (s, (tables.set 0 []).set 1 newTables)

/-- `compact_upper_level`: the level's last table merged with the tables of the next level that
overlap it, which the new tables replace; `none` is the panic of its assertions. -/
def compactUpperLevel (s : KvStore κ) (pages : TableVec κ) (level : Nat) :
    Option (KvStore κ × TableVec κ) := do
  guard (1 ≤ level ∧ level < pages.length)
  let (key, chosen) ← pages[level]?.bind List.getLast?
  let nextLevel := level + 1
  let pages := if nextLevel = pages.length then pages ++ [[]] else pages
  let mergeWith := (pages[nextLevel]?.getD []).filter fun e =>
    e.2.isOverlap chosen.indexMeta.start chosen.indexMeta.last
  let rows := merged (mergeWith.map (·.2.rows) ++ [chosen.rows])
  let (s, newTables) ← makeTables nextLevel s.config.pageSize rows.length rows s []
  let pages := pages.modify level (SortedMap.erase · key)
  pure (s, pages.modify nextLevel fun next =>
    SortedMap.append (mergeWith.foldl (fun m e => SortedMap.erase m e.1) next) newTables)

/-- `level_max`. -/
def levelMax (level : Nat) (config : Config) : Nat :=
  match level with
  | 0 => config.maxTables
  | x => 10 ^ x

/-- `level_needs_compact`. -/
def levelNeedsCompact (level : Nat) (config : Config) (tables : TableVec κ) : Bool :=
  match tables[level]? with
  | none => false
  | some pages => pages.length > levelMax level config

/-- `while level_needs_compact(level) { compact_upper_level(level) }`: each round takes one table
off the level, so its tables bound the rounds. -/
def compactLevel (level : Nat) : Nat → KvStore κ → TableVec κ → Option (KvStore κ × TableVec κ)
  | 0, s, pages => some (s, pages)
  | fuel + 1, s, pages =>
    if levelNeedsCompact level s.config pages then do
      let (s, pages) ← compactUpperLevel s pages level
      compactLevel level fuel s pages
    else some (s, pages)

/-- The merges of `run_compaction`: level 0, then each level from 1 below the count of levels
there were after it. -/
def compactTables (s : KvStore κ) (tables : TableVec κ) : Option (KvStore κ × TableVec κ) := do
  let (s, tables) ← compactLevel0 s tables
  (List.range' 1 (tables.length - 1)).foldlM (fun (st : KvStore κ × TableVec κ) level =>
    compactLevel level ((st.2[level]?.map List.length).getD 0) st.1 st.2) (s, tables)

/-- The compactor's thread takes a request: `Start` loads the mapper's active set (`load_tables`),
answering `Failed` when a file is missing, and `Gc` empties the trash; `none` when it has no
request or is busy. -/
def compactorRecv (s : KvStore κ) : Option (KvStore κ) :=
  match s.compactor, s.requests with
  | .idle, .start :: rest =>
    match activeSet s.mappings s.files with
    | some ssts => some { s with requests := rest, compactor := .loaded (sortedTables ssts) }
    | none => some { s with requests := rest, responses := s.responses ++ [.failed .io] }
  | .idle, .gc :: rest => some (emptyTrash { s with requests := rest })
  | _, _ => none

/-- The compactor's thread merges the tables it loaded; a panic stops it. -/
def compactorMerge (s : KvStore κ) : Option (KvStore κ) :=
  match s.compactor with
  | .loaded tables =>
    match compactTables s tables with
    | some (s, tables) => some { s with compactor := .compacted tables }
    | none => some { s with compactor := .stopped }
  | _ => none

/-- The end of `run_compaction`: `rotate_tables`, and `Done` with the new levels. -/
def compactorRotate (s : KvStore κ) : Option (KvStore κ) :=
  match s.compactor with
  | .compacted tables =>
    some { rotateTables s with responses := s.responses ++ [.done tables], compactor := .idle }
  | _ => none

/-! ## The store's operations -/

/-- A call on the store: it may fail with an `Error`, keeping the state, or panic. -/
abbrev StoreM (κ : Type) := ExceptState.M Error (KvStore κ)

/-- A panic. -/
def abort {α : Type} : StoreM κ α := ExceptT.lift (StateT.lift none)

/-- `sender.send(req)`, which fails once the compactor's thread has stopped. -/
def send (req : Req) : StoreM κ Unit := do
  let s ← getThe (KvStore κ)
  match s.compactor with
  | .stopped => throw .channel
  | _ => set { s with requests := s.requests ++ [req] }

/-- `is_lvl0_full`. -/
def isLvl0Full (tables : TableVec κ) (config : Config) : Bool :=
  match tables with
  | [] => false
  | level0 :: _ => level0.length > config.maxTables

/-- `ensure_memtable`: below `max_mem` nothing; else the memtable is flushed and cleared, the log
reset, and a compaction requested when level 0 is full. -/
def ensureMemtable : StoreM κ Unit := do
  let s ← getThe (KvStore κ)
  if s.mem.memSize < s.config.maxMem then return
  let some s := flushTable s.mem.values s | abort
  set { s with mem := (⟨0, []⟩ : MemTable κ), log := [] }
  if isLvl0Full s.tables s.config then send .start

/-- `commit.fetch_add(1)`, the next commit id. -/
def nextCommit : StoreM κ Int := do
  let s ← getThe (KvStore κ)
  set { s with commit := s.commit + 1 }
  return s.commit

/-- One record of a write under a commit id: logged, then written to the memtable. -/
def writeRecord (commit : Int) (record : κ × Option (List UInt8)) : StoreM κ Unit :=
  modifyThe (KvStore κ) fun s =>
    { s with log := s.log ++ [(record.1, commit, record.2)],
             mem := s.mem.write record.1 ⟨commit, record.2⟩ }

/-- The body of `put`, `put_many`, `delete` and `delete_many`: one commit id for all the records,
each logged and written to the memtable, and then `ensure_memtable`. -/
def writeMany (records : List (κ × Option (List UInt8))) : StoreM κ Unit := do
  let commit ← nextCommit
  records.forM (writeRecord commit)
  ensureMemtable

/-- `KvStore::put`. -/
def put (key : κ) (data : List UInt8) : StoreM κ Unit := writeMany [(key, some data)]

/-- `KvStore::put_many`. -/
def putMany (rows : List (κ × List UInt8)) : StoreM κ Unit :=
  writeMany (rows.map fun (key, data) => (key, some data))

/-- `KvStore::delete`. -/
def delete (key : κ) : StoreM κ Unit := writeMany [(key, none)]

/-- `KvStore::delete_many`. -/
def deleteMany (keys : List κ) : StoreM κ Unit := writeMany (keys.map fun key => (key, none))

/-- `dump_tables`: the mapper's state into `tables.meta`; the mapper in memory writes nothing. -/
def dumpTables : StoreM κ Unit :=
  modifyThe (KvStore κ) fun s => if s.config.inMemory then s else { s with tablesMeta := some s.mappings }

/-- `query_compactor`: a `Done` answer replaces the levels, is dumped, and asks for the trash to be
emptied; a `Failed` answer is returned. -/
def queryCompactor : StoreM κ Unit := do
  let s ← getThe (KvStore κ)
  match s.responses with
  | .done newTables :: rest =>
    set { s with responses := rest, tables := newTables }
    dumpTables
    -- `send(Req::Gc).unwrap()`
    tryCatch (send .gc) fun _ => abort
  | .failed e :: rest =>
    set { s with responses := rest }
    throw e
  | [] => pure ()

/-- `KvStore::get`. -/
def get (key : κ) : StoreM κ (Option (List UInt8)) := do
  queryCompactor
  let s ← getThe (KvStore κ)
  return storageGet s.mem.values s.tables key

/-- `KvStore::range` over `[lo, hi]`. -/
def range (lo hi : κ) : StoreM κ (List (κ × List UInt8)) := do
  queryCompactor
  let s ← getThe (KvStore κ)
  return storageRange s.mem.values s.tables lo hi

/-! ## Write batches -/

/-- `WriteBatchConfig`. -/
structure WriteBatchConfig where
  logWrites : Bool
  maxSize : UInt64
  deriving DecidableEq, Repr

/-- `WriteBatch`: its memtable, the commit id taken when it was made, and its config; it logs to
the store's log. -/
structure WriteBatch (κ : Type) where
  memtable : MemTable κ
  commit : Int
  config : WriteBatchConfig

/-- `KvStore::batch`. -/
def batch (config : WriteBatchConfig) : StoreM κ (WriteBatch κ) := do
  let commit ← nextCommit
  return ⟨⟨0, []⟩, commit, config⟩

namespace WriteBatch

/-- `check_capacity`. -/
def checkCapacity (b : WriteBatch κ) : StoreM κ Unit :=
  if b.memtable.memSize ≥ b.config.maxSize then throw (.writeBatchFull b.config.maxSize)
  else pure ()

/-- The records of a batch's write: each logged when the batch logs writes, and written to its
memtable under the batch's commit id. -/
def writeMany (b : WriteBatch κ) (records : List (κ × Option (List UInt8))) :
    StoreM κ (WriteBatch κ) := do
  if b.config.logWrites then
    modifyThe (KvStore κ) fun s =>
      { s with log := s.log ++ records.map fun r => (r.1, b.commit, r.2) }
  return { b with memtable := records.foldl (fun t r => t.write r.1 ⟨b.commit, r.2⟩) b.memtable }

/-- `WriteBatch::put`. -/
def put (b : WriteBatch κ) (key : κ) (data : List UInt8) : StoreM κ (WriteBatch κ) := do
  b.checkCapacity
  b.writeMany [(key, some data)]

/-- `WriteBatch::put_many`: the capacity is checked once, before the rows. -/
def putMany (b : WriteBatch κ) (rows : List (κ × List UInt8)) : StoreM κ (WriteBatch κ) := do
  b.checkCapacity
  b.writeMany (rows.map fun (key, data) => (key, some data))

/-- `WriteBatch::delete`, which checks no capacity. -/
def delete (b : WriteBatch κ) (key : κ) : StoreM κ (WriteBatch κ) := b.writeMany [(key, none)]

/-- `WriteBatch::delete_many`, which checks no capacity. -/
def deleteMany (b : WriteBatch κ) (keys : List κ) : StoreM κ (WriteBatch κ) :=
  b.writeMany (keys.map fun key => (key, none))

end WriteBatch

/-- `KvStore::commit`: the batch's records join the memtable, whose size is not recounted. -/
def commitBatch (b : WriteBatch κ) : StoreM κ Unit := do
  modifyThe (KvStore κ) fun s =>
    { s with mem := { s.mem with values := s.mem.values.append b.memtable.values } }
  ensureMemtable

/-! ## Opening a root -/

/-- `load_tables`: without `tables.meta` no levels; else the mapper loads the mappings, which the
mapper in memory ignores, and the levels are its active set's. -/
def loadTables (config : Config) (root : Root κ) :
    Except Error (List (Nat × Kind) × TableVec κ) :=
  match root.tablesMeta with
  | none => .ok ([], [])
  | some tablesMeta =>
    let mappings := if config.inMemory then [] else tablesMeta
    match activeSet mappings root.files with
    | some ssts => .ok (mappings, sortedTables ssts)
    | none => .error .io

/-- `KvStore::open` at a clock reading `now`: the log is read back into the memtable when its
file existed and the store is on disk, the levels are loaded, the commit ids start from `now`, and
a compactor is spawned. -/
def openStore (config : Config) (root : Root κ) (now : Nat) : Except Error (KvStore κ) := do
  let log := root.log.getD []
  let values ← if root.log.isSome && !config.inMemory then materialize log else pure []
  let (mappings, tables) ← loadTables config root
  pure { config, commit := now, mem := MemTable.new values, log, tables, mappings,
         tablesMeta := root.tablesMeta, files := root.files, nextId := root.nextId,
         requests := [], responses := [], compactor := .idle }

/-- What `open` can do: the memtable holds the log's records, read back when the log's file exists
and the store is on disk, the levels are those `load_tables` loads, and the compactor is fresh. -/
theorem openStore_eq_ok {config : Config} {root : Root κ} {now : Nat} {s : KvStore κ}
    (h : openStore config root now = .ok s) :
    ∃ values mappings tables,
      (if root.log.isSome && !config.inMemory then materialize (root.log.getD []) else .ok []) =
        .ok values ∧ loadTables config root = .ok (mappings, tables) ∧
      s = { config, commit := now, mem := MemTable.new values, log := root.log.getD [], tables,
            mappings, tablesMeta := root.tablesMeta, files := root.files, nextId := root.nextId,
            requests := [], responses := [], compactor := .idle } := by
  unfold openStore at h
  cases hl : loadTables config root with
  | error e =>
    -- the levels fail to load, and so does the store
    split at h <;> simp [hl, bind, Except.bind] at h <;> split at h <;> cases h
  | ok p =>
    split at h
    · rename_i hdisk
      cases hm : materialize (root.log.getD []) with
      | error e => simp [hm, bind, Except.bind] at h
      | ok values =>
        simp only [hm, hl, bind, Except.bind, pure, Except.pure, Except.ok.injEq] at h
        exact ⟨values, p.1, p.2, by rw [if_pos hdisk], rfl, h.symm⟩
    · rename_i hdisk
      simp only [hl, bind, Except.bind, pure, Except.pure, Except.ok.injEq] at h
      exact ⟨[], p.1, p.2, by rw [if_neg hdisk], rfl, h.symm⟩

/-- Sessions on one root one after another: each opens the store at its clock reading, runs its
program and drops the store; the answer of each, up to an error of `open`.  `none` is a panic. -/
def sessions {α : Type} (config : Config) : Root κ → List (Nat × StoreM κ α) →
    Option (List (Except Error α))
  | _, [] => some []
  | root, (now, prog) :: rest =>
    match openStore config root now with
    | .error e => some [.error e]
    | .ok s => do
      let (r, s) ← prog.run.run s
      let rs ← sessions config s.drop rest
      return r :: rs

end Kvstore

end Morgan
