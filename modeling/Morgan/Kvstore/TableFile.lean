import Mathlib
import Morgan.Kvstore.WriteLog
import Morgan.Lib.Iter
import Morgan.Lib.Outcome

/-!
# The files of a table

`sstable.rs` byte by byte.  `create_capped` writes each record with bincode to the data file and
keeps an index entry for its key: the commit id, the record's offset and its size; the index file
is the meta in a slot of `INDEX_META_SIZE` bytes and then each key with its entry in a slot of
`INDEX_RECORD_SIZE` bytes, in key order.  `from_parts` reads the meta back, and a `Scan` walks the
index from its first slot: it skips keys below the range, stops at the first key past it, and reads
the record of each key in it from the data file at the entry's offset.

A record of the data file is `(key, value)` in the layout of the write log's records
(`encodeRecord`).  The model's `Value` holds the commit id as an integer, which the files hold as an
`i64`; sizes and offsets are `u64`.

The files refine the list model of `Table`: for rows whose commit ids are `i64`s and whose records
take less than `2 ^ 64` bytes, the files that `createCapped` writes are read back by `fromParts`
into a table with the list model's meta, whose every range scan collects the list model's range and
whose `get` is the list model's (`createCapped_refines`).
-/

namespace Morgan

namespace Kvstore

open Bincode Rust

variable {κ : Type}

/-- `INDEX_META_SIZE`, `mem::size_of::<IndexMeta>()`: a `u64`, two keys and a `u8`, 57 bytes,
padded to a multiple of the `u64`'s alignment. -/
def INDEX_META_SIZE : Nat := 64

/-- `INDEX_ENTRY_SIZE`, `mem::size_of::<IndexEntry>()`: three fields of eight bytes. -/
def INDEX_ENTRY_SIZE : Nat := 24

/-- `INDEX_RECORD_SIZE`: a key and an index entry. -/
def INDEX_RECORD_SIZE : Nat := KEY_LEN + INDEX_ENTRY_SIZE

/-- `usize::MAX`, where a scan that ended leaves its position. -/
def USIZE_MAX : Nat := 2 ^ 64 - 1

/-- `IndexEntry`: the commit id of a record, and its offset and size in the data file. -/
structure IndexEntry where
  timestamp : Int64
  offset : UInt64
  size : UInt64
  deriving DecidableEq, Repr

/-- The commit id of a value is an `i64`, as the source's `Value::ts` is. -/
def Value.TsInRange (v : Value) : Prop := -2 ^ 63 ≤ v.ts ∧ v.ts < 2 ^ 63

instance : DecidablePred Value.TsInRange := fun _ => inferInstanceAs (Decidable (_ ∧ _))

namespace TableFile

/-! ## Encodings -/

/-- The bincode of an `IndexEntry`. -/
def encodeIndexEntry (entry : IndexEntry) : List UInt8 :=
  encodeU64 entry.timestamp.toUInt64 ++ encodeU64 entry.offset ++ encodeU64 entry.size

/-- The bincode of an index record `(key, entry)`. -/
def encodeIndexRecord (codec : KeyCodec κ) (key : κ) (entry : IndexEntry) : List UInt8 :=
  codec.toBytes key ++ encodeIndexEntry entry

/-- The bincode of an `IndexMeta`: the level as a `u8`, the data's size as a `u64`, and the first
and last keys. -/
def encodeIndexMeta (codec : KeyCodec κ) (indexMeta : IndexMeta κ) : List UInt8 :=
  [UInt8.ofNat indexMeta.level] ++ encodeU64 (UInt64.ofNat indexMeta.dataSize) ++
    codec.toBytes indexMeta.start ++ codec.toBytes indexMeta.last

/-- A `Key`: its bytes. -/
def decodeKey (codec : KeyCodec κ) : Decoder κ := codec.ofBytes <$> bytes KEY_LEN

/-- An `i64`. -/
def i64 : Decoder Int64 := UInt64.toInt64 <$> u64

/-- An `IndexEntry`. -/
def decodeIndexEntry : Decoder IndexEntry := do
  let timestamp ← i64
  let offset ← u64
  let size ← u64
  pure ⟨timestamp, offset, size⟩

/-- An index record `(Key, IndexEntry)`. -/
def decodeIndexRecord (codec : KeyCodec κ) : Decoder (κ × IndexEntry) := do
  let key ← decodeKey codec
  let entry ← decodeIndexEntry
  pure (key, entry)

/-- An `IndexMeta`. -/
def decodeIndexMeta (codec : KeyCodec κ) : Decoder (IndexMeta κ) := do
  let level ← byte
  let dataSize ← u64
  let start ← decodeKey codec
  let last ← decodeKey codec
  pure ⟨level.toNat, dataSize.toNat, start, last⟩

/-- A `Value`: the commit id, and the data as an `Option<Vec<u8>>`. -/
def decodeValue : Decoder Value := do
  let ts ← i64
  let val ← option (vec byte)
  pure ⟨ts.toInt, val⟩

/-- A data record `(Key, Value)`. -/
def decodeRecord (codec : KeyCodec κ) : Decoder (κ × Value) := do
  let key ← decodeKey codec
  let value ← decodeValue
  pure (key, value)

/-! ## Writing a table -/

section Create

variable [LinearOrder κ]

/-- `flush_mem_table_capped`: each record is written to the data after the ones before it and its
key indexed with its commit id, offset and serialized size, until the data's size reaches the
cap; the data, its size, the index and the rows left. -/
def flushMemTableCapped (codec : KeyCodec κ) (maxTableSize : UInt64) :
    List (κ × Value) → List UInt8 → UInt64 → SortedMap κ IndexEntry →
      List UInt8 × UInt64 × SortedMap κ IndexEntry × List (κ × Value)
  | [], data, size, index => (data, size, index, [])
  | (key, val) :: rows, data, size, index =>
    let serializedSize := UInt64.ofNat (recordSize val)
    let data := data ++ encodeRecord codec key (Int64.ofInt val.ts) val.val
    let entry : IndexEntry := ⟨Int64.ofInt val.ts, size, serializedSize⟩
    let size := size + serializedSize
    let index := index.insert key entry
    if size ≥ maxTableSize then (data, size, index, rows)
    else flushMemTableCapped codec maxTableSize rows data size index

/-- `flush_index`: the meta over a buffer of `INDEX_META_SIZE` zeros, then each key with its entry
over one of `INDEX_RECORD_SIZE` zeros; `none` when one does not fit, where `expect` panics. -/
def flushIndex (codec : KeyCodec κ) (index : SortedMap κ IndexEntry) (indexMeta : IndexMeta κ) :
    Option (List UInt8) := do
  let metaBuffer ←
    serializeInto (encodeIndexMeta codec indexMeta) (List.replicate INDEX_META_SIZE 0)
  let entryBuffers ← index.mapM fun e =>
    serializeInto (encodeIndexRecord codec e.1 e.2) (List.replicate INDEX_RECORD_SIZE 0)
  pure (metaBuffer ++ entryBuffers.flatten)

/-- `SSTable::create_capped`: the data file, the index file and the rows left; `none` is a panic,
of `unwrap` on an empty index among them. -/
def createCapped (codec : KeyCodec κ) (rows : List (κ × Value)) (level : UInt8)
    (maxTableSize : UInt64) : Option (List UInt8 × List UInt8 × List (κ × Value)) := do
  let flushed := flushMemTableCapped codec maxTableSize rows [] 0 []
  let start ← flushed.2.2.1.head?
  let last ← flushed.2.2.1.getLast?
  let indexMeta : IndexMeta κ := ⟨level.toNat, flushed.2.1.toNat, start.1, last.1⟩
  let index ← flushIndex codec flushed.2.2.1 indexMeta
  pure (flushed.1, index, flushed.2.2.2)

end Create

/-! ## Reading a table -/

/-- An `SSTable`: its data and index files and its meta. -/
structure Table (κ : Type) where
  data : List UInt8
  index : List UInt8
  indexMeta : IndexMeta κ

/-- `SSTable::from_parts`: panics unless the index holds the meta and whole records, and reads the
meta; the error is `Error::Corrupted`. -/
def fromParts (codec : KeyCodec κ) (data index : List UInt8) : Outcome Unit (Table κ) :=
  if INDEX_META_SIZE < index.length ∧ (index.length - INDEX_META_SIZE) % INDEX_RECORD_SIZE = 0 then
    match deserialize (decodeIndexMeta codec) (index.take INDEX_META_SIZE) with
    | some indexMeta => .ok ⟨data, index, indexMeta⟩
    | none => .err ()
  else .panic

/-- `SSTable::num_keys`. -/
def Table.numKeys (t : Table κ) : Nat := (t.index.length - INDEX_META_SIZE) / INDEX_ENTRY_SIZE

/-- `Scan`: the bounds of the range, the two files, and the position of the next index record. -/
structure Scan (κ : Type) where
  lo : κ
  hi : κ
  data : List UInt8
  index : List UInt8
  indexPos : Nat

section Scan

variable [LinearOrder κ]

/-- `Scan::step`: index records are read from the position on; a key below the range is skipped,
a key past it ends the scan, and a key in it has its record read from the data file.  `none` is a
panic: a slice past a file's end, or a data record of another key; an error is a record that does
not decode. -/
def Scan.step (codec : KeyCodec κ) (s : Scan κ) :
    Option (Except Unit (Option (κ × Value)) × Scan κ) :=
  if s.indexPos < s.index.length then
    match slice s.index s.indexPos (s.indexPos + INDEX_RECORD_SIZE) with
    | none => none
    | some bytes =>
      match deserialize (decodeIndexRecord codec) bytes with
      | none => some (.error (), s)
      | some (key, entry) =>
        let s' := { s with indexPos := s.indexPos + INDEX_RECORD_SIZE }
        if key < s.lo then s'.step codec
        else if s.hi < key then some (.ok none, { s' with indexPos := USIZE_MAX })
        else
          match slice s.data entry.offset.toNat (entry.offset + entry.size).toNat with
          | none => none
          | some record =>
            match deserialize (decodeRecord codec) record with
            | none => some (.error (), s')
            | some (dataKey, value) =>
              if dataKey = key then some (.ok (some (dataKey, value)), s') else none
  else some (.ok none, s)
termination_by s.index.length - s.indexPos
decreasing_by
  simp only [INDEX_RECORD_SIZE, KEY_LEN, INDEX_ENTRY_SIZE]
  omega

/-- `Iterator::next` of a `Scan`: nothing once past the index, and an error ends the scan. -/
def Scan.next (codec : KeyCodec κ) (s : Scan κ) : Option (Option (κ × Value) × Scan κ) :=
  if s.index.length ≤ s.indexPos then some (none, s)
  else
    match s.step codec with
    | none => none
    | some (.ok item, s') => some (item, s')
    | some (.error _, s') => some (none, { s' with indexPos := USIZE_MAX })

/-- A step that hands out a record has moved past index records. -/
theorem Scan.step_item {codec : KeyCodec κ} {s s' : Scan κ} {a : κ × Value}
    (h : s.step codec = some (.ok (some a), s')) :
    s'.index = s.index ∧ s.indexPos < s'.indexPos := by
  fun_induction Scan.step codec s
  case case3 s _ _ _ _ _ _ s₁ _ ih =>
    obtain ⟨hindex, hpos⟩ := ih h
    exact ⟨hindex, Nat.lt_of_add_right_lt hpos⟩
  case case7 =>
    obtain ⟨-, rfl⟩ := Prod.mk.inj (Option.some.inj h)
    exact ⟨rfl, Nat.lt_add_of_pos_right (by decide)⟩
  all_goals cases h

theorem Scan.next_item {codec : KeyCodec κ} {s s' : Scan κ} {a : κ × Value}
    (h : s.next codec = some (some a, s')) :
    s'.index = s.index ∧ s.indexPos < s'.indexPos ∧ s.indexPos < s.index.length := by
  unfold Scan.next at h
  split_ifs at h with hend
  · cases h
  · split at h
    · cases h
    · cases h
      exact ⟨(Scan.step_item ‹_›).1, (Scan.step_item ‹_›).2, Nat.lt_of_not_le hend⟩
    · cases h

/-- A `Scan` as an iterator: each record it hands out moves it along the index. -/
def scanIter (codec : KeyCodec κ) : Iter (Scan κ) (κ × Value) where
  next := Scan.next codec
  measure s := s.index.length - s.indexPos
  next_lt s a s' h := by
    obtain ⟨hindex, hpos, hlt⟩ := Scan.next_item h
    rw [hindex]
    omega

end Scan

/-- `Scan::new`: from the first index record. -/
def Scan.new (lo hi : κ) (data index : List UInt8) : Scan κ :=
  ⟨lo, hi, data, index, INDEX_META_SIZE⟩

/-- `SSTable::range` over `[lo, hi]`: a scan of the table's files. -/
def Table.range (t : Table κ) (lo hi : κ) : Scan κ := Scan.new lo hi t.data t.index

/-- `SSTable::get`: the first record of the scan of `[key, key]` that has the key; `none` is a
panic on the way. -/
def Table.get [LinearOrder κ] (codec : KeyCodec κ) (t : Table κ) (key : κ) :
    Option (Option Value) :=
  ((scanIter codec).find (·.1 = key) (t.range key key)).map (Option.map Prod.snd)

/-! ## Reading back the encodings -/

theorem length_encodeIndexRecord (codec : KeyCodec κ) (key : κ) (entry : IndexEntry) :
    (encodeIndexRecord codec key entry).length = INDEX_RECORD_SIZE := by
  simp [encodeIndexRecord, encodeIndexEntry, codec.length_toBytes, encodeU64, INDEX_RECORD_SIZE,
    INDEX_ENTRY_SIZE]

/-- A record's bytes are as long as `serialized_size` says. -/
theorem length_encodeRecord (codec : KeyCodec κ) (key : κ) (commit : Int64) (v : Value) :
    (encodeRecord codec key commit v.val).length = recordSize v := by
  obtain ⟨ts, _ | bytes⟩ := v
  · simp [encodeRecord, recordSize, codec.length_toBytes, encodeU64]
  · simp [encodeRecord, recordSize, codec.length_toBytes, encodeU64]
    omega

theorem decodeKey_run (codec : KeyCodec κ) (key : κ) (rest : List UInt8) :
    (decodeKey codec).run (codec.toBytes key ++ rest) = some (key, rest) := by
  rw [decodeKey, StateT.run_map, bytes_append (codec.length_toBytes key), Option.map_eq_map,
    Option.map_some, codec.ofBytes_toBytes]

theorem u64_run (x : UInt64) (rest : List UInt8) : u64.run (encodeU64 x ++ rest) = some (x, rest) :=
  ReadsBack.u64 x _ rfl rest

theorem i64_run (x : Int64) (rest : List UInt8) :
    i64.run (encodeU64 x.toUInt64 ++ rest) = some (x, rest) := by
  rw [i64, StateT.run_map, u64_run]
  simp

theorem decodeIndexRecord_run (codec : KeyCodec κ) (key : κ) (entry : IndexEntry)
    (rest : List UInt8) :
    (decodeIndexRecord codec).run (encodeIndexRecord codec key entry ++ rest) =
      some ((key, entry), rest) := by
  simp [decodeIndexRecord, decodeIndexEntry, encodeIndexRecord, encodeIndexEntry, decodeKey_run,
    i64_run, u64_run]

theorem toInt_ofInt_ts {v : Value} (h : v.TsInRange) : (Int64.ofInt v.ts).toInt = v.ts := by
  rw [Int64.toInt_ofInt]
  exact Int.bmod_eq_of_le h.1 h.2

theorem decodeRecord_run (codec : KeyCodec κ) (key : κ) {v : Value} (hts : v.TsInRange)
    (hval : ∀ bytes, v.val = some bytes → bytes.length < 2 ^ 64) (rest : List UInt8) :
    (decodeRecord codec).run (encodeRecord codec key (Int64.ofInt v.ts) v.val ++ rest) =
      some ((key, v), rest) := by
  obtain ⟨ts, _ | bytes⟩ := v
  · simp [decodeRecord, decodeValue, encodeRecord, decodeKey_run, i64_run, option,
      toInt_ofInt_ts hts]
  · have hbytes := vec_byte_run (hval bytes rfl) rest
    simp at hbytes
    simp [decodeRecord, decodeValue, encodeRecord, decodeKey_run, i64_run, option, hbytes,
      toInt_ofInt_ts hts]

theorem decodeIndexMeta_run (codec : KeyCodec κ) {indexMeta : IndexMeta κ}
    (hlevel : indexMeta.level < 256) (hsize : indexMeta.dataSize < 2 ^ 64) (rest : List UInt8) :
    (decodeIndexMeta codec).run (encodeIndexMeta codec indexMeta ++ rest) =
      some (indexMeta, rest) := by
  have hlevel' : (UInt8.ofNat indexMeta.level).toNat = indexMeta.level := by
    rw [UInt8.toNat_ofNat', Nat.mod_eq_of_lt hlevel]
  have hsize' : (UInt64.ofNat indexMeta.dataSize).toNat = indexMeta.dataSize := by
    rw [UInt64.toNat_ofNat', Nat.mod_eq_of_lt hsize]
  simp [decodeIndexMeta, encodeIndexMeta, decodeKey_run, u64_run, hlevel', hsize']

/-- `flush_index` writes the meta padded to its slot, then each index record in its slot. -/
theorem flushIndex_eq (codec : KeyCodec κ) (index : SortedMap κ IndexEntry)
    (indexMeta : IndexMeta κ) :
    flushIndex codec index indexMeta = some (encodeIndexMeta codec indexMeta ++
      List.replicate 7 0 ++ index.flatMap fun e => encodeIndexRecord codec e.1 e.2) := by
  have hmeta : serializeInto (encodeIndexMeta codec indexMeta) (List.replicate INDEX_META_SIZE 0) =
      some (encodeIndexMeta codec indexMeta ++ List.replicate 7 0) := by
    simp [serializeInto, encodeIndexMeta, codec.length_toBytes, encodeU64, INDEX_META_SIZE, KEY_LEN]
  have hrecord : ∀ e : κ × IndexEntry,
      serializeInto (encodeIndexRecord codec e.1 e.2) (List.replicate INDEX_RECORD_SIZE 0) =
        pure (encodeIndexRecord codec e.1 e.2) := by
    intro e
    simp [serializeInto, length_encodeIndexRecord]
  simp only [flushIndex, hmeta, hrecord, List.mapM_pure]
  simp [List.flatMap_def]

/-! ## Writing the data file -/

/-- The index entry `e` locates the record `r` in the data file `data`: the same key, and at its
offset the record's bytes, whose commit id is an `i64`. -/
def Locates (codec : KeyCodec κ) (data : List UInt8) (e : κ × IndexEntry) (r : κ × Value) :
    Prop :=
  e.1 = r.1 ∧ r.2.TsInRange ∧ e.2.offset.toNat + e.2.size.toNat ≤ data.length ∧
    (data.drop e.2.offset.toNat).take e.2.size.toNat =
      encodeRecord codec r.1 (Int64.ofInt r.2.ts) r.2.val

theorem Locates.append {codec : KeyCodec κ} {data : List UInt8} {e : κ × IndexEntry}
    {r : κ × Value} (h : Locates codec data e r) (more : List UInt8) :
    Locates codec (data ++ more) e r := by
  obtain ⟨hkey, hts, hle, hbytes⟩ := h
  refine ⟨hkey, hts, by rw [List.length_append]; omega, ?_⟩
  rw [List.drop_append_of_le_length (by omega),
    List.take_append_of_le_length (by rw [List.length_drop]; omega)]
  exact hbytes

section Refinement

variable [LinearOrder κ]

/-- `flush_mem_table_capped` writes the data file the list model accounts for: as many bytes as
the list model's size, the same rows left, and an index entry locating each record of the list
model's index. -/
theorem flushMemTableCapped_locates (codec : KeyCodec κ) (maxTableSize : UInt64) :
    ∀ (rows : List (κ × Value)) (data : List UInt8) (size : UInt64)
      (index : SortedMap κ IndexEntry) (rowsIndex : SortedMap κ Value),
      (∀ r ∈ rows, r.2.TsInRange) →
      data.length + (rows.map fun r => recordSize r.2).sum < 2 ^ 64 →
      size.toNat = data.length → List.Forall₂ (Locates codec data) index rowsIndex →
      let flushed := flushMemTableCapped codec maxTableSize rows data size index
      let listed := Kvstore.flushMemTableCapped maxTableSize.toNat rows data.length rowsIndex
      flushed.1.length = listed.1 ∧ flushed.2.1.toNat = listed.1 ∧ flushed.2.2.2 = listed.2.2 ∧
        List.Forall₂ (Locates codec flushed.1) flushed.2.2.1 listed.2.1
  | [], data, size, index, rowsIndex, _, _, hsize, hloc => ⟨rfl, hsize, rfl, hloc⟩
  | (key, val) :: rows, data, size, index, rowsIndex, hts, hfit, hsize, hloc => by
    intro flushed listed
    set record := encodeRecord codec key (Int64.ofInt val.ts) val.val with hrecordDef
    have hrecord : record.length = recordSize val := length_encodeRecord codec key _ val
    simp only [List.map_cons, List.sum_cons] at hfit
    have hsize' : (size + UInt64.ofNat (recordSize val)).toNat = (data ++ record).length := by
      rw [UInt64.toNat_add, UInt64.toNat_ofNat', hsize, Nat.mod_eq_of_lt (by omega),
        List.length_append, hrecord, Nat.mod_eq_of_lt (by omega)]
    have hentry : Locates codec (data ++ record)
        (key, ⟨Int64.ofInt val.ts, size, UInt64.ofNat (recordSize val)⟩) (key, val) := by
      refine ⟨rfl, hts _ List.mem_cons_self, ?_, ?_⟩
      · simp only [hsize, UInt64.toNat_ofNat', List.length_append, hrecord]
        omega
      · rw [hsize, List.drop_left, UInt64.toNat_ofNat', Nat.mod_eq_of_lt (by omega), ← hrecord,
          List.take_length]
    have hloc' := SortedMap.forall₂_insert (fun _ _ h => h.1)
      (hloc.imp fun _ _ h => h.append record) hentry
    have hlen : (data ++ record).length = data.length + recordSize val := by
      rw [List.length_append, hrecord]
    simp only [flushed, listed, flushMemTableCapped, Kvstore.flushMemTableCapped]
    by_cases hcap : maxTableSize.toNat ≤ data.length + recordSize val
    · rw [if_pos (UInt64.le_iff_toNat_le.2 (by omega)), if_pos hcap]
      exact ⟨hlen, hsize'.trans hlen, rfl, hloc'⟩
    · rw [if_neg (fun h => hcap (by have := UInt64.le_iff_toNat_le.1 h; omega)), if_neg hcap,
        ← hlen]
      exact flushMemTableCapped_locates codec maxTableSize rows (data ++ record) _ _ _
        (fun r hr => hts r (List.mem_cons_of_mem _ hr)) (by omega) hsize' hloc'

/-! ## Scanning the index -/

theorem deserialize_indexRecord (codec : KeyCodec κ) (key : κ) (entry : IndexEntry) :
    deserialize (decodeIndexRecord codec) (encodeIndexRecord codec key entry) = some (key, entry) :=
  deserialize_of_run (by simpa using decodeIndexRecord_run codec key entry [])

section ScanAt

variable {codec : KeyCodec κ} {s : Scan κ} {pre rest : List UInt8} {key : κ} {entry : IndexEntry}

theorem Scan.indexPos_lt_of_at
    (hindex : s.index = pre ++ (encodeIndexRecord codec key entry ++ rest))
    (hpos : s.indexPos = pre.length) : s.indexPos < s.index.length := by
  rw [hindex, hpos, List.length_append, List.length_append, length_encodeIndexRecord]
  simp [INDEX_RECORD_SIZE, KEY_LEN]

theorem Scan.slice_of_at (hindex : s.index = pre ++ (encodeIndexRecord codec key entry ++ rest))
    (hpos : s.indexPos = pre.length) :
    slice s.index s.indexPos (s.indexPos + INDEX_RECORD_SIZE) =
      some (encodeIndexRecord codec key entry) := by
  have hlen := length_encodeIndexRecord codec key entry
  rw [slice_of_le (by omega) (by rw [hindex, hpos]; simp [hlen]), hindex, hpos, List.drop_left,
    Nat.add_sub_cancel_left, ← hlen, List.take_left]

/-- A key below the range is skipped. -/
theorem Scan.step_below (hindex : s.index = pre ++ (encodeIndexRecord codec key entry ++ rest))
    (hpos : s.indexPos = pre.length) (hlo : key < s.lo) :
    s.step codec = ({ s with indexPos := s.indexPos + INDEX_RECORD_SIZE } : Scan κ).step codec := by
  rw [Scan.step.eq_1 codec s, if_pos (Scan.indexPos_lt_of_at hindex hpos),
    Scan.slice_of_at hindex hpos]
  simp only [deserialize_indexRecord, if_pos hlo]

/-- A key past the range ends the scan. -/
theorem Scan.step_above (hindex : s.index = pre ++ (encodeIndexRecord codec key entry ++ rest))
    (hpos : s.indexPos = pre.length) (hlo : ¬key < s.lo) (hhi : s.hi < key) :
    s.step codec = some (.ok none, { s with indexPos := USIZE_MAX }) := by
  rw [Scan.step.eq_1 codec s, if_pos (Scan.indexPos_lt_of_at hindex hpos),
    Scan.slice_of_at hindex hpos]
  simp only [deserialize_indexRecord, if_neg hlo, if_pos hhi]

/-- A key in the range has its record read from the data file at the entry's offset. -/
theorem Scan.step_within (hindex : s.index = pre ++ (encodeIndexRecord codec key entry ++ rest))
    (hpos : s.indexPos = pre.length) (hlo : ¬key < s.lo) (hhi : ¬s.hi < key) {value : Value}
    (hdata : s.data.length < 2 ^ 64) (hloc : Locates codec s.data (key, entry) (key, value)) :
    s.step codec =
      some (.ok (some (key, value)), { s with indexPos := s.indexPos + INDEX_RECORD_SIZE }) := by
  obtain ⟨-, hts, hle, hbytes⟩ := hloc
  dsimp only at hts hle hbytes
  have hend : (entry.offset + entry.size).toNat = entry.offset.toNat + entry.size.toNat := by
    rw [UInt64.toNat_add, Nat.mod_eq_of_lt (by omega)]
  have hslice : slice s.data entry.offset.toNat (entry.offset + entry.size).toNat =
      some (encodeRecord codec key (Int64.ofInt value.ts) value.val) := by
    rw [hend, slice_of_le (by omega) hle, Nat.add_sub_cancel_left, hbytes]
  have hval : ∀ bytes, value.val = some bytes → bytes.length < 2 ^ 64 := by
    intro bytes hsome
    have hlen := congrArg List.length hbytes
    rw [length_encodeRecord, List.length_take, List.length_drop] at hlen
    simp only [recordSize, hsome, Option.map_some, Option.getD_some] at hlen
    omega
  have hrecord : deserialize (decodeRecord codec)
      (encodeRecord codec key (Int64.ofInt value.ts) value.val) = some (key, value) :=
    deserialize_of_run (by simpa using decodeRecord_run codec key hts hval [])
  rw [Scan.step.eq_1 codec s, if_pos (Scan.indexPos_lt_of_at hindex hpos),
    Scan.slice_of_at hindex hpos]
  simp only [deserialize_indexRecord, if_neg hlo, if_neg hhi, hslice, hrecord, if_true]

end ScanAt

theorem Scan.next_of_le {codec : KeyCodec κ} {s : Scan κ} (h : s.index.length ≤ s.indexPos) :
    s.next codec = some (none, s) :=
  if_pos h

theorem Scan.next_of_step {codec : KeyCodec κ} {s s' : Scan κ} {item : Option (κ × Value)}
    (hlt : s.indexPos < s.index.length) (h : s.step codec = some (.ok item, s')) :
    s.next codec = some (item, s') := by
  rw [Scan.next, if_neg (Nat.not_le_of_lt hlt), h]

/-- Two scans whose steps agree, the first at a record of it, hand out the same. -/
theorem Scan.next_eq_of_step_eq {codec : KeyCodec κ} {s s' : Scan κ}
    (hlt : s.indexPos < s.index.length) (h : s.step codec = s'.step codec) :
    s.next codec = s'.next codec := by
  rw [Scan.next, if_neg (Nat.not_le_of_lt hlt), h, Scan.next]
  split_ifs with hend
  · rw [Scan.step.eq_1 codec s', if_neg (Nat.not_lt_of_le hend)]
  · rfl

/-- The scan over index records that each locate a record of a sorted map collects the map's
entries in the range. -/
theorem toList_scan (codec : KeyCodec κ) {lo hi : κ} {data : List UInt8}
    (hdata : data.length < 2 ^ 64) {index : SortedMap κ IndexEntry} {rows : SortedMap κ Value}
    (hloc : List.Forall₂ (Locates codec data) index rows) (hsorted : SortedMap.Sorted rows)
    (pre : List UInt8) :
    (scanIter codec).toList
        ⟨lo, hi, data, pre ++ index.flatMap (fun e => encodeIndexRecord codec e.1 e.2),
          pre.length⟩ =
      some (rows.range lo hi) := by
  induction hloc generalizing pre with
  | nil => exact Iter.toList_of_next_done (Scan.next_of_le (by simp))
  | cons hentry hrest ih =>
    rename_i e r index rows
    obtain ⟨key, entry⟩ := e
    obtain ⟨key', value⟩ := r
    obtain rfl : key = key' := hentry.1
    have hindex :
        pre ++ ((key, entry) :: index).flatMap (fun e => encodeIndexRecord codec e.1 e.2) =
          pre ++ (encodeIndexRecord codec key entry ++
            index.flatMap fun e => encodeIndexRecord codec e.1 e.2) := by
      rw [List.flatMap_cons]
    have hlt := Scan.indexPos_lt_of_at (s := ⟨lo, hi, data, _, pre.length⟩) hindex rfl
    have hnext : ∀ {s' : Scan κ}, s'.index = (pre ++ encodeIndexRecord codec key entry) ++
        index.flatMap (fun e => encodeIndexRecord codec e.1 e.2) →
        s'.indexPos = pre.length + INDEX_RECORD_SIZE → s'.lo = lo → s'.hi = hi → s'.data = data →
        (scanIter codec).toList s' = some (SortedMap.range rows lo hi) := by
      rintro ⟨lo', hi', data', index', pos'⟩ hindex' hpos' rfl rfl rfl
      dsimp only at hindex' hpos'
      subst hindex' hpos'
      rw [← length_encodeIndexRecord codec key entry, ← List.length_append]
      exact ih hsorted.tail _
    have hafter : ∀ e ∈ rows, key < e.1 := (List.pairwise_cons.1 hsorted).1
    by_cases hlo : key < lo
    · rw [Iter.toList_eq_of_next_eq (Scan.next_eq_of_step_eq hlt (Scan.step_below hindex rfl hlo)),
        hnext (by simp) rfl rfl rfl rfl]
      simp [SortedMap.range, not_le.2 hlo]
    by_cases hhi : hi < key
    · rw [Iter.toList_of_next_done (Scan.next_of_step hlt (Scan.step_above hindex rfl hlo hhi))]
      -- every key from this one on is past the range
      refine congrArg some (List.filter_eq_nil_iff.2 fun e he => ?_).symm
      rcases List.mem_cons.1 he with rfl | he
      · simp [not_le.2 hhi]
      · simp [not_le.2 (hhi.trans (hafter e he))]
    · rw [Iter.toList_of_next_item (Scan.next_of_step hlt
        (Scan.step_within hindex rfl hlo hhi hdata hentry)), hnext (by simp) rfl rfl rfl rfl]
      simp [SortedMap.range, not_lt.1 hlo, not_lt.1 hhi]



/-! ## The files refine the list model -/

/-- The list model's index stays sorted. -/
theorem flushMemTableCapped_sorted (maxTableSize : Nat) :
    ∀ (rows : List (κ × Value)) (size : Nat) {index : SortedMap κ Value}, SortedMap.Sorted index →
      SortedMap.Sorted (Kvstore.flushMemTableCapped maxTableSize rows size index).2.1
  | [], _, _, h => h
  | (key, val) :: rows, size, index, h => by
    simp only [Kvstore.flushMemTableCapped]
    split_ifs
    · exact h.insert key val
    · exact flushMemTableCapped_sorted maxTableSize rows _ (h.insert key val)

theorem SSTable.createCapped_eq_some {rows : List (κ × Value)} {level maxTableSize : Nat}
    {t : SSTable κ} {rest : List (κ × Value)}
    (h : SSTable.createCapped rows level maxTableSize = some (t, rest)) :
    ∃ dataSize index start last,
      Kvstore.flushMemTableCapped maxTableSize rows 0 [] = (dataSize, index, rest) ∧
        (index.head?.map Prod.fst) = some start ∧ (index.getLast?.map Prod.fst) = some last ∧
        t = ⟨⟨level, dataSize, start, last⟩, index⟩ := by
  unfold SSTable.createCapped at h
  split at h
  rename_i dataSize index rest' hflush
  split at h
  · rename_i start vs last vl hhead hlast
    cases h
    exact ⟨dataSize, index, start, last, hflush, by rw [hhead]; rfl, by rw [hlast]; rfl, rfl⟩
  · cases h

/-- Index entries that locate records have the records' keys, in order. -/
theorem map_fst_of_locates {codec : KeyCodec κ} {data : List UInt8} {index : SortedMap κ IndexEntry}
    {rows : SortedMap κ Value} (h : List.Forall₂ (Locates codec data) index rows) :
    index.map Prod.fst = rows.map Prod.fst := by
  induction h with
  | nil => rfl
  | cons hentry _ ih => rw [List.map_cons, List.map_cons, hentry.1, ih]

/-- `SSTable::create_capped` writes files that `from_parts` reads back into a table with the list
model's meta, one index record for each of its rows, and whose scans collect the list model's
ranges; the rows left are the list model's. -/
theorem createCapped_fromParts (codec : KeyCodec κ) {rows : List (κ × Value)} {level : UInt8}
    {maxTableSize : UInt64} (hts : ∀ r ∈ rows, r.2.TsInRange)
    (hsize : (rows.map fun r => recordSize r.2).sum < 2 ^ 64) {t : SSTable κ}
    {rest : List (κ × Value)}
    (hcreate : SSTable.createCapped rows level.toNat maxTableSize.toNat = some (t, rest)) :
    ∃ data index, createCapped codec rows level maxTableSize = some (data, index, rest) ∧
      ∃ table, fromParts codec data index = .ok table ∧ table.indexMeta = t.indexMeta ∧
        table.index.length = INDEX_META_SIZE + INDEX_RECORD_SIZE * t.rows.length ∧
        ∀ lo hi, (scanIter codec).toList (table.range lo hi) = some (t.range lo hi) := by
  obtain ⟨dataSize, rowsIndex, start, last, hflush, hstart, hlast, rfl⟩ :=
    SSTable.createCapped_eq_some hcreate
  obtain ⟨hlen, hdataSize, hrest, hloc⟩ := flushMemTableCapped_locates codec maxTableSize rows []
    0 [] [] hts (by simpa using hsize) rfl .nil
  simp only [List.length_nil, hflush] at hlen hdataSize hrest hloc
  set flushed := flushMemTableCapped codec maxTableSize rows [] 0 [] with hflushed
  have hkeys := map_fst_of_locates hloc
  obtain ⟨eStart, hheadB, rfl⟩ : ∃ e, flushed.2.2.1.head? = some e ∧ e.1 = start := by
    rw [← Option.map_eq_some_iff, ← List.head?_map, hkeys, List.head?_map]
    exact hstart
  obtain ⟨eLast, hlastB, rfl⟩ : ∃ e, flushed.2.2.1.getLast? = some e ∧ e.1 = last := by
    rw [← Option.map_eq_some_iff, ← List.getLast?_map, hkeys, List.getLast?_map]
    exact hlast
  set indexMeta : IndexMeta κ := ⟨level.toNat, dataSize, eStart.1, eLast.1⟩ with hindexMeta
  set pre := encodeIndexMeta codec indexMeta ++ List.replicate 7 0 with hpreDef
  set records := flushed.2.2.1.flatMap fun e => encodeIndexRecord codec e.1 e.2 with hrecords
  have hpre : pre.length = INDEX_META_SIZE := by
    simp [pre, encodeIndexMeta, codec.length_toBytes, encodeU64, INDEX_META_SIZE, KEY_LEN]
  have hcreate' :
      createCapped codec rows level maxTableSize = some (flushed.1, pre ++ records, rest) := by
    rw [createCapped, ← hflushed, hheadB, hlastB]
    simp only [Option.bind_eq_bind, Option.bind_some, hdataSize, flushIndex_eq, hrest]
    rfl
  have hdata : flushed.1.length < 2 ^ 64 := hlen ▸ hdataSize ▸ flushed.2.1.toNat_lt
  have hsorted := flushMemTableCapped_sorted maxTableSize.toNat rows 0 SortedMap.Sorted.nil
  rw [hflush] at hsorted
  have hranges : ∀ lo hi, (scanIter codec).toList (Scan.new lo hi flushed.1 (pre ++ records)) =
      some (SortedMap.range rowsIndex lo hi) := by
    intro lo hi
    rw [Scan.new, ← hpre]
    exact toList_scan codec hdata hloc hsorted pre
  have hcount : records.length = INDEX_RECORD_SIZE * flushed.2.2.1.length := by
    rw [hrecords, List.length_flatMap]
    simp [length_encodeIndexRecord, Nat.mul_comm]
  have hlength : (pre ++ records).length =
      INDEX_META_SIZE + INDEX_RECORD_SIZE * flushed.2.2.1.length := by
    rw [List.length_append, hpre, hcount]
  refine ⟨_, _, hcreate', ⟨flushed.1, pre ++ records, indexMeta⟩, ?_, rfl,
    hlength.trans (by rw [hloc.length_eq]), hranges⟩
  · have hpos : 0 < flushed.2.2.1.length :=
      List.length_pos_of_ne_nil fun hnil => by rw [hnil] at hheadB; cases hheadB
    have hmeta : deserialize (decodeIndexMeta codec) ((pre ++ records).take INDEX_META_SIZE) =
        some indexMeta := by
      rw [← hpre, List.take_left, hpreDef]
      have hsize' : indexMeta.dataSize < 2 ^ 64 := by
        rw [hindexMeta, ← hdataSize]
        exact flushed.2.1.toNat_lt
      exact deserialize_of_run (decodeIndexMeta_run codec (UInt8.toNat_lt level) hsize' _)
    rw [fromParts, if_pos ⟨by rw [hlength]; simp [INDEX_RECORD_SIZE, KEY_LEN]; omega,
      by rw [hlength, Nat.add_sub_cancel_left, Nat.mul_mod_right]⟩, hmeta]

/-- The files refine the list model: `from_parts` of the files `SSTable::create_capped` writes is a
table with the list model's meta whose scans collect the list model's ranges and whose `get` is
the list model's. -/
theorem createCapped_refines (codec : KeyCodec κ) {rows : List (κ × Value)} {level : UInt8}
    {maxTableSize : UInt64} (hts : ∀ r ∈ rows, r.2.TsInRange)
    (hsize : (rows.map fun r => recordSize r.2).sum < 2 ^ 64) {t : SSTable κ}
    {rest : List (κ × Value)}
    (hcreate : SSTable.createCapped rows level.toNat maxTableSize.toNat = some (t, rest)) :
    ∃ data index, createCapped codec rows level maxTableSize = some (data, index, rest) ∧
      ∃ table, fromParts codec data index = .ok table ∧ table.indexMeta = t.indexMeta ∧
        (∀ lo hi, (scanIter codec).toList (table.range lo hi) = some (t.range lo hi)) ∧
        ∀ key, table.get codec key = some (t.get key) := by
  obtain ⟨data, index, hcreate', table, hparts, hmeta, -, hranges⟩ :=
    createCapped_fromParts codec hts hsize hcreate
  refine ⟨data, index, hcreate', table, hparts, hmeta, hranges, fun key => ?_⟩
  rw [Table.get, Iter.find_of_toList _ (hranges key key)]
  rfl

theorem createCapped_refines_one_row :
    let rows : List (Fin 256 × Value) := [(3, ⟨5, some [7]⟩)]
    let t : SSTable (Fin 256) := ⟨⟨0, 42, 3, 3⟩, rows⟩
    ∃ data index, createCapped byteKeys rows 0 100 = some (data, index, []) ∧
      ∃ table, fromParts byteKeys data index = .ok table ∧ table.indexMeta = t.indexMeta ∧
        (∀ lo hi, (scanIter byteKeys).toList (table.range lo hi) = some (t.range lo hi)) ∧
        ∀ key, table.get byteKeys key = some (t.get key) :=
  createCapped_refines byteKeys (by decide) (by decide) rfl

/-- `SSTable::num_keys` divides the index records' bytes by `INDEX_ENTRY_SIZE`, the size of an
entry without its key: a table that `SSTable::create_capped` writes reports twice its number of
keys. -/
theorem numKeys_createCapped (codec : KeyCodec κ) {rows : List (κ × Value)} {level : UInt8}
    {maxTableSize : UInt64} (hts : ∀ r ∈ rows, r.2.TsInRange)
    (hsize : (rows.map fun r => recordSize r.2).sum < 2 ^ 64) {t : SSTable κ}
    {rest : List (κ × Value)}
    (hcreate : SSTable.createCapped rows level.toNat maxTableSize.toNat = some (t, rest)) :
    ∃ data index, createCapped codec rows level maxTableSize = some (data, index, rest) ∧
      ∃ table, fromParts codec data index = .ok table ∧ table.numKeys = 2 * t.rows.length := by
  obtain ⟨data, index, hcreate', table, hparts, -, hlength, -⟩ :=
    createCapped_fromParts codec hts hsize hcreate
  refine ⟨data, index, hcreate', table, hparts, ?_⟩
  rw [Table.numKeys, hlength, Nat.add_sub_cancel_left, INDEX_RECORD_SIZE, KEY_LEN,
    INDEX_ENTRY_SIZE]
  omega

theorem numKeys_createCapped_one_row :
    ∃ data index, createCapped byteKeys [((3 : Fin 256), (⟨5, some [7]⟩ : Value))] 0 100 =
        some (data, index, []) ∧
      ∃ table, fromParts byteKeys data index = .ok table ∧ table.numKeys = 2 :=
  numKeys_createCapped byteKeys (t := ⟨⟨0, 42, 3, 3⟩, [(3, ⟨5, some [7]⟩)]⟩) (by decide)
    (by decide) rfl

/-- The list model's `flush_mem_table_capped` writes the shortest prefix of the rows whose sizes
reach the cap, all the rows when none does, and leaves the rest. -/
theorem flushMemTableCapped_eq_prefix (maxTableSize : Nat) :
    ∀ (rows : List (κ × Value)) (size : Nat) (index : SortedMap κ Value), ∃ n ≤ rows.length,
      Kvstore.flushMemTableCapped maxTableSize rows size index =
          (size + ((rows.take n).map fun r => recordSize r.2).sum,
            (rows.take n).foldl (fun m r => m.insert r.1 r.2) index, rows.drop n) ∧
        (rows ≠ [] → 0 < n) ∧
        (∀ m, 0 < m → m < n →
          size + ((rows.take m).map fun r => recordSize r.2).sum < maxTableSize) ∧
        (n < rows.length →
          maxTableSize ≤ size + ((rows.take n).map fun r => recordSize r.2).sum)
  | [], size, index => ⟨0, le_rfl, by simp [Kvstore.flushMemTableCapped], nofun, by omega, by simp⟩
  | (key, val) :: rows, size, index => by
    by_cases hcap : maxTableSize ≤ size + recordSize val
    · refine ⟨1, by simp, ?_, fun _ => Nat.one_pos, fun m hm hm1 => by omega, fun _ => by simpa⟩
      simp [Kvstore.flushMemTableCapped, hcap]
    · obtain ⟨n, hn, heq, -, hbelow, hreach⟩ :=
        flushMemTableCapped_eq_prefix maxTableSize rows (size + recordSize val)
          (index.insert key val)
      refine ⟨n + 1, by simpa using hn, ?_, fun _ => Nat.succ_pos n, fun m hm hmn => ?_,
        fun hlt => ?_⟩
      · simp only [Kvstore.flushMemTableCapped, if_neg hcap, heq, List.take_succ_cons,
          List.map_cons, List.sum_cons, List.foldl_cons, List.drop_succ_cons, Nat.add_assoc]
      · obtain ⟨m, rfl⟩ : ∃ m', m = m' + 1 := ⟨m - 1, by omega⟩
        rcases Nat.eq_zero_or_pos m with rfl | hm'
        · simpa using Nat.lt_of_not_le hcap
        · simpa [Nat.add_assoc] using hbelow m hm' (by omega)
      · simpa [Nat.add_assoc] using hreach (by simpa using hlt)


/-- `SSTable::create_capped` on sorted rows and `SSTable::from_parts` on the two buffers it writes:
the table holds the shortest prefix of the rows whose sizes reach the cap (all of them when none
does), the rows left are the others, the meta has the level, the data's size and the prefix's first
and last keys, each range of the table is the prefix's rows in it, in order, and `get` finds the
prefix's record of a key. -/
theorem createCapped_round_trip (codec : KeyCodec κ) {rows : List (κ × Value)} (hne : rows ≠ [])
    (hsorted : rows.Pairwise fun a b => a.1 < b.1) (level : UInt8) (maxTableSize : UInt64)
    (hts : ∀ r ∈ rows, r.2.TsInRange) (hsize : (rows.map fun r => recordSize r.2).sum < 2 ^ 64) :
    ∃ n, 0 < n ∧ n ≤ rows.length ∧
      (∀ m, 0 < m → m < n →
        ((rows.take m).map fun r => recordSize r.2).sum < maxTableSize.toNat) ∧
      (n < rows.length → maxTableSize.toNat ≤ ((rows.take n).map fun r => recordSize r.2).sum) ∧
      ∃ data index, createCapped codec rows level maxTableSize = some (data, index, rows.drop n) ∧
        ∃ table, fromParts codec data index = .ok table ∧
          table.indexMeta.level = level.toNat ∧
          table.indexMeta.dataSize = ((rows.take n).map fun r => recordSize r.2).sum ∧
          (rows.take n).head?.map Prod.fst = some table.indexMeta.start ∧
          (rows.take n).getLast?.map Prod.fst = some table.indexMeta.last ∧
          (∀ lo hi, (scanIter codec).toList (table.range lo hi) =
            some ((rows.take n).filter fun r => lo ≤ r.1 ∧ r.1 ≤ hi)) ∧
          ∀ key, table.get codec key = some (((rows.take n).find? (·.1 = key)).map (·.2)) := by
  obtain ⟨n, hn, hflush, hpos, hbelow, hreach⟩ :=
    flushMemTableCapped_eq_prefix maxTableSize.toNat rows 0 []
  have hn0 : 0 < n := hpos hne
  -- sorted rows are inserted at the end of the index, which is then the prefix itself
  have hindex :
      (rows.take n).foldl (fun (m : SortedMap κ Value) r => m.insert r.1 r.2) [] = rows.take n :=
    SortedMap.foldl_insert_of_pairwise (hsorted.sublist (List.take_sublist n rows)) nofun
  obtain ⟨first, hfirst⟩ : ∃ r, (rows.take n).head? = some r :=
    Option.isSome_iff_exists.1 (by simp [List.isSome_head?, hne, hn0.ne'])
  obtain ⟨last, hlast⟩ : ∃ r, (rows.take n).getLast? = some r :=
    Option.isSome_iff_exists.1 (by simp [List.getLast?_isSome, hne, hn0.ne'])
  have hcreate : SSTable.createCapped rows level.toNat maxTableSize.toNat =
      some (⟨⟨level.toNat, ((rows.take n).map fun r => recordSize r.2).sum, first.1, last.1⟩,
        rows.take n⟩, rows.drop n) := by
    rw [SSTable.createCapped, hflush, hindex, Nat.zero_add]
    simp only [hfirst, hlast]
  obtain ⟨data, index, hcreate', table, hparts, hmeta, -, hranges⟩ :=
    createCapped_fromParts codec hts hsize hcreate
  refine ⟨n, hn0, hn, by simpa using hbelow, by simpa using hreach, data, index, hcreate',
    table, hparts, by rw [hmeta], by rw [hmeta], by rw [hmeta, hfirst]; rfl,
    by rw [hmeta, hlast]; rfl, fun lo hi => (hranges lo hi).trans rfl, fun key => ?_⟩
  rw [Table.get, Iter.find_of_toList _ (hranges key key), SSTable.range, SortedMap.range,
    List.find?_filter]
  refine congrArg (some ∘ Option.map Prod.snd) (List.find?_congr fun r _ => ?_)
  -- the scan of [key, key] keeps exactly the records of key
  simp only [decide_eq_decide, ← le_antisymm_iff, decide_eq_true_eq, and_iff_right_iff_imp]
  exact Eq.symm

theorem createCapped_round_trip_capped :
    let rows : List (Fin 256 × Value) := [(3, ⟨5, some [7]⟩), (4, ⟨6, none⟩)]
    ∃ n, 0 < n ∧ n ≤ rows.length ∧
      (∀ m, 0 < m → m < n →
        ((rows.take m).map fun r => recordSize r.2).sum < (40 : UInt64).toNat) ∧
      (n < rows.length →
        (40 : UInt64).toNat ≤ ((rows.take n).map fun r => recordSize r.2).sum) ∧
      ∃ data index, createCapped byteKeys rows 1 40 = some (data, index, rows.drop n) ∧
        ∃ table, fromParts byteKeys data index = .ok table ∧
          table.indexMeta.level = (1 : UInt8).toNat ∧
          table.indexMeta.dataSize = ((rows.take n).map fun r => recordSize r.2).sum ∧
          (rows.take n).head?.map Prod.fst = some table.indexMeta.start ∧
          (rows.take n).getLast?.map Prod.fst = some table.indexMeta.last ∧
          (∀ lo hi, (scanIter byteKeys).toList (table.range lo hi) =
            some ((rows.take n).filter fun r => lo ≤ r.1 ∧ r.1 ≤ hi)) ∧
          ∀ key, table.get byteKeys key = some (((rows.take n).find? (·.1 = key)).map (·.2)) :=
  createCapped_round_trip byteKeys (by simp) (by decide) 1 40 (by decide) (by decide)

end Refinement

end TableFile

end Kvstore

end Morgan
