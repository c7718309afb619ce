import Mathlib
import Morgan.Lib.SortedMap

/-!
# Sorted string tables and their merge

`sstable.rs`: a table is written once from rows in key order (`SSTable::create_capped`): each
record goes to the data file and its key to an index, until the data reaches a size cap; the index
is a `BTreeMap`, so of two records of one key the later is the one read back.  A table's meta holds
its level and its first and last keys.  `Merged` merges sorted sources with a heap keyed by key and
source index: for each key, least first, it takes the versions at the front of the sources and
keeps the one with the greatest commit id, the earliest source's among equals, and skips it when
it is a deletion.

Keys are any linear order here; the source's `Key` is a 24-byte array ordered lexicographically,
and only its size enters the accounting (`KEY_LEN`).  The model's table is what its files hold, its
meta and its records; reading them back through the memory map is not modelled.
-/

namespace Morgan

namespace Kvstore

variable {κ : Type} [LinearOrder κ]

/-- `Value`: the commit id of a write, and its data, `None` for a deletion. -/
structure Value where
  ts : Int
  val : Option (List UInt8)
  deriving DecidableEq, Repr

/-- `IndexMeta`; `last` is the field `end`. -/
structure IndexMeta (κ : Type) where
  level : Nat
  dataSize : Nat
  start : κ
  last : κ
  deriving DecidableEq, Repr

/-- An `SSTable`: its meta (the field `meta`) and the records its index lists, in key order. -/
structure SSTable (κ : Type) where
  indexMeta : IndexMeta κ
  rows : SortedMap κ Value
  deriving DecidableEq, Repr

/-- `KEY_LEN`, the size of a `Key`. -/
def KEY_LEN : Nat := 24

/-- The size of the bincode encoding of a record `(key, value)`: the key, the commit id, the
option's tag and the data with its length. -/
def recordSize (v : Value) : Nat := KEY_LEN + 8 + 1 + (v.val.map fun d => 8 + d.length).getD 0

/-- `flush_mem_table_capped`: write records until the data reaches the cap, the record that
reaches it included; the data's size, the index, and the rows left. -/
def flushMemTableCapped (maxTableSize : Nat) :
    List (κ × Value) → Nat → SortedMap κ Value → Nat × SortedMap κ Value × List (κ × Value)
  | [], size, index => (size, index, [])
  | (k, v) :: rows, size, index =>
    let size := size + recordSize v
    let index := index.insert k v
    if size ≥ maxTableSize then (size, index, rows)
    else flushMemTableCapped maxTableSize rows size index

/-- `SSTable::create_capped`: a table of the given level from the rows, and the rows left; `none`
is the panic of `unwrap` on an empty index. -/
def SSTable.createCapped (rows : List (κ × Value)) (level maxTableSize : Nat) :
    Option (SSTable κ × List (κ × Value)) :=
  let (dataSize, index, rest) := flushMemTableCapped maxTableSize rows 0 []
  match index.head?, index.getLast? with
  | some (start, _), some (last, _) => some (⟨⟨level, dataSize, start, last⟩, index⟩, rest)
  | _, _ => none

/-- `SSTable::create`: the cap is `u64::MAX`. -/
def SSTable.create (rows : List (κ × Value)) (level : Nat) :
    Option (SSTable κ × List (κ × Value)) :=
  SSTable.createCapped rows level (2 ^ 64 - 1)

namespace SSTable

/-- `range`: the records with keys in `[lo, hi]`, in order. -/
def range (t : SSTable κ) (lo hi : κ) : List (κ × Value) := t.rows.range lo hi

/-- `get`: the record of a key. -/
def get (t : SSTable κ) (key : κ) : Option Value :=
  ((t.range key key).find? (·.1 = key)).map (·.2)

/-- `could_contain`. -/
def couldContain (t : SSTable κ) (key : κ) : Bool :=
  t.indexMeta.start ≤ key && key ≤ t.indexMeta.last

/-- `is_overlap` with `[lo, hi]`. -/
def isOverlap (t : SSTable κ) (lo hi : κ) : Bool :=
  t.indexMeta.start ≤ hi && lo ≤ t.indexMeta.last

end SSTable

/-- The levels of tables: level `n` maps the first key of each of its tables to the table. -/
abbrev TableVec (κ : Type) := List (SortedMap κ (SSTable κ))

/-- `SSTable::sorted_tables`: each table into the map of its level, by its first key; a later
table with the same level and first key replaces an earlier one. -/
def sortedTables (tables : List (SSTable κ)) : TableVec κ :=
  tables.foldl (fun sorted sst =>
    let sorted := sorted ++ List.replicate (sst.indexMeta.level + 1 - sorted.length) []
    sorted.modify sst.indexMeta.level (·.insert sst.indexMeta.start sst)) []

/-! ## The k-way merge -/

/-- `Merged`: what is left of each source, and the heads, the next record of each source keyed by
its key and the source's index. -/
structure Merged (κ : Type) where
  sources : List (List (κ × Value))
  heads : SortedMap (Lex (κ × Nat)) Value

namespace Merged

/-- `self.sources[i].next()`, the record put among the heads. -/
def advance (m : Merged κ) (i : Nat) : Merged κ :=
  match m.sources[i]? with
  | some ((k, v) :: rest) => ⟨m.sources.set i rest, m.heads.insert (toLex (k, i)) v⟩
  | _ => m

/-- `Merged::new`: the first record of each source among the heads. -/
def new (sources : List (List (κ × Value))) : Merged κ :=
  (List.range sources.length).foldl advance ⟨sources, []⟩

/-- The records left, a bound on the iterations of the loops. -/
def size (m : Merged κ) : Nat := m.heads.length + (m.sources.map List.length).sum

/-- The inner loop of `next`: the other versions of `key` at the front of the heads are taken,
each replaced from its source, and the one with the greatest commit id kept. -/
def absorb (key : κ) : Nat → Merged κ → Value → Merged κ × Value
  | 0, m, val => (m, val)
  | fuel + 1, m, val =>
    match m.heads with
    | (h, other) :: heads =>
      if (ofLex h).1 = key then
        absorb key fuel (advance ⟨m.sources, heads⟩ (ofLex h).2)
          (if other.ts > val.ts then other else val)
      else (m, val)
    | [] => (m, val)

/-- `next`: the least head and the newest version of its key; a deletion is not produced, and the
loop goes on to the next key. -/
def next : Nat → Merged κ → Option ((κ × Value) × Merged κ)
  | 0, _ => none
  | fuel + 1, m =>
    match m.heads with
    | [] => none
    | (h, val) :: heads =>
      let m := advance ⟨m.sources, heads⟩ (ofLex h).2
      let r := absorb (ofLex h).1 m.size m val
      if r.2.val.isSome then some (((ofLex h).1, r.2), r.1) else next fuel r.1

/-- The records the iterator produces, in order. -/
def toList : Nat → Merged κ → List (κ × Value)
  | 0, _ => []
  | fuel + 1, m =>
    match next (m.size + 1) m with
    | some (e, m) => e :: toList fuel m
    | none => []

end Merged

/-- `Merged::new(sources)`, iterated to its end. -/
def merged (sources : List (List (κ × Value))) : List (κ × Value) :=
  (Merged.new sources).toList ((Merged.new sources).size + 1)

end Kvstore

end Morgan
