import Mathlib
import Morgan.Core.WaterClock
import Morgan.Interface.Transaction

/-!
# Entries, their hash chain and their blobs

`entryInfo.rs`: an entry is a count of hashes, the hash they reach, and transactions.  Its hash is
made by a proof-of-history generator (`Poh`, `WaterClock`) from the previous entry's hash:
`num_hashes - 1` hashes, then a tick when the entry has no transactions, or the record of the hash
of their first signatures when it has.  `Entry::verify` recomputes it.

`next_entries` packs transactions into entries that each fit in a blob, and `to_blobs` packs
entries into blobs (`packet.rs`), both by `split_serializable_chunks`, whose chunk length
`num_will_fit` is a binary search on the serialized size of a prefix.
`reconstruct_entries_from_blobs` decodes the blobs back.

Everywhere `none` is a panic, an error, or a loop that does not end.
-/

namespace Morgan

open Bincode

/-! ## Entries -/

/-- `Entry`. -/
structure Entry where
  numHashes : UInt64
  hash : Hash
  transactions : List Transaction
  deriving DecidableEq, Repr

/-- `hash_transactions`: the hash of the first signature of each transaction that has one. -/
def hashTransactions (transactions : List Transaction) : Hash :=
  hashv (transactions.filterMap fun tx => tx.signatures.head?.map (·.bytes.toList))

/-- `next_hash`: the hash `num_hashes` after `start_hash`, the last a tick, or the record of the
transactions' hash; `none` is the panic of an `unwrap`. -/
def nextHash (startHash : Hash) (numHashes : UInt64) (transactions : List Transaction) :
    Option Hash :=
  if numHashes = 0 ∧ transactions = [] then some startHash
  else do
    let poh ← Poh.new startHash none
    -- `num_hashes.saturating_sub(1)`
    let (poh, _) ← poh.hashN (numHashes.toNat - 1)
    if transactions.isEmpty then poh.tick.2.map (·.hash)
    else (poh.record (hashTransactions transactions)).2.map (·.hash)

/-- The bincode encoding of an `Entry`: its fields in order. -/
def Entry.serialize (e : Entry) : Option (List UInt8) := do
  let transactions ← encodeVecM Transaction.serialize e.transactions
  pure (encodeU64 e.numHashes ++ e.hash.bytes.toList ++ transactions)

def Entry.deserialize : Decoder Entry := do
  let numHashes ← u64
  let hash ← Hash.deserialize
  let transactions ← vec Transaction.deserialize
  pure ⟨numHashes, hash, transactions⟩

/-- `serialized_size` of a `Vec<Entry>` or `&[Entry]`; `none` is the panic of its `unwrap`. -/
def entriesSerializedSize (entries : List Entry) : Option Nat :=
  (encodeVecM Entry.serialize entries).map List.length

/-! ## Blobs -/

/-- `BLOB_SIZE`. -/
def BLOB_SIZE : Nat := 64 * 1024 - 128

/-- Where `SIZE_RANGE` starts: after the parent, slot and index, the id, the forwarded flag, the
genesis blockhash and the flags. -/
def SIZE_RANGE_START : Nat := 8 + 8 + 8 + 32 + 1 + 32 + 4

/-- `BLOB_HEADER_SIZE`: the end of `SIZE_RANGE` aligned up to `BLOB_DATA_ALIGN`, 16. -/
def BLOB_HEADER_SIZE : Nat := (SIZE_RANGE_START + 8 + 15) / 16 * 16

/-- `BLOB_DATA_SIZE`. -/
def BLOB_DATA_SIZE : Nat := BLOB_SIZE - BLOB_HEADER_SIZE * 2

namespace Packet

/-- `Blob`: its bytes and `meta.size`. -/
structure Blob where
  data : Vector UInt8 BLOB_SIZE
  metaSize : Nat

/-- `bytes` written over `data` from `offset`. -/
def writeAt {n : Nat} (data : Vector UInt8 n) (offset : Nat) (bytes : List UInt8) :
    Vector UInt8 n :=
  Vector.ofFn fun i =>
    if offset ≤ i.val ∧ i.val < offset + bytes.length then bytes.getD (i.val - offset) 0
    else data.get i

namespace Blob

/-- `Blob::default`. -/
def default : Blob := ⟨Vector.replicate BLOB_SIZE 0, 0⟩

/-- `data_size`: the `u64` of `SIZE_RANGE`. -/
def dataSize (b : Blob) : Nat := ofLittleEndian ((b.data.toList.drop SIZE_RANGE_START).take 8)

/-- `set_data_size`. -/
def setDataSize (b : Blob) (size : Nat) : Blob :=
  { b with data := writeAt b.data SIZE_RANGE_START (toLittleEndian 8 size) }

/-- `data()`: the bytes after the header. -/
def body (b : Blob) : List UInt8 := b.data.toList.drop BLOB_HEADER_SIZE

/-- `size`: the length of what follows the header, when `data_size` counts more than the header and
agrees with `meta.size`; zero otherwise. -/
def size (b : Blob) : Nat :=
  if BLOB_HEADER_SIZE < b.dataSize ∧ b.dataSize = b.metaSize then b.dataSize - BLOB_HEADER_SIZE
  else 0

/-- `set_size`. -/
def setSize (b : Blob) (size : Nat) : Blob :=
  { b.setDataSize (size + BLOB_HEADER_SIZE) with metaSize := size + BLOB_HEADER_SIZE }

/-- `Blob::from_serializable`, given the value's encoding: `serialize_into` the bytes after the
header of a default blob, and the encoding's length as the size; `none` is the panic of `expect`
when the encoding does not fit. -/
def fromSerializable (encoding : List UInt8) : Option Blob :=
  if encoding.length ≤ BLOB_SIZE - BLOB_HEADER_SIZE then
    some ({ default with data := writeAt default.data BLOB_HEADER_SIZE encoding }.setSize
      encoding.length)
  else none

end Blob

end Packet

/-! ## Entries in and out of blobs -/

/-- `Entry::serialized_to_blob_size`: the size of a one-entry vector holding the transactions, as
the transactions' sizes added to an empty entry's. -/
def Entry.serializedToBlobSize (transactions : List Transaction) : Option Nat := do
  let sizes ← transactions.mapM fun tx => tx.serialize.map List.length
  let empty ← entriesSerializedSize [⟨0, default, []⟩]
  pure (empty + sizes.sum)

/-- `Entry::new`; `none` is the panic of its assertion that the entry fits in a blob, or of
`next_hash`. -/
def Entry.new (prevHash : Hash) (numHashes : UInt64) (transactions : List Transaction) :
    Option Entry := do
  let size ← Entry.serializedToBlobSize transactions
  if size ≤ BLOB_DATA_SIZE then
    if numHashes = 0 ∧ transactions = [] then pure ⟨0, prevHash, transactions⟩
    else if numHashes = 0 then do
      -- transactions with no hashes still take one
      let hash ← nextHash prevHash 1 transactions
      pure ⟨1, hash, transactions⟩
    else do
      let hash ← nextHash prevHash numHashes transactions
      pure ⟨numHashes, hash, transactions⟩
  else none

/-- `Entry::new_mut`: the entry after the start hash, whose hash becomes the start, the count of
hashes back to zero. -/
def Entry.newMut (start : Hash × UInt64) (transactions : List Transaction) :
    Option (Entry × (Hash × UInt64)) := do
  let size ← Entry.serializedToBlobSize transactions
  if size ≤ BLOB_DATA_SIZE then
    let entry ← Entry.new start.1 start.2 transactions
    pure (entry, (entry.hash, 0))
  else none

/-- `Entry::verify`: whether the hash is the one `num_hashes` after `start_hash`. -/
def Entry.verify (e : Entry) (startHash : Hash) : Option Bool :=
  (nextHash startHash e.numHashes e.transactions).map (e.hash == ·)

/-- `Entry::is_tick`. -/
def Entry.isTick (e : Entry) : Bool := e.transactions.isEmpty

/-- `EntrySlice::verify`: each entry from the one before it, the first from `start_hash`; the pairs
in order, as the parallel `all` gives the same answer when no check panics. -/
def verifyEntries (entries : List Entry) (startHash : Hash) : Option Bool :=
  (((⟨0, startHash, []⟩ : Entry) :: entries).zip entries).allM fun p => p.2.verify p.1.hash

/-! ## Chunks that fit -/

/-- The bounds of the search of `num_will_fit` and the prefix length it tries between them. -/
structure Probe where
  lower : Nat
  num : Nat
  upper : Nat
  lower_le : lower ≤ num
  num_le : num ≤ upper

/-- How far the search is from its end: the bounds close in, or the length tried leaves a bound. -/
def Probe.measure (p : Probe) : Nat :=
  2 * (p.upper - p.lower) +
    if p.lower < p.num ∧ p.num < p.upper then 0 else if p.num = p.lower then 1 else 2

/-- The loop of `num_will_fit`, given whether each prefix length fits; `none` is the panic of a
size's `unwrap`. -/
def numWillFitLoop (fits : Nat → Option Bool) (p : Probe) : Option Nat :=
  match fits p.num with
  | none => none
  | some true =>
    let next := (p.upper + p.num) / 2
    if h : next = p.num then some p.num
    else numWillFitLoop fits ⟨p.num, next, p.upper, by have := p.num_le; omega,
      by have := p.num_le; omega⟩
  | some false =>
    if p.num = 1 then some 0
    else
      let next := (p.lower + p.num) / 2
      if h : next = p.num then some p.num
      else numWillFitLoop fits ⟨p.lower, next, p.num, by have := p.lower_le; omega,
        by have := p.lower_le; omega⟩
termination_by p.measure
decreasing_by
  all_goals
    have := p.lower_le
    have := p.num_le
    unfold Probe.measure
    dsimp only
    split_ifs <;> omega

/-- `num_will_fit`: how many of the first serializables fit in `max_size`, zero when not even one
does. -/
def numWillFit {T : Type} (serializables : List T) (maxSize : Nat)
    (serializedSize : List T → Option Nat) : Option Nat :=
  if h : serializables.length = 0 then some 0
  else
    numWillFitLoop (fun num => (serializedSize (serializables.take num)).map (decide <| · ≤ maxSize))
      ⟨1, serializables.length, serializables.length, by omega, le_rfl⟩

/-- `split_serializable_chunks`: the serializables in chunks of what fits, each converted in turn
with the converter's state.  When not even one fits, `chunk_end` stays at `chunk_start` and the
loop never ends. -/
def splitSerializableChunks {T R σ : Type} (maxSize : Nat) (serializedSize : List T → Option Nat)
    (converter : σ → List T → Option (R × σ)) (serializables : List T) (s : σ) :
    Option (List R × σ) :=
  match serializables with
  | [] => some ([], s)
  | x :: xs => do
    let n ← numWillFit (x :: xs) maxSize serializedSize
    if _ : n = 0 then none
    else
      let (r, s) ← converter s ((x :: xs).take n)
      let (rs, s) ← splitSerializableChunks maxSize serializedSize converter ((x :: xs).drop n) s
      pure (r :: rs, s)
termination_by serializables.length
decreasing_by
  simp only [List.length_drop, List.length_cons]
  omega

/-- `next_entries_mut`: the transactions in entries that each fit in a blob, chained from the start
hash, the first with the start's count of hashes; with the last hash and a count of zero. -/
def nextEntriesMut (start : Hash × UInt64) (transactions : List Transaction) :
    Option (List Entry × (Hash × UInt64)) :=
  splitSerializableChunks BLOB_DATA_SIZE Entry.serializedToBlobSize Entry.newMut transactions start

/-- `next_entries`. -/
def nextEntries (startHash : Hash) (numHashes : UInt64) (transactions : List Transaction) :
    Option (List Entry) :=
  (nextEntriesMut (startHash, numHashes) transactions).map (·.1)

/-- `Blob::from_serializable` of an entry slice. -/
def Packet.Blob.fromEntries (entries : List Entry) : Option Packet.Blob := do
  let encoding ← encodeVecM Entry.serialize entries
  Packet.Blob.fromSerializable encoding

/-- `EntrySlice::to_blobs`: the entries in chunks that fit in a blob's data, one blob each. -/
def toBlobs (entries : List Entry) : Option (List Packet.Blob) :=
  (splitSerializableChunks BLOB_DATA_SIZE entriesSerializedSize
    (fun (_ : Unit) chunk => (Packet.Blob.fromEntries chunk).map (·, ())) entries ()).map (·.1)

/-- One blob of `reconstruct_entries_from_blobs`: the entries its data decodes to, appended, and
their ticks counted; `none` is the error of data that does not decode, or the panic of a size
past the buffer. -/
def appendBlobEntries (acc : List Entry × Nat) (blob : Packet.Blob) : Option (List Entry × Nat) :=
  if blob.size ≤ blob.body.length then do
    let newEntries ← deserialize (vec Entry.deserialize) (blob.body.take blob.size)
    pure (acc.1 ++ newEntries, acc.2 + newEntries.countP Entry.isTick)
  else none

/-- `reconstruct_entries_from_blobs`: the entries each blob's data decodes to, in order, and how
many are ticks. -/
def reconstructEntriesFromBlobs (blobs : List Packet.Blob) : Option (List Entry × Nat) :=
  blobs.foldlM appendBlobEntries ([], 0)

end Morgan
